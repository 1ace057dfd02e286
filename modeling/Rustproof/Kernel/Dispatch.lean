/-
What the handlers are made of.

`Ready` is what holds between two inputs. The pieces here are what every handler ends with: resuming a process
(`ready_resume`), switching away from one that cannot go on (`wp_switchAway`), parking (`wp_block`), dying
(`wp_teardownProcess`). Each is a sequence of moves. The halts they may end in are collected in `Ends`: if the verdict is a
leak, it was computed in a state the moves lead to, in which nobody lives.
-/
import Rustproof.Kernel.Quiet

namespace Rustproof.Kernel

open Lib Prog

variable {A : Arch} {C : Config} {G : Gate} {me : ℕ} {k : Trap}

structure Ready (s : KState) : Prop where
  sched : Scheduled s
  running : Running s
  ids : RegionIds s

theorem Moves.ids {s s' : KState} (hm : Moves A C G me k s s') (h : RegionIds s) : RegionIds s' :=
  Moves.keep (fun _ _ hstep ht => RegionIds.move ht hstep) hm h

/-- how a handler started in `s` may stop the machine: with a verdict or for a frame granted already, in states that moves lead
to, and never for want of room in a plan -/
structure Ends (A : Arch) (C : Config) (G : Gate) (me : ℕ) (k : Trap) (s : KState) (h : Halt) : Prop where
  leak : h = .leak → ∃ t, Moves A C G me k s t ∧ (∀ p, ¬ t.Alive p) ∧ finalVerdict A C t = .leak
  mint : h = .grantedAtMint → ∃ t pages rights, Moves A C G me k s t ∧ t.Alive me ∧
    makeRegion me pages rights t = .error .grantedAtMint
  plan : h ≠ .planTruncated
  deadlock : h = .deadlock → ∃ t, Moves A C G me k s t ∧ Scheduled t ∧ t.sched.current = none ∧
    Runstate.classify (runSlots t) (creditable t) = .deadlock
  known : h = .ringFull ∨ h = .deadlock ∨ h = .grantedAtMint ∨
    ∃ t, Moves A C G me k s t ∧ (∀ p, ¬ t.Alive p) ∧ finalVerdict A C t = h

theorem Ends.ringFull {s : KState} {h : Halt} (hr : h = .ringFull) : Ends A C G me k s h := by
  subst hr
  exact ⟨fun e => absurd e (by decide), fun e => absurd e (by decide), by decide, fun e => absurd e (by decide), Or.inl rfl⟩

theorem Ends.before {s t : KState} (hm : Moves A C G me k s t) {h : Halt} (he : Ends A C G me k t h) :
    Ends A C G me k s h := by
  refine ⟨fun e => ?_, fun e => ?_, he.plan, fun e => ?_, ?_⟩
  · obtain ⟨u, h1, h2⟩ := he.leak e
    exact ⟨u, hm.trans h1, h2⟩
  · obtain ⟨u, pages, rights, h1, h2⟩ := he.mint e
    exact ⟨u, pages, rights, hm.trans h1, h2⟩
  · obtain ⟨u, h1, h2⟩ := he.deadlock e
    exact ⟨u, hm.trans h1, h2⟩
  · rcases he.known with e | e | e | ⟨u, h1, h2⟩
    · exact Or.inl e
    · exact Or.inr (Or.inl e)
    · exact Or.inr (Or.inr (Or.inl e))
    · exact Or.inr (Or.inr (Or.inr ⟨u, hm.trans h1, h2⟩))

/-! ## Resuming -/

variable (me) in
/-- **Resuming** a process of the queue delivers what it was sent, and leaves the kernel running it. -/
theorem ready_resume {s : KState} {t : ℕ} (hs : Scheduled s) (hids : RegionIds s) (hi : s.idling = false)
    (hc : s.current = t) (ht : s.sched.current = some t) :
    Moves A C G me k s (resumeProcess A t s) ∧ Ready (resumeProcess A t s) := by
  have halive := hs.current_alive ht
  have hready := hs.current_ready ht
  -- the message first
  obtain ⟨u, hu, hm, hsched, hcur, hidl, hhist, hstate, hpend⟩ : ∃ u,
      u = (if 0 < (s.procs t).pendingLen then takeMessage A t s else s) ∧ Moves A C G me k s u ∧ u.sched = s.sched ∧
        u.current = s.current ∧ u.idling = s.idling ∧ u.w.history = s.w.history ∧
        (∀ p, (u.procs p).state = (s.procs p).state) ∧ (u.procs t).pendingLen = 0 := by
    refine ⟨_, rfl, ?_⟩
    split_ifs with hp
    · obtain ⟨⟨f, hf⟩, h1, h2, h3, -, h4⟩ := takeMessage_spec (A := A) t s
      exact ⟨.single (.receive halive hready hp), h1, h2, h3, h4, state_takeMessage t s, by rw [hf, Table.put_self]⟩
    · exact ⟨.refl, rfl, rfl, rfl, rfl, fun _ => rfl, by omega⟩
  rw [resumeProcess_eq]
  simp only
  rw [← hu]
  have hfin : Moves A C G me k s ((u.setCr3 (u.procs t).token).record .resumed) := hm.tail (.control (.resumed _))
  refine ⟨hfin, ⟨by show u.sched.Ok; rw [hsched]; exact hs.ok, fun p => ?_, fun p hp => hs.slots p ?_, fun p hp => ?_⟩,
    ⟨fun _ => ?_, fun h => ?_⟩, hfin.ids hids⟩
  · show p ∈ u.sched.queue ↔ p < MAX_PROCS ∧ (u.procs p).state = .ready
    rw [hsched, hstate]; exact hs.queue p
  · have hp' : (u.procs p).live = true := hp
    rwa [Process.live, hstate] at hp'
  · have hp' : Event.queued p false ∈ u.w.history ++ [.resumed] := hp
    rw [hhist] at hp'
    exact hs.added p (by simpa using hp')
  · show u.sched.current = some u.current ∧ (u.procs t).token = (u.procs u.current).token ∧
      (u.procs u.current).pendingLen = 0
    rw [hsched, hcur, hc]
    exact ⟨ht, rfl, hpend⟩
  · have h' : u.idling = true := h
    rw [hidl, hi] at h'; exact absurd h' (by decide)

/-! ## When nothing is runnable -/

theorem alive_of_classify {s : KState} (h : Runstate.classify (runSlots s) (creditable s) = .allDone) (p : ℕ) :
    ¬ s.Alive p := by
  rintro ⟨hlt, hlive⟩
  rw [Runstate.classify] at h
  split_ifs at h with h1 h2
  refine h2 ?_
  rw [List.any_eq_true]
  have hlen : p < (runSlots s).length := by simpa [runSlots] using hlt
  refine ⟨(runSlots s)[p], List.getElem_mem _, ?_⟩
  simp only [runSlots, List.getElem_map, List.getElem_range]
  simp only [KState.live, Process.live, bne_iff_ne] at hlive
  split <;> simp_all

/-- the kernel parks for somebody -/
theorem waiting_of_classify {s : KState} (h : Runstate.classify (runSlots s) (creditable s) = .park) :
    ∃ i < MAX_PROCS, ∃ line, (s.procs i).state = .blockedIrq line ∧ creditable s i line = true := by
  rw [Runstate.classify] at h
  split_ifs at h with h1
  obtain ⟨i, hi, hw⟩ := List.any_eq_true.1 h1
  have hlt : i < MAX_PROCS := by simpa [runSlots] using List.mem_range.1 hi
  refine ⟨i, hlt, ?_⟩
  rw [Runstate.waitingAt, runSlots, List.getElem?_map, List.getElem?_range hlt, Option.map_some] at hw
  cases hst : (s.procs i).state with
  | blockedIrq line => rw [hst] at hw; exact ⟨line, rfl, hw⟩
  | _ => rw [hst] at hw; simp [Runstate.Slot.FREE] at hw

/-- the checks at shutdown report what they check -/
theorem finalVerdict_ne (s : KState) :
    finalVerdict A C s ≠ .grantedAtMint ∧ finalVerdict A C s ≠ .planTruncated ∧ finalVerdict A C s ≠ .deadlock := by
  have hdomain : ∀ di v, domainVerdict C s di = some v → v ≠ .grantedAtMint ∧ v ≠ .planTruncated ∧ v ≠ .deadlock := by
    intro di v hv
    rw [domainVerdict] at hv
    split_ifs at hv <;> obtain rfl := Option.some.inj hv <;> decide
  rw [finalVerdict]
  by_cases hstale : A.iommu = true ∧ anyIdx MAX_DOMAINS (staleIn C s) = true
  · rw [if_pos hstale]
    decide
  rw [if_neg hstale]
  cases hv : (List.range MAX_DOMAINS).findSome? (domainVerdict C s) with
  | some v =>
    obtain ⟨di, -, hdi⟩ := List.exists_of_findSome?_eq_some hv
    exact hdomain di v hdi
  | none =>
    simp only
    split_ifs <;> decide

theorem wp_nothingRunnable {s : KState} (hs : Scheduled s) (hids : RegionIds s) (hi : s.idling = false) :
    wp (nothingRunnable A C) (fun _ t => Moves A C G me k s t ∧ Ready t) (Ends A C G me k s) s := by
  rw [nothingRunnable]
  simp only [wp_bind, wp_modify, wp_get]
  obtain ⟨hw, hsteady⟩ := hush_wakeUncreditable (A := A) (k := k) me s
  have hm : Moves A C G me k s (wakeUncreditable A s) := hw.lift id fun _ _ h => .control h
  have hsch := hsteady.sched hs
  have hiv : (wakeUncreditable A s).idling = false := hsteady.idling.trans hi
  generalize wakeUncreditable A s = v at hm hsch hiv ⊢
  have hidv := hm.ids hids
  cases hc : v.sched.current with
  | some t =>
    simp only [wp_modify]
    have hsw : Moves A C G me k v { v with current := t } :=
      .single (.control (.cpu _ t v.idling))
    have hst : Scheduled { v with current := t } := ⟨hsch.ok, hsch.queue, hsch.slots, hsch.added⟩
    obtain ⟨h1, h2⟩ := ready_resume (A := A) (C := C) (G := G) (k := k) me hst (hsw.ids hidv) hiv rfl hc
    exact ⟨(hm.trans hsw).trans h1, h2⟩
  | none =>
    simp only
    cases hcl : Runstate.classify (runSlots v) (creditable v) with
    | park =>
      simp only [wp_modify]
      have hcount : Moves A C G me k v { v with
          parks := if v.idling then v.parks else (v.parks + 1) % U64, idling := true, current := NOBODY } :=
        .tail (.single (.control (.count v.nextId v.killed (if v.idling then v.parks else (v.parks + 1) % U64)
          v.deviceWakes))) (.control (.cpu _ NOBODY true))
      refine ⟨hm.trans hcount, ⟨hsch.ok, hsch.queue, hsch.slots, hsch.added⟩, ⟨fun h => by simp at h, fun _ => ?_⟩,
        hcount.ids hidv⟩
      exact ⟨Sched.Scheduler.current_none hsch.ok hc, waiting_of_classify hcl⟩
    | deadlock =>
      exact ⟨fun e => absurd e (by decide), fun e => absurd e (by decide), by decide, fun _ => ⟨v, hm, hsch, hc, hcl⟩,
        Or.inr (Or.inl rfl)⟩
    | allDone =>
      obtain ⟨h1, h2, h3⟩ := finalVerdict_ne (A := A) (C := C) v
      exact ⟨fun h => ⟨v, hm, alive_of_classify hcl, h⟩, fun h => absurd h h1, h2, fun h => absurd h h3,
        Or.inr (Or.inr (Or.inr ⟨v, hm, alive_of_classify hcl, rfl⟩))⟩

/-- a handler may go on to its tail: somebody of the queue is current -/
structure Tail (s : KState) : Prop where
  sched : Scheduled s
  ids : RegionIds s
  idling : s.idling = false
  current : s.sched.current = some s.current

theorem Ready.tail {s : KState} (h : Ready s) (hi : s.idling = false) : Tail s :=
  ⟨h.sched, h.ids, hi, (h.running.awake hi).1⟩

variable (me) in
theorem Tail.resume {s : KState} (h : Tail s) :
    Moves A C G me k s (resumeProcess A s.current s) ∧ Ready (resumeProcess A s.current s) :=
  ready_resume me h.sched h.ids h.idling rfl h.current

variable (me) in
theorem wp_switchAway {s : KState} (hs : Scheduled s) (hids : RegionIds s) (hi : s.idling = false) :
    wp (switchAway A C) (fun b t => Moves A C G me k s t ∧ if b = true then Tail t ∧ t.procs = s.procs else Ready t)
      (Ends A C G me k s) s := by
  rw [switchAway]
  simp only [wp_bind, wp_get]
  cases hc : s.sched.current with
  | some t =>
    have hsw : Moves A C G me k s { s with current := t } :=
      .single (.control (.cpu _ t s.idling))
    exact ⟨hsw, ⟨⟨hs.ok, hs.queue, hs.slots, hs.added⟩, hsw.ids hids, hi, hc⟩, rfl⟩
  | none =>
    simp only [wp_bind]
    exact wp_mono (wp_nothingRunnable hs hids hi) fun _ t ht => ⟨ht.1, ht.2⟩

/-! ## Parking -/

/-- the caller leaves the queue as it leaves the ready state -/
theorem Scheduled.leave {s : KState} (hs : Scheduled s) {p : ℕ} {f : Process → Process}
    (hst : (f (s.procs p)).state ≠ .ready) (hl : (f (s.procs p)).live = true → s.live p = true) :
    Scheduled ((s.modProc p f).dequeue p) := by
  have key : ∀ q, (s.modProc p f).procs q = if q = p then f (s.procs p) else s.procs q := fun _ => rfl
  refine ⟨Sched.Scheduler.ok_remove hs.ok p, fun t => ?_, fun t ht => ?_, hs.added⟩
  · show t ∈ (s.sched.remove p).2.queue ↔ t < MAX_PROCS ∧ ((s.modProc p f).procs t).state = .ready
    rw [Sched.Scheduler.mem_remove hs.ok, hs.queue, key]
    by_cases h : t = p
    · subst h; simp [hst]
    · rw [if_neg h]; simp [h]
  · have ht' : ((s.modProc p f).procs t).live = true := ht
    rw [key] at ht'
    split_ifs at ht' with h
    · exact hs.slots t (h ▸ hl ht')
    · exact hs.slots t ht'

/-- parking the caller: it is saved on the frame of its call -/
theorem wp_block {s : KState} {f : UserFrame} (hs : Scheduled s) (hids : RegionIds s) (hi : s.idling = false)
    (hme : s.Alive me) (hready : (s.procs me).state = .ready) (hpend : (s.procs me).pendingLen = 0) {st : ProcState}
    (hpark : MayPark A me (.syscall f) s st) :
    wp (block A C me st f) (fun o t => Moves A C G me (.syscall f) s t ∧ Kept A (.syscall f) (t.procs me) ∧
      if o.isSome then o = some f ∧ Tail t ∧ Kept A (.syscall f) { t.procs me with frame := f } else Ready t)
      (Ends A C G me (.syscall f) s) s := by
  have hpk : Control A me (.syscall f) s ((s.modProc me fun p => { p with state := st, frame := f }).dequeue me) :=
    .block hme hready hpark hpend
  have hsch : Scheduled ((s.modProc me fun p => { p with state := st, frame := f }).dequeue me) := by
    refine hs.leave (f := fun p => { p with state := st, frame := f }) ?_ fun _ => hme.2
    rintro rfl
    simp [MayPark] at hpark
  have hne : me ≠ NOBODY := fun e => absurd (e ▸ hme.1) (by decide)
  have hproc : ((s.modProc me fun p => { p with state := st, frame := f }).dequeue me).procs me =
      { s.procs me with state := st, frame := f } := by
    rw [KState.dequeue_procs, KState.modProc_procs, Table.put_self]
  have hkept : Kept A (.syscall f) { s.procs me with state := st, frame := f } := hpark.kept hpend
  have hiu : ((s.modProc me fun p => { p with state := st, frame := f }).dequeue me).idling = false := hi
  rw [block]
  simp only [wp_bind, wp_modify]
  generalize (s.modProc me fun p => { p with state := st, frame := f }).dequeue me = u at hpk hproc hsch hiu ⊢
  have hm : Moves A C G me (.syscall f) s u := .single (.control hpk)
  rw [← hproc] at hkept
  refine wp_imp (wp_switchAway (A := A) (C := C) (G := G) (k := .syscall f) me hsch (hm.ids hids) hiu)
    (fun b t _ ht => ?_) fun h => Ends.before hm
  rw [wp_ret]
  cases b with
  | true =>
    refine ⟨hm.trans ht.1, ht.1.own hne hkept, rfl, ht.2.1, ?_⟩
    rw [ht.2.2]
    exact hkept.congr rfl (by rw [hproc]) rfl
  | false => exact ⟨hm.trans ht.1, ht.1.own hne hkept, ht.2⟩

/-! ## Dying -/

theorem procs_withdrawRegionFromDomain (di ri : ℕ) (s : KState) :
    (withdrawRegionFromDomain C di ri s).2.procs = s.procs :=
  forAny_keep (I := fun t : KState => t.procs = s.procs) (fun _ _ t ht => (procs_clearIoMappingsIn di _ t).trans ht) rfl

theorem procs_withdrawDmaSlot (who slot : ℕ) (s : KState) : (withdrawDmaSlot C who slot s).2.procs =
    if ((s.procs who).dma slot).1 = 0 then s.procs
    else s.procs.put who { s.procs who with dma := (s.procs who).dma.put slot (0, 0) } := by
  rw [withdrawDmaSlot]
  simp only
  split_ifs
  · rfl
  cases domainLookup C ((s.procs who).dma slot).2 with
  | none => rfl
  | some di =>
    simp only
    split
    · rfl
    · rw [procs_withdrawRegionFromDomain]; rfl

/-- after the withdrawals of an exit the process has no record left -/
theorem records_withdrawSlots (who : ℕ) (s : KState) :
    ∀ k < SHARE_SLOTS, (((withdrawSlots C who s).2.procs who).dma k).1 = 0 := by
  have hone : ∀ (k : ℕ) (t : KState), (((withdrawSlotAtExit C who k t).2.procs who).dma k).1 = 0 ∧
      ∀ j, ((t.procs who).dma j).1 = 0 → (((withdrawSlotAtExit C who k t).2.procs who).dma j).1 = 0 := by
    intro k t
    simp only [withdrawSlotAtExit, procs_withdrawDmaSlot]
    split_ifs with h0
    · exact ⟨h0, fun j hj => hj⟩
    · rw [Table.put_self]
      refine ⟨by simp, fun j hj => ?_⟩
      simp only [Table.put_apply]
      split_ifs
      · rfl
      · exact hj
  suffices key : ∀ (ks : List ℕ) (t : KState), ∀ k ∈ ks,
      (((forAny (withdrawSlotAtExit C who) ks t).2.procs who).dma k).1 = 0 from
    fun k hk => key (List.range SHARE_SLOTS) s k (List.mem_range.2 hk)
  intro ks
  induction ks with
  | nil => intro t k hk; simp at hk
  | cons k ks ih =>
    rintro t j (_ | ⟨_, hj⟩)
    · exact forAny_keep (I := fun t : KState => ((t.procs who).dma k).1 = 0) (fun b _ u hu => (hone b u).2 k hu)
        (s := (withdrawSlotAtExit C who k t).2) (hone k t).1
    · exact ih _ j hj

theorem wp_withdrawAll {s : KState} (who : ℕ) :
    wp (withdrawAllDmaOf C who) (fun _ t => DmaOnly C s t ∧ ∀ k < SHARE_SLOTS, ((t.procs who).dma k).1 = 0)
      (· = .ringFull) s := by
  rw [withdrawAllDmaOf, wp_bind, wp_run]
  refine wp_mono (ringOnly_flushIf _ _) fun _ t ht => ⟨(dmaOnly_withdrawSlots who s).trans ht.dmaOnly, fun k hk => ?_⟩
  rw [ht.procs]
  exact records_withdrawSlots who s k hk

theorem Scheduled.reap {s : KState} (h : Scheduled s) (p : ℕ) : Scheduled (reap p s) := by
  have hadds : ∀ i, Event.queued i false ∉ (s.w.freeFrames (s.procs p).frames).history := fun i hi => by
    rw [Machine.history_freeFrames] at hi
    rcases List.mem_append.1 hi with hi | hi
    · exact h.added i hi
    · simp at hi
  refine ⟨Sched.Scheduler.ok_remove h.ok p, fun t => ?_, fun t ht => h.slots t ?_, hadds⟩
  · show t ∈ (s.sched.remove p).2.queue ↔ _
    rw [Sched.Scheduler.mem_remove h.ok, h.queue, procs_reap, Table.put_apply]
    by_cases ht : t = p
    · subst ht; simp
    · simp [ht]
  · rw [KState.live, procs_reap, Table.put_apply] at ht
    split_ifs at ht
    · exact absurd ht (by simp [Process.live])
    · exact ht

/-- **A death** is: the mappings it asked for, its regions, itself, and the peers it strands. -/
theorem wp_teardownProcess {s : KState} (hs : Scheduled s) (hids : RegionIds s) (hi : s.idling = false)
    (hcur : me = s.current) (hme : s.Alive me) (hready : (s.procs me).state = .ready) :
    wp (teardownProcess A C me) (fun _ t => Moves A C G me k s t ∧ Scheduled t ∧ t.idling = false ∧ t.live me = false)
      (Ends A C G me k s) s := by
  -- the mappings it asked for
  have h1 : wp (onlyIf (A.iommu = true) (withdrawAllDmaOf C me)) (fun _ t => Moves A C G me k s t ∧ DmaOnly C s t ∧
      (A.iommu = true → ∀ j < SHARE_SLOTS, ((t.procs me).dma j).1 = 0)) (· = .ringFull) s := by
    refine wp_onlyIf (fun hio => ?_) fun hio => ⟨.refl, DmaOnly.refl s, fun h => absurd h hio⟩
    exact wp_imp (wp_withdrawAll me) (fun _ t hrun ht => ⟨.single (.withdrawAll hme hio hrun), ht.1, fun _ => ht.2⟩)
      fun _ => id
  rw [teardownProcess, wp_bind, wp_get]
  simp only [wp_bind]
  refine wp_imp h1 (fun _ t _ ⟨hmt, hdma, hzero⟩ => ?_) fun h e => Ends.ringFull e
  -- its regions
  have hpt : t.Alive me := hdma.alive.2 hme
  have hid : (s.procs me).id = (t.procs me).id := (Process.id_eq (hdma.authority me)).symm
  rw [hid, wp_bind]
  refine wp_imp (wp_teardown (A := A) (C := C) (G := G) k (hmt.ids hids) hpt)
    (fun _ v _ ⟨done, hal, hown⟩ => ?_) fun h e => Ends.ringFull e
  -- itself, and its peers
  have hst := hdma.steady.trans hal.steady
  have hpv : v.Alive me := hal.steady.alive.2 hpt
  have hmv := hmt.trans hal.moves
  have hrv : (v.procs me).state = .ready := by
    rw [hcur] at hready ⊢
    exact (hst.own hready).1
  have hreap : Move A C G me k v (refusePeers A (reap me v)) := by
    refine .reap hpv hrv hown fun hio j hj => ?_
    rcases hal.dma me j with h | h
    · rw [h]; exact hzero hio j hj
    · rw [h]
  have hpeers := steady_refusePeers A (reap me v)
  simp only [wp_bind, wp_modify]
  refine ⟨hmv.tail hreap, hpeers.sched ((hst.sched hs).reap me), hpeers.idling.trans (hst.idling.trans hi), ?_⟩
  show (refusePeers A (reap me v)).live me = false
  rw [live_refusePeers, KState.live, procs_reap, Table.put_self]
  rfl

end Rustproof.Kernel
