/-
The run queue and the process in user mode.

`Scheduled`: the queue holds the ready processes, each once, and nobody was ever turned away from it. `Running`: unless
the kernel is parked, the current process is the queue's own choice, its tables are active and it has no message pending;
a parked kernel has somebody whose interrupt can come.
`Steady s s'` is a step that wakes processes at most: it keeps the current process, who is alive, every paging token, and
both invariants.

The steps that only wake, park and resume processes are `Control` steps as well.
-/
import Rustproof.Kernel.Moves

namespace Rustproof.Kernel

open Lib Prog

structure Scheduled (s : KState) : Prop where
  ok : s.sched.Ok
  queue : ∀ t, t ∈ s.sched.queue ↔ t < MAX_PROCS ∧ (s.procs t).state = .ready
  /-- no process lives outside the table -/
  slots : ∀ i, s.live i = true → i < MAX_PROCS
  /-- every `add` so far succeeded -/
  added : ∀ i, Event.queued i false ∉ s.w.history

structure Running (s : KState) : Prop where
  awake : s.idling = false → s.sched.current = some s.current ∧ s.cr3 = (s.procs s.current).token ∧
    (s.procs s.current).pendingLen = 0
  parked : s.idling = true → s.sched.queue = [] ∧
    ∃ i < MAX_PROCS, ∃ line, (s.procs i).state = .blockedIrq line ∧ creditable s i line = true

structure Steady (s s' : KState) : Prop where
  live : ∀ p, s'.live p = s.live p
  token : ∀ p, (s'.procs p).token = (s.procs p).token
  current : s'.current = s.current
  idling : s'.idling = s.idling
  cr3 : s.cr3 = (s.procs s.current).token → s'.cr3 = (s.procs s.current).token
  next : ∀ t, s.sched.current = some t → s'.sched.current = some t
  own : (s.procs s.current).state = .ready → (s'.procs s.current).state = .ready ∧
    (s'.procs s.current).pendingLen = (s.procs s.current).pendingLen
  sched : Scheduled s → Scheduled s'

theorem Scheduled.alive {s : KState} (h : Scheduled s) {t : ℕ} (ht : t ∈ s.sched.queue) : s.Alive t := by
  obtain ⟨hlt, hst⟩ := (h.queue t).1 ht
  exact ⟨hlt, by simp [KState.live, Process.live, hst]⟩

theorem Scheduled.current_alive {s : KState} (h : Scheduled s) {t : ℕ} (ht : s.sched.current = some t) : s.Alive t :=
  h.alive (Sched.Scheduler.current_mem ht)

theorem Scheduled.current_ready {s : KState} (h : Scheduled s) {t : ℕ} (ht : s.sched.current = some t) :
    (s.procs t).state = .ready := ((h.queue t).1 (Sched.Scheduler.current_mem ht)).2

/-- a queue that misses a process slot has room for it -/
theorem Scheduled.room {s : KState} (h : Scheduled s) {i : ℕ} (hi : i < MAX_PROCS) (hn : i ∉ s.sched.queue) :
    s.sched.queue.length < MAX_PROCS := by
  have hnd : (i :: s.sched.queue).Nodup := List.nodup_cons.2 ⟨hn, h.ok.nodup⟩
  have hsub : (i :: s.sched.queue) ⊆ List.range MAX_PROCS := fun t ht => by
    rcases List.mem_cons.1 ht with rfl | ht
    · exact List.mem_range.2 hi
    · exact List.mem_range.2 ((h.queue t).1 ht).1
  have := (List.subperm_of_subset hnd hsub).length_le
  rw [List.length_range, List.length_cons] at this
  exact this

/-- putting process `i`, which was not ready, on the queue as it becomes ready -/
theorem Scheduled.enqueue {s t : KState} (h : Scheduled s) {i : ℕ} (hi : i < MAX_PROCS)
    (hwas : (s.procs i).state ≠ .ready) (hsched : t.sched = s.sched)
    (hadds : ∀ i, .queued i false ∈ t.w.history → .queued i false ∈ s.w.history)
    (hproc : ∀ p, p ≠ i → (t.procs p).state = (s.procs p).state) (hnew : (t.procs i).state = .ready) :
    Scheduled (t.enqueue i) := by
  have hn : i ∉ s.sched.queue := fun hm => hwas ((h.queue i).1 hm).2
  have hroom := h.room hi hn
  refine ⟨?_, fun p => ?_, fun p hp => ?_, fun p hp => ?_⟩
  · show (t.sched.add i).2.Ok
    rw [hsched]; exact Sched.Scheduler.ok_add h.ok i
  · show p ∈ (t.sched.add i).2.queue ↔ p < MAX_PROCS ∧ (t.procs p).state = .ready
    rw [hsched, Sched.Scheduler.mem_add fun _ => hroom, h.queue]
    by_cases hp : p = i
    · subst hp; simp [hnew, hi]
    · rw [hproc p hp]; simp [hp]
  · have hp' : (t.procs p).live = true := hp
    by_cases he : p = i
    · rw [he]; exact hi
    · refine h.slots p ?_
      rwa [KState.live, Process.live, ← hproc p he]
  · have hp' : .queued p false ∈ t.w.history ++ [.queued i (t.sched.add i).1] := hp
    rcases List.mem_append.1 hp' with hp' | hp'
    · exact h.added p (hadds p hp')
    · rw [hsched, Sched.Scheduler.add_ok hn hroom] at hp'
      simp at hp'

namespace Steady

theorem refl (s : KState) : Steady s s :=
  ⟨fun _ => rfl, fun _ => rfl, rfl, rfl, id, fun _ => id, fun h => ⟨h, rfl⟩, id⟩

theorem trans {s t u : KState} (h : Steady s t) (h' : Steady t u) : Steady s u := by
  refine ⟨fun p => (h'.live p).trans (h.live p), fun p => (h'.token p).trans (h.token p), h'.current.trans h.current,
    h'.idling.trans h.idling, fun hc => ?_, fun c hc => h'.next c (h.next c hc), fun hr => ?_,
    fun hs => h'.sched (h.sched hs)⟩
  · have := h'.cr3 (by rw [h.current, h.token]; exact h.cr3 hc)
    rwa [h.current, h.token] at this
  · obtain ⟨h1, h2⟩ := h.own hr
    have h3 := h'.own (by rw [h.current]; exact h1)
    rw [h.current] at h3
    exact ⟨h3.1, h3.2.trans h2⟩

variable {s s' : KState}

theorem alive (h : Steady s s') {p : ℕ} : s'.Alive p ↔ s.Alive p := by
  rw [KState.Alive, KState.Alive, h.live]

/-- the caller is still the one to run -/
theorem running (h : Steady s s') (hs : Scheduled s) (hr : Running s) (hi : s.idling = false) : Running s' := by
  obtain ⟨hc, hcr, hp⟩ := hr.awake hi
  refine ⟨fun _ => ?_, fun hi' => ?_⟩
  · rw [h.current, h.token]
    exact ⟨h.next _ hc, h.cr3 hcr, (h.own (hs.current_ready hc)).2.trans hp⟩
  · rw [h.idling, hi] at hi'
    exact absurd hi' (by decide)

/-- a step that leaves processes' states, the scheduler and the paging base alone -/
theorem of_same (hstate : ∀ p, (s'.procs p).state = (s.procs p).state)
    (htoken : ∀ p, (s'.procs p).token = (s.procs p).token) (hsched : s'.sched = s.sched)
    (hcurrent : s'.current = s.current) (hidling : s'.idling = s.idling)
    (hcr3 : s'.cr3 = s.cr3 ∨ s'.cr3 = (s.procs s.current).token)
    (hown : (s'.procs s.current).pendingLen = (s.procs s.current).pendingLen)
    (hadds : ∀ i, .queued i false ∈ s'.w.history → .queued i false ∈ s.w.history) : Steady s s' := by
  refine ⟨fun p => ?_, htoken, hcurrent, hidling, fun hc => ?_, fun t ht => by rwa [hsched],
    fun hr => ⟨(hstate _).trans hr, hown⟩, fun h => ?_⟩
  · rw [KState.live, KState.live, Process.live, Process.live, hstate]
  · rcases hcr3 with h | h
    · rw [h, hc]
    · exact h
  · refine ⟨by rw [hsched]; exact h.ok, fun t => by rw [hsched, hstate]; exact h.queue t, fun i hi => h.slots i ?_,
      fun i hi => h.added i (hadds i hi)⟩
    rwa [KState.live, Process.live, hstate] at hi

/-- a step that changes the machine, the regions, the ledger, the domains or a counter only -/
theorem of_control (hprocs : s'.procs = s.procs) (hsched : s'.sched = s.sched) (hcurrent : s'.current = s.current)
    (hidling : s'.idling = s.idling) (hcr3 : s'.cr3 = s.cr3)
    (hadds : ∀ i, .queued i false ∈ s'.w.history → .queued i false ∈ s.w.history) : Steady s s' :=
  of_same (fun p => by rw [hprocs]) (fun p => by rw [hprocs]) hsched hcurrent hidling (Or.inl hcr3) (by rw [hprocs]) hadds

theorem modProc (s : KState) (i : ℕ) (f : Process → Process) (hstate : (f (s.procs i)).state = (s.procs i).state)
    (htoken : (f (s.procs i)).token = (s.procs i).token)
    (hown : (f (s.procs i)).pendingLen = (s.procs i).pendingLen) : Steady s (s.modProc i f) := by
  have key : ∀ p, (s.modProc i f).procs p = if p = i then f (s.procs i) else s.procs p := fun _ => rfl
  refine of_same (fun p => ?_) (fun p => ?_) rfl rfl rfl (Or.inl rfl) ?_ fun _ => id
  all_goals
    rw [key]
    split_ifs with h
    · rw [h]; assumption
    · rfl

/-- waking process `i` -/
theorem ready (s : KState) {i : ℕ} (f : Process → Process) (hi : s.Alive i) (hwas : (s.procs i).state ≠ .ready)
    (hstate : (f (s.procs i)).state = .ready) (htoken : (f (s.procs i)).token = (s.procs i).token) :
    Steady s ((s.modProc i f).enqueue i) := by
  have hproc : ∀ p, ((s.modProc i f).enqueue i).procs p = if p = i then f (s.procs i) else s.procs p := fun _ => rfl
  refine ⟨fun p => ?_, fun p => ?_, rfl, rfl, id, fun t ht => Sched.Scheduler.current_add ht i, fun hr => ?_, fun h =>
    h.enqueue hi.1 hwas rfl (fun _ => id) (fun p hp => ?_) ?_⟩
  · rw [KState.live, KState.live, hproc]
    split_ifs with hp
    · rw [hp, show (s.procs i).live = true from hi.2, Process.live, hstate]; rfl
    · rfl
  · rw [hproc]
    split_ifs with hp
    · rw [hp]; exact htoken
    · rfl
  · have hne : s.current ≠ i := fun e => hwas (by rw [← e]; exact hr)
    rw [hproc, if_neg hne]
    exact ⟨hr, rfl⟩
  · show ((s.modProc i f).procs p).state = _
    rw [KState.modProc_procs, Table.put_of_ne _ hp]
  · show ((s.modProc i f).procs i).state = _
    rw [KState.modProc_procs, Table.put_self]; exact hstate

end Steady

/-- a process whose state is not `free` is alive -/
theorem alive_of_state {s : KState} {i : ℕ} (hi : i < MAX_PROCS) (h : (s.procs i).state ≠ .free) : s.Alive i :=
  ⟨hi, by simp [KState.live, Process.live, h]⟩

/-! ## Waking -/

section Hush

variable (A : Arch) (me : ℕ) (k : Trap)

/-- control steps that wake processes at most -/
def Hush (s s' : KState) : Prop := Relation.ReflTransGen (Control A me k) s s' ∧ Steady s s'

variable {A me k}

namespace Hush

theorem refl (s : KState) : Hush A me k s s := ⟨.refl, Steady.refl s⟩

theorem trans {s t u : KState} (h : Hush A me k s t) (h' : Hush A me k t u) : Hush A me k s u :=
  ⟨h.1.trans h'.1, h.2.trans h'.2⟩

theorem single {s t : KState} (h : Control A me k s t) (h' : Steady s t) : Hush A me k s t := ⟨.single h, h'⟩

theorem foldl {α : Type} {f : KState → α → KState} {bs : List α} (hf : ∀ b ∈ bs, ∀ s, Hush A me k s (f s b)) (s : KState) :
    Hush A me k s (bs.foldl f s) := by
  induction bs generalizing s with
  | nil => exact refl s
  | cons b bs ih =>
    exact (hf b List.mem_cons_self s).trans (ih (fun c hc => hf c (List.mem_cons_of_mem _ hc)) _)

end Hush

theorem hush_wakeIrq {s : KState} {i : ℕ} (line v : ℕ) (hi : i < MAX_PROCS) (h : (s.procs i).state = .blockedIrq line)
    (hk : k.Credits A ∨ creditable s i line = false) : Hush A me k s (s.wake A i v) :=
  Hush.single (.wakeIrq hi h hk) (Steady.ready s _ (alive_of_state hi (by simp [h])) (by simp [h]) rfl rfl)

theorem hush_credit {s : KState} {p : ℕ} (irqs : Table ℕ) (hp : s.Alive p)
    (h : ∀ line, irqs line ≠ 0 → (s.procs p).irqPending line ≠ 0 ∨ capsHoldIrq (s.procs p).caps line = true)
    (hk : k.Credits A) : Hush A me k s (s.modProc p fun q => { q with irqPending := irqs }) :=
  Hush.single (.credit hp h hk) (Steady.modProc s p _ rfl rfl rfl)

theorem hush_deliver {s : KState} {r ep dst max n : ℕ} (word : ℕ) (msg : Table Byte) (hme : s.Alive me)
    (hcap : capsHoldEndpoint (s.procs me).caps ep CapRights.WRITE = true) (hr : r < MAX_PROCS)
    (h : (s.procs r).state = .blockedRecv ep dst max) (hn : n ≤ max) : Hush A me k s (deliver A r word dst n msg s) :=
  Hush.single (.deliver hme hcap hr h hn) (Steady.ready s _ (alive_of_state hr (by simp [h])) (by simp [h]) rfl rfl)

theorem hush_release {s : KState} {i ep word len : ℕ} (hme : s.Alive me)
    (hcap : capsHoldEndpoint (s.procs me).caps ep CapRights.READ = true) (hi : i < MAX_PROCS)
    (h : (s.procs i).state = .blockedSend ep word len) : Hush A me k s (releaseSender A i s) :=
  Hush.single (.release hme hcap hi h) (Steady.ready s _ (alive_of_state hi (by simp [h])) (by simp [h]) rfl rfl)

theorem hush_creditProc {s : KState} (hk : k.Credits A) (irq : ℕ) {i : ℕ} (hi : i < MAX_PROCS) :
    Hush A me k s (creditProc A irq s i) := by
  rw [creditProc]
  by_cases h1 : s.live i = false ∨ capsHoldIrq (s.procs i).caps irq = false
  · rw [if_pos h1]; exact Hush.refl s
  rw [if_neg h1]
  rw [not_or, Bool.not_eq_false, Bool.not_eq_false] at h1
  have hcredit : Hush A me k s (s.modProc i fun p =>
      { p with irqPending := p.irqPending.put irq (satAdd (p.irqPending irq) 1) }) := by
    refine hush_credit _ ⟨hi, h1.1⟩ (fun line hne => ?_) hk
    by_cases hl : line = irq
    · subst hl; exact Or.inr h1.2
    · rw [Table.put_of_ne _ hl] at hne; exact Or.inl hne
  simp only
  split_ifs with hst
  · -- it was waiting for this line: the credits are handed over
    set t := s.modProc i fun p => { p with irqPending := p.irqPending.put irq (satAdd (p.irqPending irq) 1) }
    have hclear : Hush A me k t (t.modProc i fun p => { p with irqPending := p.irqPending.put irq 0 }) := by
      refine hush_credit _ (alive_of_state hi (by simp [hst])) (fun line hne => Or.inl ?_) hk
      by_cases hl : line = irq
      · subst hl; simp at hne
      · rwa [Table.put_of_ne _ hl] at hne
    refine (hcredit.trans hclear).trans (hush_wakeIrq irq _ hi ?_ (Or.inl hk))
    rw [KState.modProc_procs, Table.put_self]; exact hst
  · exact hcredit

/-- giving the CPU to somebody else leaves the queue alone -/
theorem Control.cpu (s : KState) (current : ℕ) (idling : Bool) :
    Control A me k s { s with current := current, idling := idling } :=
  .switch current idling rfl id

variable (me) in
theorem hush_creditIrq (hk : k.Credits A) (irq : ℕ) (s : KState) : Hush A me k s (creditIrq A irq s) := by
  rw [creditIrq]
  split_ifs
  · exact Hush.refl s
  · exact Hush.foldl (fun i hi s => hush_creditProc hk irq (List.mem_range.1 hi)) s

variable (me) in
theorem hush_wakeUncreditable (s : KState) : Hush A me k s (wakeUncreditable A s) := by
  rw [wakeUncreditable]
  -- who is woken was read off the state before the loop, and each of them is woken once
  suffices key : ∀ (bs : List ℕ), bs.Nodup → ∀ t, Hush A me k s t →
      (∀ i ∈ bs, i < MAX_PROCS ∧ ∃ line, (t.procs i).state = .blockedIrq line ∧ creditable t i line = false) →
      Hush A me k s (bs.foldl (fun s i => s.wake A i syserr.NO_CAP) t) by
    refine key _ (List.nodup_range.filter _) s (Hush.refl s) fun i hi => ?_
    obtain ⟨hlt, hst⟩ := List.mem_filter.1 hi
    rw [List.mem_range] at hlt
    rw [runSlots, List.length_map, List.length_range] at hlt
    refine ⟨hlt, ?_⟩
    rw [Runstate.strandedAt, runSlots, List.getElem?_map, List.getElem?_range hlt, Option.map_some] at hst
    cases h : (s.procs i).state with
    | blockedIrq line => rw [h] at hst; exact ⟨line, rfl, by simpa using hst⟩
    | _ => rw [h] at hst; simp [Runstate.Slot.FREE] at hst
  intro bs
  induction bs with
  | nil => intro _ t ht _; exact ht
  | cons b bs ih =>
    intro hnd t ht hall
    obtain ⟨hb, hnd⟩ := List.nodup_cons.1 hnd
    obtain ⟨hlt, line, hst, hno⟩ := hall b List.mem_cons_self
    refine ih hnd _ (ht.trans (hush_wakeIrq _ _ hlt hst (Or.inr hno))) fun i hi => ?_
    have hne : i ≠ b := fun e => hb (e ▸ hi)
    obtain ⟨h1, l, h2, h3⟩ := hall i (List.mem_cons_of_mem _ hi)
    have hsame : (t.wake A b syserr.NO_CAP).procs i = t.procs i := by
      rw [KState.wake, KState.enqueue_procs, KState.modProc_procs, Table.put_of_ne _ hne]
    refine ⟨h1, l, ?_, ?_⟩
    · rw [hsame]; exact h2
    · rw [creditable, hsame]; exact h3

end Hush

theorem steady_refuse (A : Arch) {s : KState} {i : ℕ} (hi : s.Alive i) (h : (s.procs i).state ≠ .ready) :
    Steady s (refuse A i s) := Steady.ready s _ hi h rfl rfl

theorem steady_refuseUnanswerable (A : Arch) {s : KState} {i : ℕ} (hi : i < MAX_PROCS) :
    Steady s (refuseUnanswerable A s i) := by
  rw [refuseUnanswerable]
  cases h : awaited s i with
  | none => exact Steady.refl s
  | some en =>
    obtain ⟨ep, needed⟩ := en
    simp only
    split_ifs
    · exact Steady.refl s
    · have hst : (s.procs i).state ≠ .ready ∧ (s.procs i).state ≠ .free := by
        rw [awaited] at h
        constructor <;> intro hc <;> rw [hc] at h <;> simp at h
      exact steady_refuse A (alive_of_state hi hst.2) hst.1

theorem steady_refusePeers (A : Arch) (s : KState) : Steady s (refusePeers A s) := by
  rw [refusePeers]
  refine List.foldlRecOn (motive := Steady s) _ _ (Steady.refl s) fun t ht i hi => ?_
  exact ht.trans (steady_refuseUnanswerable A (List.mem_range.1 hi))

end Rustproof.Kernel
