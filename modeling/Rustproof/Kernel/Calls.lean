/-
Every system call is a sequence of moves.

`Served` is what a system-call arm leaves for the handler's tail: moves from where the handler started, somebody of the
queue to resume, and for the caller registers that are its own with the call's results in them. Each arm has one lemma;
`wp_service` puts them together.
-/
import Rustproof.Kernel.Dispatch

namespace Rustproof.Kernel

open Lib Prog

variable {A : Arch} {C : Config} {G : Gate} {me : ℕ} {f f' : UserFrame} {s t : KState}

/-- process `me` entered the kernel -/
structure Called (s : KState) (me : ℕ) : Prop where
  ready : Ready s
  idling : s.idling = false
  current : me = s.current

namespace Called

theorem alive (h : Called s me) : s.Alive me := by
  rw [h.current]; exact h.ready.sched.current_alive (h.ready.running.awake h.idling).1

theorem state (h : Called s me) : (s.procs me).state = .ready := by
  rw [h.current]; exact h.ready.sched.current_ready (h.ready.running.awake h.idling).1

theorem cr3 (h : Called s me) : s.cr3 = (s.procs me).token := by
  rw [h.current]; exact (h.ready.running.awake h.idling).2.1

theorem pending (h : Called s me) : (s.procs me).pendingLen = 0 := by
  rw [h.current]; exact (h.ready.running.awake h.idling).2.2

theorem ne_nobody (h : Called s me) : me ≠ NOBODY := fun e => absurd (e ▸ h.alive.1) (by decide)

/-- the caller is still the caller after a step that wakes processes at most -/
theorem step {k : Trap} (h : Called s me) (hm : Moves A C G me k s t) (hs : Steady s t) : Called t me :=
  ⟨⟨hs.sched h.ready.sched, hs.running h.ready.sched h.ready.running h.idling, hm.ids h.ready.ids⟩,
    hs.idling.trans h.idling, h.current.trans hs.current.symm⟩

end Called

/-- how the arm for the call `f` of process `me`, entered in `s`, may leave -/
def Served (A : Arch) (C : Config) (G : Gate) (me : ℕ) (f : UserFrame) (s : KState) : Option UserFrame → KState → Prop
  | some f', t => Moves A C G me (.syscall f) s t ∧ Tail t ∧
      (t.live me = true → Kept A (.syscall f) { t.procs me with frame := f' })
  | none, t => Moves A C G me (.syscall f) s t ∧ Ready t ∧ Kept A (.syscall f) (t.procs me)

namespace Served

theorem before {u : KState} (hm : Moves A C G me (.syscall f) s t) {o : Option UserFrame} (h : Served A C G me f t o u) :
    Served A C G me f s o u := by
  cases o with
  | none => exact ⟨hm.trans h.1, h.2⟩
  | some f' => exact ⟨hm.trans h.1, h.2⟩

/-- the caller goes on with the call's results in its registers -/
theorem returned (h : Called s me) (hret : Returns A f f') : Served A C G me f s (some f') s :=
  ⟨.refl, h.ready.tail h.idling, fun _ => Kept.of_ready h.state h.pending hret⟩

end Served

/-- what follows a step of the arm -/
theorem wp_after {x : K (Option UserFrame)} (hm : Moves A C G me (.syscall f) s t)
    (h : wp x (Served A C G me f t) (Ends A C G me (.syscall f) t) t) :
    wp x (Served A C G me f s) (Ends A C G me (.syscall f) s) t :=
  wp_imp h (fun _ _ _ hu => Served.before hm hu) fun _ => Ends.before hm

/-- a call other than `YIELD` and `RECV` -/
def OneResult (A : Arch) (f : UserFrame) : Prop := A.frameNum f ≠ sysno.YIELD ∧ A.frameNum f ≠ sysno.RECV

theorem OneResult.of_num {n : ℕ} (h : A.frameNum f = n) (hy : n ≠ sysno.YIELD) (hr : n ≠ sysno.RECV) : OneResult A f :=
  ⟨by rw [h]; exact hy, by rw [h]; exact hr⟩

theorem wp_done (h : Called s me) (hone : OneResult A f) (v : ℕ) :
    wp (done A f v) (Served A C G me f s) (Ends A C G me (.syscall f) s) s :=
  Served.returned h (Kept.returns_one hone.1 hone.2 v)

/-- one step, then the result -/
theorem wp_done_after (h : Called s me) (hone : OneResult A f) (hm : Moves A C G me (.syscall f) s t) (hs : Steady s t) (v : ℕ) :
    wp (done A f v) (Served A C G me f s) (Ends A C G me (.syscall f) s) t :=
  wp_after hm (wp_done (h.step hm hs) hone v)

/-- what `switchAway` leaves to an arm whose caller is parked or dead -/
theorem wp_switched {u : KState} (hs : Scheduled u) (hids : RegionIds u) (hi : u.idling = false) (hne : me ≠ NOBODY)
    (hdead : u.live me = false) (hm : Moves A C G me (.syscall f) s u) :
    wp (switchAway A C >>= fun b => ret (if b = true then some f else none)) (Served A C G me f s)
      (Ends A C G me (.syscall f) s) u := by
  rw [wp_bind]
  refine wp_imp (wp_switchAway (A := A) (C := C) (G := G) (k := .syscall f) me hs hids hi)
    (fun b v _ hv => ?_) fun h => Ends.before hm
  have hd : v.live me = false := hv.1.dead hne hdead
  rw [wp_ret]
  cases b with
  | true => exact ⟨hm.trans hv.1, hv.2.1, fun hl => by rw [hd] at hl; exact absurd hl (by decide)⟩
  | false =>
    refine ⟨hm.trans hv.1, hv.2, Kept.free ?_⟩
    simpa [KState.live, Process.live] using hd

/-! ## Scheduling -/

theorem wp_sysYield (h : Called s me) (hnum : A.frameNum f = sysno.YIELD) :
    wp (sysYield me f) (Served A C G me f s) (Ends A C G me (.syscall f) s) s := by
  obtain ⟨t, ht⟩ := Sched.Scheduler.next_some ((h.ready.sched.queue me).2 ⟨h.alive.1, h.state⟩)
  rw [sysYield]
  simp only [wp_bind, wp_modify, wp_ret]
  rw [ht, Option.getD_some]
  have hm : Moves A C G me (.syscall f) s { s with current := t, sched := s.sched.next.2 } :=
    .single (.control (.switch t s.idling (Sched.Scheduler.next_queue s.sched) Sched.Scheduler.ok_next))
  have hs := h.ready.sched
  refine ⟨hm, ⟨⟨Sched.Scheduler.ok_next hs.ok, fun p => ?_, hs.slots, hs.added⟩, hm.ids h.ready.ids, h.idling,
    Sched.Scheduler.next_current ht⟩, fun _ => Kept.of_ready h.state h.pending ?_⟩
  · show p ∈ s.sched.next.2.queue ↔ p < MAX_PROCS ∧ (s.procs p).state = .ready
    rw [Sched.Scheduler.next_queue]; exact hs.queue p
  · rw [Returns, if_pos hnum]

theorem wp_sysExit (h : Called s me) :
    wp (sysExit A C me f) (Served A C G me f s) (Ends A C G me (.syscall f) s) s := by
  rw [sysExit, wp_bind]
  refine wp_mono (wp_teardownProcess h.ready.sched h.ready.ids h.idling h.current h.alive h.state)
    fun _ t ⟨hm, hs, hi, hd⟩ => ?_
  exact wp_switched hs (hm.ids h.ready.ids) hi h.ne_nobody hd hm

/-! ## Rendezvous -/

/-- a step, then parking -/
theorem wp_block_after (h : Called s me) (hm : Moves A C G me (.syscall f) s t) (hs : Steady s t) {st : ProcState}
    (hpark : MayPark A me (.syscall f) t st) :
    wp (block A C me st f) (Served A C G me f s) (Ends A C G me (.syscall f) s) t := by
  have ht := h.step hm hs
  refine wp_after hm (wp_mono (wp_block ht.ready.sched ht.ready.ids ht.idling ht.alive ht.state ht.pending hpark)
    fun o u ⟨h1, h2, h3⟩ => ?_)
  cases o with
  | none => exact ⟨h1, h3, h2⟩
  | some f' =>
    obtain ⟨he, htail, hkept⟩ := h3
    obtain rfl := Option.some.inj he
    exact ⟨h1, htail, fun _ => hkept⟩

theorem sends_iff {st : ProcState} {ep : ℕ} : st.sends = some ep ↔ ∃ word len, st = .blockedSend ep word len := by
  cases st <;> simp [ProcState.sends]

theorem receives_iff {st : ProcState} {ep : ℕ} : st.receives = some ep ↔ ∃ dst max, st = .blockedRecv ep dst max := by
  cases st <;> simp [ProcState.receives]

theorem runSlots_length (s : KState) : (runSlots s).length = MAX_PROCS := by simp [runSlots]

/-- what the rendezvous decisions see of a parked sender, and of a parked receiver -/
theorem slot_send {i ep : ℕ} (hi : i < (runSlots s).length) :
    ((runSlots s)[i].live && (runSlots s)[i].blocked == .send ep) = true ↔ (s.procs i).state.sends = some ep := by
  simp only [runSlots, List.getElem_map, List.getElem_range]
  cases (s.procs i).state <;> simp [ProcState.sends, Runstate.Slot.FREE]

theorem slot_recv {i ep : ℕ} (hi : i < (runSlots s).length) :
    ((runSlots s)[i].live && (runSlots s)[i].blocked == .recv ep) = true ↔ (s.procs i).state.receives = some ep := by
  simp only [runSlots, List.getElem_map, List.getElem_range]
  cases (s.procs i).state <;> simp [ProcState.receives, Runstate.Slot.FREE]

theorem findRecv_some {ep r : ℕ} (h : Runstate.findRecv (runSlots s) ep = some r) :
    r < MAX_PROCS ∧ ∃ dst max, (s.procs r).state = .blockedRecv ep dst max := by
  obtain ⟨hlt, hp, -⟩ := List.findIdx?_eq_some_iff_getElem.1 h
  exact ⟨by rwa [runSlots_length] at hlt, receives_iff.1 ((slot_recv hlt).1 hp)⟩

theorem findRecv_none {ep : ℕ} (h : Runstate.findRecv (runSlots s) ep = none) : s.NoReceiver ep := by
  intro i hi hst
  have hlt : i < (runSlots s).length := by rwa [runSlots_length]
  have := List.findIdx?_eq_none_iff.1 h _ (List.getElem_mem hlt)
  rw [(slot_recv hlt).2 hst] at this
  exact absurd this (by decide)

theorem findBlockedSend_some {ep i word len : ℕ} (h : findBlockedSend s ep = some (i, word, len)) :
    i < MAX_PROCS ∧ (s.procs i).state = .blockedSend ep word len := by
  rw [findBlockedSend] at h
  cases hf : Runstate.findSend (runSlots s) ep with
  | none => rw [hf] at h; simp at h
  | some j =>
    obtain ⟨hlt, hp, -⟩ := List.findIdx?_eq_some_iff_getElem.1 hf
    obtain ⟨w, l, hst⟩ := sends_iff.1 ((slot_send hlt).1 hp)
    rw [runSlots_length] at hlt
    simp only [hf, hst] at h
    obtain ⟨rfl, rfl, rfl⟩ : j = i ∧ w = word ∧ l = len := by simpa using h
    exact ⟨hlt, hst⟩

theorem findBlockedSend_none {ep : ℕ} (h : findBlockedSend s ep = none) : s.NoSender ep := by
  intro i hi hst
  rw [findBlockedSend] at h
  cases hf : Runstate.findSend (runSlots s) ep with
  | none =>
    have hlt : i < (runSlots s).length := by rwa [runSlots_length]
    have := List.findIdx?_eq_none_iff.1 hf _ (List.getElem_mem hlt)
    rw [(slot_send hlt).2 hst] at this
    exact absurd this (by decide)
  | some j =>
    obtain ⟨hlt, hp, -⟩ := List.findIdx?_eq_some_iff_getElem.1 hf
    obtain ⟨w, l, hst'⟩ := sends_iff.1 ((slot_send hlt).1 hp)
    simp [hf, hst'] at h

theorem capsEndpointObject_some {caps : Caps} {cap ep : ℕ} {needed : CapRights}
    (h : capsEndpointObject caps cap needed = some ep) : capsHoldEndpoint caps ep needed = true := by
  rw [capsEndpointObject, capNamed] at h
  cases hl : caps.lookup cap with
  | none => rw [hl] at h; simp at h
  | some c =>
    rw [hl] at h
    simp only at h
    split_ifs at h with hc
    · exact holdsCap_iff.2 ⟨cap, c, hl, forObject_iff.2 ⟨hc.1, by simpa using h, hc.2⟩⟩
    · simp at h

theorem wp_sysSend (h : Called s me) (hnum : A.frameNum f = sysno.SEND) :
    wp (sysSend A C me f) (Served A C G me f s) (Ends A C G me (.syscall f) s) s := by
  have hone : OneResult A f := .of_num hnum (by decide) (by decide)
  rw [sysSend, wp_bind, wp_get]
  simp only
  cases hcap : capsEndpointObject (s.procs me).caps (A.frameArg f 0) CapRights.WRITE with
  | none => exact wp_done h hone _
  | some ep =>
    simp only
    have hhold := capsEndpointObject_some hcap
    refine wp_ite (fun _ => wp_done h hone _) fun hlen => ?_
    cases hrecv : Runstate.findRecv (runSlots s) ep with
    | some r =>
      obtain ⟨hr, dst, max, hst⟩ := findRecv_some hrecv
      simp only [hst]
      cases readPayload A s (A.frameArg f 2) (min (A.frameArg f 3) max) (s.procs r).msg with
      | none => exact wp_done h hone _
      | some msg =>
        simp only [wp_bind, wp_modify]
        obtain ⟨hc, hs⟩ : Hush A me (.syscall f) s _ :=
          hush_deliver (A.frameArg f 1) msg h.alive hhold hr hst (Nat.min_le_right (A.frameArg f 3) max)
        exact wp_done_after h hone (hc.lift id fun _ _ hstep => .control hstep) hs _
    | none =>
      simp only
      cases readPayload A s (A.frameArg f 2) (A.frameArg f 3) (s.procs me).msg with
      | none => exact wp_done h hone _
      | some msg =>
        simp only [wp_bind, wp_modify]
        have hm : Moves A C G me (.syscall f) s (s.modProc me fun p => { p with msg := msg, msgLen := A.frameArg f 3 }) :=
          .single (.control (.message msg _ h.state))
        have hs : Steady s (s.modProc me fun p => { p with msg := msg, msgLen := A.frameArg f 3 }) :=
          Steady.modProc s me _ rfl rfl rfl
        refine wp_block_after h hm hs ⟨?_, fun i hi => ?_, by omega, f, rfl, hnum⟩
        · rw [KState.modProc_procs, Table.put_self]; exact hhold
        · rw [state_modProc rfl]; exact findRecv_none hrecv i hi

theorem wp_sysRecv (h : Called s me) (hnum : A.frameNum f = sysno.RECV) :
    wp (sysRecv A C me f) (Served A C G me f s) (Ends A C G me (.syscall f) s) s := by
  have hret : ∀ status word n, Served A C G me f s (some (recvFrame A f status word n)) s := fun status word n =>
    Served.returned h (Kept.returns_recv hnum status word n)
  rw [sysRecv, wp_bind, wp_get]
  simp only
  refine wp_ite (fun _ => hret _ _ _) fun hbuf => ?_
  cases hcap : capsEndpointObject (s.procs me).caps (A.frameArg f 0) CapRights.READ with
  | none => exact hret _ _ _
  | some ep =>
    simp only
    have hhold := capsEndpointObject_some hcap
    cases hsend : findBlockedSend s ep with
    | some x =>
      obtain ⟨i, word, len⟩ := x
      obtain ⟨hi, hst⟩ := findBlockedSend_some hsend
      simp only
      set n := min len (min (A.frameArg f 2) MAX_MSG_BYTES)
      cases hcopy : (if n = 0 then some s.w.mem else
          Vspace.copyToUser A s.w.mem s.cr3 (A.frameArg f 1) (msgBytes (s.procs i).msg n)) with
      | none => exact hret _ _ _
      | some m =>
        simp only [wp_bind, wp_modify, wp_ret]
        have hmem : Moves A C G me (.syscall f) s (s.setMem m) := by
          split_ifs at hcopy with h0
          · obtain rfl := Option.some.inj hcopy
            exact .refl
          · rw [h.cr3] at hcopy
            exact .single (.copy h.alive hcopy)
        have hsm : Steady s (s.setMem m) := Steady.of_control rfl rfl rfl rfl rfl fun _ => id
        obtain ⟨hc, hs⟩ : Hush A me (.syscall f) (s.setMem m) (releaseSender A i (s.setMem m)) :=
          hush_release (hsm.alive.2 h.alive) hhold hi hst
        have hm := hmem.trans (hc.lift id fun _ _ hstep => Move.control hstep)
        exact Served.before hm (Served.returned (h.step hm (hsm.trans hs)) (Kept.returns_recv hnum _ _ _))
    | none =>
      refine wp_block_after h .refl (Steady.refl s) ⟨hhold, findBlockedSend_none hsend, Nat.min_le_right _ _,
        fun hpos => ?_, f, rfl, hnum⟩
      rw [not_and, Bool.not_eq_false, h.cr3] at hbuf
      exact hbuf hpos

/-! ## Processes -/

theorem Arrives.called {u : KState} {slot : ℕ} (hnew : Arrives A C slot s u) (h : Called s me)
    (hm : Moves A C G me (.syscall f) s (u.enqueue slot)) : Called (u.enqueue slot) me := by
  have hne : me ≠ slot := fun e => by
    have := h.alive.2
    rw [e, hnew.free] at this; exact absurd this (by decide)
  have hcur : (u.enqueue slot).current = s.current := hnew.current
  have hidl : (u.enqueue slot).idling = false := hnew.idling.trans h.idling
  refine ⟨⟨hnew.scheduled h.ready.sched, ⟨fun _ => ?_, fun hi => ?_⟩, hm.ids h.ready.ids⟩, hidl, h.current.trans hcur.symm⟩
  · obtain ⟨h1, h2, h3⟩ := h.ready.running.awake h.idling
    rw [hcur, ← h.current, hnew.other hne, h.current]
    refine ⟨?_, hnew.cr3.trans h2, h3⟩
    show (u.sched.add slot).2.current = _
    rw [hnew.sched]
    exact Sched.Scheduler.current_add h1 slot
  · rw [hidl] at hi; exact absurd hi (by decide)

theorem wp_sysSpawn (h : Called s me) (hnum : A.frameNum f = sysno.SPAWN) (hgate : G.spawn s.procs s.nextId) :
    wp (sysSpawn A C me f) (Served A C G me f s) (Ends A C G me (.syscall f) s) s := by
  have hone : OneResult A f := .of_num hnum (by decide) (by decide)
  rw [sysSpawn, wp_bind, wp_get]
  refine wp_ite (fun _ => wp_done h hone _) fun _ => wp_ite (fun _ => wp_done h hone _) fun hdel => ?_
  cases hfree : firstIdx MAX_PROCS fun i => !s.live i with
  | none => exact wp_done h hone _
  | some slot =>
    obtain ⟨hslot, hdead, -⟩ := firstIdx_some hfree
    simp only
    rw [wp_bind, wp_modify]
    have hmc : Moves A C G me (.syscall f) s { s with nextId := wadd s.nextId 1 } :=
      .single (.control (.count _ s.killed s.parks s.deviceWakes))
    have hsc : Steady s { s with nextId := wadd s.nextId 1 } := Steady.of_control rfl rfl rfl rfl rfl fun _ => id
    have hc := h.step hmc hsc
    refine wp_after hmc ?_
    generalize hv : ({ s with nextId := wadd s.nextId 1 } : KState) = v at hc hmc hsc ⊢
    have hvp : v.procs = s.procs := by rw [← hv]
    have hvl : v.ledger = s.ledger := by rw [← hv]
    have hsd : s.live slot = false := by simpa using hdead
    have hvd : v.live slot = false := by rwa [KState.live, hvp]
    rw [wp_bind]
    refine wp_imp (wp_self (loadProcess A C slot s.nextId .child) v) (fun loaded t hrun _ => ?_) fun e he => ?_
    · cases loaded with
      | false =>
        rw [if_pos rfl]
        rcases wp_ok (loadProcess_spec slot s.nextId .child v) hrun with ⟨-, ht⟩ | ⟨hf, -⟩
        · exact wp_done_after hc hone (.single (.loadFailed (Or.inr ⟨hc.alive, hc.cr3⟩) hslot hvd hrun))
            (steady_loadFailed ht).1 _
        · exact absurd hf (by decide)
      | true =>
        rw [if_neg (by decide)]
        simp only [wp_bind, wp_modify]
        set cap := if A.frameArg f 1 = sysno.NO_DELEGATE then none else
          delegated (s.procs me).caps (A.frameArg f 1) (A.frameArg f 2) with hcapdef
        have hmv : Move A C G me (.syscall f) v
            ((cap.elim t fun c => handOver me slot (A.frameArg f 1) s.nextId c t).enqueue slot) := by
          refine .spawn hc.alive hc.cr3 (by rw [hvp]; exact hgate) hslot hvd (by rw [hvp]) ?_ hrun
          rw [hvl]
          by_cases harg : A.frameArg f 1 = sysno.NO_DELEGATE
          · exact Or.inl harg
          · right
            simp only [not_and, not_or, Option.isNone_iff_eq_none, Nat.not_le] at hdel
            obtain ⟨h1, h2⟩ := hdel harg
            exact ⟨Option.isSome_iff_ne_none.2 h1, h2⟩
        have hm : Moves A C G me (.syscall f) v _ := .single hmv
        exact wp_after hm (wp_done (((arrives_load hslot hvd hrun).given me _ _ cap).called hc hm) hone _)
    · exact (wp_error (loadProcess_child slot s.nextId v) he).elim

theorem wp_sysRevoke (h : Called s me) (hnum : A.frameNum f = sysno.REVOKE) :
    wp (sysRevoke A C me f) (Served A C G me f s) (Ends A C G me (.syscall f) s) s := by
  have hone : OneResult A f := .of_num hnum (by decide) (by decide)
  rw [sysRevoke, wp_bind, wp_get]
  refine wp_ite (fun hcap => ?_) fun _ => wp_done h hone _
  rw [wp_bind]
  have hring : wp (revokeDelegations A C me (A.frameArg f 0)) (fun _ _ => True) (· = .ringFull) s :=
    wp_revoke (I := fun _ => True) trivial fun d _ t _ => wp_mono (strip_spec d t) fun _ _ _ => trivial
  refine wp_imp hring (fun _ t hrun _ => ?_) fun e he => Ends.ringFull he
  exact wp_done_after h hone (.single (.revoke h.alive h.state hcap hrun)) (revoke_steady h.ready.sched.slots hrun) _

/-! ## Interrupts -/

/-- collecting the credits of a line -/
theorem hush_collect (h : Called s me) (line : ℕ) {k : Trap} (hk : k.Credits A) :
    Hush A me k s (collectIrq me line s).2 := by
  refine hush_credit _ h.alive (fun l hne => Or.inl ?_) hk
  by_cases hl : l = line
  · subst hl; simp at hne
  · rwa [Table.put_of_ne _ hl] at hne

theorem wp_collect (h : Called s me) (hone : OneResult A f) (hk : (Trap.syscall f).Credits A) (line : ℕ) :
    wp (run (collectIrq me line) >>= fun n => done A f n) (Served A C G me f s) (Ends A C G me (.syscall f) s) s := by
  rw [wp_bind, wp_run]
  obtain ⟨hc, hs⟩ := hush_collect (A := A) (k := .syscall f) h line hk
  exact wp_done_after h hone (hc.lift id fun _ _ hstep => Move.control hstep) hs _

theorem capsIrqLine_some {caps : Caps} {cap line : ℕ} (h : capsIrqLine caps cap = some line) :
    capsHoldIrq caps line = true := by
  rw [capsIrqLine, capNamed] at h
  cases hl : caps.lookup cap with
  | none => rw [hl] at h; simp at h
  | some c =>
    rw [hl] at h
    simp only at h
    split_ifs at h with hc
    · exact holdsCap_iff.2 ⟨cap, c, hl, forObject_iff.2 ⟨hc.1, by simpa using h, hc.2⟩⟩
    · simp at h

theorem wp_sysWaitIrq (h : Called s me) (hnum : A.frameNum f = sysno.WAIT_IRQ) :
    wp (sysWaitIrq A C me f) (Served A C G me f s) (Ends A C G me (.syscall f) s) s := by
  have hone : OneResult A f := .of_num hnum (by decide) (by decide)
  rw [sysWaitIrq, wp_bind, wp_get]
  cases hcap : capsIrqLine (s.procs me).caps (A.frameArg f 0) with
  | none => exact wp_done h hone _
  | some line =>
    simp only
    refine wp_ite (fun _ => wp_done h hone _) fun hdel => wp_ite (fun _ => wp_collect h hone (Or.inl hnum) line) fun _ => ?_
    rw [Bool.not_eq_false] at hdel
    have hpark : MayPark A me (.syscall f) s (.blockedIrq line) :=
      ⟨by rw [creditable, hdel, capsIrqLine_some hcap]; rfl, f, rfl, hnum⟩
    -- the same as `block`, but control never comes back to the tail
    have hblock := wp_block (A := A) (C := C) (G := G) h.ready.sched h.ready.ids h.idling h.alive h.state h.pending hpark
    rw [block] at hblock
    simp only [wp_bind, wp_modify] at hblock ⊢
    refine wp_mono hblock fun b t hbt => ?_
    obtain ⟨hm, hk, hb⟩ := hbt
    cases b with
    | false => exact ⟨hm, hb, hk⟩
    | true =>
      obtain ⟨-, htail, -⟩ := hb
      obtain ⟨hmr, hr⟩ := htail.resume (A := A) (C := C) (G := G) (k := .syscall f) me
      exact ⟨hm.trans hmr, hr, hmr.own h.ne_nobody hk⟩

theorem wp_sysPollIrq (h : Called s me) (hnum : A.frameNum f = sysno.POLL_IRQ) :
    wp (sysPollIrq A me f) (Served A C G me f s) (Ends A C G me (.syscall f) s) s := by
  have hone : OneResult A f := .of_num hnum (by decide) (by decide)
  rw [sysPollIrq, wp_bind, wp_get]
  cases capsIrqLine (s.procs me).caps (A.frameArg f 0) with
  | none => exact wp_done h hone _
  | some line => exact wp_ite (fun _ => wp_collect h hone (Or.inr hnum) line) fun _ => wp_done h hone _

/-! ## Regions -/

theorem steady_makeRegion {p pages v : ℕ} {rights : CapRights} (h : makeRegion p pages rights s = .ok (v, t)) : Steady s t := by
  have frames : ∀ {fs : List ℕ} {i : ℕ}, Event.queued i false ∈ s.w.history ++ fs.map Event.freed →
      Event.queued i false ∈ s.w.history := fun {fs i} hi => by simpa using hi
  rcases wp_ok (makeRegion_spec p pages rights s) h with
    ⟨-, rfl | ⟨w, hw, rfl⟩ | ⟨fs, w, hw, rfl⟩⟩ | ⟨idx, fs, w, cap, caps, -, hw, -, -, rfl⟩
  · exact Steady.refl _
  all_goals
    obtain ⟨hcr3, gs, hh⟩ := takeDmaFrames_spec pages [] s.w
    rw [hw] at hcr3 hh
  · exact Steady.of_control rfl rfl rfl rfl hcr3 fun i hi => frames (by rw [← hh]; exact hi)
  · refine Steady.of_control rfl rfl rfl rfl ((Machine.cr3_freeFrames _ _).trans hcr3) fun i hi => ?_
    have hi' : Event.queued i false ∈ (w.freeFrames fs).history := hi
    rw [Machine.history_freeFrames, hh] at hi'
    simpa using hi'
  · have h1 : Steady s (s.modProc p fun q => { q with caps := caps }) := Steady.modProc s p _ rfl rfl rfl
    refine h1.trans (Steady.of_control rfl rfl rfl rfl hcr3 fun i hi => ?_)
    have hi' : Event.queued i false ∈ w.history ++ [.minted p cap s.nextRegionId rights] := hi
    rw [hh] at hi'
    simpa using hi'

theorem wp_sysMakeRegion (h : Called s me) (hone : OneResult A f) (hnum : A.frameNum f = sysno.MAKE_REGION) :
    wp (sysMakeRegion A me f) (Served A C G me f s) (Ends A C G me (.syscall f) s) s := by
  rw [sysMakeRegion, wp_bind, wp_get]
  cases hcap : capsMint (s.procs me).caps (A.frameArg f 0) with
  | none => exact wp_done h hone _
  | some u =>
    refine wp_ite (fun hpages => ?_) fun _ => wp_done h hone _
    rw [wp_bind]
    refine wp_imp (wp_and (makeRegion_spec me (A.frameArg f 1) u.rights s) (wp_self _ s)) (fun v t hrun _ => ?_) fun e he =>
      ⟨fun hl => absurd (he.1.symm.trans hl) (by decide), fun _ => ⟨s, _, _, .refl, h.alive, he.1 ▸ he.2⟩, by
        rw [he.1]; decide, fun hl => absurd (he.1.symm.trans hl) (by decide), Or.inr (Or.inr (Or.inl he.1))⟩
    exact wp_done_after h hone (.single (.make h.alive h.cr3 hpages.2 ⟨rfl, hnum⟩ hcap hrun)) (steady_makeRegion hrun) _

theorem wp_sysMapRegion (h : Called s me) (hone : OneResult A f) :
    wp (sysMapRegion A me f) (Served A C G me f s) (Ends A C G me (.syscall f) s) s := by
  rw [sysMapRegion, wp_bind, wp_get]
  cases hcap : capsRegion (s.procs me).caps (A.frameArg f 0) CapRights.READ with
  | none => exact wp_done h hone _
  | some r =>
    simp only
    rw [wp_bind, wp_run]
    exact wp_done_after h hone (.single (.mapRegion h.alive h.cr3 hcap)) (spaceOnly_mapRegion A s me _ _).steady _

theorem wp_sysUnmapRegion (h : Called s me) (hone : OneResult A f) :
    wp (sysUnmapRegion A me f) (Served A C G me f s) (Ends A C G me (.syscall f) s) s := by
  rw [sysUnmapRegion, wp_bind, wp_get]
  cases (s.procs me).caps.lookup (A.frameArg f 0) with
  | none => exact wp_done h hone _
  | some slot =>
    refine wp_ite (fun _ => wp_done h hone _) fun _ => ?_
    rw [wp_bind, wp_run]
    exact wp_done_after h hone (.single (.unmapRegion h.alive)) (spaceOnly_unmapRegionFrom A s me _).steady _

theorem wp_sysFreeRegion (h : Called s me) (hone : OneResult A f) :
    wp (sysFreeRegion A C me f) (Served A C G me f s) (Ends A C G me (.syscall f) s) s := by
  rw [sysFreeRegion, wp_bind, wp_get]
  cases hslot : (capsRegion (s.procs me).caps (A.frameArg f 0) CapRights.WRITE).bind fun r => s.regionSlot r.1 with
  | none => exact wp_done h hone _
  | some idx =>
    refine wp_ite (fun _ => wp_done h hone _) fun hown => ?_
    rw [not_not] at hown
    obtain ⟨r, -, hr⟩ := Option.bind_eq_some_iff.1 hslot
    obtain ⟨-, hidx, hl, -⟩ := regionSlot_some hr
    rw [wp_bind]
    refine wp_imp (wp_destroy (A := A) (C := C) (G := G) (.syscall f) h.ready.ids h.alive hidx hl hown)
      (fun _ t _ hal => wp_done_after h hone hal.moves hal.steady _) fun e he =>
        Ends.ringFull he

/-! ## DMA -/

theorem wp_sysMapDma (h : Called s me) (hone : OneResult A f)
    (hgate : ∀ domain region rights, dmaCaps A (s.procs me).caps f = some (domain, region, rights) →
      G.mapDma s me domain region rights) :
    wp (sysMapDma A C me f) (Served A C G me f s) (Ends A C G me (.syscall f) s) s := by
  rw [sysMapDma, wp_bind, wp_get]
  cases hcap : dmaCaps A (s.procs me).caps f with
  | none => exact wp_done h hone _
  | some x =>
    obtain ⟨domain, region, rights⟩ := x
    refine wp_ite (fun _ => wp_done h hone _) fun hio => ?_
    rw [Bool.not_eq_false] at hio
    rw [wp_bind, wp_run]
    exact wp_done_after h hone (.single (.mapDma h.alive hio hcap (hgate _ _ _ hcap)))
      (dmaOnly_mapDma me domain region rights s).steady _

theorem wp_sysUnmapDma (h : Called s me) (hone : OneResult A f) :
    wp (sysUnmapDma A C me f) (Served A C G me f s) (Ends A C G me (.syscall f) s) s := by
  rw [sysUnmapDma, wp_bind, wp_get]
  cases dmaCaps A (s.procs me).caps f with
  | none => exact wp_done h hone _
  | some x =>
    obtain ⟨domain, region, rights⟩ := x
    refine wp_ite (fun _ => wp_done h hone _) fun hio => ?_
    rw [Bool.not_eq_false] at hio
    rw [wp_bind]
    refine wp_imp (dmaOnly_unmapDma me domain region s) (fun v t hrun ht => ?_) fun e he =>
      Ends.ringFull he
    exact wp_done_after h hone (.single (.unmapDma h.alive hio hrun)) ht.steady _

/-! ## The host contract -/

theorem steady_setMem (s : KState) (m : Mem) : Steady s (s.setMem m) := Steady.of_control rfl rfl rfl rfl rfl fun _ => id

/-- a copy into the caller's memory -/
theorem Called.copy (h : Called s me) {dst : ℕ} {bytes : List Byte} {m : Mem}
    (hcopy : Vspace.copyToUser A s.w.mem s.cr3 dst bytes = some m) : Moves A C G me (.syscall f) s (s.setMem m) := by
  rw [h.cr3] at hcopy
  exact .single (.copy h.alive hcopy)

theorem getInfo_steps (h : Called s me) (uptr : ℕ) :
    Moves A C G me (.syscall f) s (getInfo A uptr s).2 ∧ Steady s (getInfo A uptr s).2 := by
  rw [getInfo]
  cases hcopy : Vspace.copyToUser A s.w.mem s.cr3 uptr GPU_INFO with
  | none => exact ⟨.refl, Steady.refl s⟩
  | some m => exact ⟨h.copy hcopy, steady_setMem s m⟩

theorem mapBar_steps (h : Called s me) (cap resp : ℕ) :
    Moves A C G me (.syscall f) s (mapBar A C me cap resp s).2 ∧ Steady s (mapBar A C me cap resp s).2 := by
  rw [mapBar]
  cases hcap : capNamed (s.procs me).caps .mmio cap CapRights.READ with
  | none => exact ⟨.refl, Steady.refl s⟩
  | some c =>
    have hm : Moves A C G me (.syscall f) s
        (mapDevice A C me c.object DEVICE_PAGES (c.rights.contains CapRights.WRITE) s).2 :=
      .single (.mapDevice h.alive h.current h.cr3 hcap)
    have hs := (spaceOnly_mapDevice A C s h.current c.object DEVICE_PAGES (c.rights.contains CapRights.WRITE)).steady
    simp only
    rcases hd : mapDevice A C me c.object DEVICE_PAGES (c.rights.contains CapRights.WRITE) s with ⟨_ | va, t⟩
    all_goals rw [hd] at hm hs
    · exact ⟨hm, hs⟩
    have ht := h.step hm hs
    simp only at hm hs ht ⊢
    cases hcopy : Vspace.copyToUser A t.w.mem t.cr3 resp (mapBarResp va) with
    | some m => exact ⟨hm.trans (ht.copy hcopy), hs.trans (steady_setMem t m)⟩
    | none => exact ⟨hm.tail (.unmapDevice ht.alive), hs.trans (spaceOnly_unmapDeviceWindow A t me).steady⟩

theorem wp_sysHost (h : Called s me) (hone : OneResult A f) (num : ℕ) :
    wp (sysHost A C num me f) (Served A C G me f s) (Ends A C G me (.syscall f) s) s := by
  have hsteps : Moves A C G me (.syscall f) s (dispatch A C num me f s).2 ∧ Steady s (dispatch A C num me f s).2 := by
    rw [dispatch]
    split_ifs
    · exact ⟨.refl, Steady.refl s⟩
    · exact getInfo_steps h _
    · exact mapBar_steps h _ _
    · exact ⟨.refl, Steady.refl s⟩
  rw [sysHost, wp_bind, wp_run]
  exact wp_done_after h hone hsteps.1 hsteps.2 _

/-! ## The dispatch -/

/-- the call is one the run is not restricted to refuse -/
def Gate.Calls (G : Gate) (A : Arch) (me : ℕ) (f : UserFrame) (s : KState) : Prop :=
  (A.frameNum f = sysno.MAP_DMA → ∀ domain region rights, dmaCaps A (s.procs me).caps f = some (domain, region, rights) →
    G.mapDma s me domain region rights) ∧
  (A.frameNum f = sysno.SPAWN → G.spawn s.procs s.nextId)

/-- **Every call** is a sequence of moves. -/
theorem wp_service (h : Called s me) (hgate : G.Calls A me f s) :
    wp (service A C me f) (Served A C G me f s) (Ends A C G me (.syscall f) s) s := by
  rw [service]
  refine wp_ite (fun hn => wp_sysYield h hn) fun hyield => ?_
  refine wp_ite (fun _ => wp_sysExit h) fun _ => ?_
  refine wp_ite (fun hn => wp_sysSend h hn) fun _ => ?_
  refine wp_ite (fun hn => wp_sysRecv h hn) fun hrecv => ?_
  have hone : OneResult A f := ⟨hyield, hrecv⟩
  refine wp_ite (fun hn => wp_sysSpawn h hn (hgate.2 hn)) fun _ => ?_
  refine wp_ite (fun hn => wp_sysWaitIrq h hn) fun _ => ?_
  refine wp_ite (fun hn => wp_sysMakeRegion h hone hn) fun _ => ?_
  refine wp_ite (fun _ => wp_sysMapRegion h hone) fun _ => ?_
  refine wp_ite (fun _ => wp_sysUnmapRegion h hone) fun _ => ?_
  refine wp_ite (fun hn => wp_sysMapDma h hone (hgate.1 hn)) fun _ => ?_
  refine wp_ite (fun _ => wp_sysUnmapDma h hone) fun _ => ?_
  refine wp_ite (fun _ => wp_sysFreeRegion h hone) fun _ => ?_
  refine wp_ite (fun hn => wp_sysPollIrq h hn) fun _ => ?_
  exact wp_ite (fun hn => wp_sysRevoke h hn) fun _ => wp_sysHost h hone _

end Rustproof.Kernel
