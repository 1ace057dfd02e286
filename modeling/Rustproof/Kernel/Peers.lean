/-
Whoever waits for somebody can be answered.

`Awaits A q p`: the call that process `q` was parked in is still unanswered, or it has returned. `HasPeer s i ep needed`:
somebody other than `i` holds the right that answers a call on `ep`. A move made for somebody else keeps the first
(`Change.awaits`), and as long as the process stays parked the second (`Move.hasPeer`): a revocation takes the right from
a process below the revoker only, who keeps it, and a death wakes whoever it leaves alone.

`no_peer_stranded` is the step law.
-/
import Rustproof.Kernel.Lineage
import Rustproof.Kernel.Registers

namespace Rustproof.Kernel

open Lib Prog

variable {A : Arch} {C : Config} {G : Gate} {me : ℕ} {k : Trap} {s s' : KState} {i ep : ℕ} {needed : CapRights}

/-- somebody other than `i` holds `needed` on `ep` -/
def HasPeer (s : KState) (i ep : ℕ) (needed : CapRights) : Prop :=
  ∃ j, j ≠ i ∧ s.live j = true ∧ capsHoldEndpoint (s.procs j).caps ep needed = true

/-- the registers `f'` a rendezvous entered on `f` returned with: it completed, or nobody could answer it. A receiver whose
buffer went bad while it was parked gets FAULT in place of the bytes. -/
def Answer (A : Arch) (st : ProcState) (f f' : UserFrame) : Prop :=
  match st with
  | .blockedSend .. => f' = A.frameSetRet f syserr.OK ∨ f' = A.frameSetRet f syserr.NO_CAP
  | .blockedRecv .. => (∃ word n, f' = recvFrame A f syserr.OK word n) ∨ f' = recvFrame A f syserr.NO_CAP 0 0 ∨
      ∃ word, f' = recvFrame A f syserr.FAULT word 0
  | _ => False

/-- `p` is `q`, parked as it was, or returned from the call -/
structure Parked (q p : Process) : Prop where
  state : p.state = q.state
  frame : p.frame = q.frame
  pending : p.pendingLen = 0

structure Returned (A : Arch) (q p : Process) : Prop where
  state : p.state = .ready
  answer : Answer A q.state q.frame p.frame
  pending : 0 < p.pendingLen → q.state.isRecv = true

def Awaits (A : Arch) (q p : Process) : Prop := Parked q p ∨ Returned A q p

namespace Awaits

variable {q p p' : Process}

theorem congr (h : Awaits A q p) (hstate : p'.state = p.state) (hframe : p'.frame = p.frame)
    (hpend : p'.pendingLen = p.pendingLen) : Awaits A q p' :=
  h.imp (fun h => ⟨hstate.trans h.state, hframe.trans h.frame, hpend.trans h.pending⟩) fun h =>
    ⟨hstate.trans h.state, hframe ▸ h.answer, hpend ▸ h.pending⟩

/-- a process that is parked is parked in that call -/
theorem parked (h : Awaits A q p) (hr : p.state ≠ .ready) : Parked q p := h.resolve_right fun h => hr h.state

theorem delivered (h : Awaits A q p) {ep dst max : ℕ} (hst : p.state = .blockedRecv ep dst max) (msg : Table Byte)
    (d n word : ℕ) :
    Awaits A q { p with
      msg := msg
      pendingDst := d
      pendingLen := n
      frame := A.frameSetRet3 (A.frameSetRet2 (A.frameSetRet p.frame syserr.OK) word) n
      state := .ready } := by
  have hp := h.parked (by rw [hst]; simp)
  have hq : q.state = .blockedRecv ep dst max := hp.state ▸ hst
  refine Or.inr ⟨rfl, ?_, fun _ => by rw [hq]; rfl⟩
  rw [hq, ← hp.frame]
  exact Or.inl ⟨word, n, rfl⟩

theorem released (h : Awaits A q p) {ep word len : ℕ} (hst : p.state = .blockedSend ep word len) :
    Awaits A q { p with frame := A.frameSetRet p.frame syserr.OK, msgLen := 0, state := .ready } := by
  have hp := h.parked (by rw [hst]; simp)
  have hq : q.state = .blockedSend ep word len := hp.state ▸ hst
  refine Or.inr ⟨rfl, ?_, fun h0 => absurd (hp.pending ▸ h0 : 0 < 0) (lt_irrefl 0)⟩
  rw [hq, ← hp.frame]
  exact Or.inl rfl

theorem refused (h : Awaits A q p) (hq : q.state.sends.isSome ∨ q.state.receives.isSome) (hr : p.state ≠ .ready) :
    Awaits A q { p with frame := refuseFrame A p.state.isRecv p.frame, state := .ready, pendingLen := 0 } := by
  have hp := h.parked hr
  refine Or.inr ⟨rfl, ?_, fun h0 => absurd h0 (lt_irrefl 0)⟩
  show Answer A q.state q.frame (refuseFrame A p.state.isRecv p.frame)
  rw [hp.state, hp.frame]
  cases hst : q.state with
  | blockedSend => exact Or.inr rfl
  | blockedRecv => exact Or.inr (Or.inl rfl)
  | _ => rw [hst] at hq; simp [ProcState.sends, ProcState.receives] at hq

/-- the message a returned receive was left with is gone from the kernel -/
theorem taken (h : Awaits A q p) (hr : p.state = .ready) : Awaits A q { p with pendingLen := 0 } := by
  rcases h with h | h
  · exact Or.inl ⟨h.state, h.frame, rfl⟩
  · exact Or.inr ⟨hr, h.answer, fun h0 => absurd h0 (lt_irrefl 0)⟩

theorem faulted (h : Awaits A q p) (hr : p.state = .ready) (hpend : 0 < p.pendingLen) :
    Awaits A q { p with pendingLen := 0, frame := faultFrame A p.frame } := by
  rcases h with h | h
  · exact absurd (h.pending ▸ hpend : 0 < 0) (lt_irrefl 0)
  refine Or.inr ⟨hr, ?_, fun h0 => absurd h0 (lt_irrefl 0)⟩
  have hq := h.pending hpend
  have ha := h.answer
  cases hst : q.state with
  | blockedRecv ep dst max =>
    rw [hst] at ha
    refine Or.inr (Or.inr ?_)
    have again : ∀ status word n, faultFrame A (recvFrame A q.frame status word n) = recvFrame A q.frame syserr.FAULT word 0 :=
      fun status word n => A.ret_again _ _ _ _ _ _
    rcases ha with ⟨word, n, hf⟩ | hf | ⟨word, hf⟩
    · exact ⟨word, by rw [hf]; exact again _ _ _⟩
    · exact ⟨0, by rw [hf]; exact again _ _ _⟩
    · exact ⟨word, by rw [hf]; exact again _ _ _⟩
  | _ => rw [hst] at hq; simp [ProcState.isRecv] at hq

end Awaits

/-! ## Moves made for somebody else -/

section Other

variable {q : Process}

theorem awaits_modProc {j : ℕ} {f : Process → Process} (h : Awaits A q (s.procs i))
    (hf : i = j → Awaits A q (f (s.procs j))) : Awaits A q ((s.modProc j f).procs i) := by
  rw [KState.modProc_procs, Table.put_apply]
  split_ifs with hi
  · exact hf hi
  · exact h

theorem awaits_refuse {j : ℕ} (h : Awaits A q (s.procs i)) (hq : q.state.sends.isSome ∨ q.state.receives.isSome)
    (hr : (s.procs j).state ≠ .ready) : Awaits A q ((refuse A j s).procs i) := by
  rw [refuse, KState.enqueue_procs]
  exact awaits_modProc h fun e => (e ▸ h).refused hq hr

theorem awaits_refusePeers (h : Awaits A q (s.procs i)) (hq : q.state.sends.isSome ∨ q.state.receives.isSome) :
    Awaits A q ((refusePeers A s).procs i) := by
  rw [refusePeers]
  refine List.foldlRecOn (motive := fun t : KState => Awaits A q (t.procs i)) _ _ h fun t ht j _ => ?_
  rw [refuseUnanswerable]
  cases ha : awaited t j with
  | none => exact ht
  | some en =>
    simp only
    split_ifs
    · exact ht
    · exact awaits_refuse ht hq (awaited_parked ha).1

theorem awaits_strip (d : Deleg.Endpoint) (h : Awaits A q (s.procs i))
    (hq : q.state.sends.isSome ∨ q.state.receives.isSome) :
    wp (strip A C d) (fun _ t => Awaits A q (t.procs i)) (· = .ringFull) s := by
  refine wp_mono (strip_spec d s) fun _ t ht => ?_
  rcases ht with rfl | ⟨-, -, v, hv, rfl⟩
  · exact h
  have h1 : Awaits A q (v.procs i) := by
    refine Awaits.congr (p := (s.modProc d.proc fun p => { p with caps := p.caps.revoke d.cap }).procs i) ?_
      (hv.toStill.state i) (hv.toStill.frame i) (hv.toStill.pendingLen i)
    exact awaits_modProc h fun e => (e ▸ h).congr rfl rfl rfl
  have h2 : Awaits A q ((dropCredits d.proc v).procs i) := awaits_modProc h1 fun e => (e ▸ h1).congr rfl rfl rfl
  rw [settle]
  split_ifs with hst
  · exact awaits_refuse h2 hq (stranded_parked hst).1
  · exact h2

/-- **A move made for somebody else** leaves a parked process parked as it is, or returns from its call. -/
theorem Change.awaits (h : Change A C me k s s') (hi : i ≠ me) (hl : s.live i = true)
    (hq : q.state.sends.isSome ∨ q.state.receives.isSome) (ha : Awaits A q (s.procs i)) : Awaits A q (s'.procs i) := by
  cases h with
  | control h =>
    cases h with
    | count | switch | resumed => exact ha
    | credit => exact awaits_modProc ha fun e => (e ▸ ha).congr rfl rfl rfl
    | @wakeIrq j line v hj hst =>
      rw [KState.wake, KState.enqueue_procs]
      refine awaits_modProc ha fun e => ?_
      -- it was parked in a rendezvous, not in a wait
      have hp := (e ▸ ha : Awaits A q (s.procs j)).parked (by rw [hst]; simp)
      rw [← hp.state, hst] at hq
      simp [ProcState.sends, ProcState.receives] at hq
    | deliver _ _ _ hst =>
      rw [Kernel.deliver, KState.enqueue_procs]
      exact awaits_modProc ha fun e => (e ▸ ha).delivered hst _ _ _ _
    | release _ _ _ hst =>
      rw [releaseSender, KState.enqueue_procs]
      exact awaits_modProc ha fun e => (e ▸ ha).released hst
    | message | persist => exact awaits_modProc ha fun e => absurd e hi
    | block =>
      rw [KState.dequeue_procs]
      exact awaits_modProc ha fun e => absurd e hi
  | @receive t ht hst hpend =>
    rw [takeMessage]
    split
    · rw [KState.setMem_procs, KState.setCr3_procs]
      exact awaits_modProc ha fun e => (e ▸ ha).taken hst
    · rw [KState.modProc_procs, KState.setCr3_procs, KState.modProc_procs, Table.put_self, Table.put_apply]
      split_ifs with he
      · exact (he ▸ ha).faulted hst hpend
      · rw [Table.put_of_ne _ he]; exact ha
  | still h => exact ha.congr (h.state i) (h.frame i) (h.pendingLen i)
  | revoke _ _ h =>
    exact wp_ok (wp_revoke (I := fun t : KState => Awaits A q (t.procs i)) ha fun d _ t ht => awaits_strip d ht hq) h
  | reap =>
    refine awaits_refusePeers ?_ hq
    rw [procs_reap, Table.put_of_ne _ hi]; exact ha
  | arrive _ h =>
    rw [h.other fun e => ?_]
    · exact ha
    · rw [e, h.free] at hl; exact absurd hl (by decide)

end Other

/-! ## Who can answer -/

theorem HasPeer.mono (h : HasPeer s i ep needed) (hl : ∀ j, s.live j = true → s'.live j = true)
    (hc : ∀ j, s.live j = true → capsHoldEndpoint (s.procs j).caps ep needed = true →
      capsHoldEndpoint (s'.procs j).caps ep needed = true) : HasPeer s' i ep needed := by
  obtain ⟨j, hj, hlj, hcj⟩ := h
  exact ⟨j, hj, hl j hlj, hc j hlj hcj⟩

/-- after a death, whoever is still parked in a rendezvous has somebody to answer it -/
theorem refusePeers_hasPeer (hi : i < MAX_PROCS) (h : awaited (refusePeers A s) i = some (ep, needed)) :
    HasPeer (refusePeers A s) i ep needed := by
  have loop : ∀ n, ∀ t, t = (List.range n).foldl (refuseUnanswerable A) s →
      ∀ i < n, ∀ ep needed, awaited t i = some (ep, needed) → HasPeer t i ep needed := by
    intro n
    induction n with
    | zero => rintro t rfl i hi; omega
    | succ n ih =>
      rintro t rfl i hi ep needed ha
      rw [List.range_succ, List.foldl_append, List.foldl_cons, List.foldl_nil] at ha ⊢
      have ih := ih _ rfl
      generalize (List.range n).foldl (refuseUnanswerable A) s = u at ha ih ⊢
      rw [refuseUnanswerable] at ha ⊢
      cases hn : awaited u n with
      | none =>
        rw [hn] at ha
        have hne : i ≠ n := fun e => by rw [e, hn] at ha; simp at ha
        exact ih i (by omega) ep needed ha
      | some en =>
        rw [hn] at ha
        simp only at ha ⊢
        split_ifs at ha ⊢ with hany
        · by_cases hin : i = n
          · subst hin
            obtain rfl : en = (ep, needed) := Option.some.inj (hn.symm.trans ha)
            obtain ⟨j, -, hj⟩ := anyIdx_iff.1 hany
            simp only [Bool.and_eq_true, bne_iff_ne] at hj
            exact ⟨j, hj.1.1, hj.1.2, hj.2⟩
          · exact ih i (by omega) ep needed ha
        · -- `n` is woken, nobody else changes
          have hne : i ≠ n := fun e => by
            rw [e, awaited, refuse, KState.enqueue_procs, KState.modProc_procs, Table.put_self] at ha
            simp at ha
          have hst : ((refuse A n u).procs i).state = (u.procs i).state := by
            rw [refuse, KState.enqueue_procs, KState.modProc_procs, Table.put_of_ne _ hne]
          rw [awaited, hst] at ha
          refine (ih i (by omega) ep needed ha).mono (fun j hj => ?_) fun j _ hc => by rw [caps_refuse]; exact hc
          rw [live_refuse (awaited_parked hn).2]; exact hj
  exact loop MAX_PROCS _ rfl i hi ep needed h

/-- what a process loses to a revocation the revoker keeps -/
theorem revoke_hasPeer {cap : ℕ} (hlin : Lineage s) (hi : i ≠ me) (h : HasPeer s i ep needed)
    (hrun : revokeDelegations A C me cap s = .ok ((), s')) : HasPeer s' i ep needed := by
  obtain ⟨hreach, -⟩ := revoke_reach hlin hrun
  obtain ⟨j, hj, hlj, hcj⟩ := h
  obtain ⟨c, sl, hsl, hfor⟩ := holdsCap_iff.1 hcj
  by_cases hkept : s'.capOf (s.endpointAt j c) = s.capOf (s.endpointAt j c)
  · rw [capOf_endpointAt hlj, hsl] at hkept
    obtain ⟨h1, -, h2⟩ := capOf_some hkept
    exact ⟨j, hj, h1, holdsCap_iff.2 ⟨c, sl, h2, hfor⟩⟩
  · -- it was the revoker's, which stays
    obtain ⟨⟨ca, cb, hca, hcb, ht, ho, hr⟩, -⟩ := hreach _ hkept
    rw [capOf_endpointAt hlj, hsl] at hcb
    obtain rfl := Option.some.inj hcb
    have hroot : s'.capOf (s.endpointAt me cap) = some ca := by
      rw [← hca]
      by_contra hne
      exact (hreach _ hne).2 rfl
    obtain ⟨h1, -, h2⟩ := capOf_some hroot
    obtain ⟨f1, f2, f3⟩ := forObject_iff.1 hfor
    exact ⟨me, hi.symm, h1, holdsCap_iff.2 ⟨cap, ca, h2, forObject_iff.2
      ⟨ht.symm.trans f1, ho.symm.trans f2, CapRights.contains_trans hr f3⟩⟩⟩

/-- **A move made for somebody else** leaves a process that stays parked somebody to answer it. -/
theorem Change.hasPeer (h : Change A C me k s s') (hlin : Lineage s) (hi : i ≠ me) (hlt : i < MAX_PROCS)
    (hp : HasPeer s i ep needed) (ha : awaited s' i = some (ep, needed)) : HasPeer s' i ep needed := by
  cases h with
  | control h =>
    refine hp.mono (fun j hj => (h.live j).trans hj) fun j _ hc => ?_
    rw [Process.caps_eq (h.quiet.authority j)]; exact hc
  | @receive t =>
    obtain ⟨⟨f, hf⟩, -⟩ := takeMessage_spec (A := A) t s
    refine hp.mono (fun j hj => ?_) fun j _ hc => ?_
    · rw [KState.live, Process.live, state_takeMessage]; exact hj
    · rw [hf, Table.put_apply]
      split_ifs with hjt
      · rw [hjt] at hc; exact hc
      · exact hc
  | still h => exact hp.mono (fun j hj => (h.live j).trans hj) fun j _ hc => (h.endpoint j ep needed).trans hc
  | revoke _ _ h => exact revoke_hasPeer hlin hi hp h
  | reap => exact refusePeers_hasPeer hlt ha
  | @arrive _ slot _ h =>
    have hne : ∀ j, s.live j = true → j ≠ slot := fun j hj e => by
      rw [e, h.free] at hj; exact absurd hj (by decide)
    refine hp.mono (fun j hj => ?_) fun j hj hc => ?_
    · rw [KState.live, h.other (hne j hj)]; exact hj
    · rw [h.other (hne j hj)]; exact hc

/-! ## One step -/

/-- the state a process awaits a peer in is its own -/
theorem awaited_congr {t : KState} (h : (t.procs i).state = (s.procs i).state) : awaited t i = awaited s i := by
  rw [awaited, awaited, h]

theorem awaited_rendezvous {en : ℕ × CapRights} (h : awaited s i = some en) :
    (s.procs i).state.sends.isSome ∨ (s.procs i).state.receives.isSome := by
  rw [awaited] at h
  cases hst : (s.procs i).state with
  | blockedSend => exact Or.inl rfl
  | blockedRecv => exact Or.inr rfl
  | _ => rw [hst] at h; simp at h

theorem Moves.awaits (hm : Moves A C G me k s s') (hi : i ≠ me) (hlt : i < MAX_PROCS) (hl : s.live i = true)
    (hlin : Lineage s) (hpend : (s.procs i).pendingLen = 0) (ha : awaited s i = some (ep, needed))
    (hp : HasPeer s i ep needed) :
    Awaits A (s.procs i) (s'.procs i) ∧ ((s'.procs i).state = (s.procs i).state → HasPeer s' i ep needed) := by
  have hq := awaited_rendezvous ha
  have hparked := awaited_parked ha
  suffices key : Lineage s' ∧ s'.live i = true ∧ Awaits A (s.procs i) (s'.procs i) ∧
      ((s'.procs i).state = (s.procs i).state → HasPeer s' i ep needed) from key.2.2
  refine Moves.keep (I := fun t => Lineage t ∧ t.live i = true ∧ Awaits A (s.procs i) (t.procs i) ∧
    ((t.procs i).state = (s.procs i).state → HasPeer t i ep needed)) (fun t u hstep ⟨h1, h2, h3, h4⟩ => ?_) hm
    ⟨hlin, hl, Or.inl ⟨rfl, rfl, hpend⟩, fun _ => hp⟩
  have hc := hstep.change
  have hu := hc.awaits hi h2 hq h3
  refine ⟨h1.move hstep, ?_, hu, fun hst => ?_⟩
  · rcases hu with hu | hu
    · rw [KState.live, Process.live, hu.state]; exact hl
    · rw [KState.live, Process.live, hu.state]; rfl
  · -- it is parked now, so it was before the move
    have hwas : (t.procs i).state = (s.procs i).state := by
      rcases h3 with h3 | h3
      · exact h3.state
      · rcases hc.state i with h | h | h | ⟨h, -⟩
        · exact h.symm.trans hst
        · exact absurd (hst.symm.trans h) hparked.1
        · exact absurd (hst.symm.trans h) hparked.2
        · exact absurd h hi
    exact hc.hasPeer h1 hi hlt (h4 hwas) ((awaited_congr hst).trans ha)

/-- **No step strands an answerable peer.** A process parked in `SEND` or `RECV` that somebody else could answer is, after
any step, parked in the same call with somebody else who could answer it, or ready, its call returned. -/
theorem no_peer_stranded {s₀ : KState} (h₀ : PreUserland A C s₀) (h : Reachable A C s₀ s) {inp : Input}
    (hstep : Step A C s inp s') (ha : awaited s i = some (ep, needed)) (hp : HasPeer s i ep needed) :
    ((s'.procs i).state = (s.procs i).state ∧ HasPeer s' i ep needed) ∨
    ((s'.procs i).state = .ready ∧ Answer A (s.procs i).state (s.procs i).frame (s'.procs i).frame) := by
  have hr := h.ready h₀
  obtain ⟨κ, hκ⟩ := h.traced
  have hparked := awaited_parked ha
  have hl : s.live i = true := by simpa [KState.live, Process.live] using hparked.2
  have hlt := hr.sched.slots i hl
  have hi : i ≠ s.caller := fun e => by
    cases hidle : s.idling with
    | true => rw [e, caller_parked hidle] at hlt; exact absurd hlt (by decide)
    | false =>
      rw [caller_awake hidle] at e
      exact hparked.1 (e ▸ hr.sched.current_ready (hr.running.awake hidle).1)
  obtain ⟨hm, -, -⟩ := hstep.moves hr (Gate.admits_all A s inp)
  obtain ⟨hw, hpeer⟩ := hm.awaits hi hlt hl (h.lineage h₀) ((hκ.kept h₀ i hl).pending hparked.1 hparked.2) ha hp
  rcases hw with hw | hw
  · exact Or.inl ⟨hw.state, hpeer hw.state⟩
  · exact Or.inr ⟨hw.state, hw.answer⟩

/-- the producer of the small machine can be answered before and after the tick -/
theorem smallTick_answerable :
    ((smallTick.procs 0).state = (smallSend.procs 0).state ∧ HasPeer smallTick 0 0 CapRights.READ) ∨
    ((smallTick.procs 0).state = .ready ∧
      Answer Riscv (smallSend.procs 0).state (smallSend.procs 0).frame (smallTick.procs 0).frame) :=
  have htick : Step Riscv (smallConfig emptyImage ROLE_GRANTS 0) smallSend (.timer UserFrame.ZERO) smallTick :=
    ⟨trivial, outcome_eq (by decide +kernel)⟩
  have hawaits : awaited smallSend 0 = some (0, CapRights.READ) := by decide +kernel
  no_peer_stranded (smallState_ready emptyImage ROLE_GRANTS 0) smallSend_reachable htick hawaits ⟨1, by decide, by decide +kernel⟩

end Rustproof.Kernel
