/-
Saved registers.

What a trap saved for a process stays, until the process runs again: `Kept A k p` is kept for every `p` by the moves made
for others, and by the moves made for `p` itself from the moment it is parked or its call's results are written
(`Move.kept`). The lemmas before it are one for each way a parked process is answered.
-/
import Rustproof.Kernel.Changes

namespace Rustproof.Kernel

open Lib Prog

variable {A : Arch} {C : Config} {G : Gate} {me : ℕ} {k κ : Trap}

namespace Kept

variable {p p' : Process}

theorem congr (h : Kept A κ p) (hstate : p'.state = p.state) (hframe : p'.frame = p.frame)
    (hpend : p'.pendingLen = p.pendingLen) : Kept A κ p' := by
  unfold Kept Process.live at h ⊢
  rw [hstate, hframe, hpend]
  exact h

/-- an empty slot has nothing to keep -/
theorem free (h : p.state = .free) : Kept A κ p := by
  unfold Kept Process.live
  rw [h]
  exact ⟨trivial, fun _ hl => absurd hl (by decide)⟩

/-- nothing is pending for a process that is parked -/
theorem pending (h : Kept A κ p) (hr : p.state ≠ .ready) (hf : p.state ≠ .free) : p.pendingLen = 0 := by
  by_contra hne
  exact hr (h.2 (Nat.pos_of_ne_zero hne) (by simpa [Process.live] using hf)).1

theorem of_ready {f : UserFrame} (hstate : p.state = .ready) (hpend : p.pendingLen = 0)
    (h : Returns A f p.frame) : Kept A (.syscall f) p := by
  unfold Kept
  rw [hstate, hpend]
  exact ⟨h, fun hp => absurd hp (lt_irrefl 0)⟩

/-- a call that is neither `YIELD` nor `RECV` returns one word -/
theorem returns_one {f : UserFrame} (hy : A.frameNum f ≠ sysno.YIELD) (hr : A.frameNum f ≠ sysno.RECV) (v : ℕ) :
    Returns A f (A.frameSetRet f v) := by
  rw [Returns, if_neg hy, if_neg hr]
  exact ⟨v, rfl⟩

theorem returns_recv {f : UserFrame} (h : A.frameNum f = sysno.RECV) (status word n : ℕ) :
    Returns A f (recvFrame A f status word n) := by
  rw [Returns, if_neg (by rw [h]; decide), if_pos h]
  exact ⟨status, word, n, rfl⟩

theorem send (h : Kept A κ p) {ep word len : ℕ} (hst : p.state = .blockedSend ep word len) :
    ∃ f, κ = .syscall f ∧ A.frameNum f = sysno.SEND ∧ p.frame = f ∧ p.pendingLen = 0 := by
  have hp := h.pending (by rw [hst]; simp) (by rw [hst]; simp)
  have h1 := h.1
  rw [hst] at h1
  obtain ⟨f, h1, h2, h3⟩ := h1
  exact ⟨f, h1, h2, h3, hp⟩

theorem recv (h : Kept A κ p) {ep dst max : ℕ} (hst : p.state = .blockedRecv ep dst max) :
    ∃ f, κ = .syscall f ∧ A.frameNum f = sysno.RECV ∧ p.frame = f ∧ p.pendingLen = 0 := by
  have hp := h.pending (by rw [hst]; simp) (by rw [hst]; simp)
  have h1 := h.1
  rw [hst] at h1
  obtain ⟨f, h1, h2, h3⟩ := h1
  exact ⟨f, h1, h2, h3, hp⟩

theorem irq (h : Kept A κ p) {line : ℕ} (hst : p.state = .blockedIrq line) :
    ∃ f, κ = .syscall f ∧ A.frameNum f = sysno.WAIT_IRQ ∧ p.frame = f ∧ p.pendingLen = 0 := by
  have hp := h.pending (by rw [hst]; simp) (by rw [hst]; simp)
  have h1 := h.1
  rw [hst] at h1
  obtain ⟨f, h1, h2, h3⟩ := h1
  exact ⟨f, h1, h2, h3, hp⟩

/-! ### The answers to a parked process -/

theorem woken (h : Kept A κ p) {line : ℕ} (hst : p.state = .blockedIrq line) (v : ℕ) :
    Kept A κ { p with frame := A.frameSetRet p.frame v, state := .ready } := by
  obtain ⟨f, rfl, hnum, hf, hp⟩ := h.irq hst
  refine of_ready rfl hp ?_
  rw [hf]
  exact returns_one (by rw [hnum]; decide) (by rw [hnum]; decide) v

theorem released (h : Kept A κ p) {ep word len : ℕ} (hst : p.state = .blockedSend ep word len) :
    Kept A κ { p with frame := A.frameSetRet p.frame syserr.OK, msgLen := 0, state := .ready } := by
  obtain ⟨f, rfl, hnum, hf, hp⟩ := h.send hst
  refine of_ready rfl hp ?_
  rw [hf]
  exact returns_one (by rw [hnum]; decide) (by rw [hnum]; decide) _

theorem delivered (h : Kept A κ p) {ep dst max : ℕ} (hst : p.state = .blockedRecv ep dst max) (msg : Table Byte)
    (d n word : ℕ) :
    Kept A κ { p with
      msg := msg
      pendingDst := d
      pendingLen := n
      frame := A.frameSetRet3 (A.frameSetRet2 (A.frameSetRet p.frame syserr.OK) word) n
      state := .ready } := by
  obtain ⟨f, rfl, hnum, hf, -⟩ := h.recv hst
  refine ⟨?_, fun _ _ => ⟨rfl, f, rfl, hnum⟩⟩
  show Returns A f _
  rw [hf]
  exact returns_recv hnum _ _ _

theorem refused (h : Kept A κ p) (hr : p.state ≠ .ready) (hf : p.state ≠ .free) :
    Kept A κ { p with frame := refuseFrame A p.state.isRecv p.frame, state := .ready, pendingLen := 0 } := by
  cases hst : p.state with
  | free => exact absurd hst hf
  | ready => exact absurd hst hr
  | blockedSend ep word len =>
    obtain ⟨f, rfl, hnum, hf, -⟩ := h.send hst
    refine of_ready rfl rfl ?_
    rw [hf]
    exact returns_one (by rw [hnum]; decide) (by rw [hnum]; decide) _
  | blockedRecv ep dst max =>
    obtain ⟨f, rfl, hnum, hf, -⟩ := h.recv hst
    refine of_ready rfl rfl ?_
    rw [hf]
    exact returns_recv hnum _ _ _
  | blockedIrq line =>
    obtain ⟨f, rfl, hnum, hf, -⟩ := h.irq hst
    refine of_ready rfl rfl ?_
    rw [hf]
    exact returns_one (by rw [hnum]; decide) (by rw [hnum]; decide) _

/-- the message a returned `RECV` was left with could not be copied out -/
theorem faulted (h : Kept A κ p) (hl : p.live = true) (hp : 0 < p.pendingLen) :
    Kept A κ { p with pendingLen := 0, frame := faultFrame A p.frame } := by
  obtain ⟨hst, f, rfl, hnum⟩ := h.2 hp hl
  have h1 := h.1
  rw [hst] at h1
  have h1 : Returns A f p.frame := h1
  refine of_ready hst rfl ?_
  rw [Returns, if_neg (by rw [hnum]; decide), if_pos hnum] at h1 ⊢
  obtain ⟨status, word, n, hf⟩ := h1
  refine ⟨syserr.FAULT, word, 0, ?_⟩
  show faultFrame A p.frame = _
  rw [hf, faultFrame, recvFrame, recvFrame, A.ret_again]

end Kept

/-! ## Steps -/

variable {s s' : KState} {q : ℕ}

theorem kept_modProc {i : ℕ} {f : Process → Process} (h : Kept A κ (s.procs q))
    (hf : q = i → Kept A κ (f (s.procs i))) : Kept A κ ((s.modProc i f).procs q) := by
  rw [KState.modProc_procs, Table.put_apply]
  split_ifs with hq
  · exact hf hq
  · exact h

/-- a parked process is saved on the frame of its call -/
theorem MayPark.kept {st : ProcState} {p : Process} (h : MayPark A me k s st) (hpend : p.pendingLen = 0) :
    Kept A k { p with state := st, frame := k.frame } := by
  have hnot : ¬ 0 < p.pendingLen := by omega
  cases st with
  | free | ready => exact absurd h (by simp [MayPark])
  | blockedSend ep word len =>
    obtain ⟨-, -, -, f, rfl, hnum⟩ := h
    exact ⟨⟨f, rfl, hnum, rfl⟩, fun hp => absurd hp hnot⟩
  | blockedRecv ep dst max =>
    obtain ⟨-, -, -, -, f, rfl, hnum⟩ := h
    exact ⟨⟨f, rfl, hnum, rfl⟩, fun hp => absurd hp hnot⟩
  | blockedIrq line =>
    obtain ⟨-, f, rfl, hnum⟩ := h
    exact ⟨⟨f, rfl, hnum, rfl⟩, fun hp => absurd hp hnot⟩

theorem state_modProc {i : ℕ} {f : Process → Process} (hf : (f (s.procs i)).state = (s.procs i).state) (q : ℕ) :
    ((s.modProc i f).procs q).state = (s.procs q).state := by
  rw [KState.modProc_procs, Table.put_apply]
  split_ifs with hq
  · rw [hq]; exact hf
  · rfl

theorem Control.kept (h : Control A me k s s') (hq : q = me → κ = k) (hk : Kept A κ (s.procs q)) :
    Kept A κ (s'.procs q) := by
  cases h with
  | count | switch | resumed => exact hk
  | credit => exact kept_modProc hk fun e => (e ▸ hk).congr rfl rfl rfl
  | wakeIrq hi hst =>
    rw [KState.wake, KState.enqueue_procs]
    exact kept_modProc hk fun e => (e ▸ hk).woken hst _
  | deliver _ _ hr hst =>
    rw [Kernel.deliver, KState.enqueue_procs]
    exact kept_modProc hk fun e => (e ▸ hk).delivered hst _ _ _ _
  | release _ _ hi hst =>
    rw [releaseSender, KState.enqueue_procs]
    exact kept_modProc hk fun e => (e ▸ hk).released hst
  | message => exact kept_modProc hk fun e => (e ▸ hk).congr rfl rfl rfl
  | block hme hst hpark hpend =>
    rw [KState.dequeue_procs]
    refine kept_modProc hk fun e => ?_
    rw [hq e]
    exact hpark.kept hpend
  | persist f hf =>
    refine kept_modProc hk fun e => ?_
    rw [hq e]
    cases hl : s.live me with
    | true => exact hf hl
    | false => exact Kept.free (by simpa [KState.live, Process.live] using hl)

theorem Still.kept (h : Still s s') (hk : Kept A κ (s.procs q)) : Kept A κ (s'.procs q) :=
  hk.congr (h.state q) (h.frame q) (h.pendingLen q)

theorem kept_refuse {i : ℕ} (hk : Kept A κ (s.procs q)) (hr : (s.procs i).state ≠ .ready)
    (hf : (s.procs i).state ≠ .free) : Kept A κ ((refuse A i s).procs q) := by
  rw [refuse, KState.enqueue_procs]
  exact kept_modProc hk fun e => (e ▸ hk).refused hr hf

theorem kept_settle {p : ℕ} (hk : Kept A κ (s.procs q)) : Kept A κ ((settle A p s).procs q) := by
  have h1 : Kept A κ ((dropCredits p s).procs q) := kept_modProc hk fun e => (e ▸ hk).congr rfl rfl rfl
  rw [settle]
  split_ifs with hst
  · exact kept_refuse h1 (stranded_parked hst).1 (stranded_parked hst).2
  · exact h1

/-- who a death leaves without an answer is parked sending or receiving -/
theorem awaited_parked {i : ℕ} {en : ℕ × CapRights} (h : awaited s i = some en) :
    (s.procs i).state ≠ .ready ∧ (s.procs i).state ≠ .free := by
  rw [awaited] at h
  constructor <;> intro hst <;> rw [hst] at h <;> simp at h

theorem kept_refusePeers (hk : Kept A κ (s.procs q)) : Kept A κ ((refusePeers A s).procs q) := by
  rw [refusePeers]
  refine List.foldlRecOn (motive := fun t : KState => Kept A κ (t.procs q)) _ _ hk fun t ht i _ => ?_
  rw [refuseUnanswerable]
  cases h : awaited t i with
  | none => exact ht
  | some en =>
    simp only
    split_ifs
    · exact ht
    · exact kept_refuse ht (awaited_parked h).1 (awaited_parked h).2

theorem procs_reap (p : ℕ) (s : KState) :
    (reap p s).procs = s.procs.put p { s.procs p with frames := [], state := .free } := by
  funext j
  simp only [reap, KState.dequeue_procs, KState.modProc_procs, Table.put_apply]
  split_ifs <;> rfl

theorem kept_reap {p : ℕ} (hk : Kept A κ (s.procs q)) : Kept A κ ((reap p s).procs q) := by
  rw [procs_reap, Table.put_apply]
  split_ifs
  · exact Kept.free rfl
  · exact hk

/-- taking a message changes the receiver's frame at most, and activates its tables -/
theorem takeMessage_spec (t : ℕ) (s : KState) : (∃ f, (takeMessage A t s).procs =
      s.procs.put t { s.procs t with pendingLen := 0, frame := f }) ∧
    (takeMessage A t s).sched = s.sched ∧ (takeMessage A t s).current = s.current ∧
    (takeMessage A t s).idling = s.idling ∧ (takeMessage A t s).cr3 = (s.procs t).token ∧
    (takeMessage A t s).w.history = s.w.history := by
  rw [takeMessage]
  split
  · exact ⟨⟨(s.procs t).frame, rfl⟩, rfl, rfl, rfl, rfl, rfl⟩
  · refine ⟨⟨faultFrame A (s.procs t).frame, ?_⟩, rfl, rfl, rfl, rfl, rfl⟩
    rw [KState.modProc_procs, KState.setCr3_procs, KState.modProc_procs, Table.put_self]
    funext j
    simp only [Table.put_apply]
    split_ifs <;> rfl

theorem kept_takeMessage {t : ℕ} (ht : s.Alive t) (hp : 0 < (s.procs t).pendingLen) (hk : Kept A κ (s.procs q)) :
    Kept A κ ((takeMessage A t s).procs q) := by
  rw [takeMessage]
  split
  · rw [KState.setMem_procs, KState.setCr3_procs]
    refine kept_modProc hk fun e => ?_
    subst e
    exact ⟨hk.1, fun h0 => absurd h0 (lt_irrefl 0)⟩
  · rw [KState.modProc_procs, KState.setCr3_procs, KState.modProc_procs, Table.put_self, Table.put_apply]
    split_ifs with hq
    · rw [← hq] at hp ht ⊢
      exact hk.faulted ht.2 hp
    · rw [Table.put_of_ne _ hq]; exact hk

theorem kept_strip (d : Deleg.Endpoint) (hk : Kept A κ (s.procs q)) :
    wp (strip A C d) (fun _ t => Kept A κ (t.procs q)) (· = .ringFull) s := by
  refine wp_mono (strip_spec d s) fun _ t ht => ?_
  rcases ht with rfl | ⟨-, -, v, hv, rfl⟩
  · exact hk
  · exact kept_settle (hv.toStill.kept (kept_modProc hk fun e => (e ▸ hk).congr rfl rfl rfl))

/-- **A move keeps what is saved.** The exception is the caller's own frame before its call's results are in it. -/
theorem Change.kept (h : Change A C me k s s') (hq : q = me → κ = k) (hl : s.live q = true) (hk : Kept A κ (s.procs q)) :
    Kept A κ (s'.procs q) := by
  cases h with
  | control h => exact h.kept hq hk
  | receive ht _ hp => exact kept_takeMessage ht hp hk
  | still h => exact h.kept hk
  | revoke _ _ h => exact wp_ok (wp_revoke (I := fun t : KState => Kept A κ (t.procs q)) hk fun d _ t ht => kept_strip d ht) h
  | reap => exact kept_refusePeers (kept_reap hk)
  | arrive _ h =>
    rw [h.other fun e => ?_]
    · exact hk
    · rw [e, h.free] at hl; exact absurd hl (by decide)

/-! ## Who lives, and as whom -/

/-- what a process is loaded as -/
def Process.who (p : Process) : ℕ × Role × ℕ := (p.id, p.role, p.token)

theorem who_modProc {i : ℕ} {f : Process → Process} (hf : (f (s.procs i)).who = (s.procs i).who) (q : ℕ) :
    ((s.modProc i f).procs q).who = (s.procs q).who := by
  rw [KState.modProc_procs, Table.put_apply]
  split_ifs with hq
  · rw [hq]; exact hf
  · rfl

theorem who_refusePeers (s : KState) (q : ℕ) : ((refusePeers A s).procs q).who = (s.procs q).who := by
  rw [refusePeers]
  refine List.foldlRecOn (motive := fun t : KState => (t.procs q).who = (s.procs q).who) _ _ rfl fun t ht i _ => ?_
  rw [refuseUnanswerable]
  cases awaited t i with
  | none => exact ht
  | some en =>
    simp only
    split_ifs
    · exact ht
    · rw [← ht, refuse, KState.enqueue_procs]
      exact who_modProc rfl q

theorem Control.who (h : Control A me k s s') (q : ℕ) : (s'.procs q).who = (s.procs q).who := by
  cases h with
  | count | switch | resumed => rfl
  | credit | message | persist => exact who_modProc rfl q
  | wakeIrq => rw [KState.wake, KState.enqueue_procs]; exact who_modProc rfl q
  | deliver => rw [Kernel.deliver, KState.enqueue_procs]; exact who_modProc rfl q
  | release => rw [releaseSender, KState.enqueue_procs]; exact who_modProc rfl q
  | block => rw [KState.dequeue_procs]; exact who_modProc rfl q

theorem who_settle (p : ℕ) (s : KState) (q : ℕ) : ((settle A p s).procs q).who = (s.procs q).who := by
  have h1 : ((dropCredits p s).procs q).who = (s.procs q).who := who_modProc rfl q
  rw [settle]
  split_ifs
  · rw [refuse, KState.enqueue_procs]
    exact (who_modProc rfl q).trans h1
  · exact h1

theorem Still.who (h : Still s s') (q : ℕ) : (s'.procs q).who = (s.procs q).who := by
  obtain ⟨c, fr, sh, d, hp⟩ := h.proc q
  rw [hp]; rfl

theorem who_strip (d : Deleg.Endpoint) (s : KState) (q : ℕ) :
    wp (strip A C d) (fun _ t => (t.procs q).who = (s.procs q).who) (· = .ringFull) s := by
  refine wp_mono (strip_spec d s) fun _ t ht => ?_
  rcases ht with rfl | ⟨-, -, v, hv, rfl⟩
  · rfl
  · exact ((who_settle d.proc v q).trans (hv.toStill.who q)).trans (who_modProc rfl q)

/-- a process stays who it is -/
theorem Change.who (h : Change A C me k s s') (hl : s.live q = true) : (s'.procs q).who = (s.procs q).who := by
  cases h with
  | control h => exact h.who q
  | @receive t =>
    obtain ⟨⟨f, hf⟩, -⟩ := takeMessage_spec (A := A) t s
    rw [hf, Table.put_apply]
    split_ifs with hq
    · rw [hq]; rfl
    · rfl
  | still h => exact h.who q
  | revoke _ _ h =>
    have hstrip : ∀ (d : Deleg.Endpoint) (t : KState), (t.procs q).who = (s.procs q).who →
        wp (strip A C d) (fun _ u => (u.procs q).who = (s.procs q).who) (· = .ringFull) t :=
      fun d t ht => wp_mono (who_strip d t q) fun _ _ hu => hu.trans ht
    exact wp_ok (wp_revoke (I := fun t : KState => (t.procs q).who = (s.procs q).who) rfl fun d _ => hstrip d) h
  | reap =>
    rw [who_refusePeers, procs_reap, Table.put_apply]
    split_ifs with hq
    · rw [hq]; rfl
    · rfl
  | arrive _ h =>
    rw [h.other fun e => ?_]
    rw [e, h.free] at hl; exact absurd hl (by decide)

theorem live_refusePeers (s : KState) (q : ℕ) : (refusePeers A s).live q = s.live q := (steady_refusePeers A s).live q

/-- a control step leaves a process as it was, wakes it, or parks the caller -/
theorem Control.state (h : Control A me k s s') (q : ℕ) :
    (s'.procs q).state = (s.procs q).state ∨
    ((s.procs q).state ≠ .ready ∧ (s.procs q).state ≠ .free ∧ (s'.procs q).state = .ready) ∨
    q = me ∧ (s.procs me).state = .ready ∧ MayPark A me k s (s'.procs me).state := by
  have woke : ∀ {i : ℕ} {f : Process → Process}, (s.procs i).state ≠ .ready → (s.procs i).state ≠ .free →
      (f (s.procs i)).state = .ready → ((s.modProc i f).procs q).state = (s.procs q).state ∨
        (s.procs q).state ≠ .ready ∧ (s.procs q).state ≠ .free ∧ ((s.modProc i f).procs q).state = .ready :=
    fun {i f} h1 h2 hf => by
      rw [KState.modProc_procs, Table.put_apply]
      split_ifs with hq
      · rw [hq]; exact Or.inr ⟨h1, h2, hf⟩
      · exact Or.inl rfl
  cases h with
  | count | switch | resumed => exact Or.inl rfl
  | credit | message | persist => exact Or.inl (state_modProc rfl q)
  | wakeIrq _ hst =>
    rw [KState.wake, KState.enqueue_procs]
    exact (woke (by simp [hst]) (by simp [hst]) rfl).imp_right Or.inl
  | deliver _ _ _ hst =>
    rw [Kernel.deliver, KState.enqueue_procs]
    exact (woke (by simp [hst]) (by simp [hst]) rfl).imp_right Or.inl
  | release _ _ _ hst =>
    rw [releaseSender, KState.enqueue_procs]
    exact (woke (by simp [hst]) (by simp [hst]) rfl).imp_right Or.inl
  | block hme hst hpark =>
    rw [KState.dequeue_procs, KState.modProc_procs, Table.put_apply, Table.put_self]
    split_ifs with hq
    · exact Or.inr (Or.inr ⟨hq, hst, hpark⟩)
    · exact Or.inl rfl

/-- a state somebody is parked in is not an empty slot -/
theorem MayPark.live {st : ProcState} (h : MayPark A me k s st) : st ≠ .free := by
  rintro rfl
  simp [MayPark] at h

theorem Control.live (h : Control A me k s s') (q : ℕ) : s'.live q = s.live q := by
  rw [KState.live, KState.live, Process.live, Process.live]
  rcases h.state q with he | ⟨-, hf, hr⟩ | ⟨rfl, hr, hpark⟩
  · rw [he]
  · rw [hr, (bne_iff_ne (b := ProcState.free)).2 hf]; rfl
  · rw [hr, (bne_iff_ne (b := ProcState.free)).2 hpark.live]; rfl

theorem state_takeMessage (t : ℕ) (s : KState) (q : ℕ) : ((takeMessage A t s).procs q).state = (s.procs q).state := by
  obtain ⟨⟨f, hf⟩, -⟩ := takeMessage_spec (A := A) t s
  rw [hf, Table.put_apply]
  split_ifs with hq
  · rw [hq]
  · rfl

theorem revoke_steady {cap : ℕ} (hslots : ∀ i, s.live i = true → i < MAX_PROCS)
    (h : revokeDelegations A C me cap s = .ok ((), s')) : Steady s s' := by
  have hled : Steady s { s with ledger := (s.ledger.revokeFrom (s.endpointAt me cap) MAX_DELEGATIONS).1 } :=
    Steady.of_control rfl rfl rfl rfl rfl fun _ => id
  have hstrip : ∀ (d : Deleg.Endpoint) (t : KState), Steady s t → wp (strip A C d) (fun _ => Steady s) (· = .ringFull) t :=
    fun d t ht => wp_mono (steady_strip d fun i hi => hslots i (by rwa [ht.live] at hi)) fun _ _ hu => ht.trans hu
  exact wp_ok (wp_revoke (I := Steady s) hled fun d _ => hstrip d) h

theorem live_refuse {i : ℕ} (hf : (s.procs i).state ≠ .free) (q : ℕ) : (refuse A i s).live q = s.live q := by
  rw [KState.live, KState.live, refuse, KState.enqueue_procs, KState.modProc_procs, Table.put_apply]
  split_ifs with hq
  · rw [hq, Process.live, Process.live, (bne_iff_ne (b := ProcState.free)).2 hf]; rfl
  · rfl

theorem live_strip (d : Deleg.Endpoint) (s : KState) (q : ℕ) :
    wp (strip A C d) (fun _ t => t.live q = s.live q) (· = .ringFull) s := by
  refine wp_mono (strip_spec d s) fun _ t ht => ?_
  rcases ht with rfl | ⟨-, -, v, hv, rfl⟩
  · rfl
  have h1 : v.live q = s.live q := by
    rw [hv.toStill.live, KState.live, KState.live, Process.live, Process.live, state_modProc rfl q]
  have h2 : (dropCredits d.proc v).live q = v.live q := by
    rw [KState.live, KState.live, Process.live, Process.live, dropCredits, state_modProc rfl q]
  rw [settle]
  split_ifs with hst
  · exact ((live_refuse (stranded_parked hst).2 q).trans h2).trans h1
  · exact h2.trans h1

/-- the first registers of a process of this kernel's image -/
def FirstFrame (A : Arch) (C : Config) (id : ℕ) (f : UserFrame) : Prop :=
  ∃ hd, Loader.readHeader A C.userElf = .ok hd ∧ f = A.frameInit hd.entry A.userStackTop id

/-- a process that was loaded and has not run yet -/
def Newcomer (A : Arch) (C : Config) (p : Process) : Prop := ∃ f, FirstFrame A C p.id f ∧ Kept A (.fresh f) p

theorem Arrives.newcomer {t : KState} {slot : ℕ} (h : Arrives A C slot s t) :
    (t.enqueue slot).live slot = true ∧ Newcomer A C ((t.enqueue slot).procs slot) := by
  obtain ⟨token, hd, idArg, role, frames, caps, hhd, hproc⟩ := h.proc
  rw [KState.live, KState.enqueue_procs, hproc, Table.put_self]
  exact ⟨rfl, _, ⟨hd, hhd, rfl⟩, rfl, fun h0 => absurd h0 (lt_irrefl 0)⟩

/-- the caller may die, and empty slots may be taken; nobody else comes or goes -/
theorem Change.live (h : Change A C me k s s') (q : ℕ) : s'.live q = s.live q ∨ (q = me ∧ s'.live q = false) ∨
    (s.live q = false ∧ (me = NOBODY ∨ s.Alive me) ∧ q < MAX_PROCS ∧ s'.live q = true ∧ Newcomer A C (s'.procs q)) := by
  cases h with
  | control h => exact Or.inl (h.live q)
  | receive =>
    left
    rw [KState.live, KState.live, Process.live, Process.live, state_takeMessage]
  | still h => exact Or.inl (h.live q)
  | revoke _ _ h =>
    have hstrip : ∀ (d : Deleg.Endpoint) (t : KState), t.live q = s.live q →
        wp (strip A C d) (fun _ u => u.live q = s.live q) (· = .ringFull) t :=
      fun d t ht => wp_mono (live_strip d t q) fun _ _ hu => hu.trans ht
    exact Or.inl (wp_ok (wp_revoke (I := fun t : KState => t.live q = s.live q) rfl fun d _ => hstrip d) h)
  | reap =>
    rw [live_refusePeers]
    rw [KState.live, KState.live, procs_reap, Table.put_apply]
    split_ifs with hq
    · exact Or.inr (Or.inl ⟨hq, rfl⟩)
    · exact Or.inl rfl
  | @arrive _ slot hme h =>
    by_cases hq : q = slot
    · subst hq
      exact Or.inr (Or.inr ⟨h.free, hme, h.lt, h.newcomer⟩)
    · left
      rw [KState.live, KState.live, h.other hq]

/-! ## Runs of moves -/

/-- whoever lives and is not the caller lives on, as itself, on what was saved for it -/
theorem Moves.other (hm : Moves A C G me k s s') (hq : q ≠ me) (hl : s.live q = true) :
    s'.live q = true ∧ (s'.procs q).who = (s.procs q).who ∧ ∀ κ, Kept A κ (s.procs q) → Kept A κ (s'.procs q) := by
  induction hm with
  | refl => exact ⟨hl, rfl, fun _ => id⟩
  | tail _ hstep ih =>
    obtain ⟨h1, h2, h3⟩ := ih
    have hc := hstep.change
    refine ⟨?_, (hc.who h1).trans h2, fun κ hk => hc.kept (fun e => absurd e hq) h1 (h3 κ hk)⟩
    rcases hc.live q with h | ⟨h, -⟩ | ⟨h, -⟩
    · rw [h]; exact h1
    · exact absurd h hq
    · rw [h1] at h; exact absurd h (by decide)

/-- once the caller is parked, dead, or has its results, its own moves keep its registers too -/
theorem Moves.own (hm : Moves A C G me k s s') (hme : me ≠ NOBODY) (hk : Kept A k (s.procs me)) :
    Kept A k (s'.procs me) := by
  refine Moves.keep (I := fun t => Kept A k (t.procs me)) (fun t u hstep ht => ?_) hm hk
  have hc := hstep.change
  cases hl : t.live me with
  | true => exact hc.kept (fun _ => rfl) hl ht
  | false =>
    refine Kept.free ?_
    rcases hc.live me with h | ⟨-, h⟩ | ⟨-, h | h, -⟩
    · rw [hl] at h; simpa [KState.live, Process.live] using h
    · simpa [KState.live, Process.live] using h
    · exact absurd h hme
    · rw [h.2] at hl; exact absurd hl (by decide)

/-- a dead caller does not come back -/
theorem Moves.dead (hm : Moves A C G me k s s') (hme : me ≠ NOBODY) (hl : s.live me = false) : s'.live me = false := by
  refine Moves.keep (I := fun t => t.live me = false) (fun t u hstep ht => ?_) hm hl
  rcases hstep.change.live me with h | ⟨-, h⟩ | ⟨-, h | h, -⟩
  · rw [h]; exact ht
  · exact h
  · exact absurd h hme
  · rw [h.2] at ht; exact absurd ht (by decide)

/-- who was not there before is a newcomer -/
theorem Moves.newcomer (hm : Moves A C G me k s s') (hl : s.live q = false)
    (hl' : s'.live q = true) : Newcomer A C (s'.procs q) := by
  suffices key : s'.live q = false ∨ q ≠ me ∧ s'.live q = true ∧ Newcomer A C (s'.procs q) by
    rcases key with h | ⟨-, -, h⟩
    · rw [hl'] at h; exact absurd h (by decide)
    · exact h
  refine Moves.keep (I := fun t => t.live q = false ∨ q ≠ me ∧ t.live q = true ∧ Newcomer A C (t.procs q))
    (fun t u hstep ht => ?_) hm (Or.inl hl)
  have hc := hstep.change
  rcases ht with ht | ⟨hq, ht, f, hf, hk⟩
  · rcases hc.live q with h | ⟨-, h⟩ | ⟨-, hwho, hlt, h1, h2⟩
    · exact Or.inl (h.trans ht)
    · exact Or.inl h
    · refine Or.inr ⟨fun e => ?_, h1, h2⟩
      rcases hwho with h | h
      · rw [e, h] at hlt; exact absurd hlt (by decide)
      · rw [e, h.2] at ht; exact absurd ht (by decide)
  · refine Or.inr ⟨hq, ?_, f, ?_, hc.kept (fun e => absurd e hq) ht hk⟩
    · rcases hc.live q with h | ⟨h, -⟩ | ⟨h, -⟩
      · rw [h]; exact ht
      · exact absurd h hq
      · rw [ht] at h; exact absurd h (by decide)
    · have hid : (u.procs q).id = (t.procs q).id := congrArg (·.1) (hc.who ht)
      rw [hid]; exact hf

end Rustproof.Kernel
