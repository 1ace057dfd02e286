/-
Interrupt credits.

The runs here are the kernel's, with `credit_irq` on any line as one more thing that may happen between two inputs
(`Interleaved`); the kernel itself calls it for the timer and the console only.
- `Stays`: a step that is neither an interrupt nor a call that collects credits leaves a holder's count, and its wait, as
  they were (`Moves.stays`).
- `creditProc_eq`: what one call of `credit_irq` does to one process.
- `Occurs.conserves`: over one step of either kind, what is returned and what is left is what was there and what came.
- `credits_conserved` adds the steps up, for a process that has held the line since it was loaded.
-/
import Rustproof.Kernel.Accounts
import Rustproof.Kernel.Authority

namespace Rustproof.Kernel

open Lib Prog

variable {A : Arch} {C : Config} {G : Gate} {me : ℕ} {k : Trap} {s t : KState}

/-! ## Interleavings -/

/-- one input, or one call of `credit_irq` by itself -/
inductive Happening where
  | input (i : Input)
  | credit (line : ℕ)

/-- a credit that finds the kernel parked runs whoever it woke -/
def Occurs (A : Arch) (C : Config) (s : KState) : Happening → KState → Prop
  | .input i, t => Step A C s i t
  | .credit line, t => t = if s.idling = true then wakeIdle A line s else creditIrq A line s

/-- the states of every interleaving from `s₀` -/
inductive Interleaved (A : Arch) (C : Config) (s₀ : KState) : KState → Prop where
  | boot {s : KState} : bootUserland A C s₀ = .ok ((), s) → Interleaved A C s₀ s
  | occur {s t : KState} {e : Happening} : Interleaved A C s₀ s → Occurs A C s e t → Interleaved A C s₀ t

/-- a run is an interleaving -/
theorem Reachable.interleaved {s₀ : KState} (h : Reachable A C s₀ s) : Interleaved A C s₀ s := by
  induction h with
  | boot h => exact .boot h
  | @step s t i _ hstep ih => exact .occur (e := .input i) ih hstep

/-- who the kernel acts for, and as what -/
def Happening.caller (s : KState) : Happening → ℕ
  | .input _ => s.caller
  | .credit _ => NOBODY

def Happening.trap (A : Arch) (s : KState) : Happening → Trap
  | .input i => i.trap A s
  | .credit _ => .interrupt UserFrame.ZERO

/-- whatever happens is a sequence of moves, and leaves the kernel ready -/
theorem Occurs.moves {e : Happening} (h : Ready s) (ho : Occurs A C s e t) :
    Moves A C Gate.all (e.caller s) (e.trap A s) s t ∧ Ready t := by
  cases e with
  | input i =>
    obtain ⟨hm, hr, -⟩ := Step.moves h ho (Gate.admits_all A s i)
    exact ⟨hm, hr⟩
  | credit line =>
    have ht : t = if s.idling = true then wakeIdle A line s else creditIrq A line s := ho
    rw [ht]
    split_ifs with hi
    · exact wakeIdle_moves (k := .interrupt UserFrame.ZERO) h hi trivial line
    · obtain ⟨hc, hs⟩ := hush_creditIrq (A := A) (k := .interrupt UserFrame.ZERO) NOBODY trivial line s
      have hm : Moves A C Gate.all NOBODY (.interrupt UserFrame.ZERO) s (creditIrq A line s) :=
        hc.lift id fun _ _ h => .control h
      have hi' : s.idling = false := by simpa using hi
      exact ⟨hm, hs.sched h.sched, hs.running h.sched h.running hi', hm.ids h.ids⟩

theorem Interleaved.ready {s₀ : KState} (h₀ : PreUserland A C s₀) (h : Interleaved A C s₀ s) : Ready s := by
  induction h with
  | boot h => exact (wp_ok (boot_moves (G := Gate.all) (k := .fresh UserFrame.ZERO) h₀) h).2
  | occur _ ho ih => exact (ho.moves ih).2

/-- what the hand-off establishes and every move keeps holds in every interleaving -/
theorem Interleaved.keep {I : KState → Prop} {s₀ : KState} (h₀ : PreUserland A C s₀) (hI : I s₀)
    (hmove : ∀ {me k s t}, Move A C Gate.all me k s t → I s → I t) (h : Interleaved A C s₀ s) : I s := by
  induction h with
  | boot h => exact Moves.keep (fun _ _ => hmove) (wp_ok (boot_moves (G := Gate.all) (k := .fresh UserFrame.ZERO) h₀) h).1 hI
  | occur h ho ih => exact Moves.keep (fun _ _ => hmove) (ho.moves (h.ready h₀)).1 ih

/-- every live process's registers are saved for something, in every interleaving -/
theorem Interleaved.saved {s₀ : KState} (h₀ : PreUserland A C s₀) (h : Interleaved A C s₀ s) (q : ℕ)
    (hl : s.live q = true) : ∃ κ, Kept A κ (s.procs q) := by
  induction h with
  | @boot s h =>
    obtain ⟨hm, -⟩ := wp_ok (boot_moves (G := Gate.all) (k := .fresh UserFrame.ZERO) h₀) h
    obtain ⟨f, -, hk⟩ := hm.newcomer (q := q) (by rw [KState.live, h₀.noProcs]; rfl) hl
    exact ⟨_, hk⟩
  | @occur s t e hrun ho ih =>
    have hr := hrun.ready h₀
    obtain ⟨hm, hrt⟩ := ho.moves hr
    cases hls : s.live q with
    | false =>
      obtain ⟨f, -, hk⟩ := hm.newcomer hls hl
      exact ⟨_, hk⟩
    | true =>
      obtain ⟨κ, hκ⟩ := ih hls
      have hne : q ≠ NOBODY := fun e => absurd (e ▸ hr.sched.slots q hls) (by decide)
      by_cases hq : q = e.caller s
      · -- the caller's are those of the entry; a store is no entry and leaves them alone
        cases e with
        | credit line => exact absurd hq hne
        | input i =>
          have hq' : q = s.caller := hq
          cases hi : s.idling with
          | true => exact absurd (hq'.trans (caller_parked hi)) hne
          | false =>
            rw [hq', caller_awake hi]
            cases hent : i.enters with
            | true => exact ⟨_, (Step.moves hr ho (Gate.admits_all A s i)).2.2 hi hent⟩
            | false =>
              cases i with
              | store va b =>
                obtain ⟨-, hrun⟩ := ho
                injection hrun with hrun
                injection hrun with _ ht
                rw [← ht, ← caller_awake hi, ← hq']
                exact ⟨κ, hκ⟩
              | _ => simp [Input.enters] at hent
      · exact ⟨κ, (hm.other hq hls).2.2 _ hκ⟩

/-! ## Lines -/

/-- the boot grants no line the kernel does not deliver -/
def GrantsDeliver (A : Arch) (C : Config) : Prop := ∀ b, Granted A C b → b.capType = .irq → deliversIrq b.object = true

/-- a role that was loaded is granted no line the kernel does not deliver -/
theorem grants_deliver {slot id : ℕ} {role : Role} (h : loadProcess A C slot id role s = .ok (true, t)) {i : ℕ}
    {b : Capabilities.CapSlot} (hb : (mintGrants A C role).lookup i = some b) (hirq : b.capType = .irq) :
    deliversIrq b.object = true := by
  obtain ⟨g, hg, rfl⟩ := mintGrants_lookup hb
  have hgate : ¬((grantsFor C role).any fun g => g.1 == .irq && !deliversIrq g.2.2) = true := by
    intro hany
    rw [loadProcess, if_pos hany] at h
    injection h with h
    injection h with h
    exact absurd h (by decide)
  have hself : resolveGrant A C g = g := by
    have hirq' : (resolveGrant A C g).1 = .irq := hirq
    rw [resolveGrant] at hirq' ⊢
    split_ifs at hirq' ⊢ with h1 h2
    · exact absurd hirq' (by decide)
    · rw [h1] at hirq'
      exact absurd hirq' (by decide)
    · rfl
  rw [hself] at hirq ⊢
  by_contra hno
  apply hgate
  apply List.any_eq_true.2
  refine ⟨g, hg, ?_⟩
  have h1 : g.1 = .irq := hirq
  have h2 : deliversIrq g.2.2 = false := by simpa using hno
  simp [h1, h2]

/-- a kernel that booted loaded every role it grants anything -/
theorem booted_deliver (h : bootUserland A C s = .ok ((), t)) : GrantsDeliver A C := by
  have hloop : wp (forEach (List.range NUM_PROCS) (bootProcess A C)) (fun _ _ => ∀ i ∈ List.range NUM_PROCS,
      ∃ u v, loadProcess A C i i (bootRole i) u = .ok (true, v)) (fun _ => True) s := by
    refine wp_forEach_prefix (I := fun (pre : List ℕ) _ => ∀ i ∈ pre,
      ∃ u v, loadProcess A C i i (bootRole i) u = .ok (true, v)) (fun pre b post _ u hu => ?_) (by simp)
    rw [bootProcess, wp_bind]
    refine wp_imp (wp_self (loadProcess A C b b (bootRole b)) u) (fun ok v hrun _ => ?_) fun _ _ => trivial
    cases ok with
    | false => exact trivial
    | true =>
      rw [if_neg (by decide), wp_modify]
      intro i hi
      rcases List.mem_append.1 hi with hi | hi
      · exact hu i hi
      · obtain rfl := List.mem_singleton.1 hi
        exact ⟨u, v, hrun⟩
  have hall : wp (bootUserland A C) (fun _ _ => ∀ i ∈ List.range NUM_PROCS,
      ∃ u v, loadProcess A C i i (bootRole i) u = .ok (true, v)) (fun _ => True) s := by
    rw [bootUserland, wp_bind]
    refine wp_mono hloop fun _ u hu => ?_
    rw [wp_bind, wp_get]
    cases u.sched.current with
    | none => exact trivial
    | some first => exact hu
  rintro b ⟨i, hi, slot, hb⟩ hirq
  obtain ⟨u, v, hrun⟩ := wp_ok hall h i (List.mem_range.2 hi)
  exact grants_deliver hrun hb hirq

/-- who holds a line holds one that is delivered -/
theorem Bounded.delivers (h : Bounded A C s) (hgr : GrantsDeliver A C) {p line : ℕ} (hp : s.Alive p)
    (hc : capsHoldIrq (s.procs p).caps line = true) : deliversIrq line = true := by
  obtain ⟨i, c, hi, hobj⟩ := holdsCap_iff.1 hc
  obtain ⟨hty, rfl, -⟩ := forObject_iff.1 hobj
  obtain ⟨b, hb, hw⟩ := h p c ⟨hp, i, hi⟩ (by rw [hty]; decide)
  rw [hw.2.1]
  exact hgr b hb (hw.1.symm.trans hty)

theorem deliversIrq_lt {line : ℕ} (h : deliversIrq line = true) : line < MAX_IRQ_LINES := by
  simp only [deliversIrq, Bool.or_eq_true, beq_iff_eq] at h
  rcases h with rfl | rfl
  · decide
  · decide

theorem Interleaved.booted {s₀ : KState} (h : Interleaved A C s₀ s) : ∃ u, bootUserland A C s₀ = .ok ((), u) := by
  induction h with
  | boot h => exact ⟨_, h⟩
  | occur _ _ ih => exact ih

theorem Interleaved.bounded {s₀ : KState} (h₀ : PreUserland A C s₀) (h : Interleaved A C s₀ s) : Bounded A C s := by
  refine Interleaved.keep h₀ (fun p c hc => ?_) (fun hm ht => ht.move hm) h
  have hl : (s₀.procs p).live = true := hc.1.2
  rw [h₀.noProcs] at hl
  exact absurd hl (by decide)

/-! ## Counts are for lines that are held -/

/-- a live process has a count only for a line it holds -/
def CountsHeld (s : KState) : Prop :=
  ∀ q line, s.live q = true → (s.procs q).irqPending line ≠ 0 → capsHoldIrq (s.procs q).caps line = true

theorem Quiet.countsHeld (h : Quiet s t) (hs : CountsHeld s) : CountsHeld t := by
  intro q line hl hne
  rw [Process.caps_eq (h.authority q)]
  rcases h.irq q line hne with h1 | h1
  · exact hs q line ((Process.live_eq (h.authority q)).symm.trans hl) h1
  · exact h1

theorem irqPending_modProc {i : ℕ} {f : Process → Process} (hf : (f (s.procs i)).irqPending = (s.procs i).irqPending)
    (q : ℕ) : ((s.modProc i f).procs q).irqPending = (s.procs q).irqPending := by
  rw [KState.modProc_procs, Table.put_apply]
  split_ifs with h
  · rw [h]; exact hf
  · rfl

theorem Still.irqPending (h : Still s t) (q : ℕ) : (t.procs q).irqPending = (s.procs q).irqPending := by
  obtain ⟨c, fr, sh, d, hp⟩ := h.proc q
  rw [hp]

theorem Still.countsHeld (h : Still s t) (hs : CountsHeld s) : CountsHeld t := by
  intro q line hl hne
  rw [h.irqPending] at hne
  rw [h.irq]
  exact hs q line ((h.live q).symm.trans hl) hne

theorem takeMessage_keeps (p q : ℕ) (s : KState) : ((takeMessage A p s).procs q).irqPending = (s.procs q).irqPending ∧
    ((takeMessage A p s).procs q).caps = (s.procs q).caps := by
  obtain ⟨⟨f, hf⟩, -⟩ := takeMessage_spec (A := A) p s
  rw [hf, Table.put_apply]
  split_ifs with hq
  · rw [hq]
    exact ⟨rfl, rfl⟩
  · exact ⟨rfl, rfl⟩

/-- what is left of the counts of the process that was stripped -/
theorem irqPending_settle (p q line : ℕ) (s : KState) : ((settle A p s).procs q).irqPending line =
    if q = p ∧ line < MAX_IRQ_LINES ∧ capsHoldIrq (s.procs p).caps line = false then 0
    else (s.procs q).irqPending line := by
  have h1 : ((dropCredits p s).procs q).irqPending line =
      if q = p ∧ line < MAX_IRQ_LINES ∧ capsHoldIrq (s.procs p).caps line = false then 0
      else (s.procs q).irqPending line := by
    rw [dropCredits, KState.modProc_procs, Table.put_apply]
    by_cases hq : q = p
    · simp [hq]
    · simp [hq]
  rw [settle, ← h1]
  split_ifs
  · rw [refuse, KState.enqueue_procs, irqPending_modProc rfl]
  · rfl

/-- a capability that is stripped takes its counts with it -/
theorem countsHeld_strip (hgr : GrantsDeliver A C) (d : Deleg.Endpoint) (hb : Bounded A C s)
    (hslots : ∀ i, s.live i = true → i < MAX_PROCS) (hs : CountsHeld s) :
    wp (strip A C d) (fun _ => CountsHeld) (· = .ringFull) s := by
  refine wp_mono (strip_spec d s) fun _ t ht => ?_
  rcases ht with rfl | ⟨hl, -, v, hv, rfl⟩
  · exact hs
  intro q line hlq hne
  have hpend : (v.procs q).irqPending = (s.procs q).irqPending :=
    (hv.toStill.irqPending q).trans (irqPending_modProc rfl q)
  rw [live_settle, hv.toStill.live] at hlq
  rw [irqPending_settle] at hne
  rw [caps_settle]
  by_cases hq : q = d.proc
  · subst hq
    by_contra hno
    rw [Bool.not_eq_true] at hno
    -- the line was held before, so it is one whose count was dropped
    have hlt : line < MAX_IRQ_LINES := by
      by_contra hge
      rw [if_neg fun hc => hge hc.2.1, hpend] at hne
      exact hge (deliversIrq_lt (hb.delivers hgr ⟨hslots _ hl, hl⟩ (hs d.proc line hl hne)))
    rw [if_pos ⟨rfl, hlt, hno⟩] at hne
    exact hne rfl
  · rw [if_neg fun hc => hq hc.1, hpend] at hne
    have hproc : ((s.modProc d.proc fun p => { p with caps := p.caps.revoke d.cap }).procs q) = s.procs q := by
      rw [KState.modProc_procs, Table.put_of_ne _ hq]
    rw [KState.live, hproc] at hlq
    rw [hv.caps_eq, hproc]
    exact hs q line hlq hne

theorem Shrinks.bounded (h : Shrinks s t) (hb : Bounded A C s) : Bounded A C t :=
  fun p c hc hne => hb p c (h p c hc) hne

theorem refusePeers_irqPending (s : KState) (q : ℕ) : ((refusePeers A s).procs q).irqPending = (s.procs q).irqPending := by
  rw [refusePeers]
  refine List.foldlRecOn (motive := fun t : KState => (t.procs q).irqPending = (s.procs q).irqPending) _ _ rfl
    fun t ht i _ => ?_
  rw [refuseUnanswerable]
  cases awaited t i with
  | none => exact ht
  | some en =>
    simp only
    split_ifs
    · exact ht
    · rw [← ht, refuse, KState.enqueue_procs]
      exact irqPending_modProc rfl q

/-- the newcomer starts without any -/
theorem Arrives.irqPending {slot : ℕ} (h : Arrives A C slot s t) (line : ℕ) :
    ((t.enqueue slot).procs slot).irqPending line = 0 := by
  obtain ⟨token, hd, idArg, role, frames, caps, -, hproc⟩ := h.proc
  rw [KState.enqueue_procs, hproc, Table.put_self]
  rfl

theorem Change.countsHeld (h : Change A C me k s t) (hgr : GrantsDeliver A C) (hb : Bounded A C s)
    (hslots : ∀ i, s.live i = true → i < MAX_PROCS) (hs : CountsHeld s) : CountsHeld t := by
  cases h with
  | control h => exact h.quiet.countsHeld hs
  | @receive p =>
    intro q line hl hne
    rw [KState.live, Process.live, state_takeMessage] at hl
    rw [(takeMessage_keeps p q s).1] at hne
    rw [(takeMessage_keeps p q s).2]
    exact hs q line hl hne
  | still h => exact h.countsHeld hs
  | revoke _ _ hrun =>
    have hstrip : ∀ (d : Deleg.Endpoint) (u : KState), (CountsHeld u ∧ Bounded A C u ∧ ∀ i, u.live i = true → i < MAX_PROCS) →
        wp (strip A C d) (fun _ v => CountsHeld v ∧ Bounded A C v ∧ ∀ i, v.live i = true → i < MAX_PROCS) (fun _ => True) u := by
      rintro d u ⟨h1, h2, h3⟩
      have hall := wp_and (countsHeld_strip hgr d h2 h3 h1) (wp_and (shrinks_strip (A := A) (C := C) d u) (steady_strip d h3))
      refine wp_imp hall (fun _ v _ hv => ?_) fun _ _ => trivial
      exact ⟨hv.1, hv.2.1.bounded h2, fun i hi => h3 i ((hv.2.2.live i).symm.trans hi)⟩
    exact (wp_ok (wp_revoke (I := fun u => CountsHeld u ∧ Bounded A C u ∧ ∀ i, u.live i = true → i < MAX_PROCS)
      ⟨hs, hb, hslots⟩ fun d _ => hstrip d) hrun).1
  | reap =>
    apply (quiet_refusePeers _).countsHeld
    intro q line hl hne
    rw [KState.live, procs_reap, Table.put_apply] at hl
    rw [procs_reap, Table.put_apply] at hne ⊢
    split_ifs at hl hne ⊢ with hq
    · exact absurd hl (by simp [Process.live])
    · exact hs q line hl hne
  | @arrive _ slot _ h =>
    intro q line hl hne
    by_cases hq : q = slot
    · rw [hq] at hne
      exact absurd (h.irqPending line) hne
    · rw [h.other hq] at hne ⊢
      rw [KState.live, h.other hq] at hl
      exact hs q line hl hne

theorem Interleaved.countsHeld {s₀ : KState} (h₀ : PreUserland A C s₀) (h : Interleaved A C s₀ s) : CountsHeld s := by
  obtain ⟨u, hu⟩ := h.booted
  have hgr := booted_deliver hu
  refine (Interleaved.keep (I := fun s => (∀ i, s.live i = true → i < MAX_PROCS) ∧ Bounded A C s ∧ CountsHeld s) h₀ ?_
    (fun hm ⟨h1, h2, h3⟩ => ⟨hm.change.slots h1, h2.move hm, hm.change.countsHeld hgr h2 h1 h3⟩) h).2.2
  have hdead : ∀ i, s₀.live i = false := fun i => by
    rw [KState.live, h₀.noProcs]
    rfl
  refine ⟨fun i hi => ?_, fun p c hc => ?_, fun q line hl => ?_⟩
  · rw [hdead] at hi
    exact absurd hi (by decide)
  · exact absurd (hc.1.2.symm.trans (hdead p)) (by decide)
  · rw [hdead] at hl
    exact absurd hl (by decide)

/-! ## What leaves counts alone -/

/-- what process `q` has coming on `line` stays as it was: its count, and its wait -/
def Stays (q line : ℕ) (s t : KState) : Prop :=
  capsHoldIrq (t.procs q).caps line = true →
    capsHoldIrq (s.procs q).caps line = true ∧ (t.procs q).irqPending line = (s.procs q).irqPending line ∧
    (deliversIrq line = true → (s.procs q).state = .blockedIrq line → (t.procs q).state = .blockedIrq line)

namespace Stays

variable {q line : ℕ}

theorem refl (s : KState) : Stays q line s s := fun hc => ⟨hc, rfl, fun _ => id⟩

theorem trans {u : KState} (h : Stays q line s t) (h' : Stays q line t u) : Stays q line s u := by
  intro hc
  obtain ⟨h1, h2, h3⟩ := h' hc
  obtain ⟨h4, h5, h6⟩ := h h1
  exact ⟨h4, h2.trans h5, fun hd hst => h3 hd (h6 hd hst)⟩

/-- a process that is the same stays -/
theorem of_same (h : t.procs q = s.procs q) : Stays q line s t := by
  rw [Stays, h]
  exact fun hc => ⟨hc, rfl, fun _ => id⟩

/-- so does one whose registers, rendezvous state or capabilities for nothing else change -/
theorem modProc {i : ℕ} {f : Process → Process}
    (hcaps : capsHoldIrq (f (s.procs i)).caps line = true → capsHoldIrq (s.procs i).caps line = true)
    (hpend : (f (s.procs i)).irqPending = (s.procs i).irqPending)
    (hstate : capsHoldIrq (s.procs i).caps line = true → deliversIrq line = true → (s.procs i).state = .blockedIrq line →
      (f (s.procs i)).state = .blockedIrq line) : Stays q line s (s.modProc i f) := by
  by_cases hq : q = i
  · rw [Stays, KState.modProc_procs, hq, Table.put_self]
    exact fun hc => ⟨hcaps hc, by rw [hpend], hstate (hcaps hc)⟩
  · apply of_same
    rw [KState.modProc_procs, Table.put_of_ne _ hq]

/-- putting somebody on the queue, or taking them off, changes no process -/
theorem procs {u : KState} (h : Stays q line s t) (hu : u.procs = t.procs) : Stays q line s u := by
  rw [Stays, hu]
  exact h

end Stays

section Stays

variable {q line : ℕ} (hk : ¬k.Credits A)

include hk

theorem Control.stays (h : Control A me k s t) : Stays q line s t := by
  cases h with
  | count | switch | resumed => exact .of_same rfl
  | credit _ _ hcr => exact absurd hcr hk
  | wakeIrq _ hst hor =>
    refine (Stays.modProc id rfl fun hc hd hst' => ?_).procs (KState.enqueue_procs _ _)
    -- a waiter that holds the line is not told that no count will come
    rw [hst] at hst'
    obtain rfl := ProcState.blockedIrq.inj hst'
    have hno := hor.resolve_left hk
    rw [creditable, hd, hc] at hno
    exact absurd hno (by decide)
  | deliver _ _ _ hst =>
    refine (Stays.modProc id rfl fun _ _ hst' => ?_).procs (KState.enqueue_procs _ _)
    rw [hst] at hst'
    exact absurd hst' (by simp)
  | release _ _ _ hst =>
    refine (Stays.modProc id rfl fun _ _ hst' => ?_).procs (KState.enqueue_procs _ _)
    rw [hst] at hst'
    exact absurd hst' (by simp)
  | message | persist => exact .modProc id rfl fun _ _ => id
  | block _ hready =>
    refine (Stays.modProc id rfl fun _ _ hst' => ?_).procs (KState.dequeue_procs _ _)
    rw [hready] at hst'
    exact absurd hst' (by simp)

omit hk in
theorem Still.stays (h : Still s t) : Stays q line s t := by
  intro hc
  rw [h.irq] at hc
  refine ⟨hc, by rw [h.irqPending], fun _ hst => ?_⟩
  rw [h.state]
  exact hst

omit hk in
theorem stays_refuse {i : ℕ} (hst : (s.procs i).state ≠ .blockedIrq line) : Stays q line s (refuse A i s) :=
  (Stays.modProc id rfl fun _ _ h => absurd h hst).procs (KState.enqueue_procs _ _)

omit hk in
theorem stays_strip (d : Deleg.Endpoint) (s : KState) :
    wp (strip A C d) (fun _ => Stays q line s) (· = .ringFull) s := by
  refine wp_mono (strip_spec d s) fun _ t ht => ?_
  rcases ht with rfl | ⟨-, -, v, hv, rfl⟩
  · exact .refl _
  intro hc
  have hcv : capsHoldIrq (v.procs q).caps line = true := by rwa [caps_settle] at hc
  have hrev : Stays q line s (s.modProc d.proc fun p => { p with caps := p.caps.revoke d.cap }) := by
    refine .modProc (fun hc => ?_) rfl fun _ _ => id
    obtain ⟨i, c, hi, hobj⟩ := holdsCap_iff.1 hc
    refine holdsCap_iff.2 ⟨i, c, ?_, hobj⟩
    rw [Capabilities.CapSpace.lookup_revoke] at hi
    split_ifs at hi
    exact hi
  obtain ⟨h1, h2, h3⟩ := (hrev.trans hv.toStill.stays) hcv
  refine ⟨h1, ?_, fun hd hst => ?_⟩
  · rw [irqPending_settle, if_neg, h2]
    rintro ⟨rfl, -, hno⟩
    exact absurd (hcv.symm.trans hno) (by decide)
  · have hvst := h3 hd hst
    rw [settle]
    split_ifs with hstr
    · -- whoever is told there will be no count is not this one
      have hne : q ≠ d.proc := by
        rintro rfl
        have hdst : ((dropCredits d.proc v).procs d.proc).state = .blockedIrq line := by
          rw [dropCredits, state_modProc rfl]
          exact hvst
        have hdcaps : ((dropCredits d.proc v).procs d.proc).caps = (v.procs d.proc).caps := by
          rw [dropCredits, KState.modProc_procs, Table.put_self]
        rw [stranded, hdst] at hstr
        simp only [creditable, hdcaps, hd, hcv] at hstr
        exact absurd hstr (by decide)
      rw [refuse, KState.enqueue_procs, KState.modProc_procs, Table.put_of_ne _ hne, dropCredits, state_modProc rfl]
      exact hvst
    · rw [dropCredits, state_modProc rfl]
      exact hvst

omit hk in
theorem stays_refusePeers (s : KState) : Stays q line s (refusePeers A s) := by
  rw [refusePeers]
  refine List.foldlRecOn (motive := Stays q line s) _ _ (Stays.refl s) fun t ht i _ => ht.trans ?_
  rw [refuseUnanswerable]
  cases h : awaited t i with
  | none => exact .refl t
  | some en =>
    simp only
    split_ifs
    · exact .refl t
    · refine stays_refuse fun hst => ?_
      rw [awaited, hst] at h
      exact absurd h (by simp)

/-- **A change that is no interrupt and collects nothing** leaves whoever lives through it what it has coming. -/
theorem Change.stays (h : Change A C me k s t) (hl : s.live q = true) (hl' : t.live q = true) : Stays q line s t := by
  cases h with
  | control h => exact h.stays hk
  | @receive p =>
    intro hc
    rw [(takeMessage_keeps p q s).2] at hc
    refine ⟨hc, by rw [(takeMessage_keeps p q s).1], fun _ hst => ?_⟩
    rw [state_takeMessage]
    exact hst
  | still h => exact h.stays
  | revoke _ _ hrun =>
    exact wp_ok (wp_revoke (I := Stays q line s) (.of_same rfl) fun d _ u hu =>
      wp_mono (stays_strip d u) fun _ _ hv => hu.trans hv) hrun
  | reap =>
    rw [live_refusePeers, KState.live, procs_reap, Table.put_apply] at hl'
    split_ifs at hl' with hq
    · exact absurd hl' (by simp [Process.live])
    · refine Stays.trans (.of_same ?_) (stays_refusePeers _)
      rw [procs_reap, Table.put_of_ne _ hq]
  | @arrive _ slot _ h =>
    apply Stays.of_same
    apply h.other
    rintro rfl
    exact absurd (hl.symm.trans h.free) (by decide)

/-- the same over a sequence of moves -/
theorem Moves.stays (hm : Moves A C G me k s t) (hq : q < MAX_PROCS) (hl : s.live q = true) (hl' : t.live q = true) :
    Stays q line s t := by
  induction hm with
  | refl => exact .refl _
  | @tail u v hm hstep ih =>
    -- nobody dies and comes back on the way
    have hu : u.live q = true := by
      by_cases he : q = me
      · by_contra hdead
        rw [Bool.not_eq_true] at hdead
        have hne : me ≠ NOBODY := fun e => absurd ((he.symm ▸ e : q = NOBODY) ▸ hq) (by decide)
        have := Moves.dead (A := A) (C := C) (G := G) (k := k) (.single hstep) hne (he ▸ hdead)
        rw [← he, hl'] at this
        exact absurd this (by decide)
      · exact (Moves.other hm he hl).1
    exact (ih hu).trans (hstep.change.stays hk hu hl')

/-- such a change adds to nobody's counts -/
theorem Change.pending (h : Change A C me k s t) (q line : ℕ) :
    (t.procs q).irqPending line = (s.procs q).irqPending line ∨ (t.procs q).irqPending line = 0 := by
  cases h with
  | control h =>
    left
    cases h with
    | count | switch | resumed => rfl
    | credit _ _ hcr => exact absurd hcr hk
    | wakeIrq => rw [KState.wake, KState.enqueue_procs, irqPending_modProc rfl]
    | deliver => rw [Kernel.deliver, KState.enqueue_procs, irqPending_modProc rfl]
    | release => rw [releaseSender, KState.enqueue_procs, irqPending_modProc rfl]
    | message | persist => rw [irqPending_modProc rfl]
    | block => rw [KState.dequeue_procs, irqPending_modProc rfl]
  | receive => exact Or.inl (congrFun (takeMessage_keeps _ q s).1 line)
  | still h => exact Or.inl (congrFun (h.irqPending q) line)
  | revoke _ _ hrun =>
    refine wp_ok (wp_revoke (E := (· = .ringFull)) (I := fun u : KState => (u.procs q).irqPending line =
      (s.procs q).irqPending line ∨ (u.procs q).irqPending line = 0) (Or.inl rfl) fun d _ u hu => ?_) hrun
    refine wp_mono (strip_spec d u) fun _ v hv => ?_
    rcases hv with rfl | ⟨-, -, w, hw, rfl⟩
    · exact hu
    · rw [irqPending_settle, hw.toStill.irqPending, irqPending_modProc rfl]
      split_ifs
      · exact Or.inr rfl
      · exact hu
  | reap =>
    rw [refusePeers_irqPending, procs_reap, Table.put_apply]
    split_ifs with hq
    · rw [hq]
      exact Or.inl rfl
    · exact Or.inl rfl
  | @arrive _ slot _ h =>
    by_cases hq : q = slot
    · rw [hq]
      exact Or.inr (h.irqPending line)
    · rw [h.other hq]
      exact Or.inl rfl

theorem Moves.pending (hm : Moves A C G me k s t) (q line : ℕ) :
    (t.procs q).irqPending line = (s.procs q).irqPending line ∨ (t.procs q).irqPending line = 0 := by
  refine Moves.keep (I := fun u => (u.procs q).irqPending line = (s.procs q).irqPending line ∨
    (u.procs q).irqPending line = 0) (fun u v hstep hu => ?_) hm (Or.inl rfl)
  rcases hstep.change.pending hk q line with h | h
  · rw [h]
    exact hu
  · exact Or.inr h

omit hk in
/-- whoever a change puts in an empty slot has no counts -/
theorem Change.unborn (h : Change A C me k s t) (hl : s.live q = false) (hl' : t.live q = true) :
    (t.procs q).irqPending line = 0 := by
  have hne : t.live q ≠ s.live q := by
    rw [hl, hl']
    decide
  cases h with
  | control h => exact absurd (h.live q) hne
  | receive =>
    refine absurd ?_ hne
    rw [KState.live, KState.live, Process.live, Process.live, state_takeMessage]
  | still h => exact absurd (h.live q) hne
  | revoke _ _ hrun =>
    refine absurd (wp_ok (wp_revoke (E := (· = .ringFull)) (I := fun u => u.live q = s.live q) rfl fun d _ u hu => ?_) hrun) hne
    exact wp_mono (live_strip d u q) fun _ _ hv => hv.trans hu
  | reap =>
    rw [live_refusePeers, KState.live, procs_reap, Table.put_apply] at hl'
    split_ifs at hl' with hq
    · exact absurd hl' (by simp [Process.live])
    · exact absurd (hl.symm.trans hl') (by decide)
  | @arrive _ slot _ h =>
    by_cases hq : q = slot
    · rw [hq]
      exact h.irqPending line
    · rw [KState.live, h.other hq] at hl'
      exact absurd (hl.symm.trans hl') (by decide)

/-- a process that was loaded on the way has none at the end -/
theorem Moves.unborn (hm : Moves A C G me k s t) (hl : s.live q = false) (hl' : t.live q = true) :
    (t.procs q).irqPending line = 0 := by
  suffices key : t.live q = false ∨ (t.procs q).irqPending line = 0 by
    rcases key with h | h
    · exact absurd (h.symm.trans hl') (by decide)
    · exact h
  refine Moves.keep (I := fun u => u.live q = false ∨ (u.procs q).irqPending line = 0) (fun u v hstep hu => ?_) hm (Or.inl hl)
  cases hv : v.live q with
  | false => exact Or.inl rfl
  | true =>
    right
    rcases hu with hu | hu
    · exact hstep.change.unborn hu hv
    · rcases hstep.change.pending hk q line with h | h
      · exact h.trans hu
      · exact h

end Stays

/-! ## What one call of `credit_irq` does -/

/-- to one process -/
def creditedProc (A : Arch) (irq : ℕ) (p : Process) : Process :=
  if p.live = false ∨ capsHoldIrq p.caps irq = false then p
  else if p.state = .blockedIrq irq then
    { p with
      irqPending := (p.irqPending.put irq (satAdd (p.irqPending irq) 1)).put irq 0
      frame := A.frameSetRet p.frame (satAdd (p.irqPending irq) 1)
      state := .ready }
  else { p with irqPending := p.irqPending.put irq (satAdd (p.irqPending irq) 1) }

theorem creditProc_eq (irq i : ℕ) (s : KState) (q : ℕ) :
    (creditProc A irq s i).procs q = if q = i then creditedProc A irq (s.procs i) else s.procs q := by
  rw [creditProc, creditedProc]
  by_cases h1 : s.live i = false ∨ capsHoldIrq (s.procs i).caps irq = false
  · have h1' : (s.procs i).live = false ∨ capsHoldIrq (s.procs i).caps irq = false := h1
    rw [if_pos h1, if_pos h1']
    split_ifs with hq
    · rw [hq]
    · rfl
  have h1' : ¬((s.procs i).live = false ∨ capsHoldIrq (s.procs i).caps irq = false) := h1
  rw [if_neg h1, if_neg h1']
  simp only [KState.modProc_procs, Table.put_self]
  by_cases h2 : (s.procs i).state = .blockedIrq irq
  · rw [if_pos h2, if_pos h2, KState.wake, KState.enqueue_procs]
    simp only [KState.modProc_procs, Table.put_self, Table.put_apply]
    split_ifs <;> rfl
  · rw [if_neg h2, if_neg h2]
    simp only [KState.modProc_procs, Table.put_apply]

theorem creditIrq_eq {irq : ℕ} (hirq : irq < MAX_IRQ_LINES) (s : KState) (q : ℕ) :
    (creditIrq A irq s).procs q = if q < MAX_PROCS then creditedProc A irq (s.procs q) else s.procs q := by
  rw [creditIrq, if_neg (not_le.2 hirq)]
  -- each process is visited once
  have loop : ∀ n : ℕ, ((List.range n).foldl (creditProc A irq) s).procs q =
      if q < n then creditedProc A irq (s.procs q) else s.procs q := by
    intro n
    induction n with
    | zero => simp
    | succ n ih =>
      rw [List.range_succ, List.foldl_append, List.foldl_cons, List.foldl_nil, creditProc_eq]
      by_cases hq : q = n
      · subst hq
        rw [if_neg (lt_irrefl q)] at ih
        rw [if_pos rfl, if_pos (Nat.lt_succ_self q), ih]
      · rw [if_neg hq, ih]
        have hiff : q < n + 1 ↔ q < n := by omega
        simp only [hiff]
  exact loop MAX_PROCS

/-! ## Going back to user mode -/

/-- nothing of process `q` changed but the registers of a message taken -/
structure Resumes (q : ℕ) (s t : KState) : Prop where
  state : (t.procs q).state = (s.procs q).state
  caps : (t.procs q).caps = (s.procs q).caps
  irqPending : (t.procs q).irqPending = (s.procs q).irqPending
  frame : (s.procs q).pendingLen = 0 → (t.procs q).frame = (s.procs q).frame

theorem Resumes.of_same {q : ℕ} (h : t.procs q = s.procs q) : Resumes q s t := by
  refine ⟨?_, ?_, ?_, fun _ => ?_⟩
  all_goals rw [h]

theorem resumes_resumeProcess (x q : ℕ) (s : KState) : Resumes q s (resumeProcess A x s) := by
  rw [resumeProcess_eq]
  split_ifs with hp
  · obtain ⟨⟨f, hf⟩, -⟩ := takeMessage_spec (A := A) x s
    have hproc : ((((takeMessage A x s).setCr3 ((takeMessage A x s).procs x).token).record .resumed).procs q) =
        (s.procs.put x { s.procs x with pendingLen := 0, frame := f }) q := congrFun hf q
    by_cases hq : q = x
    · subst hq
      rw [Table.put_self] at hproc
      refine ⟨?_, ?_, ?_, fun h0 => absurd h0 hp.ne'⟩
      all_goals rw [hproc]
    · rw [Table.put_of_ne _ hq] at hproc
      exact .of_same hproc
  · exact .of_same rfl

/-- running whoever an interrupt woke -/
theorem resumes_wakeIdle (irq q : ℕ) (s : KState) : Resumes q (creditIrq A irq s) (wakeIdle A irq s) := by
  rw [wakeIdle]
  simp only
  cases (creditIrq A irq s).sched.current with
  | none => exact .of_same rfl
  | some x =>
    have h := resumes_resumeProcess (A := A) x q { creditIrq A irq s with
      idling := false
      deviceWakes := if irq = IRQ_CONSOLE then ((creditIrq A irq s).deviceWakes + 1) % U64 else (creditIrq A irq s).deviceWakes
      current := x }
    exact ⟨h.state, h.caps, h.irqPending, h.frame⟩

theorem resumes_reschedule (q : ℕ) (s : KState) : Resumes q s (reschedule A s) := by
  rw [reschedule]
  have h := resumes_resumeProcess (A := A) (s.sched.next.1.getD s.current) q
    { s with current := s.sched.next.1.getD s.current, sched := s.sched.next.2 }
  exact ⟨h.state, h.caps, h.irqPending, h.frame⟩

/-! ## Interrupts -/

/-- the line whose `credit_irq` runs -/
def Happening.line : Happening → Option ℕ
  | .input (.timer _) => some IRQ_TIMER
  | .input (.device _) => some IRQ_CONSOLE
  | .credit line => some line
  | _ => none

/-- how often that of `line` does -/
def Happening.credits (line : ℕ) (e : Happening) : ℕ := if e.line = some line then 1 else 0

/-- process `q` was credited on `irq`, its registers saved before and a message taken after -/
def Credited (A : Arch) (irq q : ℕ) (s t : KState) : Prop :=
  ∃ f u, u.procs q = creditedProc A irq { s.procs q with frame := f } ∧ Resumes q u t

theorem credited_creditIrq {irq q : ℕ} (hirq : irq < MAX_IRQ_LINES) (hq : q < MAX_PROCS) (f : UserFrame) {v : KState}
    (hv : v.procs q = { s.procs q with frame := f }) (hr : Resumes q (creditIrq A irq v) t) : Credited A irq q s t := by
  refine ⟨f, creditIrq A irq v, ?_, hr⟩
  rw [creditIrq_eq hirq, if_pos hq, hv]

theorem saveFrame_proc (frame : UserFrame) (s : KState) (q : ℕ) :
    ∃ f, (saveFrame A frame s).procs q = { s.procs q with frame := f } := by
  rw [saveFrame, KState.modProc_procs, Table.put_apply]
  split_ifs with hq
  · rw [hq]
    exact ⟨_, rfl⟩
  · exact ⟨_, rfl⟩

/-- **Delivery**: whatever runs `credit_irq` credits every process once. -/
theorem Occurs.credited {e : Happening} {irq q : ℕ} (ho : Occurs A C s e t) (he : e.line = some irq)
    (hirq : irq < MAX_IRQ_LINES) (hq : q < MAX_PROCS) : Credited A irq q s t := by
  cases e with
  | credit line =>
    obtain rfl := Option.some.inj he
    have ht : t = if s.idling = true then wakeIdle A line s else creditIrq A line s := ho
    rw [ht]
    split_ifs
    · exact credited_creditIrq hirq hq (s.procs q).frame rfl (resumes_wakeIdle line q s)
    · exact credited_creditIrq hirq hq (s.procs q).frame rfl (.of_same rfl)
  | input i =>
    obtain ⟨-, hrun⟩ := ho
    cases i with
    | syscall | fault | store => exact absurd he (by simp [Happening.line])
    | timer frame =>
      obtain rfl := Option.some.inj he
      have ht : t = preemptTrap A frame s := by
        injection hrun with hrun
        exact ((Prod.mk.inj hrun).2).symm
      rw [ht, preemptTrap]
      split_ifs
      · exact credited_creditIrq hirq hq (s.procs q).frame rfl (resumes_wakeIdle _ q s)
      · obtain ⟨f, hf⟩ := saveFrame_proc (A := A) frame s q
        exact credited_creditIrq hirq hq f hf (resumes_reschedule q _)
    | device frame =>
      obtain rfl := Option.some.inj he
      have ht : t = deviceTrap A frame s := by
        injection hrun with hrun
        exact ((Prod.mk.inj hrun).2).symm
      rw [ht, deviceTrap]
      obtain ⟨f, hf⟩ := saveFrame_proc (A := A) frame s q
      simp only
      split_ifs
      · exact credited_creditIrq hirq hq (s.procs q).frame rfl (resumes_wakeIdle _ q s)
      · exact credited_creditIrq hirq hq f hf (resumes_resumeProcess _ q _)
      · exact credited_creditIrq hirq hq f hf (resumes_reschedule q _)

namespace Credited

variable {irq q line : ℕ}

theorem caps_eq (h : Credited A irq q s t) : (t.procs q).caps = (s.procs q).caps := by
  obtain ⟨f, u, hu, hr⟩ := h
  rw [hr.caps, hu, creditedProc]
  split_ifs <;> rfl

/-- another line is left alone -/
theorem stays (h : Credited A irq q s t) (hne : line ≠ irq) : Stays q line s t := by
  intro hc
  rw [h.caps_eq] at hc
  obtain ⟨f, u, hu, hr⟩ := h
  rw [hr.irqPending, hr.state, hu, creditedProc]
  refine ⟨hc, ?_, fun _ hst => ?_⟩
  · split_ifs
    · rfl
    · simp only [Table.put_of_ne _ hne]
    · simp only [Table.put_of_ne _ hne]
  · split_ifs with h1 h2
    · exact hst
    · -- it waits for this line and not for that one
      have h2' : (s.procs q).state = .blockedIrq irq := h2
      rw [hst] at h2'
      exact absurd (ProcState.blockedIrq.inj h2') hne
    · exact hst

theorem bounded (h : Credited A irq q s t) (hb : (s.procs q).irqPending line ≤ U64_MAX) :
    (t.procs q).irqPending line ≤ U64_MAX := by
  obtain ⟨f, u, hu, hr⟩ := h
  rw [hr.irqPending, hu, creditedProc]
  split_ifs
  · exact hb
  · simp only [Table.put_apply]
    split_ifs
    · exact Nat.zero_le _
    · exact hb
  · simp only [Table.put_apply]
    split_ifs
    · exact Nat.min_le_right _ _
    · exact hb

variable (hl : s.live q = true) (hc : capsHoldIrq (s.procs q).caps irq = true)

include hl hc

/-- a holder that is not waiting for the line has one more pending -/
theorem counts (h : Credited A irq q s t) (hst : (s.procs q).state ≠ .blockedIrq irq) :
    (t.procs q).state = (s.procs q).state ∧ (t.procs q).irqPending irq = satAdd ((s.procs q).irqPending irq) 1 := by
  obtain ⟨f, u, hu, hr⟩ := h
  have hlive : ¬({ s.procs q with frame := f } : Process).live = false := by
    have hl' : ({ s.procs q with frame := f } : Process).live = true := hl
    rw [hl']
    decide
  rw [hr.state, hr.irqPending, hu, creditedProc, if_neg (not_or.2 ⟨hlive, by simp [hc]⟩), if_neg hst]
  exact ⟨rfl, Table.put_self ..⟩

/-- one that is waiting is answered with all of it -/
theorem answers (h : Credited A irq q s t) (hst : (s.procs q).state = .blockedIrq irq)
    (hpend : (s.procs q).pendingLen = 0) : (t.procs q).state = .ready ∧ (t.procs q).irqPending irq = 0 ∧
      (t.procs q).frame A.retReg = BitVec.ofNat 64 (satAdd ((s.procs q).irqPending irq) 1) := by
  obtain ⟨f, u, hu, hr⟩ := h
  have hlive : ¬({ s.procs q with frame := f } : Process).live = false := by
    have hl' : ({ s.procs q with frame := f } : Process).live = true := hl
    rw [hl']
    decide
  rw [creditedProc, if_neg (not_or.2 ⟨hlive, by simp [hc]⟩), if_pos hst] at hu
  have hframe := hr.frame (by rw [hu]; exact hpend)
  rw [hr.state, hr.irqPending, hframe, hu]
  exact ⟨rfl, Table.put_self .., Table.put_self ..⟩

end Credited

/-! ## The calls that collect -/

/-- how a `POLL_IRQ` or `WAIT_IRQ` of process `me`, saved on frame `f`, ends -/
inductive Collected (A : Arch) (C : Config) (me : ℕ) (f : UserFrame) (s t : KState) : Prop where
  /-- its capability names no line that is delivered -/
  | refused {v : ℕ} : (∀ line, capsIrqLine (s.procs me).caps (A.frameArg f 0) = some line → deliversIrq line = false) →
      t.procs = s.procs.put me { s.procs me with frame := A.frameSetRet f v } → Collected A C me f s t
  | taken {line : ℕ} : capsIrqLine (s.procs me).caps (A.frameArg f 0) = some line →
      t.procs = s.procs.put me { s.procs me with
        irqPending := (s.procs me).irqPending.put line 0
        frame := A.frameSetRet f ((s.procs me).irqPending line) } → Collected A C me f s t
  | parked {line : ℕ} {u : KState} : capsIrqLine (s.procs me).caps (A.frameArg f 0) = some line →
      (s.procs me).irqPending line = 0 →
      u.procs = s.procs.put me { s.procs me with state := .blockedIrq line, frame := f } →
      Moves A C Gate.all me (.fresh UserFrame.ZERO) u t → Collected A C me f s t

/-- the tail of a call that leaves its caller running -/
theorem resumed_procs {f : UserFrame} {p : Process} (h : Called s me) {v : KState} (hv : v.procs = s.procs.put me p)
    (hcur : v.current = s.current) (hp : p.pendingLen = 0) :
    (resumeProcess A v.current (v.modProc me fun p => { p with frame := f })).procs =
      s.procs.put me { p with frame := f } := by
  have hproc : (v.modProc me fun p => { p with frame := f }).procs = s.procs.put me { p with frame := f } := by
    funext j
    rw [KState.modProc_procs, hv]
    simp only [Table.put_apply]
    split_ifs <;> rfl
  have hno : ¬0 < ((v.modProc me fun p => { p with frame := f }).procs v.current).pendingLen := by
    rw [hproc, hcur, ← h.current, Table.put_self]
    simp [hp]
  rw [resumeProcess_eq, if_neg hno]
  exact hproc

theorem wp_parkIrq (h : Called s me) (f : UserFrame) {line : ℕ}
    (hcap : capsIrqLine (s.procs me).caps (A.frameArg f 0) = some line) (hnone : (s.procs me).irqPending line = 0) :
    wp (do
      modify fun s => (s.modProc me fun p => { p with state := .blockedIrq line, frame := f }).dequeue me
      let switched ← switchAway A C
      onlyIf (switched = true) (modify fun s => resumeProcess A s.current s)
      ret none : K (Option UserFrame)) (fun out t => out = none ∧ Collected A C me f s t) (fun _ => True) s := by
  have hu : ((s.modProc me fun p => { p with state := .blockedIrq line, frame := f }).dequeue me).procs =
      s.procs.put me { s.procs me with state := .blockedIrq line, frame := f } := by
    rw [KState.dequeue_procs, KState.modProc_procs]
  have hsch : Scheduled ((s.modProc me fun p => { p with state := .blockedIrq line, frame := f }).dequeue me) :=
    h.ready.sched.leave (f := fun p => { p with state := .blockedIrq line, frame := f }) (by simp) fun _ => h.alive.2
  have hids : RegionIds ((s.modProc me fun p => { p with state := .blockedIrq line, frame := f }).dequeue me) :=
    h.ready.ids.congr rfl rfl
  simp only [wp_bind, wp_modify]
  have hidle : ((s.modProc me fun p => { p with state := .blockedIrq line, frame := f }).dequeue me).idling = false := h.idling
  generalize (s.modProc me fun p => { p with state := .blockedIrq line, frame := f }).dequeue me = u at hu hsch hids hidle ⊢
  refine wp_imp (wp_switchAway (A := A) (C := C) (G := Gate.all) (k := .fresh UserFrame.ZERO) me hsch hids hidle)
    (fun b t _ ht => ?_) fun _ _ => trivial
  cases b with
  | false => exact ⟨rfl, .parked hcap hnone hu ht.1⟩
  | true =>
    obtain ⟨hm, htail, -⟩ := ht
    obtain ⟨hr, -⟩ := htail.resume (A := A) (C := C) (G := Gate.all) (k := .fresh UserFrame.ZERO) me
    exact ⟨rfl, .parked hcap hnone hu (hm.trans hr)⟩

/-- how the arm of one of the two calls leaves the handler -/
def Collects (A : Arch) (C : Config) (me : ℕ) (f : UserFrame) (s : KState) : Option UserFrame → KState → Prop
  | none, t => Collected A C me f s t
  | some f', t =>
    (t = s ∧ (∃ v, f' = A.frameSetRet f v) ∧
      ∀ line, capsIrqLine (s.procs me).caps (A.frameArg f 0) = some line → deliversIrq line = false) ∨
    ∃ line, capsIrqLine (s.procs me).caps (A.frameArg f 0) = some line ∧ t = (collectIrq me line s).2 ∧
      f' = A.frameSetRet f ((s.procs me).irqPending line)

theorem wp_sysPollIrq_collects (f : UserFrame) (s : KState) :
    wp (sysPollIrq A me f) (Collects A C me f s) (fun _ => True) s := by
  rw [sysPollIrq, wp_bind, wp_get]
  cases hcap : capsIrqLine (s.procs me).caps (A.frameArg f 0) with
  | none => exact Or.inl ⟨rfl, ⟨_, rfl⟩, fun line h => absurd (hcap.symm.trans h) (by simp)⟩
  | some line =>
    refine wp_ite (fun _ => ?_) fun hge => ?_
    · exact Or.inr ⟨line, hcap, rfl, rfl⟩
    · refine Or.inl ⟨rfl, ⟨_, rfl⟩, fun l h => ?_⟩
      obtain rfl := Option.some.inj (hcap.symm.trans h)
      by_contra hdel
      exact hge (deliversIrq_lt (by simpa using hdel))

theorem wp_sysWaitIrq_collects (h : Called s me) (f : UserFrame) :
    wp (sysWaitIrq A C me f) (Collects A C me f s) (fun _ => True) s := by
  rw [sysWaitIrq, wp_bind, wp_get]
  cases hcap : capsIrqLine (s.procs me).caps (A.frameArg f 0) with
  | none => exact Or.inl ⟨rfl, ⟨_, rfl⟩, fun line h => absurd (hcap.symm.trans h) (by simp)⟩
  | some line =>
    refine wp_ite (fun hno => ?_) fun _ => wp_ite (fun _ => ?_) fun hzero => ?_
    · refine Or.inl ⟨rfl, ⟨_, rfl⟩, fun l h => ?_⟩
      rw [← Option.some.inj (hcap.symm.trans h)]
      exact hno
    · exact Or.inr ⟨line, hcap, rfl, rfl⟩
    · refine wp_mono (wp_parkIrq (C := C) h f hcap (by omega)) fun out t hparked => ?_
      obtain ⟨hout, ht⟩ := hparked
      rw [hout]
      exact ht

/-- **Collecting**: what the two calls leave. -/
theorem wp_collecting {frame : UserFrame} (h : Ready s) (hi : s.idling = false)
    (hnum : A.frameNum (snapshot A frame UserFrame.ZERO) = sysno.POLL_IRQ ∨
      A.frameNum (snapshot A frame UserFrame.ZERO) = sysno.WAIT_IRQ) :
    wp (syscallTrap A C frame) (fun _ t => Collected A C s.current (snapshot A frame UserFrame.ZERO) s t) (fun _ => True) s := by
  have hc := h.called hi
  rw [syscallTrap]
  simp only [wp_bind, wp_get]
  generalize snapshot A frame UserFrame.ZERO = f at hnum ⊢
  have hserv : wp (service A C s.current f) (Collects A C s.current f s) (fun _ => True) s := by
    rcases hnum with hnum | hnum
    · have hpoll : service A C s.current f = sysPollIrq A s.current f := by
        rw [service, hnum]
        rfl
      rw [hpoll]
      exact wp_sysPollIrq_collects f s
    · have hwait : service A C s.current f = sysWaitIrq A C s.current f := by
        rw [service, hnum]
        rfl
      rw [hwait]
      exact wp_sysWaitIrq_collects hc f
  refine wp_mono hserv fun out v hv => ?_
  cases out with
  | none => exact hv
  | some f' =>
    rw [wp_modify]
    rcases hv with ⟨rfl, ⟨x, rfl⟩, hno⟩ | ⟨line, hcap, rfl, rfl⟩
    · refine .refused hno (v := x) ?_
      exact resumed_procs hc (Table.put_eq_self _ _).symm rfl hc.pending
    · have htake : (collectIrq s.current line s).2.procs = s.procs.put s.current { s.procs s.current with
          irqPending := (s.procs s.current).irqPending.put line 0 } := rfl
      exact .taken hcap (resumed_procs hc htake rfl hc.pending)

/-! ## Conservation -/

/-- process `q` asks for its count on `line` -/
def Happening.asks (A : Arch) (s : KState) (q line : ℕ) : Happening → Bool
  | .input (.syscall frame) =>
    let f := snapshot A frame UserFrame.ZERO
    s.current == q && (A.frameNum f == sysno.POLL_IRQ || A.frameNum f == sysno.WAIT_IRQ) &&
      capsIrqLine (s.procs q).caps (A.frameArg f 0) == some line
  | _ => false

/-- the count a step returns to process `q` on `line`: to its call, or to the wait it was parked in -/
def returned (A : Arch) (q line : ℕ) (s : KState) (e : Happening) (t : KState) : ℕ :=
  if (e.asks A s q line = true ∨ (s.procs q).state = .blockedIrq line) ∧ (t.procs q).state = .ready then
    ((t.procs q).frame A.retReg).toNat
  else 0

/-- what a step is, as far as counts are concerned: a delivery, a collection, or neither -/
inductive Occasion (A : Arch) (C : Config) (s : KState) (e : Happening) (t : KState) : Prop where
  | delivers {irq : ℕ} : e.line = some irq → irq < MAX_IRQ_LINES → (∀ q < MAX_PROCS, Credited A irq q s t) →
      Occasion A C s e t
  | collects {frame : UserFrame} : e = .input (.syscall frame) →
      (A.frameNum (snapshot A frame UserFrame.ZERO) = sysno.POLL_IRQ ∨
        A.frameNum (snapshot A frame UserFrame.ZERO) = sysno.WAIT_IRQ) →
      Collected A C s.current (snapshot A frame UserFrame.ZERO) s t → Occasion A C s e t
  | neither {k : Trap} : (∀ irq, e.line = some irq → MAX_IRQ_LINES ≤ irq) → (∀ q line, e.asks A s q line = false) →
      ¬k.Credits A → Moves A C Gate.all (e.caller s) k s t → Occasion A C s e t

theorem Occurs.occasion {e : Happening} (hr : Ready s) (ho : Occurs A C s e t) : Occasion A C s e t := by
  -- a line that exists is credited
  by_cases hline : ∃ irq, e.line = some irq ∧ irq < MAX_IRQ_LINES
  · obtain ⟨irq, he, hirq⟩ := hline
    exact .delivers he hirq fun q hq => ho.credited he hirq hq
  have hnone : ∀ irq, e.line = some irq → MAX_IRQ_LINES ≤ irq := fun irq he => by
    by_contra hlt
    exact hline ⟨irq, he, not_le.1 hlt⟩
  cases e with
  | credit line =>
    -- one that does not changes nothing, and a parked kernel stays parked
    have hge := hnone line rfl
    have hsame : creditIrq A line s = s := by rw [creditIrq, if_pos hge]
    have ht : t = if s.idling = true then wakeIdle A line s else creditIrq A line s := ho
    refine .neither (k := .fresh UserFrame.ZERO) hnone (fun _ _ => rfl) id ?_
    suffices h : t = s by
      rw [h]
    rw [ht]
    split_ifs with hi
    · rw [wakeIdle, hsame]
      simp only
      cases hcur : s.sched.current with
      | none => rfl
      | some x =>
        have hmem := Sched.Scheduler.current_mem hcur
        rw [(hr.running.parked hi).1] at hmem
        exact absurd hmem List.not_mem_nil
    · exact hsame
  | input i =>
    cases i with
    | timer => exact absurd (hnone IRQ_TIMER rfl) (by decide)
    | device => exact absurd (hnone IRQ_CONSOLE rfl) (by decide)
    | syscall frame =>
      have hi : s.idling = false := ho.1
      by_cases hnum : A.frameNum (snapshot A frame UserFrame.ZERO) = sysno.POLL_IRQ ∨
          A.frameNum (snapshot A frame UserFrame.ZERO) = sysno.WAIT_IRQ
      · exact .collects rfl hnum (wp_ok (wp_collecting hr hi hnum) ho.2)
      · refine .neither (k := .syscall (snapshot A frame UserFrame.ZERO)) hnone (fun q line => ?_)
          (fun hk => hnum (Or.symm hk)) (Step.moves hr ho (Gate.admits_all A s _)).1
        rw [not_or] at hnum
        simp [Happening.asks, hnum.1, hnum.2]
    | fault =>
      have hi : s.idling = false := ho.1
      have hm := (wp_ok (wp_faultTrap (G := Gate.all) (k := .fresh UserFrame.ZERO) hr hi) ho.2).1
      refine .neither (k := .fresh UserFrame.ZERO) hnone (fun _ _ => rfl) id ?_
      rw [Happening.caller, caller_awake hi]
      exact hm
    | store va b =>
      obtain ⟨⟨hi, hown, hleaf, hw⟩, hrun⟩ := ho
      have hc := hr.called hi
      rw [hc.cr3] at hleaf hw
      have ht : t = s.setMem (Vspace.storeUser A (s.procs s.current).token s.w.mem va b) := by
        rw [← hc.cr3]
        injection hrun with hrun
        exact ((Prod.mk.inj hrun).2).symm
      refine .neither (k := .fresh UserFrame.ZERO) hnone (fun _ _ => rfl) id ?_
      rw [Happening.caller, caller_awake hi, ht]
      exact .single (.store hc.alive hown hleaf hw)

/-- counts fit their registers -/
theorem Interleaved.counts_le {s₀ : KState} (h₀ : PreUserland A C s₀) (h : Interleaved A C s₀ s) {q : ℕ} (hq : q < MAX_PROCS)
    (line : ℕ) : (s.procs q).irqPending line ≤ U64_MAX := by
  induction h with
  | boot h =>
    have hm := (wp_ok (boot_moves (G := Gate.all) (k := .fresh UserFrame.ZERO) h₀) h).1
    rcases hm.pending id q line with h1 | h1
    · rw [h1, h₀.noProcs]
      exact Nat.zero_le _
    · rw [h1]
      exact Nat.zero_le _
  | @occur s t e hrun ho ih =>
    have key : ((t.procs q).irqPending line = (s.procs q).irqPending line ∨ (t.procs q).irqPending line = 0) →
        (t.procs q).irqPending line ≤ U64_MAX := by
      rintro (h1 | h1)
      · rw [h1]
        exact ih
      · rw [h1]
        exact Nat.zero_le _
    cases ho.occasion (hrun.ready h₀) with
    | delivers _ _ hcr => exact (hcr q hq).bounded ih
    | neither _ _ hk hm => exact key (hm.pending hk q line)
    | collects _ _ hcol =>
      apply key
      cases hcol with
      | refused _ ht =>
        rw [ht, Table.put_apply]
        split_ifs with hme
        · rw [hme]
          exact Or.inl rfl
        · exact Or.inl rfl
      | @taken line' _ ht =>
        rw [ht, Table.put_apply]
        split_ifs with hme
        · simp only [Table.put_apply, hme]
          split_ifs
          · exact Or.inr rfl
          · exact Or.inl rfl
        · exact Or.inl rfl
      | parked _ _ hu hm =>
        have hsame : (_ : KState).procs q = _ := congrFun hu q
        rcases hm.pending id q line with h1 | h1
        · left
          rw [h1, hsame, Table.put_apply]
          split_ifs with hme
          · rw [hme]
          · rfl
        · exact Or.inr h1

/-- over one step, what process `q` has pending on `line` and what was returned is what was there and what came; and the
count moves for a credit of the line or a call for it only -/
structure Conserved (A : Arch) (q line : ℕ) (s : KState) (e : Happening) (t : KState) : Prop where
  sum : e.credits line = 0 ∨ (s.procs q).irqPending line < U64_MAX →
    returned A q line s e t + (t.procs q).irqPending line = (s.procs q).irqPending line + e.credits line
  still : e.credits line = 0 → e.asks A s q line = false → (t.procs q).irqPending line = (s.procs q).irqPending line

section Conserved

variable {e : Happening} {q line : ℕ}

/-- a step on no account of the line -/
theorem Stays.conserved (h : Stays q line s t) (hc : capsHoldIrq (t.procs q).caps line = true)
    (hd : deliversIrq line = true) (hcr : e.credits line = 0) (hask : e.asks A s q line = false) :
    Conserved A q line s e t := by
  obtain ⟨-, hpend, hwait⟩ := h hc
  have hnone : returned A q line s e t = 0 := by
    rw [returned, if_neg]
    rintro ⟨h1 | h1, h2⟩
    · exact absurd (hask.symm.trans h1) (by decide)
    · rw [hwait hd h1] at h2
      exact absurd h2 (by simp)
  refine ⟨fun _ => ?_, fun _ _ => hpend⟩
  rw [hnone, hpend, hcr, Nat.zero_add, Nat.add_zero]

theorem Happening.asks_of_line {irq : ℕ} (h : e.line = some irq) : e.asks A s q line = false := by
  cases e with
  | credit => rfl
  | input i =>
    cases i with
    | syscall frame => exact absurd h (by simp [Happening.line])
    | _ => rfl

/-- a delivery -/
theorem Credited.conserved {irq : ℕ} (h : Credited A irq q s t) (he : e.line = some irq) (hl : s.live q = true)
    (hc : capsHoldIrq (t.procs q).caps line = true) (hd : deliversIrq line = true)
    (hpend : (s.procs q).state = .blockedIrq line → (s.procs q).pendingLen = 0) : Conserved A q line s e t := by
  have hask : e.asks A s q line = false := Happening.asks_of_line he
  by_cases hline : line = irq
  · subst hline
    have hone : e.credits line = 1 := if_pos he
    rw [h.caps_eq] at hc
    refine ⟨fun hlt => ?_, fun h0 => absurd (hone.symm.trans h0) (by decide)⟩
    have hroom : (s.procs q).irqPending line < U64_MAX := hlt.resolve_left (by rw [hone]; decide)
    have hsat : satAdd ((s.procs q).irqPending line) 1 = (s.procs q).irqPending line + 1 := Nat.min_eq_left hroom
    rw [hone]
    by_cases hst : (s.procs q).state = .blockedIrq line
    · -- it was waiting, and is answered
      obtain ⟨hready, hzero, hret⟩ := h.answers hl hc hst (hpend hst)
      rw [returned, if_pos ⟨Or.inr hst, hready⟩, hret, hzero, hsat, BitVec.toNat_ofNat, Nat.add_zero]
      apply Nat.mod_eq_of_lt
      calc (s.procs q).irqPending line + 1 ≤ U64_MAX := hroom
        _ < 2 ^ 64 := by decide
    · obtain ⟨-, hcount⟩ := h.counts hl hc hst
      have hnot : ¬((e.asks A s q line = true ∨ (s.procs q).state = .blockedIrq line) ∧ (t.procs q).state = .ready) := by
        rintro ⟨h1 | h1, -⟩
        · exact absurd (hask.symm.trans h1) (by decide)
        · exact hst h1
      rw [returned, if_neg hnot, hcount, hsat, Nat.zero_add]
  · refine (h.stays hline).conserved hc hd (if_neg fun h' => hline ?_) hask
    exact (Option.some.inj (he.symm.trans h')).symm

/-- a call that collects, for whoever made it and everybody else -/
theorem Collected.conserved {frame : UserFrame} (hcall : Called s s.current)
    (hnum : A.frameNum (snapshot A frame UserFrame.ZERO) = sysno.POLL_IRQ ∨
      A.frameNum (snapshot A frame UserFrame.ZERO) = sysno.WAIT_IRQ)
    (h : Collected A C s.current (snapshot A frame UserFrame.ZERO) s t) (hq : q < MAX_PROCS) (hl : s.live q = true)
    (hl' : t.live q = true) (hc : capsHoldIrq (t.procs q).caps line = true) (hd : deliversIrq line = true)
    (hle : (s.procs q).irqPending line ≤ U64_MAX) : Conserved A q line s (.input (.syscall frame)) t := by
  have hcr : (Happening.input (.syscall frame)).credits line = 0 := rfl
  have hready := hcall.state
  generalize hf : snapshot A frame UserFrame.ZERO = f at hnum h
  generalize hme : s.current = me at hready h
  -- what it asks for
  have hasks : (Happening.input (.syscall frame)).asks A s q line =
      (me == q && capsIrqLine (s.procs q).caps (A.frameArg f 0) == some line) := by
    have hboth : (A.frameNum f == sysno.POLL_IRQ || A.frameNum f == sysno.WAIT_IRQ) = true := by
      rcases hnum with h | h
      · simp [h]
      · simp [h]
    simp only [Happening.asks, hf, hme, hboth, Bool.and_true]
  have hother : me ≠ q → (Happening.input (.syscall frame)).asks A s q line = false := fun hne => by
    rw [hasks, beq_eq_false_iff_ne.2 hne, Bool.false_and]
  have hmine : me = q → ∀ {l : ℕ}, capsIrqLine (s.procs me).caps (A.frameArg f 0) = some l →
      (Happening.input (.syscall frame)).asks A s q line = (l == line) := by
    rintro rfl l hcap
    rw [hasks, hcap, beq_self_eq_true, Bool.true_and]
    rfl
  cases h with
  | refused hno ht =>
    have hask : (Happening.input (.syscall frame)).asks A s q line = false := by
      by_cases he : me = q
      · rw [hasks, ← he]
        cases hcap : capsIrqLine (s.procs me).caps (A.frameArg f 0) with
        | none => simp
        | some l =>
          have hne : l ≠ line := by
            rintro rfl
            exact absurd (hd.symm.trans (hno _ hcap)) (by decide)
          simp [hne]
      · exact hother he
    refine Stays.conserved (fun hcs => ?_) hc hd hcr hask
    rw [ht, Table.put_apply] at hcs ⊢
    split_ifs at hcs ⊢ with he
    · rw [he]
      exact ⟨hcs, rfl, fun _ => id⟩
    · exact ⟨hcs, rfl, fun _ => id⟩
  | @taken l hcap ht =>
    by_cases he : me = q
    · subst he
      have hproc := congrFun ht me
      rw [Table.put_self] at hproc
      by_cases hline : l = line
      · -- the whole count is returned, and none is left
        subst hline
        have hask := hmine rfl hcap
        rw [beq_self_eq_true] at hask
        refine ⟨fun _ => ?_, fun _ h0 => absurd (hask.symm.trans h0) (by decide)⟩
        have hret : (t.procs me).frame A.retReg = BitVec.ofNat 64 ((s.procs me).irqPending l) := by
          rw [hproc]
          exact Table.put_self ..
        have hst : (t.procs me).state = .ready := by
          rw [hproc]
          exact hready
        have hzero : (t.procs me).irqPending l = 0 := by
          rw [hproc]
          exact Table.put_self ..
        rw [returned, if_pos ⟨Or.inl hask, hst⟩, hret, hzero, hcr, BitVec.toNat_ofNat, Nat.add_zero, Nat.add_zero]
        apply Nat.mod_eq_of_lt
        calc (s.procs me).irqPending l ≤ U64_MAX := hle
          _ < 2 ^ 64 := by decide
      · refine Stays.conserved (fun hcs => ?_) hc hd hcr ?_
        · rw [hproc] at hcs ⊢
          exact ⟨hcs, Table.put_of_ne _ (Ne.symm hline) _, fun _ => id⟩
        · rw [hmine rfl hcap, beq_eq_false_iff_ne.2 hline]
    · refine Stays.conserved (.of_same ?_) hc hd hcr (hother he)
      rw [ht, Table.put_of_ne _ (Ne.symm he)]
  | @parked l u hcap hnone hu hm =>
    by_cases he : me = q
    · subst he
      have hproc := congrFun hu me
      rw [Table.put_self] at hproc
      have hlu : u.live me = true := by
        rw [KState.live, hproc]
        rfl
      obtain ⟨hcu, hpend, hwait⟩ := hm.stays id hq hlu hl' hc
      rw [hproc] at hpend hwait hcu
      by_cases hline : l = line
      · -- it is parked on the line, and nothing was pending
        subst hline
        have hst := hwait hd rfl
        have hask := hmine rfl hcap
        rw [beq_self_eq_true] at hask
        refine ⟨fun _ => ?_, fun _ h0 => absurd (hask.symm.trans h0) (by decide)⟩
        have hnot : ¬(((Happening.input (.syscall frame)).asks A s me l = true ∨ (s.procs me).state = .blockedIrq l) ∧
            (t.procs me).state = .ready) := by
          rintro ⟨-, h2⟩
          rw [hst] at h2
          exact absurd h2 (by simp)
        rw [returned, if_neg hnot, hpend, hcr, Nat.zero_add, Nat.add_zero]
      · refine Stays.conserved (fun _ => ⟨hcu, hpend, fun _ hst => ?_⟩) hc hd hcr ?_
        · rw [hready] at hst
          exact absurd hst (by simp)
        · rw [hmine rfl hcap, beq_eq_false_iff_ne.2 hline]
    · have hsame : u.procs q = s.procs q := by rw [hu, Table.put_of_ne _ (Ne.symm he)]
      have hlu : u.live q = true := by
        rw [KState.live, hsame]
        exact hl
      exact ((Stays.of_same hsame).trans (hm.stays id hq hlu hl')).conserved hc hd hcr (hother he)

end Conserved

/-! ## Every interleaving -/

/-- **One step conserves counts**, for a process that lives through it and holds the line at its end. -/
theorem Occurs.conserves {s₀ : KState} {e : Happening} {q line : ℕ} (h₀ : PreUserland A C s₀) (h : Interleaved A C s₀ s)
    (ho : Occurs A C s e t) (hl : s.live q = true) (hl' : t.live q = true)
    (hc : capsHoldIrq (t.procs q).caps line = true) : Conserved A q line s e t := by
  have hr := h.ready h₀
  have hq : q < MAX_PROCS := hr.sched.slots q hl
  obtain ⟨u, hu⟩ := h.booted
  have hd : deliversIrq line = true := ((h.occur ho).bounded h₀).delivers (booted_deliver hu) ⟨hq, hl'⟩ hc
  cases ho.occasion hr with
  | delivers he _ hcr =>
    refine (hcr q hq).conserved he hl hc hd fun hst => ?_
    obtain ⟨κ, hκ⟩ := h.saved h₀ q hl
    obtain ⟨-, -, -, -, hp⟩ := hκ.irq hst
    exact hp
  | collects he hnum hcol =>
    subst he
    have hi : s.idling = false := ho.1
    exact hcol.conserved (hr.called hi) hnum hq hl hl' hc hd (h.counts_le h₀ hq line)
  | neither hno hask hk hm =>
    refine (hm.stays hk hq hl hl').conserved hc hd (if_neg fun he => ?_) (hask q line)
    exact absurd (deliversIrq_lt hd) (not_lt.2 (hno line he))

/-- process `q` has held a readable `Irq` capability for `line` since it was loaded; the steps since, each with the state
it found and the state it left -/
inductive HeldSince (A : Arch) (C : Config) (s₀ : KState) (q line : ℕ) : List (KState × Happening × KState) → KState → Prop where
  | boot {s : KState} : bootUserland A C s₀ = .ok ((), s) → s.live q = true → capsHoldIrq (s.procs q).caps line = true →
      HeldSince A C s₀ q line [] s
  | loaded {s t : KState} {e : Happening} : Interleaved A C s₀ s → Occurs A C s e t → s.live q = false →
      t.live q = true → capsHoldIrq (t.procs q).caps line = true → HeldSince A C s₀ q line [] t
  | later {past : List (KState × Happening × KState)} {s t : KState} {e : Happening} : HeldSince A C s₀ q line past s →
      Occurs A C s e t → t.live q = true → capsHoldIrq (t.procs q).caps line = true →
      HeldSince A C s₀ q line (past ++ [(s, e, t)]) t

namespace HeldSince

variable {s₀ : KState} {q line : ℕ} {past : List (KState × Happening × KState)}

theorem interleaved (h : HeldSince A C s₀ q line past s) : Interleaved A C s₀ s := by
  induction h with
  | boot h => exact .boot h
  | loaded h ho => exact .occur h ho
  | later _ ho _ _ ih => exact .occur ih ho

theorem live (h : HeldSince A C s₀ q line past s) : s.live q = true := by
  cases h with
  | boot _ hl => exact hl
  | loaded _ _ _ hl => exact hl
  | later _ _ hl => exact hl

/-- every step since conserved the count -/
theorem conserved (h₀ : PreUserland A C s₀) (h : HeldSince A C s₀ q line past s) :
    ∀ m ∈ past, Conserved A q line m.1 m.2.1 m.2.2 := by
  induction h with
  | boot | loaded => simp
  | later h ho hl hc ih =>
    intro m hm
    rcases List.mem_append.1 hm with hm | hm
    · exact ih m hm
    · obtain rfl := List.mem_singleton.1 hm
      exact ho.conserves h₀ h.interleaved h.live hl hc

/-- a process is loaded without counts -/
theorem fresh {e : Happening} (h₀ : PreUserland A C s₀) (h : Interleaved A C s₀ s) (ho : Occurs A C s e t)
    (hl : s.live q = false) (hl' : t.live q = true) : (t.procs q).irqPending line = 0 := by
  have hr := h.ready h₀
  have hq : q < MAX_PROCS := (ho.moves hr).2.sched.slots q hl'
  have key : t.procs q ≠ s.procs q := fun he => by
    rw [KState.live, he] at hl'
    exact absurd (hl.symm.trans hl') (by decide)
  cases ho.occasion hr with
  | neither _ _ hk hm => exact hm.unborn hk hl hl'
  | delivers _ _ hcr =>
    -- nobody is born of a delivery
    obtain ⟨f, u, hu, hres⟩ := hcr q hq
    have hdead : ({ s.procs q with frame := f } : Process).live = false := hl
    rw [creditedProc, if_pos (Or.inl hdead)] at hu
    have hst : (t.procs q).state = (s.procs q).state := by rw [hres.state, hu]
    rw [KState.live, Process.live, hst] at hl'
    exact absurd (hl.symm.trans hl') (by decide)
  | collects he _ hcol =>
    subst he
    have hi : s.idling = false := ho.1
    have hne : q ≠ s.current := by
      rintro rfl
      exact absurd (hl.symm.trans (hr.called hi).alive.2) (by decide)
    cases hcol with
    | refused _ ht => exact absurd (by rw [ht, Table.put_of_ne _ hne]) key
    | taken _ ht => exact absurd (by rw [ht, Table.put_of_ne _ hne]) key
    | parked _ _ hu hm =>
      refine hm.unborn id ?_ hl'
      rw [KState.live, hu, Table.put_of_ne _ hne]
      exact hl

theorem sum (h₀ : PreUserland A C s₀) (h : HeldSince A C s₀ q line past s)
    (hroom : ∀ m ∈ past, m.2.1.credits line = 0 ∨ (m.1.procs q).irqPending line < U64_MAX) :
    (past.map fun m => returned A q line m.1 m.2.1 m.2.2).sum + (s.procs q).irqPending line =
      (past.map fun m => m.2.1.credits line).sum := by
  induction h with
  | boot h =>
    have hm := (wp_ok (boot_moves (G := Gate.all) (k := .fresh UserFrame.ZERO) h₀) h).1
    rcases hm.pending id q line with h1 | h1
    · rw [h1, h₀.noProcs]
      rfl
    · simp [h1]
  | loaded h ho hl hl' =>
    simp [fresh h₀ h ho hl hl']
  | @later past s t e h ho hl hc ih =>
    have hold := ih fun m hm => hroom m (List.mem_append_left _ hm)
    have hstep := (ho.conserves h₀ h.interleaved h.live hl hc).sum (hroom (s, e, t) (by simp))
    simp only [List.map_append, List.map_cons, List.map_nil, List.sum_append, List.sum_cons, List.sum_nil]
    omega

end HeldSince

/-- **Interrupt credits are conserved, line by line.** In every interleaving, and for a process that has held the line
since it was loaded: what `POLL_IRQ` and `WAIT_IRQ` returned and what is pending is what was credited, unless a credit found
the count saturated; and a step that neither credits the line nor is a call of the process for it leaves the count alone.
A live process that holds no readable capability for a line has no count for it. -/
theorem credits_conserved {s₀ : KState} (h₀ : PreUserland A C s₀) :
    (∀ q line past s, HeldSince A C s₀ q line past s →
      ((∀ m ∈ past, m.2.1.credits line = 0 ∨ (m.1.procs q).irqPending line < U64_MAX) →
        (past.map fun m => returned A q line m.1 m.2.1 m.2.2).sum + (s.procs q).irqPending line =
          (past.map fun m => m.2.1.credits line).sum) ∧
      ∀ m ∈ past, m.2.1.credits line = 0 → m.2.1.asks A m.1 q line = false →
        (m.2.2.procs q).irqPending line = (m.1.procs q).irqPending line) ∧
    (∀ s, Interleaved A C s₀ s → ∀ q line, s.live q = true → capsHoldIrq (s.procs q).caps line = false →
      (s.procs q).irqPending line = 0) ∧
    ∀ s, Reachable A C s₀ s → Interleaved A C s₀ s := by
  refine ⟨fun q line past s h => ⟨h.sum h₀, fun m hm => (h.conserved h₀ m hm).still⟩, fun s h q line hl hno => ?_,
    fun s h => h.interleaved⟩
  by_contra hne
  exact absurd (hno.symm.trans (h.countsHeld h₀ q line hl hne)) (by decide)

theorem Occurs.credit_awake (line : ℕ) (hi : s.idling = false) : Occurs A C s (.credit line) (creditIrq A line s) := by
  rw [Occurs, hi, if_neg (by decide)]

/-- one timer credit on the small machine, whose worker holds the timer's line from the start -/
theorem smallRun_held : HeldSince Riscv (smallConfig emptyImage ROLE_GRANTS 0) (smallState 0) 2 IRQ_TIMER
    [(smallRun, .credit IRQ_TIMER, creditIrq Riscv IRQ_TIMER smallRun)] (creditIrq Riscv IRQ_TIMER smallRun) := by
  have hboot : HeldSince Riscv (smallConfig emptyImage ROLE_GRANTS 0) (smallState 0) 2 IRQ_TIMER [] smallRun :=
    .boot smallRun_boots (by decide +kernel) (by decide +kernel)
  have ho : Occurs Riscv (smallConfig emptyImage ROLE_GRANTS 0) smallRun (.credit IRQ_TIMER)
      (creditIrq Riscv IRQ_TIMER smallRun) := .credit_awake IRQ_TIMER (by decide +kernel)
  have hl : (creditIrq Riscv IRQ_TIMER smallRun).live 2 = true := by decide +kernel
  have hc : capsHoldIrq ((creditIrq Riscv IRQ_TIMER smallRun).procs 2).caps IRQ_TIMER = true := by decide +kernel
  exact .later hboot ho hl hc

/-- one count is pending or was returned -/
theorem smallRun_counts : returned Riscv 2 IRQ_TIMER smallRun (.credit IRQ_TIMER) (creditIrq Riscv IRQ_TIMER smallRun) +
    ((creditIrq Riscv IRQ_TIMER smallRun).procs 2).irqPending IRQ_TIMER = 1 := by
  have key : ∀ v u, HeldSince Riscv (smallConfig emptyImage ROLE_GRANTS 0) (smallState 0) 2 IRQ_TIMER
      [(v, .credit IRQ_TIMER, u)] u → (v.procs 2).irqPending IRQ_TIMER < U64_MAX →
      returned Riscv 2 IRQ_TIMER v (.credit IRQ_TIMER) u + (u.procs 2).irqPending IRQ_TIMER = 1 := by
    intro v u hheld hroom
    have hone : (Happening.credit IRQ_TIMER).credits IRQ_TIMER = 1 := rfl
    have h := ((credits_conserved (smallState_ready emptyImage ROLE_GRANTS 0)).1 2 IRQ_TIMER _ _ hheld).1 fun m hm => by
      obtain rfl := List.mem_singleton.1 hm
      exact Or.inr hroom
    simp only [List.map_cons, List.map_nil, List.sum_cons, List.sum_nil, Nat.add_zero, hone] at h
    exact h
  have hroom : (smallRun.procs 2).irqPending IRQ_TIMER < U64_MAX := by decide +kernel
  exact key smallRun (creditIrq Riscv IRQ_TIMER smallRun) smallRun_held hroom

end Rustproof.Kernel
