/-
Saved registers over whole runs.

`Traced` is a run that remembers, for every process slot, the registers its occupant's last trap saved: what the input
carried for the process it interrupted, the first registers of the image for one that was just loaded, and what it was for
everybody else. `registers_kept`: whatever the kernel did meanwhile, the frame a process is resumed on is that one, with the
results of its call in the result registers.
-/
import Rustproof.Kernel.Parked

namespace Rustproof.Kernel

open Lib Prog

variable {A : Arch} {C : Config} {s s' s₀ : KState} {κ : Table Trap}

/-- the first registers of process `id` -/
def firstFrame (A : Arch) (C : Config) (id : ℕ) : UserFrame :=
  match Loader.readHeader A C.userElf with
  | .ok hd => A.frameInit hd.entry A.userStackTop id
  | .error _ => UserFrame.ZERO

theorem FirstFrame.eq {id : ℕ} {f : UserFrame} (h : FirstFrame A C id f) : f = firstFrame A C id := by
  obtain ⟨hd, hhd, rfl⟩ := h
  rw [firstFrame, hhd]

/-- what is saved for every slot after the step from `s` to `s'` -/
def recordTraps (A : Arch) (C : Config) (κ : Table Trap) (s : KState) (i : Input) (s' : KState) : Table Trap := fun q =>
  if s.live q = false ∧ s'.live q = true then .fresh (firstFrame A C (s'.procs q).id)
  else if q = s.caller ∧ i.enters = true then i.trap A s
  else κ q

/-- a run from `s₀` that remembers what every slot's last trap saved -/
inductive Traced (A : Arch) (C : Config) (s₀ : KState) : Table Trap → KState → Prop where
  | boot {s : KState} : bootUserland A C s₀ = .ok ((), s) →
      Traced A C s₀ (fun q => .fresh (firstFrame A C (s.procs q).id)) s
  | step {κ : Table Trap} {s s' : KState} {i : Input} : Traced A C s₀ κ s → Step A C s i s' →
      Traced A C s₀ (recordTraps A C κ s i s') s'

/-- a traced run is a run -/
theorem Traced.reachable (h : Traced A C s₀ κ s) : Reachable A C s₀ s := by
  induction h with
  | boot h => exact .boot h
  | step _ hstep ih => exact .step ih hstep

/-- every run can be traced -/
theorem Reachable.traced (h : Reachable A C s₀ s) : ∃ κ, Traced A C s₀ κ s := by
  induction h with
  | boot h => exact ⟨_, .boot h⟩
  | step _ hstep ih => exact ih.imp' _ fun κ hκ => .step hκ hstep

theorem Traced.kept (h₀ : PreUserland A C s₀) (h : Traced A C s₀ κ s) (q : ℕ) (hl : s.live q = true) :
    Kept A (κ q) (s.procs q) := by
  induction h with
  | @boot s h =>
    obtain ⟨hm, -⟩ := wp_ok (boot_moves (G := Gate.all) (k := .fresh UserFrame.ZERO) h₀) h
    obtain ⟨f, hf, hk⟩ := hm.newcomer (q := q) (by rw [KState.live, h₀.noProcs]; rfl) hl
    show Kept A (.fresh (firstFrame A C (s.procs q).id)) (s.procs q)
    rw [← hf.eq]; exact hk
  | @step κ s s' i hrun hstep ih =>
    have hr := hrun.reachable.ready h₀
    obtain ⟨hm, -, hown⟩ := hstep.moves hr (Gate.admits_all A s i)
    rw [recordTraps]
    cases hls : s.live q with
    | false =>
      rw [if_pos ⟨rfl, hl⟩]
      obtain ⟨f, hf, hk⟩ := hm.newcomer hls hl
      rw [← hf.eq]; exact hk
    | true =>
      rw [if_neg fun hc => absurd hc.1 (by decide)]
      by_cases hq : q = s.caller
      · cases hi : s.idling with
        | true =>
          rw [hq, caller_parked hi] at hls
          exact absurd (hr.sched.slots _ hls) (by decide)
        | false =>
          have hcur := caller_awake hi
          cases hent : i.enters with
          | true => rw [if_pos ⟨hq, rfl⟩, hq, hcur]; exact hown hi hent
          | false =>
            -- a store is no trap: the process goes on running
            rw [if_neg fun hc => absurd hc.2 (by decide)]
            cases i with
            | store va b =>
              obtain ⟨-, hrun⟩ := hstep
              injection hrun with hrun
              injection hrun with _ hs'
              rw [← hs']
              exact ih hls
            | _ => simp [Input.enters] at hent
      · rw [if_neg fun hc => hq hc.1]
        exact (hm.other hq hls).2.2 _ (ih hls)

/-- a register that is not for results -/
theorem Returns.other {f f' : UserFrame} (h : Returns A f f') {w : ℕ} (h1 : w ≠ A.retReg)
    (h23 : A.frameNum f = sysno.RECV → w ≠ A.ret2Reg ∧ w ≠ A.ret3Reg) : f' w = f w := by
  rw [Returns] at h
  split_ifs at h with hy hr
  · rw [h]
  · obtain ⟨status, word, n, rfl⟩ := h
    rw [recvFrame, Arch.frameSetRet3, Table.put_of_ne _ (h23 hr).2, Arch.frameSetRet2, Table.put_of_ne _ (h23 hr).1,
      Arch.frameSetRet, Table.put_of_ne _ h1]
  · obtain ⟨v, rfl⟩ := h
    rw [Arch.frameSetRet, Table.put_of_ne _ h1]

/-- **Saved-register integrity.** In every state of every run, and for every process: after an interrupt its frame is what
was saved, and so is that of one which has not run yet; while it is parked its frame is what its call saved; and the frame
it is resumed on after a call differs from that in the return register only, and for `RECV` in the second and third. -/
theorem registers_kept (h₀ : PreUserland A C s₀) (h : Traced A C s₀ κ s) :
    (∀ q f, s.live q = true → κ q = .interrupt f → (s.procs q).frame = f) ∧
    (∀ q f, s.live q = true → κ q = .fresh f → (s.procs q).frame = f) ∧
    (∀ q f, s.live q = true → κ q = .syscall f →
      ((s.procs q).state ≠ .ready → (s.procs q).frame = f) ∧
      ((s.procs q).state = .ready → Returns A f (s.procs q).frame) ∧
      ∀ w ≠ A.retReg, (A.frameNum f = sysno.RECV → w ≠ A.ret2Reg ∧ w ≠ A.ret3Reg) → (s.procs q).frame w = f w) ∧
    (s.idling = false → s.live s.current = true ∧ (s.procs s.current).state = .ready) := by
  have hkept := h.kept h₀
  -- what is saved by an interrupt, or at load, is no parked call
  have parked : ∀ q, s.live q = true → (s.procs q).state ≠ .ready → ∃ f, κ q = .syscall f ∧ (s.procs q).frame = f := by
    intro q hl hst
    have hk := (hkept q hl).1
    cases hs : (s.procs q).state with
    | ready => exact absurd hs hst
    | free => rw [KState.live, Process.live, hs] at hl; exact absurd hl (by decide)
    | _ =>
      rw [hs] at hk
      obtain ⟨f, h1, -, h2⟩ := hk
      exact ⟨f, h1, h2⟩
  have ready : ∀ q f, s.live q = true → (s.procs q).state = .ready →
      (κ q = .syscall f → Returns A f (s.procs q).frame) ∧ (κ q = .interrupt f ∨ κ q = .fresh f → (s.procs q).frame = f) := by
    intro q f hl hst
    have hk := (hkept q hl).1
    rw [hst] at hk
    refine ⟨fun hκ => ?_, fun hκ => ?_⟩
    · rw [hκ] at hk
      exact hk
    · rcases hκ with hκ | hκ
      · rw [hκ] at hk
        exact hk
      · rw [hκ] at hk
        exact hk
  refine ⟨fun q f hl hκ => ?_, fun q f hl hκ => ?_, fun q f hl hκ => ⟨fun hst => ?_, fun hst => ?_, fun w hw h23 => ?_⟩,
    fun hi => ?_⟩
  · by_cases hst : (s.procs q).state = .ready
    · exact (ready q f hl hst).2 (Or.inl hκ)
    · obtain ⟨g, hg, -⟩ := parked q hl hst
      rw [hκ] at hg; simp at hg
  · by_cases hst : (s.procs q).state = .ready
    · exact (ready q f hl hst).2 (Or.inr hκ)
    · obtain ⟨g, hg, -⟩ := parked q hl hst
      rw [hκ] at hg; simp at hg
  · obtain ⟨g, hg, hf⟩ := parked q hl hst
    rw [hκ] at hg
    rw [hf]; injection hg with hg; exact hg.symm
  · exact (ready q f hl hst).1 hκ
  · by_cases hst : (s.procs q).state = .ready
    · exact Returns.other ((ready q f hl hst).1 hκ) hw h23
    · obtain ⟨g, hg, hf⟩ := parked q hl hst
      rw [hκ] at hg
      rw [hf]; injection hg with hg; rw [hg]
  · have hr := h.reachable.ready h₀
    have hc := (hr.running.awake hi).1
    exact ⟨(hr.sched.current_alive hc).2, hr.sched.current_ready hc⟩

/-- the small machine, its producer parked in its call and its consumer interrupted; the worker has not run yet -/
theorem smallTick_registers :
    ((smallTick.procs 0).state ≠ .ready ∧ (smallTick.procs 0).frame = snapshot Riscv sendFrame UserFrame.ZERO) ∧
    (smallTick.procs 1).frame = snapshot Riscv UserFrame.ZERO (smallSend.procs 1).frame ∧
    (smallTick.procs 2).frame = firstFrame Riscv (smallConfig emptyImage ROLE_GRANTS 0) (smallRun.procs 2).id ∧
    smallTick.live smallTick.current = true ∧ (smallTick.procs smallTick.current).state = .ready := by
  have hsend : Step Riscv (smallConfig emptyImage ROLE_GRANTS 0) smallRun (.syscall sendFrame) smallSend :=
    ⟨show smallRun.idling = false by decide +kernel, outcome_eq (by decide +kernel)⟩
  have htick : Step Riscv (smallConfig emptyImage ROLE_GRANTS 0) smallSend (.timer UserFrame.ZERO) smallTick :=
    ⟨trivial, outcome_eq (by decide +kernel)⟩
  -- who was there all the time, and whom the two inputs interrupted
  have hlive : ∀ q < 3, smallRun.live q = true ∧ smallSend.live q = true ∧ smallTick.live q = true := by decide +kernel
  have hcaller : smallRun.caller = 0 ∧ smallSend.caller = 1 ∧ smallSend.current = 1 := by decide +kernel
  have hold : ∀ {q} {s t : KState}, s.live q = true → ¬(s.live q = false ∧ t.live q = true) := fun h hc =>
    absurd (h.symm.trans hc.1) (by decide)
  obtain ⟨hint, hfresh, hcall, hawake⟩ := registers_kept (smallState_ready emptyImage ROLE_GRANTS 0)
    (.step (.step (.boot smallRun_boots) hsend) htick)
  have hstate : (smallTick.procs 0).state ≠ .ready := by decide +kernel
  refine ⟨⟨hstate, (hcall 0 _ (hlive 0 (by decide)).2.2 ?_).1 hstate⟩, hint 1 _ (hlive 1 (by decide)).2.2 ?_,
    hfresh 2 _ (hlive 2 (by decide)).2.2 ?_, hawake (by decide +kernel)⟩
  · rw [recordTraps, if_neg (hold (hlive 0 (by decide)).2.1), if_neg (by rw [hcaller.2.1]; decide), recordTraps,
      if_neg (hold (hlive 0 (by decide)).1), if_pos ⟨hcaller.1.symm, rfl⟩]
    rfl
  · rw [recordTraps, if_neg (hold (hlive 1 (by decide)).2.1), if_pos ⟨hcaller.2.1.symm, rfl⟩, Input.trap, hcaller.2.2]
  · rw [recordTraps, if_neg (hold (hlive 2 (by decide)).2.1), if_neg (by rw [hcaller.2.1]; decide), recordTraps,
      if_neg (hold (hlive 2 (by decide)).1), if_neg (by rw [hcaller.1]; decide)]

end Rustproof.Kernel
