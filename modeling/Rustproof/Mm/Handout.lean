/-
Which frames an allocator can ever hand out: exactly those it starts with.

- `run_held`: along a run that frees only held frames, every frame held or free was free at the start.
- `exists_run_holding`: every frame free in an allocator just built is handed out by some run, from the general pool or
  from the DMA arena.
-/
import Rustproof.Mm.GeneralPool

namespace Rustproof.Mm

open BitmapAllocator

/-- every frame held or free is one of `start` -/
def Within (start : Finset ℕ) (s : Pool) : Prop := (∀ f ∈ s.held, f ∈ start) ∧ s.a.freeFrames ⊆ start

theorem step_within {start : Finset ℕ} {s : Pool} (h : Rep s.a) (hw : Within start s) {o : Op}
    (ho : FreesHeld s o) : Within start (step s o) := by
  obtain ⟨hheld, hfree⟩ := hw
  cases o with
  | allocFrame =>
    cases hp : s.a.allocFrame.1 with
    | none => simpa [step, handedOut, hp, (allocFrame_none hp).1] using ⟨hheld, hfree⟩
    | some p =>
      obtain ⟨f, hf, rfl, _, _, _, _, _, hset⟩ := allocFrame_some h hp
      refine ⟨fun g hg => ?_, fun g hg => ?_⟩
      · rw [step, hp, handedOut, frameAddr_div (h.lt_bound (mem_freeFrames.1 hf).1)] at hg
        rcases List.mem_append.1 hg with hg | hg
        · exact hheld g hg
        · rw [List.mem_singleton.1 hg]; exact hfree hf
      · rw [step, hset] at hg
        exact hfree (Finset.mem_of_mem_erase hg)
  | allocDmaFrame =>
    cases hp : s.a.allocDmaFrame.1 with
    | none => simpa [step, handedOut, hp, (allocDmaFrame_none h hp).1] using ⟨hheld, hfree⟩
    | some p =>
      obtain ⟨f, hf, rfl, _, _, _, _, _, hset⟩ := allocDmaFrame_some h hp
      refine ⟨fun g hg => ?_, fun g hg => ?_⟩
      · rw [step, hp, handedOut, frameAddr_div (h.lt_bound (mem_freeFrames.1 hf).1)] at hg
        rcases List.mem_append.1 hg with hg | hg
        · exact hheld g hg
        · rw [List.mem_singleton.1 hg]; exact hfree hf
      · rw [step, hset] at hg
        exact hfree (Finset.mem_of_mem_erase hg)
  | allocContiguous pages =>
    cases hp : (s.a.allocContiguous pages).1 with
    | none => simpa [step, handedOut, hp, (allocContiguous_none hp).1] using ⟨hheld, hfree⟩
    | some p =>
      obtain ⟨b, rfl, hpos, hrun, _, _, _, _, _, hset⟩ := allocContiguous_some h hp
      refine ⟨fun g hg => ?_, fun g hg => ?_⟩
      · have hb : b ∈ s.a.freeFrames := hrun b le_rfl (by omega)
        rw [step, hp, handedOut, frameAddr_div (h.lt_bound (mem_freeFrames.1 hb).1)] at hg
        rcases List.mem_append.1 hg with hg | hg
        · exact hheld g hg
        · rw [List.mem_range'_1] at hg; exact hfree (hrun g hg.1 hg.2)
      · rw [step, hset] at hg
        exact hfree (Finset.mem_sdiff.1 hg).1
  | freeFrame addr =>
    refine ⟨fun g hg => hheld g (List.mem_of_mem_erase hg), fun g hg => ?_⟩
    rcases freeFrame_spec h addr with ⟨heq, _⟩ | ⟨_, _, _, _, hset⟩
    · rw [step, heq] at hg; exact hfree hg
    · rw [step, hset] at hg
      rcases Finset.mem_insert.1 hg with rfl | hg
      · exact hheld _ ho.1
      · exact hfree hg

/-- **Nothing else is ever handed out.** -/
theorem run_held {start : Finset ℕ} {s : Pool} (h : Rep s.a) (hw : Within start s) {ops : List Op}
    (hops : FreesOnlyHeld s ops) : Within start (run s ops) := by
  induction ops using List.reverseRecOn with
  | nil => exact hw
  | append_singleton pre o ih =>
    rw [run_snoc]
    refine step_within (run_rep h pre) (ih fun pre' o' hpre => ?_) (hops pre o (List.prefix_refl _))
    exact hops pre' o' (hpre.trans (List.prefix_append _ _))

/-- an allocation never frees anything, so a run of allocations is legal from any state -/
theorem freesOnlyHeld_replicate (s : Pool) (o : Op) (ho : ∀ t, FreesHeld t o) (n : ℕ) :
    FreesOnlyHeld s (List.replicate n o) := by
  intro pre o' hpre
  have : o' ∈ List.replicate n o := hpre.subset (List.mem_append_right _ (List.mem_singleton_self _))
  rw [List.eq_of_mem_replicate this]
  exact ho _

/-- repeating an operation that, while `f` is free, either hands out `f` or shrinks the free set and keeps `f` in it,
ends with `f` held -/
theorem exists_replicate_holding {o : Op} (good : Pool → Prop) {f : ℕ}
    (hstep : ∀ s, good s → f ∈ s.a.freeFrames → f ∈ (step s o).held ∨
      good (step s o) ∧ f ∈ (step s o).a.freeFrames ∧ (step s o).a.freeFrames.card < s.a.freeFrames.card)
    {s : Pool} (hs : good s) (hf : f ∈ s.a.freeFrames) : ∃ n, f ∈ (run s (List.replicate n o)).held := by
  induction hn : s.a.freeFrames.card using Nat.strong_induction_on generalizing s with
  | _ c ih =>
    subst hn
    rcases hstep s hs hf with h | ⟨h1, h2, h3⟩
    · exact ⟨1, h⟩
    · obtain ⟨n, hn⟩ := ih _ h3 h1 h2 rfl
      exact ⟨n + 1, by rw [List.replicate_succ, run_cons]; exact hn⟩

theorem exists_run_holding_general {s : Pool} (h : Rep s.a) (hc : s.a.CursorOk) (ha : s.a.AboveReserve) {f : ℕ}
    (hf : f ∈ s.a.freeFrames) (hgf : s.a.generalFloor ≤ f) : ∃ n, f ∈ (run s (List.replicate n .allocFrame)).held := by
  refine exists_replicate_holding
    (fun t => Rep t.a ∧ t.a.CursorOk ∧ t.a.AboveReserve ∧ t.a.generalFloor ≤ f) ?_ ⟨h, hc, ha, hgf⟩ hf
  rintro t ⟨h, hc, ha, hgf⟩ hf
  cases hp : t.a.allocFrame.1 with
  | none =>
    have hlt := (allocFrame_none hp).2 f hf
    have := hc f hf hgf
    omega
  | some p =>
    obtain ⟨g, hg, rfl, _, _, _, _, _, hset⟩ := allocFrame_some h hp
    have hheld : (step t .allocFrame).held = t.held ++ [g] := by
      rw [step, hp, handedOut, frameAddr_div (h.lt_bound (mem_freeFrames.1 hg).1)]; rfl
    by_cases hgf' : f = g
    · exact Or.inl (by rw [hheld, hgf']; simp)
    · refine Or.inr ⟨⟨step_rep h _, (step_cursorOk h ha hc _).2 trivial, step_aboveReserve h _ ha, ?_⟩, ?_, ?_⟩
      · rw [(step_limits h _).2.1]; exact hgf
      · rw [step, hset]; exact Finset.mem_erase.2 ⟨hgf', hf⟩
      · rw [step, hset]; exact Finset.card_erase_lt_of_mem hg

theorem exists_run_holding_dma {s : Pool} (h : Rep s.a) (ha : s.a.AboveReserve) {f : ℕ} (hf : f ∈ s.a.freeFrames)
    (htop : f * PAGE_SIZE < s.a.dmaTop) : ∃ n, f ∈ (run s (List.replicate n .allocDmaFrame)).held := by
  refine exists_replicate_holding
    (fun t => Rep t.a ∧ t.a.AboveReserve ∧ f * PAGE_SIZE < t.a.dmaTop) ?_ ⟨h, ha, htop⟩ hf
  rintro t ⟨h, ha, htop⟩ hf
  cases hp : t.a.allocDmaFrame.1 with
  | none =>
    have := (allocDmaFrame_none h hp).2 f hf (ha f hf)
    omega
  | some p =>
    obtain ⟨g, hg, rfl, _, _, _, _, _, hset⟩ := allocDmaFrame_some h hp
    have hheld : (step t .allocDmaFrame).held = t.held ++ [g] := by
      rw [step, hp, handedOut, frameAddr_div (h.lt_bound (mem_freeFrames.1 hg).1)]; rfl
    by_cases hgf' : f = g
    · exact Or.inl (by rw [hheld, hgf']; simp)
    · refine Or.inr ⟨⟨step_rep h _, step_aboveReserve h _ ha, ?_⟩, ?_, ?_⟩
      · rw [(step_limits h _).2.2.1]; exact htop
      · rw [step, hset]; exact Finset.mem_erase.2 ⟨hgf', hf⟩
      · rw [step, hset]; exact Finset.card_erase_lt_of_mem hg

/-- **Every frame free at the start is handed out by some run.** The general floor is the ceiling of the arena, rounded
up to a page, so each frame is on one side of it. -/
theorem exists_run_holding (regions : List MemoryRegion) (words reserveBelow dmaTop : ℕ) {f : ℕ}
    (hf : f ∈ (freshPool regions words reserveBelow dmaTop).a.freeFrames) :
    ∃ ops, FreesOnlyHeld (freshPool regions words reserveBelow dmaTop) ops ∧
      f ∈ (run (freshPool regions words reserveBelow dmaTop) ops).held := by
  have hrep := new_rep regions words reserveBelow dmaTop
  have hres := fresh_aboveReserve regions words reserveBelow dmaTop
  have hlt := hrep.lt_bound (mem_freeFrames.1 hf).1
  by_cases hgf : (freshPool regions words reserveBelow dmaTop).a.generalFloor ≤ f
  · obtain ⟨n, hn⟩ :=
      exists_run_holding_general hrep (fresh_cursorOk regions words reserveBelow dmaTop) hres hf hgf
    exact ⟨List.replicate n .allocFrame, freesOnlyHeld_replicate _ .allocFrame (fun _ => trivial) n, hn⟩
  · have htop : f * PAGE_SIZE < (freshPool regions words reserveBelow dmaTop).a.dmaTop := by
      by_contra htop
      refine hgf ?_
      show wadd dmaTop (PAGE_SIZE - 1) / PAGE_SIZE ≤ f
      have htop : dmaTop ≤ f * PAGE_SIZE := Nat.le_of_not_lt htop
      rw [wadd_of_lt (by simp only [PAGE_SIZE, U64] at *; omega)]
      simp only [PAGE_SIZE] at *; omega
    obtain ⟨n, hn⟩ := exists_run_holding_dma hrep hres hf htop
    exact ⟨List.replicate n .allocDmaFrame, freesOnlyHeld_replicate _ .allocDmaFrame (fun _ => trivial) n, hn⟩

end Rustproof.Mm
