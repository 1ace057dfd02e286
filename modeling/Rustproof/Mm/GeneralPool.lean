/-
Completeness of the general pool, and the one operation that breaks it.

`CursorOk` is the documented invariant of the search hint: no free frame of the general pool lies below `cursor`. With
it `alloc_frame` is complete (`complete_of_cursorOk`): it reports exhaustion only when the pool is exhausted.
- `step_cursorOk`: every operation preserves it, except `alloc_contiguous` when it skips a free frame. That call moves
  the cursor past the run it returns, whatever lies free before the run.
- `pool_complete_iff`: over a whole run the pool stays complete exactly when no contiguous allocation skips one.
- `contiguous_hides_free_frame`: two allocations, one free and one contiguous allocation leave frame 0 free and
  `alloc_frame` answering `None`.
-/
import Rustproof.Mm.Construction

namespace Rustproof.Mm

namespace BitmapAllocator

/-- no free frame at or above `general_floor` lies below `cursor` -/
def CursorOk (a : BitmapAllocator) : Prop := ∀ f ∈ a.freeFrames, a.generalFloor ≤ f → a.cursor ≤ f

/-- `alloc_frame` answers `None` exactly when no frame of `[general_floor, total)` is free -/
def Complete (a : BitmapAllocator) : Prop :=
  a.allocFrame.1 = none ↔ ∀ f, a.generalFloor ≤ f → f < a.total → f ∉ a.freeFrames

/-- no free frame starts below the reserve floor's frame -/
def AboveReserve (a : BitmapAllocator) : Prop := ∀ f ∈ a.freeFrames, a.reserveBelow / PAGE_SIZE ≤ f

/-- `f` is the lowest free frame of the general pool -/
def LowestFree (a : BitmapAllocator) (f : ℕ) : Prop :=
  f ∈ a.freeFrames ∧ a.generalFloor ≤ f ∧ ∀ g ∈ a.freeFrames, a.generalFloor ≤ g → f ≤ g

theorem exists_lowestFree {a : BitmapAllocator} {g : ℕ} (hg : g ∈ a.freeFrames) (hgf : a.generalFloor ≤ g) :
    ∃ f, a.LowestFree f := by
  classical
  have hne : (a.freeFrames.filter fun f => a.generalFloor ≤ f).Nonempty := ⟨g, Finset.mem_filter.2 ⟨hg, hgf⟩⟩
  obtain ⟨h1, h2⟩ := Finset.mem_filter.1 (Finset.min'_mem _ hne)
  exact ⟨_, h1, h2, fun k hk hkf => Finset.min'_le _ _ (Finset.mem_filter.2 ⟨hk, hkf⟩)⟩

theorem complete_of_cursorOk {a : BitmapAllocator} (h : Rep a) (hc : a.CursorOk) : a.Complete := by
  constructor
  · intro hn f hgf _ hf
    have := (allocFrame_none hn).2 f hf
    have := hc f hf hgf
    omega
  · intro hall
    cases hp : a.allocFrame.1 with
    | none => rfl
    | some p =>
      obtain ⟨f, hf, _, _, hgf, _⟩ := allocFrame_some h hp
      exact absurd hf (hall f hgf (mem_freeFrames.1 hf).1)

end BitmapAllocator

open BitmapAllocator

/-- an operation that is a contiguous allocation takes its run from the lowest free frame of the pool -/
def SkipsNothing (a : BitmapAllocator) : Op → Prop
  | .allocContiguous pages =>
    0 < pages → (∃ b, a.generalFloor ≤ b ∧ a.reserveBelow / PAGE_SIZE ≤ b ∧ a.RunFree b pages) →
      ∀ f, a.LowestFree f → a.RunFree f pages
  | _ => True

/-! ## One step -/

theorem step_rep {s : Pool} (h : Rep s.a) (o : Op) : Rep (step s o).a := by
  cases o with
  | allocFrame =>
    cases hp : s.a.allocFrame.1 with
    | none => simp only [step, (allocFrame_none hp).1]; exact h
    | some p => obtain ⟨_, _, _, _, _, _, _, hrep, _⟩ := allocFrame_some h hp; exact hrep
  | allocDmaFrame =>
    cases hp : s.a.allocDmaFrame.1 with
    | none => simp only [step, (allocDmaFrame_none h hp).1]; exact h
    | some p => obtain ⟨_, _, _, _, _, _, _, hrep, _⟩ := allocDmaFrame_some h hp; exact hrep
  | allocContiguous pages =>
    cases hp : (s.a.allocContiguous pages).1 with
    | none => simp only [step, (allocContiguous_none hp).1]; exact h
    | some p => obtain ⟨_, _, _, _, _, _, _, _, hrep, _⟩ := allocContiguous_some h hp; exact hrep
  | freeFrame addr => exact rep_freeFrame h addr

/-- the limits of an allocator never change -/
theorem step_limits {s : Pool} (h : Rep s.a) (o : Op) :
    (step s o).a.total = s.a.total ∧ (step s o).a.generalFloor = s.a.generalFloor ∧
      (step s o).a.dmaTop = s.a.dmaTop ∧ (step s o).a.reserveBelow = s.a.reserveBelow := by
  cases o with
  | allocFrame =>
    cases hp : s.a.allocFrame.1 with
    | none => simp only [step, (allocFrame_none hp).1, and_self]
    | some p => obtain ⟨_, _, _, _, _, _, heq, _⟩ := allocFrame_some h hp; simp only [step, heq]; exact ⟨rfl, rfl, rfl, rfl⟩
  | allocDmaFrame =>
    cases hp : s.a.allocDmaFrame.1 with
    | none => simp only [step, (allocDmaFrame_none h hp).1, and_self]
    | some p =>
      obtain ⟨_, _, _, _, _, _, heq, _⟩ := allocDmaFrame_some h hp; simp only [step, heq]; exact ⟨rfl, rfl, rfl, rfl⟩
  | allocContiguous pages =>
    cases hp : (s.a.allocContiguous pages).1 with
    | none => simp only [step, (allocContiguous_none hp).1, and_self]
    | some p =>
      obtain ⟨_, _, _, _, _, _, _, heq, _⟩ := allocContiguous_some h hp
      simp only [step, heq]; exact ⟨rfl, rfl, rfl, rfl⟩
  | freeFrame addr => exact freeFrame_fields s.a addr

theorem step_aboveReserve {s : Pool} (h : Rep s.a) (o : Op) (ha : s.a.AboveReserve) : (step s o).a.AboveReserve := by
  have hlim := (step_limits h o).2.2.2
  intro f hf
  rw [hlim]
  cases o with
  | allocFrame =>
    cases hp : s.a.allocFrame.1 with
    | none => simp only [step, (allocFrame_none hp).1] at hf; exact ha f hf
    | some p =>
      obtain ⟨_, _, _, _, _, _, _, _, hset⟩ := allocFrame_some h hp
      simp only [step, hset] at hf; exact ha f (Finset.mem_of_mem_erase hf)
  | allocDmaFrame =>
    cases hp : s.a.allocDmaFrame.1 with
    | none => simp only [step, (allocDmaFrame_none h hp).1] at hf; exact ha f hf
    | some p =>
      obtain ⟨_, _, _, _, _, _, _, _, hset⟩ := allocDmaFrame_some h hp
      simp only [step, hset] at hf; exact ha f (Finset.mem_of_mem_erase hf)
  | allocContiguous pages =>
    cases hp : (s.a.allocContiguous pages).1 with
    | none => simp only [step, (allocContiguous_none hp).1] at hf; exact ha f hf
    | some p =>
      obtain ⟨_, _, _, _, _, _, _, _, _, hset⟩ := allocContiguous_some h hp
      simp only [step, hset] at hf; exact ha f (Finset.mem_sdiff.1 hf).1
  | freeFrame addr =>
    rcases freeFrame_spec h addr with ⟨heq, _⟩ | ⟨_, _, hge, _, hset⟩
    · simp only [step, heq] at hf; exact ha f hf
    · simp only [step, hset] at hf
      rcases Finset.mem_insert.1 hf with rfl | hf
      · exact Nat.div_le_div_right hge
      · exact ha f hf

/-- **One step.** From a state whose cursor is honest, the cursor stays honest exactly when the step skips nothing. -/
theorem step_cursorOk {s : Pool} (h : Rep s.a) (ha : s.a.AboveReserve) (hc : s.a.CursorOk) (o : Op) :
    (step s o).a.CursorOk ↔ SkipsNothing s.a o := by
  cases o with
  | allocFrame =>
    refine ⟨fun _ => trivial, fun _ => ?_⟩
    cases hp : s.a.allocFrame.1 with
    | none => simp only [step, (allocFrame_none hp).1]; exact hc
    | some p =>
      obtain ⟨f, hf, _, _, hgf, hmin, heq, _, hset⟩ := allocFrame_some h hp
      intro g hg hgg
      simp only [step, hset] at hg
      rw [step, heq] at hgg ⊢
      obtain ⟨hne, hg⟩ := Finset.mem_erase.1 hg
      have h1 := hmin g hg (hc g hg hgg) hgg
      show f + 1 ≤ g
      omega
  | allocDmaFrame =>
    refine ⟨fun _ => trivial, fun _ => ?_⟩
    cases hp : s.a.allocDmaFrame.1 with
    | none => simp only [step, (allocDmaFrame_none h hp).1]; exact hc
    | some p =>
      obtain ⟨f, _, _, _, _, _, heq, _, hset⟩ := allocDmaFrame_some h hp
      intro g hg hgg
      simp only [step, hset] at hg
      rw [step, heq] at hgg ⊢
      exact hc g (Finset.mem_of_mem_erase hg) hgg
  | allocContiguous pages =>
    cases hp : (s.a.allocContiguous pages).1 with
    | none =>
      obtain ⟨heq, hnone⟩ := allocContiguous_none hp
      simp only [step, heq]
      exact ⟨fun _ hpos ⟨b, hb1, hb2, hrun⟩ => absurd hrun (hnone hpos b hb1 hb2), fun _ => hc⟩
    | some p =>
      obtain ⟨b, _, hpos, hrun, hgf, hrb, hmin, heq, _, hset⟩ := allocContiguous_some h hp
      have hb : b ∈ s.a.freeFrames := hrun b le_rfl (by omega)
      have hcur : (step s (.allocContiguous pages)).a.cursor = b + pages := by
        have := hc b hb hgf
        simp only [step, heq]; rw [if_pos (by omega)]
      have hfloor : (step s (.allocContiguous pages)).a.generalFloor = s.a.generalFloor := by
        simp only [step, heq]; rfl
      have hfree : ∀ g, g ∈ (step s (.allocContiguous pages)).a.freeFrames ↔
          g ∈ s.a.freeFrames ∧ ¬ (b ≤ g ∧ g < b + pages) := fun g => by
        simp only [step, hset, Finset.mem_sdiff, List.mem_toFinset, List.mem_range'_1]
      constructor
      · intro hok _ _ f hf
        -- the lowest free frame cannot lie before the run: it would stay free below the cursor
        have : f = b := by
          by_contra hne
          have hfb := hf.2.2 b hb hgf
          have := hok f ((hfree f).2 ⟨hf.1, by omega⟩) (by rw [hfloor]; exact hf.2.1)
          rw [hcur] at this; omega
        rw [this]; exact hrun
      · intro hskip g hg hgg
        rw [hfloor] at hgg
        obtain ⟨hg, hout⟩ := (hfree g).1 hg
        obtain ⟨f, hf⟩ := exists_lowestFree hb hgf
        have hrunf := hskip hpos ⟨b, hgf, hrb, hrun⟩ f hf
        have h1 := hmin f hf.2.1 (ha f hf.1) hrunf
        have h2 := hf.2.2 g hg hgg
        have h3 := hf.2.2 b hb hgf
        rw [hcur]; omega
  | freeFrame addr =>
    refine ⟨fun _ => trivial, fun _ => ?_⟩
    rcases freeFrame_spec h addr with ⟨heq, _⟩ | ⟨_, _, _, hcur, hset⟩
    · simp only [step, heq]; exact hc
    · intro g hg hgg
      simp only [step, hset] at hg
      simp only [step, hcur]
      simp only [step, (freeFrame_fields s.a addr).2.1] at hgg
      rcases Finset.mem_insert.1 hg with rfl | hg
      · exact min_le_left _ _
      · exact le_trans (min_le_right _ _) (hc g hg hgg)

/-! ## Whole runs -/

/-- a pool just built: nothing is held -/
def freshPool (regions : List MemoryRegion) (words reserveBelow dmaTop : ℕ) : Pool :=
  ⟨BitmapAllocator.new regions words reserveBelow dmaTop, []⟩

theorem run_rep {s : Pool} (h : Rep s.a) (ops : List Op) : Rep (run s ops).a := by
  induction ops generalizing s with
  | nil => exact h
  | cons o ops ih => exact ih (step_rep h o)

theorem run_aboveReserve {s : Pool} (h : Rep s.a) (ha : s.a.AboveReserve) (ops : List Op) :
    (run s ops).a.AboveReserve := by
  induction ops generalizing s with
  | nil => exact ha
  | cons o ops ih => exact ih (step_rep h o) (step_aboveReserve h o ha)

theorem fresh_aboveReserve (regions : List MemoryRegion) (words reserveBelow dmaTop : ℕ) :
    (freshPool regions words reserveBelow dmaTop).a.AboveReserve := by
  intro f hf
  have h := ((mem_freeFrames_new regions words reserveBelow dmaTop f).1 hf).2.2.2
  show reserveBelow / PAGE_SIZE ≤ f
  rw [Nat.div_le_iff_le_mul_add_pred (by decide)]
  rw [Nat.mul_comm] at h; omega

/-- every free frame of a fresh pool is at or above its cursor, which starts at 0 -/
theorem fresh_cursorOk (regions : List MemoryRegion) (words reserveBelow dmaTop : ℕ) :
    (freshPool regions words reserveBelow dmaTop).a.CursorOk := fun f _ _ => Nat.zero_le f

/-- the general pool is complete, and its cursor honest, after every operation of the run -/
def PoolComplete (s : Pool) (ops : List Op) : Prop :=
  ∀ pre, pre <+: ops → (run s pre).a.CursorOk ∧ (run s pre).a.Complete

/-- no contiguous allocation of the run skips a free frame -/
def RunSkipsNothing (s : Pool) (ops : List Op) : Prop :=
  ∀ pre o, pre ++ [o] <+: ops → SkipsNothing (run s pre).a o

theorem run_complete_iff {s : Pool} (h : Rep s.a) (ha : s.a.AboveReserve) (hc : s.a.CursorOk) (ops : List Op) :
    PoolComplete s ops ↔ RunSkipsNothing s ops := by
  have hstep : ∀ pre o, (run s pre).a.CursorOk →
      ((run s (pre ++ [o])).a.CursorOk ↔ SkipsNothing (run s pre).a o) := fun pre o hok => by
    rw [run_snoc]; exact step_cursorOk (run_rep h pre) (run_aboveReserve h ha pre) hok o
  constructor
  · intro hall pre o hpre
    exact (hstep pre o (hall pre ((List.prefix_append _ _).trans hpre)).1).1 (hall _ hpre).1
  · intro hskip pre hpre
    have hok : (run s pre).a.CursorOk := by
      induction pre using List.reverseRecOn with
      | nil => exact hc
      | append_singleton pre o ih =>
        exact (hstep pre o (ih ((List.prefix_append _ _).trans hpre))).2 (hskip pre o hpre)
    exact ⟨hok, complete_of_cursorOk (run_rep h pre) hok⟩

/-- **The general pool is complete exactly along the runs that skip nothing.** For every region list, reserve floor,
DMA ceiling, bitmap size and interleaving of the four operations. -/
theorem pool_complete_iff (regions : List MemoryRegion) (words reserveBelow dmaTop : ℕ) (ops : List Op) :
    PoolComplete (freshPool regions words reserveBelow dmaTop) ops ↔
      RunSkipsNothing (freshPool regions words reserveBelow dmaTop) ops :=
  run_complete_iff (new_rep regions words reserveBelow dmaTop)
    (fresh_aboveReserve regions words reserveBelow dmaTop) (fresh_cursorOk regions words reserveBelow dmaTop) ops

/-- only held frames are freed along the run -/
def FreesOnlyHeld (s : Pool) (ops : List Op) : Prop := ∀ pre o, pre ++ [o] <+: ops → FreesHeld (run s pre) o

/-- five usable frames, everything allocatable -/
def fivePages : Pool := freshPool [⟨0, 5 * PAGE_SIZE, .usable⟩] 1 0 0

/-- allocate frames 0 and 1, give frame 0 back, take three adjacent frames -/
def skippingOps : List Op := [.allocFrame, .allocFrame, .freeFrame 0, .allocContiguous 3]

/-- **A contiguous allocation hides a free frame.** After the run frame 0 is free and in the general pool, the cursor
stands at 5, and `alloc_frame` reports exhaustion. -/
theorem contiguous_hides_free_frame :
    (run fivePages skippingOps).a.allocFrame.1 = none ∧ 0 ∈ (run fivePages skippingOps).a.freeFrames ∧
      (run fivePages skippingOps).a.generalFloor = 0 ∧ (run fivePages skippingOps).a.cursor = 5 ∧
      FreesHeld (run fivePages [.allocFrame, .allocFrame]) (.freeFrame 0) ∧
      ¬ PoolComplete fivePages skippingOps := by
  have h1 : (run fivePages skippingOps).a.allocFrame.1 = none := by decide
  have h2 : 0 ∈ (run fivePages skippingOps).a.freeFrames := by decide
  have h3 : (run fivePages skippingOps).a.generalFloor = 0 := by decide
  refine ⟨h1, h2, h3, by decide, ⟨by decide, by decide⟩, fun hall => ?_⟩
  exact ((hall skippingOps (List.prefix_refl _)).2.1 h1) 0 (by rw [h3]) (mem_freeFrames.1 h2).1 h2

end Rustproof.Mm
