/-
The representation invariant of the frame allocator, and one specification for each operation over it.

`Rep a` says: the table covers the tracked frames, every bit past them is used, and `free` is the number of clear bits.
Every operation is then described by what it does to `freeFrames a`, the set of free tracked frames:
- `allocFrame_some` / `allocFrame_none`: the lowest free frame at or above the cursor and the floor leaves the set;
- `allocDmaFrame_some` / `allocDmaFrame_none`: the lowest free frame of the arena leaves the set;
- `allocContiguous_some` / `allocContiguous_none`: the lowest run of free frames leaves the set, or nothing changes;
- `freeFrame_spec`: a used tracked frame at or above the floor joins the set, any other address changes nothing.
-/
import Rustproof.Mm.Allocator

namespace Rustproof.Mm

open Rustproof.Lib

namespace BitmapAllocator

/-- the tracked frames whose bit is clear -/
def freeFrames (a : BitmapAllocator) : Finset ℕ := (Finset.range a.total).filter fun f => a.isUsed f = false

theorem mem_freeFrames {a : BitmapAllocator} {f : ℕ} : f ∈ a.freeFrames ↔ f < a.total ∧ a.isUsed f = false := by
  simp [freeFrames]

/-- the representation invariant -/
structure Rep (a : BitmapAllocator) : Prop where
  fits : a.total ≤ 64 * a.bitmap.length
  /-- frame addresses do not overflow a `u64` -/
  bounded : a.total ≤ 2 ^ 52
  tail : ∀ f, a.total ≤ f → f < 64 * a.bitmap.length → a.isUsed f = true
  count : a.free = a.freeFrames.card

theorem frameAddr_of_lt {f : ℕ} (h : f < 2 ^ 52) : frameAddr f = f * PAGE_SIZE :=
  Nat.mod_eq_of_lt (by simp only [PAGE_SIZE, U64]; omega)

theorem frameAddr_div {f : ℕ} (h : f < 2 ^ 52) : frameAddr f / PAGE_SIZE = f := by
  rw [frameAddr_of_lt h]; exact Nat.mul_div_cancel f (by decide)

theorem Rep.div_lt {a : BitmapAllocator} (h : Rep a) {f : ℕ} (hf : f < a.total) : f / 64 < a.bitmap.length := by
  have := h.fits; omega

theorem Rep.lt_bound {a : BitmapAllocator} (h : Rep a) {f : ℕ} (hf : f < a.total) : f < 2 ^ 52 :=
  lt_of_lt_of_le hf h.bounded

/-- the cursor is a hint: no invariant mentions it -/
theorem Rep.withCursor {a : BitmapAllocator} (h : Rep a) (c : ℕ) : Rep { a with cursor := c } :=
  ⟨h.fits, h.bounded, h.tail, h.count⟩

/-! ## Taking and giving back frames -/

/-- the table with the frames of `fs` marked used, and the count lowered by their number -/
def takeAll (a : BitmapAllocator) (fs : List ℕ) : BitmapAllocator :=
  { a with bitmap := fs.foldl BitTable.mark a.bitmap, free := a.free - fs.length }

theorem isUsed_takeAll {a : BitmapAllocator} (h : Rep a) {fs : List ℕ} (hfs : ∀ f ∈ fs, f ∈ a.freeFrames) (g : ℕ) :
    (a.takeAll fs).isUsed g = (decide (g ∈ fs) || a.isUsed g) :=
  BitTable.test_markAll _ _ _ fun f hf => h.div_lt (mem_freeFrames.1 (hfs f hf)).1

theorem freeFrames_takeAll {a : BitmapAllocator} (h : Rep a) {fs : List ℕ} (hfs : ∀ f ∈ fs, f ∈ a.freeFrames) :
    (a.takeAll fs).freeFrames = a.freeFrames \ fs.toFinset := by
  ext g
  rw [mem_freeFrames, isUsed_takeAll h hfs, Finset.mem_sdiff, mem_freeFrames, List.mem_toFinset]
  simp only [takeAll, Bool.or_eq_false_iff, decide_eq_false_iff_not]
  tauto

theorem rep_takeAll {a : BitmapAllocator} (h : Rep a) (fs : List ℕ) (hfs : ∀ f ∈ fs, f ∈ a.freeFrames)
    (hnd : fs.Nodup) : Rep (a.takeAll fs) := by
  refine ⟨?_, h.bounded, fun f hf hl => ?_, ?_⟩
  · simpa [takeAll, BitTable.length_markAll] using h.fits
  · rw [isUsed_takeAll h hfs, h.tail f hf (by simpa [takeAll, BitTable.length_markAll] using hl), Bool.or_true]
  · rw [freeFrames_takeAll h hfs, Finset.card_sdiff_of_subset fun f hf => hfs f (List.mem_toFinset.1 hf),
      List.toFinset_card_of_nodup hnd, ← h.count]
    rfl

theorem take_eq_takeAll (a : BitmapAllocator) (f : ℕ) : a.take f = a.takeAll [f] := rfl

theorem rep_take {a : BitmapAllocator} (h : Rep a) {f : ℕ} (hf : f ∈ a.freeFrames) : Rep (a.take f) :=
  rep_takeAll h [f] (by simpa using hf) (by simp)

theorem freeFrames_take {a : BitmapAllocator} (h : Rep a) {f : ℕ} (hf : f ∈ a.freeFrames) :
    (a.take f).freeFrames = a.freeFrames.erase f := by
  rw [take_eq_takeAll, freeFrames_takeAll h (by simpa using hf)]
  simp [Finset.sdiff_singleton_eq_erase]

/-! ## `alloc_frame` -/

/-- the word-skipping search over the bitmap is the bit-by-bit one -/
theorem firstFree_some {a : BitmapAllocator} {start f : ℕ} (h : a.firstFree start = some f) :
    start ≤ f ∧ f ∈ a.freeFrames ∧ ∀ g ∈ a.freeFrames, start ≤ g → f ≤ g := by
  obtain ⟨h1, h2, h3, h4⟩ := (BitTable.scan_spec a.bitmap a.total (a.total - start) start (by omega)).1 f h
  refine ⟨h1, mem_freeFrames.2 ⟨h2, h3⟩, fun g hg hs => ?_⟩
  by_contra hlt
  have hu := h4 g hs (by omega)
  have hf : a.bitmap.test g = false := (mem_freeFrames.1 hg).2
  rw [hu] at hf; exact absurd hf (by decide)

theorem firstFree_none {a : BitmapAllocator} {start : ℕ} (h : a.firstFree start = none) :
    ∀ g ∈ a.freeFrames, g < start := by
  intro g hg
  by_contra hlt
  obtain ⟨hb, hf⟩ := mem_freeFrames.1 hg
  have hu := (BitTable.scan_spec a.bitmap a.total (a.total - start) start (by omega)).2 h g (by omega) hb
  exact absurd (hu.symm.trans hf) (by decide)

theorem allocFrame_some {a : BitmapAllocator} (h : Rep a) {p : ℕ} (hp : a.allocFrame.1 = some p) :
    ∃ f ∈ a.freeFrames, p = frameAddr f ∧ a.cursor ≤ f ∧ a.generalFloor ≤ f ∧
      (∀ g ∈ a.freeFrames, a.cursor ≤ g → a.generalFloor ≤ g → f ≤ g) ∧
      a.allocFrame.2 = { a.take f with cursor := f + 1 } ∧ Rep a.allocFrame.2 ∧
      a.allocFrame.2.freeFrames = a.freeFrames.erase f := by
  unfold allocFrame at hp ⊢
  cases hf : a.firstFree (max a.cursor a.generalFloor) with
  | none => rw [hf] at hp; simp at hp
  | some f =>
    rw [hf] at hp
    obtain ⟨h1, h2, h3⟩ := firstFree_some hf
    refine ⟨f, h2, (Option.some.inj hp).symm, le_trans (le_max_left _ _) h1, le_trans (le_max_right _ _) h1,
      fun g hg hc hgf => h3 g hg (max_le hc hgf), rfl, (rep_take h h2).withCursor _, freeFrames_take h h2⟩

theorem allocFrame_none {a : BitmapAllocator} (hp : a.allocFrame.1 = none) :
    a.allocFrame.2 = a ∧ ∀ g ∈ a.freeFrames, g < max a.cursor a.generalFloor := by
  unfold allocFrame at hp ⊢
  cases hf : a.firstFree (max a.cursor a.generalFloor) with
  | none => exact ⟨rfl, firstFree_none hf⟩
  | some f => rw [hf] at hp; simp at hp

/-! ## `alloc_dma_frame` -/

theorem dmaScan_spec (a : BitmapAllocator) (hb : a.total ≤ 2 ^ 52) (fuel f : ℕ) (hfuel : a.total ≤ f + fuel) :
    (∀ g, a.dmaScan fuel f = some g → f ≤ g ∧ g ∈ a.freeFrames ∧ g * PAGE_SIZE < a.dmaTop ∧
      ∀ j ∈ a.freeFrames, f ≤ j → g ≤ j) ∧
    (a.dmaScan fuel f = none → ∀ j ∈ a.freeFrames, f ≤ j → a.dmaTop ≤ j * PAGE_SIZE) := by
  induction fuel generalizing f with
  | zero =>
    exact ⟨fun g h => by simp [dmaScan] at h, fun _ j hj hf => absurd (mem_freeFrames.1 hj).1 (by omega)⟩
  | succ fuel ih =>
    obtain ⟨ih1, ih2⟩ := ih (f + 1) (by omega)
    rw [dmaScan]
    by_cases hc : f < a.total ∧ frameAddr f < a.dmaTop
    · rw [if_pos hc]
      rw [frameAddr_of_lt (lt_of_lt_of_le hc.1 hb)] at hc
      cases hu : a.isUsed f with
      | true =>
        simp only [if_true]
        have hne : ∀ j ∈ a.freeFrames, j ≠ f := fun j hj e => by
          subst e; exact absurd (hu.symm.trans (mem_freeFrames.1 hj).2) (by decide)
        refine ⟨fun g hg => ?_, fun hn j hj hf => ih2 hn j hj (by have := hne j hj; omega)⟩
        obtain ⟨h1, h2, h3, h4⟩ := ih1 g hg
        exact ⟨by omega, h2, h3, fun j hj hf => h4 j hj (by have := hne j hj; omega)⟩
      | false =>
        simp only [Bool.false_eq_true, if_false]
        refine ⟨fun g hg => ?_, fun hn => by simp at hn⟩
        obtain rfl := Option.some.inj hg
        exact ⟨le_rfl, mem_freeFrames.2 ⟨hc.1, hu⟩, hc.2, fun j _ hf => hf⟩
    · rw [if_neg hc]
      refine ⟨fun g hg => by simp at hg, fun _ j hj hf => ?_⟩
      have hj' := (mem_freeFrames.1 hj).1
      rw [frameAddr_of_lt (lt_of_le_of_lt hf (lt_of_lt_of_le hj' hb))] at hc
      have : a.dmaTop ≤ f * PAGE_SIZE := by
        by_contra hlt; exact hc ⟨by omega, Nat.lt_of_not_le hlt⟩
      exact le_trans this (Nat.mul_le_mul_right _ hf)

theorem allocDmaFrame_some {a : BitmapAllocator} (h : Rep a) {p : ℕ} (hp : a.allocDmaFrame.1 = some p) :
    ∃ f ∈ a.freeFrames, p = frameAddr f ∧ a.reserveBelow / PAGE_SIZE ≤ f ∧ f * PAGE_SIZE < a.dmaTop ∧
      (∀ g ∈ a.freeFrames, a.reserveBelow / PAGE_SIZE ≤ g → f ≤ g) ∧
      a.allocDmaFrame.2 = a.take f ∧ Rep a.allocDmaFrame.2 ∧
      a.allocDmaFrame.2.freeFrames = a.freeFrames.erase f := by
  simp only [allocDmaFrame] at hp ⊢
  cases hf : a.dmaScan (a.total - a.reserveBelow / PAGE_SIZE) (a.reserveBelow / PAGE_SIZE) with
  | none => rw [hf] at hp; simp at hp
  | some f =>
    rw [hf] at hp
    obtain ⟨h1, h2, h3, h4⟩ := (dmaScan_spec a h.bounded _ _ (by omega)).1 f hf
    exact ⟨f, h2, (Option.some.inj hp).symm, h1, h3, h4, rfl, rep_take h h2, freeFrames_take h h2⟩

theorem allocDmaFrame_none {a : BitmapAllocator} (h : Rep a) (hp : a.allocDmaFrame.1 = none) :
    a.allocDmaFrame.2 = a ∧
      ∀ g ∈ a.freeFrames, a.reserveBelow / PAGE_SIZE ≤ g → a.dmaTop ≤ g * PAGE_SIZE := by
  simp only [allocDmaFrame] at hp ⊢
  cases hf : a.dmaScan (a.total - a.reserveBelow / PAGE_SIZE) (a.reserveBelow / PAGE_SIZE) with
  | none => exact ⟨rfl, (dmaScan_spec a h.bounded _ _ (by omega)).2 hf⟩
  | some f => rw [hf] at hp; simp at hp

/-! ## `alloc_contiguous` -/

/-- frames `start..start+pages` are all free -/
def RunFree (a : BitmapAllocator) (start pages : ℕ) : Prop := ∀ f, start ≤ f → f < start + pages → f ∈ a.freeFrames

theorem contiguousScan_spec (a : BitmapAllocator) {pages : ℕ} (hpages : 0 < pages) (fuel start : ℕ)
    (hfuel : a.total ≤ start + fuel) :
    (∀ b, a.contiguousScan pages fuel start = some b →
      start ≤ b ∧ a.RunFree b pages ∧ ∀ c, start ≤ c → a.RunFree c pages → b ≤ c) ∧
    (a.contiguousScan pages fuel start = none → ∀ c, start ≤ c → ¬ a.RunFree c pages) := by
  induction fuel generalizing start with
  | zero =>
    refine ⟨fun b h => by simp [contiguousScan] at h, fun _ c hc hrun => ?_⟩
    exact absurd (mem_freeFrames.1 (hrun c le_rfl (by omega))).1 (by omega)
  | succ fuel ih =>
    rw [contiguousScan]
    by_cases hfit : start + pages ≤ a.total
    · rw [if_pos hfit]
      cases hfind : (List.range' start pages).find? a.isUsed with
      | some bad =>
        obtain ⟨ih1, ih2⟩ := ih (bad + 1) (by
          have := List.mem_of_find?_eq_some hfind; rw [List.mem_range'_1] at this; omega)
        have hbad : a.isUsed bad = true := List.find?_some hfind
        have hmem := List.mem_of_find?_eq_some hfind
        rw [List.mem_range'_1] at hmem
        -- no run can straddle the used frame
        have hpast : ∀ c, start ≤ c → a.RunFree c pages → bad + 1 ≤ c := fun c hc hrun => by
          by_contra hlt
          have := (mem_freeFrames.1 (hrun bad (by omega) (by omega))).2
          rw [hbad] at this; exact absurd this (by decide)
        refine ⟨fun b hb => ?_, fun hn c hc hrun => ih2 hn c (hpast c hc hrun) hrun⟩
        obtain ⟨h1, h2, h3⟩ := ih1 b hb
        exact ⟨by omega, h2, fun c hc hrun => h3 c (hpast c hc hrun) hrun⟩
      | none =>
        refine ⟨fun b hb => ?_, fun hn => by simp at hn⟩
        obtain rfl := Option.some.inj hb
        refine ⟨le_rfl, fun f h1 h2 => mem_freeFrames.2 ⟨by omega, ?_⟩, fun c hc _ => hc⟩
        rw [List.find?_eq_none] at hfind
        have := hfind f (List.mem_range'_1.2 ⟨h1, h2⟩)
        simpa using this
    · rw [if_neg hfit]
      refine ⟨fun b hb => by simp at hb, fun _ c hc hrun => ?_⟩
      exact absurd (mem_freeFrames.1 (hrun (c + pages - 1) (by omega) (by omega))).1 (by omega)

theorem allocContiguous_some {a : BitmapAllocator} (h : Rep a) {pages : ℕ} {p : ℕ}
    (hp : (a.allocContiguous pages).1 = some p) :
    ∃ b, p = frameAddr b ∧ 0 < pages ∧ a.RunFree b pages ∧ a.generalFloor ≤ b ∧ a.reserveBelow / PAGE_SIZE ≤ b ∧
      (∀ c, a.generalFloor ≤ c → a.reserveBelow / PAGE_SIZE ≤ c → a.RunFree c pages → b ≤ c) ∧
      (a.allocContiguous pages).2 = { a.takeAll (List.range' b pages) with
        cursor := if a.cursor < b + pages then b + pages else a.cursor } ∧
      Rep (a.allocContiguous pages).2 ∧
      (a.allocContiguous pages).2.freeFrames = a.freeFrames \ (List.range' b pages).toFinset := by
  unfold allocContiguous at hp ⊢
  by_cases hbad : pages = 0 ∨ pages > a.total
  · rw [if_pos hbad] at hp; simp at hp
  · rw [if_neg hbad] at hp ⊢
    have hpos : 0 < pages := by omega
    simp only at hp ⊢
    set lo := max a.generalFloor (a.reserveBelow / PAGE_SIZE)
    cases hs : a.contiguousScan pages (a.total - lo) lo with
    | none => rw [hs] at hp; simp at hp
    | some b =>
      rw [hs] at hp
      obtain ⟨h1, h2, h3⟩ := (contiguousScan_spec a hpos _ _ (by omega)).1 b hs
      have hfs : ∀ f ∈ List.range' b pages, f ∈ a.freeFrames := fun f hf => by
        rw [List.mem_range'_1] at hf; exact h2 f hf.1 hf.2
      have heq : ({ a with
          bitmap := (List.range' b pages).foldl BitTable.mark a.bitmap
          free := a.free - pages
          cursor := if a.cursor < b + pages then b + pages else a.cursor } : BitmapAllocator) =
          { a.takeAll (List.range' b pages) with
            cursor := if a.cursor < b + pages then b + pages else a.cursor } := by
        simp [takeAll]
      refine ⟨b, (Option.some.inj hp).symm, hpos, h2, le_trans (le_max_left _ _) h1, le_trans (le_max_right _ _) h1,
        fun c hc hc' hrun => h3 c (max_le hc hc') hrun, heq, ?_, ?_⟩
      · simp only [heq]
        exact (rep_takeAll h _ hfs (List.nodup_range' ..)).withCursor _
      · simp only [heq]
        exact freeFrames_takeAll h hfs

theorem allocContiguous_none {a : BitmapAllocator} {pages : ℕ} (hp : (a.allocContiguous pages).1 = none) :
    (a.allocContiguous pages).2 = a ∧
      (0 < pages → ∀ c, a.generalFloor ≤ c → a.reserveBelow / PAGE_SIZE ≤ c → ¬ a.RunFree c pages) := by
  unfold allocContiguous at hp ⊢
  by_cases hbad : pages = 0 ∨ pages > a.total
  · rw [if_pos hbad]
    refine ⟨rfl, fun hpos c _ _ hrun => ?_⟩
    have := (mem_freeFrames.1 (hrun (c + pages - 1) (by omega) (by omega))).1
    omega
  · rw [if_neg hbad] at hp ⊢
    simp only at hp ⊢
    set lo := max a.generalFloor (a.reserveBelow / PAGE_SIZE)
    cases hs : a.contiguousScan pages (a.total - lo) lo with
    | none =>
      exact ⟨rfl, fun hpos c h1 h2 =>
        (contiguousScan_spec a hpos _ _ (by omega)).2 hs c (max_le h1 h2)⟩
    | some b => rw [hs] at hp; simp at hp

/-! ## `free_frame` -/

/-- `free_frame` frees the frame of a used, tracked address at or above the floor, and does nothing otherwise -/
theorem freeFrame_spec {a : BitmapAllocator} (h : Rep a) (addr : ℕ) :
    (a.freeFrame addr = a ∧ (addr < a.reserveBelow ∨ a.total ≤ addr / PAGE_SIZE ∨ addr / PAGE_SIZE ∈ a.freeFrames)) ∨
    (addr / PAGE_SIZE < a.total ∧ addr / PAGE_SIZE ∉ a.freeFrames ∧ a.reserveBelow ≤ addr ∧
      (a.freeFrame addr).cursor = min (addr / PAGE_SIZE) a.cursor ∧
      (a.freeFrame addr).freeFrames = insert (addr / PAGE_SIZE) a.freeFrames) := by
  by_cases hlow : addr < a.reserveBelow
  · exact Or.inl ⟨by simp only [freeFrame, if_pos hlow], Or.inl hlow⟩
  simp only [freeFrame, if_neg hlow]
  generalize addr / PAGE_SIZE = f
  by_cases hbad : f ≥ a.total ∨ ¬ a.isUsed f
  · rw [if_pos hbad]
    refine Or.inl ⟨rfl, Or.inr ?_⟩
    by_cases hge : f ≥ a.total
    · exact Or.inl hge
    · refine Or.inr (mem_freeFrames.2 ⟨by omega, ?_⟩)
      rcases hbad with hb | hb
      · exact absurd hb hge
      · simpa using hb
  · rw [if_neg hbad]
    push Not at hbad
    obtain ⟨hlt, hused⟩ := hbad
    refine Or.inr ⟨by omega, fun hm => ?_, by omega, ?_, ?_⟩
    · exact absurd (hused.symm.trans (mem_freeFrames.1 hm).2) (by decide)
    · simp only; split_ifs <;> omega
    · ext g
      rw [mem_freeFrames, Finset.mem_insert, mem_freeFrames]
      simp only [isUsed, BitTable.test_clear a.bitmap f g (h.div_lt hlt)]
      by_cases hg : g = f
      · simp [hg, hlt]
      · simp [hg]

theorem freeFrame_fields (a : BitmapAllocator) (addr : ℕ) :
    (a.freeFrame addr).total = a.total ∧ (a.freeFrame addr).generalFloor = a.generalFloor ∧
      (a.freeFrame addr).dmaTop = a.dmaTop ∧ (a.freeFrame addr).reserveBelow = a.reserveBelow := by
  simp only [freeFrame]
  split_ifs <;> exact ⟨rfl, rfl, rfl, rfl⟩

theorem rep_freeFrame {a : BitmapAllocator} (h : Rep a) (addr : ℕ) : Rep (a.freeFrame addr) := by
  rcases freeFrame_spec h addr with ⟨heq, _⟩ | ⟨hlt, hnew, hge, _, hset⟩
  · rw [heq]; exact h
  have hused : ¬ (addr / PAGE_SIZE ≥ a.total ∨ ¬ a.isUsed (addr / PAGE_SIZE)) := by
    push Not
    refine ⟨hlt, ?_⟩
    cases hu : a.isUsed (addr / PAGE_SIZE) with
    | true => rfl
    | false => exact absurd (mem_freeFrames.2 ⟨hlt, hu⟩) hnew
  have heq : a.freeFrame addr = { a with
      bitmap := a.bitmap.clear (addr / PAGE_SIZE)
      free := a.free + 1
      cursor := if addr / PAGE_SIZE < a.cursor then addr / PAGE_SIZE else a.cursor } := by
    simp only [freeFrame, if_neg (Nat.not_lt.2 hge), if_neg hused]
  refine ⟨by rw [heq]; simpa using h.fits, by rw [heq]; exact h.bounded, fun g hg hl => ?_, ?_⟩
  · rw [heq] at hg hl ⊢
    simp only [BitTable.length_clear] at hg hl
    simp only [isUsed, BitTable.test_clear a.bitmap _ g (h.div_lt hlt)]
    have : g ≠ addr / PAGE_SIZE := fun e => by rw [e] at hg; exact absurd hlt (Nat.not_lt.2 hg)
    simpa [this, isUsed] using h.tail g hg hl
  · rw [hset, Finset.card_insert_of_notMem hnew, ← h.count, heq]

end BitmapAllocator

end Rustproof.Mm
