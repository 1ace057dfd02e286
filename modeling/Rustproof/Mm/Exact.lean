/-
The allocator's three searches and its construction, stated in full.

- `new_exact`: what `new` leaves free, in terms of bytes: the frames wholly inside a usable region, meeting no other
  region, at or above `reserve_below`; how many frames are tracked, and that the tail of the table is used.
- `alloc_contiguous_exact`: `alloc_contiguous` ends, returns the lowest run of free frames exactly when there is one,
  takes those frames and no others, and leaves everything as it was when it returns `None`.
- `first_free_exact`: the word-skipping search ends, reads no word past the table, and returns what testing one bit
  after another returns.

The two loops are also written here with what could go wrong in them (`contiguousLoop`, `firstFreeLoop`): a round when
the given number is used up, and a word read past the table, give `none`.
-/
import Rustproof.Mm.Construction

namespace Rustproof.Mm

open Rustproof.Lib

/-! ## Construction -/

/-- the bytes of frame `f` -/
def frameBytes (f : ℕ) : Set ℕ := Set.Ico (f * PAGE_SIZE) ((f + 1) * PAGE_SIZE)

/-- the bytes of a region -/
def regionBytes (r : MemoryRegion) : Set ℕ := Set.Ico r.start (r.start + r.len)

/-- frame `f` lies wholly inside a single usable region -/
def Backed (regions : List MemoryRegion) (f : ℕ) : Prop :=
  ∃ r ∈ regions, r.kind = .usable ∧ frameBytes f ⊆ regionBytes r

/-- frame `f` meets no region of another kind; an empty region has no bytes to meet -/
def Unclaimed (regions : List MemoryRegion) (f : ℕ) : Prop :=
  ∀ r ∈ regions, r.kind ≠ .usable → frameBytes f ∩ regionBytes r = ∅

theorem frees_iff_subset {r : MemoryRegion} (h : MemoryRegion.NoOverflow r) (f : ℕ) :
    Frees r f ↔ r.kind = .usable ∧ frameBytes f ⊆ regionBytes r := by
  have hlt : f * PAGE_SIZE < (f + 1) * PAGE_SIZE := by simp only [PAGE_SIZE]; omega
  rw [frees_iff h, frameBytes, regionBytes, Set.Ico_subset_Ico_iff hlt]

theorem takes_iff_meets {r : MemoryRegion} (h : MemoryRegion.NoOverflow r) (f : ℕ) :
    Takes r f ↔ r.kind ≠ .usable ∧ frameBytes f ∩ regionBytes r ≠ ∅ := by
  rw [takes_iff h, ← Set.nonempty_iff_ne_empty]
  simp only [frameBytes, regionBytes, PAGE_SIZE]
  constructor
  · intro ⟨h1, h2, h3, h4⟩
    exact ⟨h1, max (f * 4096) r.start, ⟨by omega, by omega⟩, by omega, by omega⟩
  · intro ⟨h1, a, ⟨h2, h3⟩, h4, h5⟩
    exact ⟨h1, by omega, by omega, by omega⟩

theorem exists_frees_iff {regions : List MemoryRegion} (h : ∀ r ∈ regions, MemoryRegion.NoOverflow r) (f : ℕ) :
    (∃ r ∈ regions, Frees r f) ↔ Backed regions f :=
  exists_congr fun r => and_congr_right fun hr => frees_iff_subset (h r hr) f

theorem forall_takes_iff {regions : List MemoryRegion} (h : ∀ r ∈ regions, MemoryRegion.NoOverflow r) (f : ℕ) :
    (∀ r ∈ regions, ¬ Takes r f) ↔ Unclaimed regions f := by
  refine forall₂_congr fun r hr => ?_
  rw [takes_iff_meets (h r hr), not_and, not_not]

/-- the highest frame of one round is the one before or a frame the region frees -/
theorem raiseHighest_cases {hi : Option ℕ} {r : MemoryRegion} {k : ℕ} (h : raiseHighest hi r = some k) :
    hi = some k ∨ Frees r k := by
  simp only [raiseHighest] at h
  split_ifs at h with h1 h2 h3
  · exact Or.inl h
  · exact Or.inl h
  · exact Or.inl h
  · push Not at h1 h2 h3
    have hfrees : Frees r (r.stop / PAGE_SIZE - 1) := ⟨h1, h2, h3, le_rfl⟩
    obtain rfl := Option.some.inj h
    cases hi with
    | none => exact Or.inr hfrees
    | some m =>
      rcases max_choice m (r.stop / PAGE_SIZE - 1) with he | he
      · exact Or.inl (congrArg some he.symm)
      · right
        simpa only [Option.elim, he] using hfrees

/-- the highest usable frame is one that some region frees -/
theorem highestUsableFrame_frees {regions : List MemoryRegion} {k : ℕ} (h : highestUsableFrame regions = some k) :
    ∃ r ∈ regions, Frees r k := by
  have key : ∀ (rs : List MemoryRegion) (hi : Option ℕ), rs.foldl raiseHighest hi = some k →
      hi = some k ∨ ∃ r ∈ rs, Frees r k := by
    intro rs
    induction rs with
    | nil => exact fun hi h => Or.inl h
    | cons r rs ih =>
      intro hi h
      rcases ih _ h with h' | ⟨q, hq, hk⟩
      · exact (raiseHighest_cases h').imp_right fun hk => ⟨r, List.mem_cons_self, hk⟩
      · exact Or.inr ⟨q, List.mem_cons_of_mem r hq, hk⟩
  exact (key regions none h).resolve_left (by simp)

/-- one past the highest frame wholly inside a usable region, `0` when there is none -/
theorem isLeast_framesFromRegions {regions : List MemoryRegion} (h : ∀ r ∈ regions, MemoryRegion.NoOverflow r) :
    IsLeast {n | ∀ f, Backed regions f → f < n} ((highestUsableFrame regions).elim 0 (· + 1)) := by
  constructor
  · intro f hf
    obtain ⟨r, hr, hfrees⟩ := (exists_frees_iff h f).2 hf
    obtain ⟨k, hk, hle⟩ := le_highestUsableFrame hr hfrees
    rw [hk]
    exact Nat.lt_succ_of_le hle
  · intro n hn
    cases hk : highestUsableFrame regions with
    | none => exact Nat.zero_le n
    | some k => exact hn k ((exists_frees_iff h k).1 (highestUsableFrame_frees hk))

/-- **Construction is exact.** Over every list of regions whose ends leave room to round up to a page. -/
theorem new_exact {regions : List MemoryRegion} (h : ∀ r ∈ regions, MemoryRegion.NoOverflow r)
    (words reserveBelow dmaTop : ℕ) :
    let a := BitmapAllocator.new regions words reserveBelow dmaTop
    (∀ f < a.total, a.isUsed f = false ↔
      Backed regions f ∧ Unclaimed regions f ∧ reserveBelow ≤ f * PAGE_SIZE) ∧
    (∃ past, IsLeast {n | ∀ f, Backed regions f → f < n} past ∧ a.total = min past (64 * words)) ∧
    (a.bitmap.length = words ∧ ∀ f, a.total ≤ f → f < 64 * words → a.isUsed f = true) ∧
    a.free = {f | f < a.total ∧ a.isUsed f = false}.ncard := by
  intro a
  obtain ⟨hlen, htot, htail, hbit⟩ := new_bitmap regions words reserveBelow dmaTop
  have hrep := new_rep regions words reserveBelow dmaTop
  refine ⟨fun f hf => ?_, ⟨_, isLeast_framesFromRegions h, ?_⟩, ⟨hlen, htail⟩, ?_⟩
  · rw [hbit f hf, exists_frees_iff h, forall_takes_iff h]
  · -- the capacity saturates only above every frame number
    have hpast : (highestUsableFrame regions).elim 0 (· + 1) ≤ 2 ^ 52 := by
      cases hk : highestUsableFrame regions with
      | none => exact Nat.zero_le _
      | some k => exact highestUsableFrame_lt regions hk
    show trackedFrames regions words = _
    simp only [trackedFrames, BITS_PER_WORD, U64_MAX]
    omega
  · have hset : {f | f < a.total ∧ a.isUsed f = false} = ↑a.freeFrames := by
      ext f
      simp [BitmapAllocator.mem_freeFrames]
    rw [hset, Set.ncard_coe_finset]
    exact hrep.count

/-- sixteen usable frames but for the last byte, the reserved byte in frame 2, and an empty reserved region -/
def overlapMap : List MemoryRegion :=
  [⟨2 * PAGE_SIZE + 7, 1, .reserved⟩, ⟨1, 16 * PAGE_SIZE - 2, .usable⟩, ⟨5 * PAGE_SIZE + 3, 0, .acpiNvs⟩]

theorem new_exact_overlapMap :
    let a := BitmapAllocator.new overlapMap 1 (4 * PAGE_SIZE) 0
    a.free = 11 ∧ ∀ f < a.total, a.isUsed f = false ↔
      Backed overlapMap f ∧ Unclaimed overlapMap f ∧ 4 * PAGE_SIZE ≤ f * PAGE_SIZE :=
  ⟨by decide, (new_exact (by simp [overlapMap, MemoryRegion.NoOverflow, PAGE_SIZE, U64]) 1 (4 * PAGE_SIZE) 0).1⟩

namespace BitmapAllocator

/-! ## `alloc_contiguous` -/

/-- the loop of `alloc_contiguous`, `none` when it is still running after `fuel` rounds. Both bounds `start` begins at
are addresses shifted right by a page, so that `start + pages` stays far inside a `usize`. -/
def contiguousLoop (a : BitmapAllocator) (pages : ℕ) : ℕ → ℕ → Option (Option ℕ)
  | 0, _ => none
  | fuel + 1, start =>
    if start + pages ≤ a.total then
      match (List.range' start pages).find? a.isUsed with
      | some bad => contiguousLoop a pages fuel (bad + 1)
      | none => some (some start)
    else some none

/-- every round that does not end the loop moves `start` up, past a used frame of its own window -/
theorem contiguousLoop_eq (a : BitmapAllocator) {pages : ℕ} (hpages : 0 < pages) (n fuel start : ℕ)
    (hn : a.total - start < n) (hfuel : a.total ≤ start + fuel) :
    a.contiguousLoop pages n start = some (a.contiguousScan pages fuel start) := by
  induction n generalizing start fuel with
  | zero => omega
  | succ n ih =>
    rw [contiguousLoop]
    by_cases hfit : start + pages ≤ a.total
    · obtain ⟨fuel, rfl⟩ : ∃ m, fuel = m + 1 := ⟨fuel - 1, by omega⟩
      rw [contiguousScan, if_pos hfit, if_pos hfit]
      cases hfind : (List.range' start pages).find? a.isUsed with
      | none => rfl
      | some bad =>
        have hmem := List.mem_range'_1.1 (List.mem_of_find?_eq_some hfind)
        exact ih fuel (bad + 1) (by omega) (by omega)
    · rw [if_neg hfit]
      cases fuel with
      | zero => rfl
      | succ fuel => rw [contiguousScan, if_neg hfit]

/-- `pages` frames from `b` on, all inside `[lo, total)` and all free -/
def FreeRun (a : BitmapAllocator) (lo pages b : ℕ) : Prop :=
  lo ≤ b ∧ b + pages ≤ a.total ∧ ∀ f, b ≤ f → f < b + pages → a.isUsed f = false

theorem freeRun_iff {a : BitmapAllocator} {pages : ℕ} (hpages : 0 < pages) (lo b : ℕ) :
    a.FreeRun lo pages b ↔ lo ≤ b ∧ a.RunFree b pages := by
  refine and_congr_right fun _ => ⟨fun ⟨hfit, hfree⟩ f h1 h2 => ?_, fun hrun => ⟨?_, fun f h1 h2 => ?_⟩⟩
  · exact mem_freeFrames.2 ⟨by omega, hfree f h1 h2⟩
  · have := (mem_freeFrames.1 (hrun (b + pages - 1) (by omega) (by omega))).1
    omega
  · exact (mem_freeFrames.1 (hrun f h1 h2)).2

/-- **Contiguous allocation is exact and all or nothing.** -/
theorem alloc_contiguous_exact {a : BitmapAllocator} (h : Rep a) (pages : ℕ) :
    let lo := max a.generalFloor (a.reserveBelow / PAGE_SIZE)
    let result := (a.allocContiguous pages).1
    let after := (a.allocContiguous pages).2
    (0 < pages → ∀ fuel, a.total - lo < fuel →
      a.contiguousLoop pages fuel lo = some (a.contiguousScan pages (a.total - lo) lo)) ∧
    (result.isSome ↔ 0 < pages ∧ ∃ b, a.FreeRun lo pages b) ∧
    (∀ base, result = some base → ∃ b, base = b * PAGE_SIZE ∧ IsLeast {c | a.FreeRun lo pages c} b ∧
      (∀ f, after.isUsed f = (decide (b ≤ f ∧ f < b + pages) || a.isUsed f)) ∧
      after.free + pages = a.free ∧ after.total = a.total) ∧
    (result = none → after = a) := by
  intro lo result after
  have hsome : ∀ base, result = some base → 0 < pages ∧ ∃ b, base = b * PAGE_SIZE ∧
      IsLeast {c | a.FreeRun lo pages c} b ∧
      (∀ f, after.isUsed f = (decide (b ≤ f ∧ f < b + pages) || a.isUsed f)) ∧
      after.free + pages = a.free ∧ after.total = a.total := by
    intro base hbase
    obtain ⟨b, hb, hpos, hrun, hfloor, hres, hleast, hafter, _, _⟩ := allocContiguous_some h hbase
    have hfs : ∀ f ∈ List.range' b pages, f ∈ a.freeFrames := by
      intro f hf
      have := List.mem_range'_1.1 hf
      exact hrun f this.1 this.2
    have hcard : pages ≤ a.free := by
      calc pages = (List.range' b pages).toFinset.card := by
              rw [List.toFinset_card_of_nodup (List.nodup_range' ..), List.length_range']
        _ ≤ a.freeFrames.card := Finset.card_le_card fun f hf => hfs f (List.mem_toFinset.1 hf)
        _ = a.free := h.count.symm
    have hlt : b < 2 ^ 52 := h.lt_bound (mem_freeFrames.1 (hrun b le_rfl (by omega))).1
    have hafter' : after = _ := hafter
    refine ⟨hpos, b, hb.trans (frameAddr_of_lt hlt), ⟨?_, fun c hc => ?_⟩, fun f => ?_, ?_, ?_⟩
    · exact (freeRun_iff hpos lo b).2 ⟨max_le hfloor hres, hrun⟩
    · obtain ⟨hlo, hc⟩ := (freeRun_iff hpos lo c).1 hc
      exact hleast c (le_trans (le_max_left _ _) hlo) (le_trans (le_max_right _ _) hlo) hc
    · rw [hafter']
      show (a.takeAll (List.range' b pages)).isUsed f = _
      rw [isUsed_takeAll h hfs]
      simp only [List.mem_range'_1]
    · rw [hafter']
      show a.free - (List.range' b pages).length + pages = a.free
      rw [List.length_range']
      omega
    · rw [hafter']
      rfl
  have hnone : result = none → after = a ∧ (0 < pages → ∀ c, ¬ a.FreeRun lo pages c) := by
    intro hn
    obtain ⟨hsame, hno⟩ := allocContiguous_none hn
    refine ⟨hsame, fun hpos c hc => ?_⟩
    obtain ⟨hlo, hrun⟩ := (freeRun_iff hpos lo c).1 hc
    exact hno hpos c (le_trans (le_max_left _ _) hlo) (le_trans (le_max_right _ _) hlo) hrun
  refine ⟨fun hpos fuel hfuel => ?_, ⟨fun hs => ?_, fun ⟨hpos, b, hb⟩ => ?_⟩, fun base hbase => (hsome base hbase).2,
    fun hn => (hnone hn).1⟩
  · exact contiguousLoop_eq a hpos fuel _ lo hfuel (by omega)
  · obtain ⟨base, hbase⟩ := Option.isSome_iff_exists.1 hs
    obtain ⟨hpos, b, _, hleast, _⟩ := hsome base hbase
    exact ⟨hpos, b, hleast.1⟩
  · by_contra hn
    exact (hnone (Option.not_isSome_iff_eq_none.1 hn)).2 hpos b hb

theorem alloc_contiguous_exact_overlapMap :
    let a := BitmapAllocator.new overlapMap 1 (4 * PAGE_SIZE) 0
    (a.allocContiguous 11).1 = some (4 * PAGE_SIZE) ∧ (a.allocContiguous 12).1 = none ∧
      ∀ pages, (a.allocContiguous pages).1.isSome ↔ 0 < pages ∧ ∃ b, a.FreeRun 4 pages b :=
  ⟨by decide, by decide, fun pages =>
    (alloc_contiguous_exact (new_rep overlapMap 1 (4 * PAGE_SIZE) 0) pages).2.1⟩

/-! ## `first_free` -/

/-- the loop of `first_free`, `none` when it is still running after `fuel` rounds or reads a word the table has not
got. Positions are naturals: a table on which `(w + 1) * 64` leaves a `usize` has `2 ^ 58` words. -/
def firstFreeLoop (a : BitmapAllocator) : ℕ → ℕ → Option (Option ℕ)
  | 0, _ => none
  | fuel + 1, f =>
    if f < a.total then
      let w := f / BITS_PER_WORD
      match a.bitmap[w]? with
      | none => none
      | some word =>
        if word = BitVec.allOnes 64 then firstFreeLoop a fuel ((w + 1) * BITS_PER_WORD)
        else
          let masked := word ||| (BitTable.mask f - 1)
          if masked ≠ BitVec.allOnes 64 then
            let frame := w * BITS_PER_WORD + BitTable.trailingZeros (~~~ masked)
            some (if frame < a.total then some frame else none)
          else firstFreeLoop a fuel ((w + 1) * BITS_PER_WORD)
    else some none

/-- every round that does not end the loop moves on to the next word -/
theorem firstFreeLoop_eq {a : BitmapAllocator} (hfits : a.total ≤ 64 * a.bitmap.length) (n fuel f : ℕ)
    (hn : a.total - f < n) (hfuel : a.total ≤ f + fuel) :
    a.firstFreeLoop n f = some (a.bitmap.scan a.total fuel f) := by
  induction n generalizing f fuel with
  | zero => omega
  | succ n ih =>
    rw [firstFreeLoop]
    by_cases hf : f < a.total
    · obtain ⟨fuel, rfl⟩ : ∃ m, fuel = m + 1 := ⟨fuel - 1, by omega⟩
      have hw : f / 64 < a.bitmap.length := by omega
      have hnext := ih fuel ((f / 64 + 1) * 64) (by omega) (by omega)
      have hword : a.bitmap.getD (f / 64) 0 = a.bitmap[f / 64] := by simp [List.getD_eq_getElem?_getD, hw]
      rw [BitTable.scan]
      simp only [hf, if_true, BITS_PER_WORD, List.getElem?_eq_getElem hw, hword, hnext]
      split_ifs <;> rfl
    · rw [if_neg hf]
      cases fuel with
      | zero => rfl
      | succ fuel => rw [BitTable.scan, if_neg hf]

/-- **The word-at-a-time search is the bit-by-bit one.** -/
theorem first_free_exact {a : BitmapAllocator} (hfits : a.total ≤ 64 * a.bitmap.length) (start : ℕ) :
    (∀ fuel, a.total - start < fuel → a.firstFreeLoop fuel start = some (a.firstFree start)) ∧
    a.firstFree start = (List.range' start (a.total - start)).find? (fun f => !a.isUsed f) ∧
    (∀ f, a.firstFree start = some f → IsLeast {g | start ≤ g ∧ g < a.total ∧ a.isUsed g = false} f) ∧
    (a.firstFree start = none ↔ ∀ g, start ≤ g → g < a.total → a.isUsed g = true) := by
  have hsome : ∀ f, a.firstFree start = some f →
      IsLeast {g | start ≤ g ∧ g < a.total ∧ a.isUsed g = false} f := by
    intro f hf
    obtain ⟨hle, hfree, hleast⟩ := firstFree_some hf
    obtain ⟨hlt, hclear⟩ := mem_freeFrames.1 hfree
    exact ⟨⟨hle, hlt, hclear⟩, fun g ⟨h1, h2, h3⟩ => hleast g (mem_freeFrames.2 ⟨h2, h3⟩) h1⟩
  have hnone : a.firstFree start = none → ∀ g, start ≤ g → g < a.total → a.isUsed g = true := by
    intro hn g h1 h2
    by_contra hused
    have := firstFree_none hn g (mem_freeFrames.2 ⟨h2, by simpa using hused⟩)
    omega
  have hnone_iff : a.firstFree start = none ↔ ∀ g, start ≤ g → g < a.total → a.isUsed g = true := by
    refine ⟨hnone, fun hall => ?_⟩
    cases hf : a.firstFree start with
    | none => rfl
    | some f =>
      obtain ⟨⟨h1, h2, h3⟩, _⟩ := hsome f hf
      rw [hall f h1 h2] at h3
      exact absurd h3 (by decide)
  refine ⟨fun fuel hfuel => firstFreeLoop_eq hfits fuel _ start hfuel (by omega), ?_, hsome, hnone_iff⟩
  cases hf : a.firstFree start with
  | none =>
    symm
    apply List.find?_eq_none.2
    intro g hg
    have := List.mem_range'_1.1 hg
    simp [hnone hf g this.1 (by omega)]
  | some f =>
    obtain ⟨⟨h1, h2, h3⟩, hleast⟩ := hsome f hf
    symm
    apply List.find?_range'_eq_some.2
    refine ⟨by simp [h3], List.mem_range'_1.2 ⟨h1, by omega⟩, fun g hg hlt => ?_⟩
    by_contra hclear
    have := hleast ⟨hg, by omega, by simpa using hclear⟩
    omega

theorem first_free_exact_overlapMap :
    let a := BitmapAllocator.new overlapMap 1 (4 * PAGE_SIZE) 0
    a.firstFreeLoop 16 0 = some (some 4) ∧
      ∀ start fuel, a.total - start < fuel → a.firstFreeLoop fuel start = some (a.firstFree start) :=
  ⟨by decide, fun start => (first_free_exact (new_rep overlapMap 1 (4 * PAGE_SIZE) 0).fits start).1⟩

end BitmapAllocator

end Rustproof.Mm
