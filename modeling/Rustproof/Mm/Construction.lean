/-
What `BitmapAllocator::new` builds, read off its three passes.

- `new_rep`: the result satisfies the representation invariant for every region list, floor, ceiling and bitmap size.
- `mem_freeFrames_new`: a tracked frame is free exactly when some usable region frees it, no non-usable region takes it
  back, and it does not start below `reserve_below`.
- `frees_iff` / `takes_iff`: where the region's end does not overflow, "frees" is containment of the whole frame and
  "takes" is a non-empty intersection: both passes round toward not allocatable.
-/
import Rustproof.Mm.Invariant

namespace Rustproof.Mm

open Rustproof.Lib

/-- the first pass clears frame `f` on account of region `r` -/
def Frees (r : MemoryRegion) (f : ℕ) : Prop :=
  r.kind = .usable ∧ PAGE_SIZE ≤ r.stop ∧ wadd r.start (PAGE_SIZE - 1) / PAGE_SIZE ≤ f ∧ f ≤ r.stop / PAGE_SIZE - 1

/-- the second pass marks frame `f` on account of region `r` -/
def Takes (r : MemoryRegion) (f : ℕ) : Prop :=
  r.kind ≠ .usable ∧ r.len ≠ 0 ∧ r.start / PAGE_SIZE ≤ f ∧ f ≤ max (wadd r.stop (PAGE_SIZE - 1) / PAGE_SIZE) 1 - 1

instance (r : MemoryRegion) (f : ℕ) : Decidable (Frees r f) := by unfold Frees; infer_instance

instance (r : MemoryRegion) (f : ℕ) : Decidable (Takes r f) := by unfold Takes; infer_instance

/-! ## The passes -/

theorem length_clearUsable (last : ℕ) (t : BitTable) (r : MemoryRegion) :
    (clearUsable last t r).length = t.length := by
  simp only [clearUsable, clearRange]
  split_ifs <;> simp [BitTable.length_clearAll]

theorem length_markReserved (last : ℕ) (t : BitTable) (r : MemoryRegion) :
    (markReserved last t r).length = t.length := by
  simp only [markReserved, markRange]
  split_ifs <;> simp [BitTable.length_markAll]

theorem mem_span {lo hi f : ℕ} : f ∈ List.range' lo (hi + 1 - lo) ↔ lo ≤ f ∧ f ≤ hi := by
  rw [List.mem_range'_1]; omega

theorem test_clearUsable {last : ℕ} {t : BitTable} (hl : last / 64 < t.length) (r : MemoryRegion) (f : ℕ) :
    (clearUsable last t r).test f = (!decide (Frees r f ∧ f ≤ last) && t.test f) := by
  simp only [clearUsable]
  split_ifs with h1 h2 h3
  · simp [Frees, h1]
  · have : ¬ PAGE_SIZE ≤ r.stop := Nat.not_le.2 h2
    simp [Frees, this]
  · have : ¬ Frees r f := fun ⟨_, _, ha, hb⟩ => absurd (le_trans ha hb) (Nat.not_le.2 h3)
    simp [this]
  · rw [clearRange, BitTable.test_clearAll]
    · congr 2
      rw [decide_eq_decide, mem_span, le_min_iff]
      push Not at h1 h2
      exact ⟨fun ⟨ha, hb, hc⟩ => ⟨⟨h1, h2, ha, hb⟩, hc⟩, fun ⟨⟨_, _, ha, hb⟩, hc⟩ => ⟨ha, hb, hc⟩⟩
    · intro i hi
      have := (le_min_iff.1 (mem_span.1 hi).2).2
      omega

theorem test_markReserved {last : ℕ} {t : BitTable} (hl : last / 64 < t.length) (r : MemoryRegion) {f : ℕ}
    (hf : f ≤ last) : (markReserved last t r).test f = (decide (Takes r f) || t.test f) := by
  simp only [markReserved]
  split_ifs with h1 h2
  · have : ¬ Takes r f := fun ⟨ha, hb, _⟩ => h1.elim ha hb
    simp [this]
  · have : ¬ Takes r f := fun ⟨_, _, ha, _⟩ => absurd (le_trans ha hf) (Nat.not_le.2 h2)
    simp [this]
  · rw [markRange, BitTable.test_markAll]
    · congr 1
      rw [decide_eq_decide, mem_span, le_min_iff]
      push Not at h1
      exact ⟨fun ⟨ha, hb, _⟩ => ⟨h1.1, h1.2, ha, hb⟩, fun ⟨_, _, ha, hb⟩ => ⟨ha, hb, hf⟩⟩
    · intro i hi
      have := (le_min_iff.1 (mem_span.1 hi).2).2
      omega

/-- marking never frees a frame -/
theorem test_markReserved_of_used {last : ℕ} {t : BitTable} (hl : last / 64 < t.length) (r : MemoryRegion) {f : ℕ}
    (h : t.test f = true) : (markReserved last t r).test f = true := by
  simp only [markReserved]
  split_ifs
  · exact h
  · exact h
  · rw [markRange, BitTable.test_markAll, h, Bool.or_true]
    intro i hi
    have := (le_min_iff.1 (mem_span.1 hi).2).2
    omega

theorem clearPass_spec {last : ℕ} (regions : List MemoryRegion) {t : BitTable} (hl : last / 64 < t.length) (f : ℕ) :
    (regions.foldl (clearUsable last) t).length = t.length ∧
      ((regions.foldl (clearUsable last) t).test f = false ↔
        t.test f = false ∨ f ≤ last ∧ ∃ r ∈ regions, Frees r f) := by
  induction regions generalizing t with
  | nil => simp
  | cons r rs ih =>
    have hlen := length_clearUsable last t r
    obtain ⟨ih1, ih2⟩ := ih (t := clearUsable last t r) (by rw [hlen]; exact hl)
    rw [List.foldl_cons]
    refine ⟨ih1.trans hlen, ?_⟩
    rw [ih2, test_clearUsable hl]
    simp only [List.mem_cons, exists_eq_or_imp, Bool.and_eq_false_iff, Bool.not_eq_false',
      decide_eq_true_eq]
    tauto

theorem markPass_spec (last : ℕ) (regions : List MemoryRegion) {t : BitTable} (hl : last / 64 < t.length) :
    (regions.foldl (markReserved last) t).length = t.length ∧
      (∀ f, t.test f = true → (regions.foldl (markReserved last) t).test f = true) ∧
      ∀ f ≤ last, (regions.foldl (markReserved last) t).test f = false ↔
        t.test f = false ∧ ∀ r ∈ regions, ¬ Takes r f := by
  induction regions generalizing t with
  | nil => simp
  | cons r rs ih =>
    have hlen := length_markReserved last t r
    obtain ⟨ih1, ih2, ih3⟩ := ih (t := markReserved last t r) (by rw [hlen]; exact hl)
    rw [List.foldl_cons]
    refine ⟨ih1.trans hlen, fun f hf => ih2 f (test_markReserved_of_used hl r hf), fun f hf => ?_⟩
    rw [ih3 f hf, test_markReserved hl r hf]
    simp only [List.forall_mem_cons, Bool.or_eq_false_iff, decide_eq_false_iff_not]
    tauto

theorem markLow_spec {total : ℕ} (reserveBelow : ℕ) (hb : total ≤ 2 ^ 52) (fuel f : ℕ) {t : BitTable}
    (hfuel : total ≤ f + fuel) (hl : total ≤ 64 * t.length) :
    (markLow total reserveBelow fuel f t).length = t.length ∧
      ∀ g, (markLow total reserveBelow fuel f t).test g =
        (decide (f ≤ g ∧ g < total ∧ g * PAGE_SIZE < reserveBelow) || t.test g) := by
  induction fuel generalizing f t with
  | zero =>
    refine ⟨rfl, fun g => ?_⟩
    have : ¬ (f ≤ g ∧ g < total ∧ g * PAGE_SIZE < reserveBelow) := fun ⟨h1, h2, _⟩ => by omega
    simp [markLow, this]
  | succ fuel ih =>
    rw [markLow]
    by_cases hc : f < total ∧ frameAddr f < reserveBelow
    · rw [if_pos hc]
      obtain ⟨ih1, ih2⟩ := ih (f + 1) (t := t.mark f) (by omega) (by rw [BitTable.length_mark]; exact hl)
      rw [BitmapAllocator.frameAddr_of_lt (lt_of_lt_of_le hc.1 hb)] at hc
      refine ⟨ih1.trans (BitTable.length_mark _ _), fun g => ?_⟩
      rw [ih2 g, BitTable.test_mark t f g (by omega)]
      by_cases hg : g = f
      · subst hg
        have : ¬ (g + 1 ≤ g) := by omega
        simp [hc.1, hc.2]
      · have : f + 1 ≤ g ↔ f ≤ g := by omega
        simp [hg, this]
    · rw [if_neg hc]
      refine ⟨rfl, fun g => ?_⟩
      have : ¬ (f ≤ g ∧ g < total ∧ g * PAGE_SIZE < reserveBelow) := fun ⟨h1, h2, h3⟩ => hc ⟨by omega, by
        rw [BitmapAllocator.frameAddr_of_lt (by omega)]
        exact lt_of_le_of_lt (Nat.mul_le_mul_right _ h1) h3⟩
      simp [this]

/-! ## The construction -/

theorem stop_lt (r : MemoryRegion) : r.stop < U64 := Nat.mod_lt _ (by decide)

theorem raiseHighest_lt {hi : Option ℕ} (hhi : ∀ k, hi = some k → k < 2 ^ 52) (r : MemoryRegion) {k : ℕ}
    (hk : raiseHighest hi r = some k) : k < 2 ^ 52 := by
  have hfHi : r.stop / PAGE_SIZE - 1 < 2 ^ 52 := by
    have := stop_lt r; simp only [U64, PAGE_SIZE] at *; omega
  simp only [raiseHighest] at hk
  split_ifs at hk
  · exact hhi k hk
  · exact hhi k hk
  · exact hhi k hk
  · obtain rfl := Option.some.inj hk
    cases hi with
    | none => exact hfHi
    | some h => exact max_lt (hhi h rfl) hfHi

theorem highestUsableFrame_lt (regions : List MemoryRegion) {h : ℕ} (hh : highestUsableFrame regions = some h) :
    h < 2 ^ 52 := by
  have key : ∀ (rs : List MemoryRegion) (hi : Option ℕ), (∀ k, hi = some k → k < 2 ^ 52) →
      ∀ k, rs.foldl raiseHighest hi = some k → k < 2 ^ 52 := by
    intro rs
    induction rs with
    | nil => intro hi hhi; exact hhi
    | cons r rs ih => intro hi hhi; exact ih _ fun k hk => raiseHighest_lt hhi r hk
  exact key regions none (fun k hk => by simp at hk) h hh

/-- a later region never lowers the highest frame -/
theorem le_raiseHighest {hi : Option ℕ} {f : ℕ} (h : ∃ k, hi = some k ∧ f ≤ k) (r : MemoryRegion) :
    ∃ k, raiseHighest hi r = some k ∧ f ≤ k := by
  obtain ⟨k, rfl, hle⟩ := h
  simp only [raiseHighest]
  split_ifs
  · exact ⟨k, rfl, hle⟩
  · exact ⟨k, rfl, hle⟩
  · exact ⟨k, rfl, hle⟩
  · exact ⟨_, rfl, le_trans hle (le_max_left _ _)⟩

theorem le_raiseHighest_of_frees {r : MemoryRegion} {f : ℕ} (hf : Frees r f) (hi : Option ℕ) :
    ∃ k, raiseHighest hi r = some k ∧ f ≤ k := by
  obtain ⟨h1, h2, h3, h4⟩ := hf
  simp only [raiseHighest]
  rw [if_neg (not_not.2 h1), if_neg (Nat.not_lt.2 h2), if_neg (Nat.not_lt.2 (le_trans h3 h4))]
  cases hi with
  | none => exact ⟨_, rfl, h4⟩
  | some h => exact ⟨_, rfl, le_trans h4 (le_max_right _ _)⟩

/-- a frame some region frees is at or below the highest usable frame -/
theorem le_highestUsableFrame {regions : List MemoryRegion} {r : MemoryRegion} (hr : r ∈ regions) {f : ℕ}
    (hf : Frees r f) : ∃ k, highestUsableFrame regions = some k ∧ f ≤ k := by
  have hkeep : ∀ (rs : List MemoryRegion) (hi : Option ℕ), (∃ k, hi = some k ∧ f ≤ k) →
      ∃ k, rs.foldl raiseHighest hi = some k ∧ f ≤ k := by
    intro rs
    induction rs with
    | nil => exact fun hi h => h
    | cons q rs ih => exact fun hi h => ih _ (le_raiseHighest h q)
  obtain ⟨before, after, rfl⟩ := List.append_of_mem hr
  rw [highestUsableFrame, List.foldl_append, List.foldl_cons]
  exact hkeep after _ (le_raiseHighest_of_frees hf _)

/-- number of frames tracked by an allocator built over `regions` with `words` bitmap words -/
def trackedFrames (regions : List MemoryRegion) (words : ℕ) : ℕ :=
  min ((highestUsableFrame regions).elim 0 (· + 1)) (min (words * BITS_PER_WORD) U64_MAX)

theorem trackedFrames_le (regions : List MemoryRegion) (words : ℕ) :
    trackedFrames regions words ≤ 2 ^ 52 ∧ trackedFrames regions words ≤ 64 * words := by
  refine ⟨le_trans (min_le_left _ _) ?_, ?_⟩
  · cases hh : highestUsableFrame regions with
    | none => simp
    | some h => exact highestUsableFrame_lt regions hh
  · refine le_trans (min_le_right _ _) (le_trans (min_le_left _ _) ?_)
    rw [BITS_PER_WORD, Nat.mul_comm]

theorem test_replicate {words f : ℕ} (hf : f < 64 * words) :
    BitTable.test (List.replicate words (BitVec.allOnes 64)) f = true := by
  refine BitTable.test_of_allOnes ?_
  have : f / 64 < words := by omega
  simp [List.getD_eq_getElem?_getD, this]

/-- the table after the three passes, bit by bit -/
theorem new_bitmap (regions : List MemoryRegion) (words reserveBelow dmaTop : ℕ) :
    let a := BitmapAllocator.new regions words reserveBelow dmaTop
    a.bitmap.length = words ∧ a.total = trackedFrames regions words ∧
      (∀ f, a.total ≤ f → f < 64 * words → a.isUsed f = true) ∧
      ∀ f < a.total, a.isUsed f = false ↔
        (∃ r ∈ regions, Frees r f) ∧ (∀ r ∈ regions, ¬ Takes r f) ∧ reserveBelow ≤ f * PAGE_SIZE := by
  intro a
  obtain ⟨hb, hw⟩ := trackedFrames_le regions words
  have htot : a.total = trackedFrames regions words := rfl
  set total := trackedFrames regions words
  set t0 : BitTable := List.replicate words (BitVec.allOnes 64)
  have hlen0 : t0.length = words := List.length_replicate
  by_cases hpos : 0 < total
  · have hl0 : (total - 1) / 64 < t0.length := by rw [hlen0]; omega
    set t1 := regions.foldl (clearUsable (total - 1)) t0
    have h1 := clearPass_spec regions hl0
    have hlen1 : t1.length = words := (h1 0).1.trans hlen0
    obtain ⟨h2len, h2used, h2⟩ := markPass_spec (total - 1) regions (t := t1) (by rw [hlen1]; omega)
    set t2 := regions.foldl (markReserved (total - 1)) t1
    have hlen2 : t2.length = words := h2len.trans hlen1
    obtain ⟨h3len, h3⟩ := markLow_spec reserveBelow hb total 0 (t := t2) (by omega)
      (by rw [hlen2]; exact hw)
    have hbm : a.bitmap = markLow total reserveBelow total 0 t2 := by
      show markLow total reserveBelow total 0 (if 0 < total then _ else _) = _
      rw [if_pos hpos]
      show markLow total reserveBelow total 0 (regions.foldl _ (if 0 < total then _ else _)) = _
      rw [if_pos hpos]
      rfl
    refine ⟨by rw [hbm, h3len, hlen2], htot, fun f hf hl => ?_, fun f hf => ?_⟩
    · rw [BitmapAllocator.isUsed, hbm, h3 f, h2used f, Bool.or_true]
      cases ht : t1.test f with
      | true => rfl
      | false =>
        rcases (h1 f).2.1 ht with h0 | ⟨h0, _⟩
        · rw [test_replicate hl] at h0; exact absurd h0 (by decide)
        · rw [htot] at hf; omega
    · rw [htot] at hf
      rw [BitmapAllocator.isUsed, hbm, h3 f, Bool.or_eq_false_iff, decide_eq_false_iff_not, h2 f (by omega),
        (h1 f).2, test_replicate (by omega : f < 64 * words)]
      constructor
      · rintro ⟨hlow, hfree | ⟨_, hfree⟩, htake⟩
        · exact absurd hfree (by decide)
        · exact ⟨hfree, htake, Nat.le_of_not_lt fun h => hlow ⟨Nat.zero_le _, hf, h⟩⟩
      · rintro ⟨hfree, htake, hlow⟩
        exact ⟨fun h => absurd h.2.2 (Nat.not_lt.2 hlow), Or.inr ⟨by omega, hfree⟩, htake⟩
  · have h0 : total = 0 := by omega
    have hbm : a.bitmap = t0 := by
      show markLow total reserveBelow total 0 (if 0 < total then _ else _) = _
      rw [if_neg hpos]
      show markLow total reserveBelow total 0 (if 0 < total then _ else _) = _
      rw [if_neg hpos, h0]
      rfl
    refine ⟨by rw [hbm, hlen0], htot, fun f _ hl => ?_, fun f hf => absurd hf (by omega)⟩
    rw [BitmapAllocator.isUsed, hbm]; exact test_replicate hl

theorem new_rep (regions : List MemoryRegion) (words reserveBelow dmaTop : ℕ) :
    (BitmapAllocator.new regions words reserveBelow dmaTop).Rep := by
  obtain ⟨hlen, htot, htail, _⟩ := new_bitmap regions words reserveBelow dmaTop
  obtain ⟨hb, hw⟩ := trackedFrames_le regions words
  refine ⟨by rw [hlen, htot]; exact hw, by rw [htot]; exact hb, fun f hf hl => htail f hf (by rwa [hlen] at hl), ?_⟩
  show ((List.range _).filter _).length = ((List.range _).filter _).length
  congr 1
  refine List.filter_congr fun f _ => ?_
  show (!(BitmapAllocator.new regions words reserveBelow dmaTop).bitmap.test f) =
    decide ((BitmapAllocator.new regions words reserveBelow dmaTop).bitmap.test f = false)
  cases (BitmapAllocator.new regions words reserveBelow dmaTop).bitmap.test f <;> rfl

/-- **Which frames `new` leaves free.** -/
theorem mem_freeFrames_new (regions : List MemoryRegion) (words reserveBelow dmaTop f : ℕ) :
    f ∈ (BitmapAllocator.new regions words reserveBelow dmaTop).freeFrames ↔
      f < trackedFrames regions words ∧ (∃ r ∈ regions, Frees r f) ∧ (∀ r ∈ regions, ¬ Takes r f) ∧
        reserveBelow ≤ f * PAGE_SIZE := by
  obtain ⟨_, htot, _, hbit⟩ := new_bitmap regions words reserveBelow dmaTop
  rw [BitmapAllocator.mem_freeFrames, htot]
  constructor
  · rintro ⟨hf, hu⟩; exact ⟨hf, (hbit f (by rw [htot]; exact hf)).1 hu⟩
  · rintro ⟨hf, h⟩; exact ⟨hf, (hbit f (by rw [htot]; exact hf)).2 h⟩

/-! ## Regions whose end does not overflow -/

/-- `start + len` leaves room to round up to a page -/
def MemoryRegion.NoOverflow (r : MemoryRegion) : Prop := r.start + r.len + PAGE_SIZE ≤ U64

/-- a usable region frees exactly the frames lying wholly inside it -/
theorem frees_iff {r : MemoryRegion} (h : MemoryRegion.NoOverflow r) (f : ℕ) :
    Frees r f ↔ r.kind = .usable ∧ r.start ≤ f * PAGE_SIZE ∧ (f + 1) * PAGE_SIZE ≤ r.start + r.len := by
  have hstop : r.stop = r.start + r.len := wadd_of_lt (by simp only [MemoryRegion.NoOverflow, PAGE_SIZE] at h; omega)
  have hlo : wadd r.start (PAGE_SIZE - 1) = r.start + (PAGE_SIZE - 1) :=
    wadd_of_lt (by simp only [MemoryRegion.NoOverflow, PAGE_SIZE] at h ⊢; omega)
  rw [Frees, hstop, hlo]
  simp only [PAGE_SIZE]
  constructor
  · rintro ⟨h1, h2, h3, h4⟩; exact ⟨h1, by omega, by omega⟩
  · rintro ⟨h1, h2, h3⟩; exact ⟨h1, by omega, by omega, by omega⟩

/-- a non-usable region takes exactly the frames it meets -/
theorem takes_iff {r : MemoryRegion} (h : MemoryRegion.NoOverflow r) (f : ℕ) :
    Takes r f ↔ r.kind ≠ .usable ∧ r.len ≠ 0 ∧ r.start < (f + 1) * PAGE_SIZE ∧ f * PAGE_SIZE < r.start + r.len := by
  have hstop : r.stop = r.start + r.len := wadd_of_lt (by simp only [MemoryRegion.NoOverflow, PAGE_SIZE] at h; omega)
  have hhi : wadd r.stop (PAGE_SIZE - 1) = r.start + r.len + (PAGE_SIZE - 1) := by
    rw [hstop]; exact wadd_of_lt (by simp only [MemoryRegion.NoOverflow, PAGE_SIZE] at h ⊢; omega)
  rw [Takes, hhi]
  simp only [PAGE_SIZE]
  constructor
  · rintro ⟨h1, h2, h3, h4⟩; exact ⟨h1, h2, by omega, by omega⟩
  · rintro ⟨h1, h2, h3, h4⟩; exact ⟨h1, h2, by omega, by omega⟩

end Rustproof.Mm
