/-
Bit tables: a set of natural numbers packed into 64-bit words, with the two updates and the test a packed bitmap is
built from, and the word-at-a-time search for the next clear bit.

- `mem_mark` / `mem_clear`: setting or clearing one bit changes the membership of that one number and no other.
- `scan_spec`: the word-skipping search returns the least clear position at or above its start, and `none` only when
  there is none below the bound.

Nothing here knows what the bits stand for.
-/
import Mathlib.Tactic

namespace Rustproof.Lib

/-- a packed table of bits, one word of 64 at a time -/
abbrev BitTable := List (BitVec 64)

namespace BitTable

/-- the word holding bit `i` -/
def word (t : BitTable) (i : ℕ) : BitVec 64 := t.getD (i / 64) 0

/-- the mask selecting bit `i` in its word -/
def mask (i : ℕ) : BitVec 64 := 1#64 <<< (i % 64)

/-- is bit `i` set? -/
def test (t : BitTable) (i : ℕ) : Bool := t.word i &&& mask i != 0

/-- set bit `i` -/
def mark (t : BitTable) (i : ℕ) : BitTable := t.set (i / 64) (t.word i ||| mask i)

/-- clear bit `i` -/
def clear (t : BitTable) (i : ℕ) : BitTable := t.set (i / 64) (t.word i &&& ~~~ mask i)

theorem getLsbD_mask (i k : ℕ) : (mask i).getLsbD k = decide (k = i % 64) := by
  have hi : i % 64 < 64 := Nat.mod_lt _ (by decide)
  simp only [mask, BitVec.getLsbD_shiftLeft, BitVec.getLsbD_one]
  by_cases h : k = i % 64
  · subst h; simp [hi]
  · rcases Nat.lt_or_gt_of_ne h with h' | h'
    · simp [h, h']
    · have : k - i % 64 ≠ 0 := by omega
      simp [h, this]

theorem and_mask_eq_zero (w : BitVec 64) (i : ℕ) : w &&& mask i = 0 ↔ w.getLsbD (i % 64) = false := by
  have hi : i % 64 < 64 := Nat.mod_lt _ (by decide)
  constructor
  · intro h
    have := congrArg (fun v : BitVec 64 => v.getLsbD (i % 64)) h
    simp only [BitVec.getLsbD_and, getLsbD_mask, decide_true, Bool.and_true] at this
    exact this.trans BitVec.getLsbD_zero
  · intro h
    apply BitVec.eq_of_getLsbD_eq
    intro k _
    simp only [BitVec.getLsbD_and, getLsbD_mask]
    by_cases hk : k = i % 64
    · subst hk; simp [h]
    · simp [hk]

theorem test_eq (t : BitTable) (i : ℕ) : t.test i = (t.word i).getLsbD (i % 64) := by
  unfold test
  rw [bne, Bool.not_eq_eq_eq_not]
  cases hb : (t.word i).getLsbD (i % 64) with
  | false => simp [(and_mask_eq_zero _ _).2 hb]
  | true =>
    have : ¬ t.word i &&& mask i = 0 := fun h => by rw [and_mask_eq_zero] at h; simp [h] at hb
    simpa using this

/-- a table is its length and its bits -/
theorem eq_of_test {t u : BitTable} (hlen : t.length = u.length) (h : ∀ i < 64 * t.length, t.test i = u.test i) : t = u := by
  refine List.ext_getElem hlen fun n hn hn' => ?_
  apply BitVec.eq_of_getLsbD_eq
  intro k hk
  have hi : 64 * n + k < 64 * t.length := by omega
  have hdiv : (64 * n + k) / 64 = n := by omega
  have hmod : (64 * n + k) % 64 = k := by omega
  have htest := h _ hi
  rw [test_eq, test_eq, word, word, hdiv, hmod] at htest
  simpa [hn, hn'] using htest

@[simp] theorem length_mark (t : BitTable) (i : ℕ) : (t.mark i).length = t.length := by simp [mark]

@[simp] theorem length_clear (t : BitTable) (i : ℕ) : (t.clear i).length = t.length := by simp [clear]

theorem word_set (t : BitTable) (i j : ℕ) (w : BitVec 64) (hi : i / 64 < t.length) :
    word (t.set (i / 64) w) j = if j / 64 = i / 64 then w else t.word j := by
  unfold word
  by_cases h : j / 64 = i / 64
  · rw [if_pos h, h]; simp [hi]
  · rw [if_neg h]; simp [List.getD_eq_getElem?_getD, List.getElem?_set_ne (Ne.symm h)]

/-- two numbers with the same word and the same offset are equal -/
theorem eq_of_div_mod {i j : ℕ} (h : j / 64 = i / 64) (h' : j % 64 = i % 64) : j = i := by omega

/-- setting bit `i` adds `i` and nothing else -/
theorem test_mark (t : BitTable) (i j : ℕ) (hi : i / 64 < t.length) :
    (t.mark i).test j = (decide (j = i) || t.test j) := by
  rw [test_eq, test_eq, mark, word_set t i j _ hi]
  by_cases h : j / 64 = i / 64
  · have hw : t.word j = t.word i := by simp [word, h]
    rw [if_pos h, BitVec.getLsbD_or, getLsbD_mask, hw]
    by_cases h' : j % 64 = i % 64
    · simp [eq_of_div_mod h h']
    · have : j ≠ i := fun e => h' (by rw [e])
      simp [h', this]
  · have : j ≠ i := fun e => h (by rw [e])
    simp [h, this]

/-- clearing bit `i` removes `i` and nothing else -/
theorem test_clear (t : BitTable) (i j : ℕ) (hi : i / 64 < t.length) :
    (t.clear i).test j = (!decide (j = i) && t.test j) := by
  rw [test_eq, test_eq, clear, word_set t i j _ hi]
  have hj : j % 64 < 64 := Nat.mod_lt _ (by decide)
  by_cases h : j / 64 = i / 64
  · have hw : t.word j = t.word i := by simp [word, h]
    rw [if_pos h, BitVec.getLsbD_and, BitVec.getLsbD_not, getLsbD_mask, hw]
    by_cases h' : j % 64 = i % 64
    · simp [eq_of_div_mod h h']
    · have : j ≠ i := fun e => h' (by rw [e])
      simp [h', this, hj]
  · have : j ≠ i := fun e => h (by rw [e])
    simp [h, this]

theorem length_markAll (t : BitTable) (is : List ℕ) : (is.foldl mark t).length = t.length := by
  induction is generalizing t with
  | nil => rfl
  | cons i is ih => rw [List.foldl_cons, ih, length_mark]

theorem length_clearAll (t : BitTable) (is : List ℕ) : (is.foldl clear t).length = t.length := by
  induction is generalizing t with
  | nil => rfl
  | cons i is ih => rw [List.foldl_cons, ih, length_clear]

/-- setting the bits of a list adds exactly its members -/
theorem test_markAll (t : BitTable) (is : List ℕ) (j : ℕ) (h : ∀ i ∈ is, i / 64 < t.length) :
    (is.foldl mark t).test j = (decide (j ∈ is) || t.test j) := by
  induction is generalizing t with
  | nil => simp
  | cons i is ih =>
    rw [List.foldl_cons, ih _ fun k hk => by rw [length_mark]; exact h k (List.mem_cons_of_mem i hk),
      test_mark t i j (h i List.mem_cons_self)]
    by_cases hj : j ∈ is <;> by_cases hi : j = i <;> simp [hj, hi]

/-- clearing the bits of a list removes exactly its members -/
theorem test_clearAll (t : BitTable) (is : List ℕ) (j : ℕ) (h : ∀ i ∈ is, i / 64 < t.length) :
    (is.foldl clear t).test j = (!decide (j ∈ is) && t.test j) := by
  induction is generalizing t with
  | nil => simp
  | cons i is ih =>
    rw [List.foldl_cons, ih _ fun k hk => by rw [length_clear]; exact h k (List.mem_cons_of_mem i hk),
      test_clear t i j (h i List.mem_cons_self)]
    by_cases hj : j ∈ is <;> by_cases hi : j = i <;> simp [hj, hi]

/-! ## The next clear bit -/

/-- number of trailing zero bits of `w` below `n`, i.e. the position of the lowest set bit (64 for zero) -/
def trailingZeros (w : BitVec 64) : ℕ := ((List.range 64).find? fun k => w.getLsbD k).getD 64

/-- the lowest clear bit of the table at or above `f` and below `bound`, one word at a time. `fuel` counts the words
that may still be skipped: each step moves `f` up, so `bound - f` is enough and at `0` the loop is over. -/
def scan (t : BitTable) (bound : ℕ) : ℕ → ℕ → Option ℕ
  | 0, _ => none
  | fuel + 1, f =>
    if f < bound then
      let w := f / 64
      let word := t.getD w 0
      if word = BitVec.allOnes 64 then scan t bound fuel ((w + 1) * 64)
      else
        -- bits below the start are forced to set, so nothing below `f` is ever returned
        let masked := word ||| (mask f - 1)
        if masked ≠ BitVec.allOnes 64 then
          let frame := w * 64 + trailingZeros (~~~ masked)
          if frame < bound then some frame else none
        else scan t bound fuel ((w + 1) * 64)
    else none

theorem trailingZeros_spec {w : BitVec 64} (h : w ≠ 0) :
    trailingZeros w < 64 ∧ w.getLsbD (trailingZeros w) = true ∧
      ∀ k < trailingZeros w, w.getLsbD k = false := by
  unfold trailingZeros
  cases hf : (List.range 64).find? (fun k => w.getLsbD k) with
  | none =>
    exfalso
    rw [List.find?_eq_none] at hf
    refine h (BitVec.eq_of_getLsbD_eq fun k hk => ?_)
    have := hf k (List.mem_range.2 hk)
    simpa using this
  | some k =>
    obtain ⟨hk, as, bs, hab, has⟩ := List.find?_eq_some_iff_append.1 hf
    have hlt : k < 64 := by
      have : k ∈ List.range 64 := by rw [hab]; simp
      simpa using this
    refine ⟨by simpa using hlt, by simpa using hk, fun j hj => ?_⟩
    simp only [Option.getD_some] at hj
    have hmem : j ∈ as := by
      have hr : List.range 64 = as ++ k :: bs := hab
      have hja : as.length = k := by
        have h1 : (List.range 64)[as.length]? = some k := by rw [hr]; simp
        rw [List.getElem?_range] at h1
        · simpa using h1
        · have := congrArg List.length hr; simp at this; omega
      have h2 : (List.range 64)[j]? = some j := by rw [List.getElem?_range (by omega)]
      rw [hr, List.getElem?_append_left (by omega)] at h2
      exact List.mem_of_getElem? h2
    simpa using has j hmem

theorem getLsbD_mask_sub_one (f k : ℕ) (hk : k < 64) : (mask f - 1).getLsbD k = decide (k < f % 64) := by
  have hf : f % 64 < 64 := Nat.mod_lt _ (by decide)
  have h1 : mask f - 1 = BitVec.ofNat 64 (2 ^ (f % 64) - 1) := by
    apply BitVec.eq_of_toNat_eq
    have hpos : 0 < 2 ^ (f % 64) := Nat.two_pow_pos _
    have hlt : 2 ^ (f % 64) < 2 ^ 64 := Nat.pow_lt_pow_right (by decide) hf
    have hm : (mask f).toNat = 2 ^ (f % 64) := by
      simp only [mask, BitVec.toNat_shiftLeft, BitVec.toNat_ofNat, Nat.shiftLeft_eq]
      rw [Nat.mod_eq_of_lt (by decide : 1 < 2 ^ 64), one_mul, Nat.mod_eq_of_lt hlt]
    have h1 : (1 : BitVec 64).toNat = 1 := rfl
    rw [BitVec.toNat_sub, hm, h1, BitVec.toNat_ofNat]
    omega
  rw [h1, BitVec.getLsbD_ofNat, Nat.testBit_two_pow_sub_one]
  simp [hk]

/-- all bits of a full word are set -/
theorem test_of_allOnes {t : BitTable} {i : ℕ} (h : t.getD (i / 64) 0 = BitVec.allOnes 64) : t.test i = true := by
  rw [test_eq, word, h, BitVec.getLsbD_allOnes]
  simpa using Nat.mod_lt i (by decide)

/-- what one round of the search finds in the word of `f` -/
theorem masked_eq_allOnes {t : BitTable} {f : ℕ} (h : t.getD (f / 64) 0 ||| (mask f - 1) = BitVec.allOnes 64) :
    ∀ g, f ≤ g → g / 64 = f / 64 → t.test g = true := by
  intro g hg hw
  have hk : g % 64 < 64 := Nat.mod_lt _ (by decide)
  have := congrArg (fun v : BitVec 64 => v.getLsbD (g % 64)) h
  simp only [BitVec.getLsbD_or, getLsbD_mask_sub_one f _ hk, BitVec.getLsbD_allOnes, hk, decide_true] at this
  rw [test_eq, word, hw]
  have hge : ¬ g % 64 < f % 64 := by omega
  simpa [hge] using this

theorem masked_ne_allOnes {t : BitTable} {f : ℕ} (h : t.getD (f / 64) 0 ||| (mask f - 1) ≠ BitVec.allOnes 64) :
    let g := f / 64 * 64 + trailingZeros (~~~ (t.getD (f / 64) 0 ||| (mask f - 1)))
    f ≤ g ∧ t.test g = false ∧ ∀ j, f ≤ j → j < g → t.test j = true := by
  intro g
  set m := t.getD (f / 64) 0 ||| (mask f - 1) with hm
  have hne : ~~~ m ≠ 0 := fun h0 => h (by
    have := congrArg (fun v : BitVec 64 => ~~~ v) h0
    simpa [BitVec.not_not] using this)
  obtain ⟨hlt, hset, hlow⟩ := trailingZeros_spec hne
  set z := trailingZeros (~~~ m) with hzdef
  have hg : g = f / 64 * 64 + z := rfl
  have hbit : ∀ k < 64, m.getLsbD k = ((t.getD (f / 64) 0).getLsbD k || decide (k < f % 64)) := fun k hk => by
    simp only [m, BitVec.getLsbD_or, getLsbD_mask_sub_one f k hk]
  have hz : m.getLsbD z = false := by simpa [hlt] using hset
  have hz' := hz
  rw [hbit z hlt, Bool.or_eq_false_iff, decide_eq_false_iff_not] at hz'
  have hgw : g / 64 = f / 64 := by omega
  have hgm : g % 64 = z := by omega
  refine ⟨by omega, ?_, fun j hj hjg => ?_⟩
  · rw [test_eq, word, hgw, hgm]; exact hz'.1
  · have hjw : j / 64 = f / 64 := by omega
    have hjz : j % 64 < z := by omega
    have := hlow (j % 64) hjz
    rw [BitVec.getLsbD_not] at this
    have hj64 : j % 64 < 64 := Nat.mod_lt _ (by decide)
    simp only [hj64, decide_true, Bool.true_and, Bool.not_eq_false'] at this
    rw [hbit _ hj64, Bool.or_eq_true, decide_eq_true_eq] at this
    rw [test_eq, word, hjw]
    rcases this with h1 | h1
    · exact h1
    · omega

/-- **The search is exact**: provided no bit at or above the bound is clear inside the table, the result is the least
clear bit in `[f, bound)`, and `none` means there is none. -/
theorem scan_spec (t : BitTable) (bound fuel f : ℕ) (hfuel : bound ≤ f + fuel) :
    (∀ g, scan t bound fuel f = some g → f ≤ g ∧ g < bound ∧ t.test g = false ∧
      ∀ j, f ≤ j → j < g → t.test j = true) ∧
    (scan t bound fuel f = none → ∀ j, f ≤ j → j < bound → t.test j = true) := by
  induction fuel generalizing f with
  | zero => exact ⟨fun g h => by simp [scan] at h, fun _ j hj hb => absurd hb (by omega)⟩
  | succ fuel ih =>
    by_cases hfb : f < bound
    swap
    · exact ⟨fun g h => by simp [scan, hfb] at h, fun _ j hj hb => absurd hb (by omega)⟩
    -- every bit of the rest of this word is set: the search moves to the next word
    have skip : (∀ g, f ≤ g → g / 64 = f / 64 → t.test g = true) →
        scan t bound (fuel + 1) f = scan t bound fuel ((f / 64 + 1) * 64) →
        (∀ g, scan t bound (fuel + 1) f = some g → f ≤ g ∧ g < bound ∧ t.test g = false ∧
          ∀ j, f ≤ j → j < g → t.test j = true) ∧
        (scan t bound (fuel + 1) f = none → ∀ j, f ≤ j → j < bound → t.test j = true) := by
      intro hfull heq
      obtain ⟨ih1, ih2⟩ := ih ((f / 64 + 1) * 64) (by omega)
      rw [heq]
      refine ⟨fun g hg => ?_, fun hn j hj hb => ?_⟩
      · obtain ⟨h1, h2, h3, h4⟩ := ih1 g hg
        refine ⟨by omega, h2, h3, fun j hj hjg => ?_⟩
        by_cases hw : j / 64 = f / 64
        · exact hfull j hj hw
        · exact h4 j (by omega) hjg
      · by_cases hw : j / 64 = f / 64
        · exact hfull j hj hw
        · exact ih2 hn j (by omega) hb
    by_cases hw : t.getD (f / 64) 0 = BitVec.allOnes 64
    · refine skip (fun g _ hg => test_of_allOnes (by rw [hg]; exact hw)) ?_
      rw [scan]; simp only [hfb, if_true, hw]
    by_cases hm : t.getD (f / 64) 0 ||| (mask f - 1) = BitVec.allOnes 64
    · refine skip (masked_eq_allOnes hm) ?_
      rw [scan]; simp only [hfb, if_true, hw, if_false, hm, ne_eq, not_true]
    · obtain ⟨h1, h2, h3⟩ := masked_ne_allOnes hm
      set g := f / 64 * 64 + trailingZeros (~~~ (t.getD (f / 64) 0 ||| (mask f - 1)))
      have heq : scan t bound (fuel + 1) f = if g < bound then some g else none := by
        rw [scan]; simp only [hfb, if_true, hw, if_false, ne_eq, hm, not_false_eq_true]; rfl
      rw [heq]
      split_ifs with hg
      · refine ⟨fun g' e => ?_, fun e => by simp at e⟩
        obtain rfl := Option.some.inj e
        exact ⟨h1, hg, h2, h3⟩
      · exact ⟨fun g' e => by simp at e, fun _ j hj hb => h3 j hj (by omega)⟩

end BitTable

end Rustproof.Lib
