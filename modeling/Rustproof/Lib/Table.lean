/-
Fixed-length tables and bounded searches over them.

A table is the function from its indices; which indices exist is the business of whoever loops over it. `Table.put`
replaces one entry. `firstIdx n p` is the first index below `n` that satisfies `p`, and `anyIdx n p` says there is one:
the two searches every fixed-capacity structure is written with.
-/
import Mathlib.Tactic

namespace Rustproof.Lib

/-- a table, as the function from its indices -/
abbrev Table (α : Type*) := ℕ → α

variable {α β : Type*}

/-- replace entry `i` -/
def Table.put (t : Table α) (i : ℕ) (v : α) : Table α := fun j => if j = i then v else t j

@[simp] theorem Table.put_self (t : Table α) (i : ℕ) (v : α) : t.put i v i = v := if_pos rfl

theorem Table.put_of_ne (t : Table α) {i j : ℕ} (h : j ≠ i) (v : α) : t.put i v j = t j := if_neg h

theorem Table.put_apply (t : Table α) (i j : ℕ) (v : α) : t.put i v j = if j = i then v else t j := rfl

/-- writing an entry back changes nothing -/
@[simp] theorem Table.put_eq_self (t : Table α) (i : ℕ) : t.put i (t i) = t := by
  funext j
  by_cases h : j = i
  · subst h; simp
  · rw [Table.put_of_ne _ h]

/-! ## Bounded search -/

/-- the first index below `n` satisfying `p` -/
def firstIdx (n : ℕ) (p : ℕ → Bool) : Option ℕ := (List.range n).find? p

/-- some index below `n` satisfies `p` -/
def anyIdx (n : ℕ) (p : ℕ → Bool) : Bool := (List.range n).any p

theorem firstIdx_some {n : ℕ} {p : ℕ → Bool} {i : ℕ} (h : firstIdx n p = some i) :
    i < n ∧ p i = true ∧ ∀ j < i, p j = false := by
  rw [firstIdx, List.find?_range_eq_some] at h
  obtain ⟨hp, hmem, hmin⟩ := h
  exact ⟨List.mem_range.1 hmem, hp, fun j hj => by simpa using hmin j hj⟩

theorem firstIdx_none {n : ℕ} {p : ℕ → Bool} (h : firstIdx n p = none) : ∀ i < n, p i = false := by
  intro i hi
  have := List.find?_eq_none.1 h i (List.mem_range.2 hi)
  simpa using this

theorem firstIdx_isSome {n : ℕ} {p : ℕ → Bool} {i : ℕ} (hi : i < n) (hp : p i = true) :
    ∃ j, firstIdx n p = some j := by
  cases h : firstIdx n p with
  | some j => exact ⟨j, rfl⟩
  | none => exact absurd (firstIdx_none h i hi) (by simp [hp])

theorem firstIdx_eq {n : ℕ} {p : ℕ → Bool} {i : ℕ} (hi : i < n) (hp : p i = true) (hmin : ∀ j < i, p j = false) :
    firstIdx n p = some i := by
  obtain ⟨j, hj⟩ := firstIdx_isSome hi hp
  obtain ⟨-, hpj, hminj⟩ := firstIdx_some hj
  rcases lt_trichotomy i j with h | rfl | h
  · exact absurd (hp.symm.trans (hminj i h)) (by decide)
  · exact hj
  · exact absurd (hpj.symm.trans (hmin j h)) (by decide)

theorem firstIdx_congr {n : ℕ} {p q : ℕ → Bool} (h : ∀ i < n, p i = q i) : firstIdx n p = firstIdx n q := by
  unfold firstIdx
  induction n with
  | zero => rfl
  | succ n ih =>
    rw [List.range_succ, List.find?_append, List.find?_append, ih fun i hi => h i (by omega)]
    simp only [List.find?_cons, List.find?_nil, h n (by omega)]

@[simp] theorem anyIdx_iff {n : ℕ} {p : ℕ → Bool} : anyIdx n p = true ↔ ∃ i < n, p i = true := by
  simp [anyIdx]

theorem anyIdx_congr {n : ℕ} {p q : ℕ → Bool} (h : ∀ i < n, p i = q i) : anyIdx n p = anyIdx n q := by
  rw [Bool.eq_iff_iff, anyIdx_iff, anyIdx_iff]
  exact exists_congr fun i => and_congr_right fun hi => by rw [h i hi]

end Rustproof.Lib
