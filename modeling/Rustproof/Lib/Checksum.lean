/-
Checksums by closing a sum: one element of a list is chosen so that the whole list sums to zero.

- `sum_closed`: the list so closed sums to zero.
- `sum_set_eq_zero`: in a list that sums to zero, no other value of one element does; so a change of one element shows.
-/
import Mathlib.Tactic

namespace Rustproof.Lib.Checksum

variable {G : Type} [AddCommGroup G]

/-- `front` and `back` with the element between them that makes the sum zero -/
def closed (front back : List G) : List G := front ++ -(front ++ back).sum :: back

@[simp] theorem length_closed (front back : List G) : (closed front back).length = front.length + back.length + 1 := by
  rw [closed, List.length_append, List.length_cons, Nat.add_assoc]

theorem sum_closed (front back : List G) : (closed front back).sum = 0 := by
  rw [closed, List.sum_append, List.sum_cons, List.sum_append]
  abel

theorem sum_set_eq_zero {l : List G} (hsum : l.sum = 0) {i : ℕ} (hi : i < l.length) (v : G) :
    (l.set i v).sum = 0 ↔ v = l[i] := by
  rw [List.sum_set', hsum, zero_add, dif_pos hi, neg_add_eq_zero]
  exact eq_comm

end Rustproof.Lib.Checksum
