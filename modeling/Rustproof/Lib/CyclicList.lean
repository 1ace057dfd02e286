/-
A cyclic list of distinct elements with a cursor.

The cycle is cut at a seam, where new elements go in: `ahead` is what lies from the cursor to the seam, `behind` what lies
from the seam round to the cursor. `order` reads the cycle once, starting at the cursor.

- `order_next`: advancing rotates the reading by one; `visits_lap`: a whole lap meets every element once.
- `order_remove`: an element taken out leaves the others in their order. `current_remove_of_ne` and
  `current_remove_current`: the cursor stays on its element, or moves to the follower when it is that element that goes.
-/
import Mathlib.Tactic

namespace Rustproof.Lib

/-- a cycle of distinct elements, cut at the seam; the cursor stands at the seam only on the first element after it -/
@[ext] structure CyclicList (α : Type*) where
  ahead : List α
  behind : List α
  nodup : (ahead ++ behind).Nodup
  normal : ahead = [] → behind = []

namespace CyclicList

variable {α : Type*}

/-- the cycle read once from the cursor -/
def order (r : CyclicList α) : List α := r.ahead ++ r.behind

def current (r : CyclicList α) : Option α := r.order.head?

def empty : CyclicList α := ⟨[], [], List.nodup_nil, fun _ => rfl⟩

/-- the cycle with these two parts; a cursor that has reached the seam goes on to the first element after it -/
def ofParts (ahead behind : List α) (h : (ahead ++ behind).Nodup) : CyclicList α :=
  match ahead, h with
  | [], h => ⟨behind, [], by simpa using h, fun _ => rfl⟩
  | a :: as, h => ⟨a :: as, behind, h, by simp⟩

@[simp] theorem order_ofParts (ahead behind : List α) (h : (ahead ++ behind).Nodup) :
    (ofParts ahead behind h).order = ahead ++ behind := by
  cases ahead with
  | nil => simp [ofParts, order]
  | cons a as => rfl

/-- put `x` in at the seam -/
def add (r : CyclicList α) (x : α) (h : x ∉ r.order) : CyclicList α where
  ahead := r.ahead ++ [x]
  behind := r.behind
  nodup := by
    have hx : (x :: r.order).Nodup := List.nodup_cons.2 ⟨h, r.nodup⟩
    have hperm : (r.ahead ++ [x] ++ r.behind).Perm (x :: r.order) := by
      rw [List.append_assoc]
      exact List.perm_middle
    exact hperm.nodup_iff.2 hx
  normal := by simp

theorem nodup_rotate_cons {a : α} {as bs : List α} (h : (a :: as ++ bs).Nodup) : (as ++ (bs ++ [a])).Nodup := by
  have hperm : (as ++ (bs ++ [a])).Perm (a :: as ++ bs) := by
    rw [← List.append_assoc]
    exact (List.perm_append_singleton a (as ++ bs)).trans (List.Perm.refl _)
  exact hperm.nodup_iff.2 h

/-- move the cursor on by one element -/
def next (r : CyclicList α) : CyclicList α :=
  match r with
  | ⟨[], _, _, _⟩ => r
  | ⟨a :: as, bs, h, _⟩ => ofParts as (bs ++ [a]) (nodup_rotate_cons h)

theorem next_of_nil {r : CyclicList α} (h : r.ahead = []) : r.next = r := by
  obtain ⟨ahead, behind, hnd, hn⟩ := r
  obtain rfl : ahead = [] := h
  rfl

theorem next_of_cons {r : CyclicList α} {a : α} {as : List α} (h : r.ahead = a :: as) :
    ∃ hnd, r.next = ofParts as (r.behind ++ [a]) hnd := by
  obtain ⟨ahead, behind, hnd, hn⟩ := r
  obtain rfl : ahead = a :: as := h
  exact ⟨nodup_rotate_cons hnd, rfl⟩

theorem order_next (r : CyclicList α) : r.next.order = r.order.rotate 1 := by
  cases ha : r.ahead with
  | nil => rw [next_of_nil ha, order, ha, r.normal ha, List.append_nil, List.rotate_nil]
  | cons a as =>
    obtain ⟨hnd, hnext⟩ := next_of_cons ha
    rw [hnext, order_ofParts, order, ha, List.cons_append, List.rotate_cons_succ, List.rotate_zero, List.append_assoc]

theorem current_eq_none {r : CyclicList α} : r.current = none ↔ r.order = [] := List.head?_eq_none_iff

/-- what the cursor meets in `n` steps -/
def visits (r : CyclicList α) : ℕ → List (Option α)
  | 0 => []
  | n + 1 => r.next.current :: r.next.visits n

theorem visits_eq (r : CyclicList α) (n : ℕ) (hn : n ≤ r.order.length) :
    r.visits n = ((r.order.rotate 1).take n).map some := by
  induction n generalizing r with
  | zero => rfl
  | succ n ih =>
    have hlen : r.next.order.length = r.order.length := by rw [order_next, List.length_rotate]
    rw [visits, ih r.next (by omega), ← order_next r, current]
    cases ho : r.next.order with
    | nil =>
      rw [ho, List.length_nil] at hlen
      omega
    | cons a as =>
      have hn' : n ≤ as.length := by
        rw [ho, List.length_cons] at hlen
        omega
      rw [List.rotate_cons_succ, List.rotate_zero, List.take_append_of_le_length hn']
      rfl

/-- **One lap.** As many steps as there are elements meet each of them once. -/
theorem visits_lap (r : CyclicList α) : r.visits r.order.length = (r.order.rotate 1).map some := by
  rw [visits_eq r _ le_rfl, List.take_of_length_le (by simp)]

section Remove

variable [DecidableEq α]

theorem nodup_erase_parts (r : CyclicList α) (x : α) : (r.ahead.erase x ++ r.behind.erase x).Nodup :=
  r.nodup.sublist (List.Sublist.append List.erase_sublist List.erase_sublist)

/-- take `x` out; if the cursor stands on it, the cursor moves to the follower -/
def remove (r : CyclicList α) (x : α) : CyclicList α := ofParts (r.ahead.erase x) (r.behind.erase x) (r.nodup_erase_parts x)

theorem order_remove (r : CyclicList α) (x : α) : (r.remove x).order = r.order.erase x := by
  rw [remove, order_ofParts, order, List.erase_append]
  split_ifs with hx
  · have hx' : x ∉ r.behind := (List.nodup_append.1 r.nodup).2.2 x hx x |>.mt (by simp)
    rw [List.erase_of_not_mem hx']
  · rw [List.erase_of_not_mem hx]

theorem current_remove_of_ne (r : CyclicList α) {x c : α} (hc : r.current = some c) (hne : c ≠ x) :
    (r.remove x).current = some c := by
  rw [current] at hc ⊢
  rw [order_remove]
  cases ho : r.order with
  | nil => simp [ho] at hc
  | cons a as =>
    rw [ho] at hc
    obtain rfl : a = c := by simpa using hc
    rw [List.erase_cons_tail (by simpa using hne)]
    rfl

/-- the follower comes second in the reading; an element alone in the cycle has none -/
theorem current_remove_current (r : CyclicList α) {c : α} (hc : r.current = some c) :
    (r.remove c).current = r.order[1]? := by
  rw [current] at hc ⊢
  rw [order_remove]
  cases ho : r.order with
  | nil => simp [ho] at hc
  | cons a as =>
    rw [ho] at hc
    obtain rfl : a = c := by simpa using hc
    rw [List.erase_cons_head, List.head?_eq_getElem?, List.getElem?_cons_succ]

end Remove

end CyclicList

end Rustproof.Lib
