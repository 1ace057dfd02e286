/-
A cached table of translations (support library).

A unit that walks a table in memory may keep any entry it has seen until it is told to forget all of them. `Access` is what a
log says about one table: an entry stored, or the cache emptied. What the cache may hold after a log is what the table has shown
at some moment since it was last emptied (`MayHold`); `mayHold_append` splits a log in two, and the rest follows from it.

`Fresh P` says that of the entries `P` picks out the cache holds none but those the table shows. It is kept by a store over an
entry `P` does not pick out (`Fresh.write`), and a flush restores it (`fresh_flush`), so a log that ends with one keeps it
(`Fresh.settled`).
-/
import Mathlib.Logic.Function.Basic
import Mathlib.Data.List.Basic
import Mathlib.Tactic

namespace Rustproof.Lib

variable {K V : Type}

/-- what happens to a table, and to a cache of it -/
inductive Access (K V : Type) where
  | write (key : K) (value : V)
  | flush

namespace Access

variable {P : K → V → Prop} {t : K → V} {l l' : List (Access K V)} {k : K} {v : V}

/-- a log that leaves the cache empty, or says nothing -/
def Settled (l : List (Access K V)) : Prop := ∀ a ∈ l.getLast?, a = flush

theorem settled_idle (h : ∀ a ∈ l, a = flush) : Settled l := fun a ha => h a (List.mem_of_getLast? ha)

theorem settled_flush (h : ∀ a ∈ l', a = flush) (hne : l' ≠ []) : Settled (l ++ l') := by
  intro a ha
  rw [List.getLast?_append_of_ne_nil _ hne] at ha
  exact h a (List.mem_of_getLast? ha)

theorem Settled.append (h : Settled l) (h' : Settled l') : Settled (l ++ l') := by
  by_cases hne : l' = []
  · rw [hne, List.append_nil]
    exact h
  · intro a ha
    rw [List.getLast?_append_of_ne_nil _ hne] at ha
    exact h' a ha

variable [DecidableEq K]

/-- the table a log leaves -/
def table (t : K → V) : List (Access K V) → K → V
  | [] => t
  | write key value :: log => table (Function.update t key value) log
  | flush :: log => table t log

/-- the cache may hold `v` for `k`: the table showed it at some moment since the last flush -/
def MayHold (t : K → V) : List (Access K V) → K → V → Prop
  | [], k, v => t k = v
  | write key value :: log, k, v => (t k = v ∧ flush ∉ log) ∨ MayHold (Function.update t key value) log k v
  | flush :: log, k, v => MayHold t log k v

theorem table_append (t : K → V) (l l' : List (Access K V)) : table t (l ++ l') = table (table t l) l' := by
  induction l generalizing t with
  | nil => rfl
  | cons a l ih => cases a <;> exact ih _

/-- a log without stores leaves the table as it was -/
theorem table_idle (h : ∀ a ∈ l, a = flush) (t : K → V) : table t l = t := by
  induction l with
  | nil => rfl
  | cons a l ih =>
    obtain rfl := h a List.mem_cons_self
    exact ih fun b hb => h b (List.mem_cons_of_mem _ hb)

theorem mayHold_shown (h : t k = v) (hl : flush ∉ l) : MayHold t l k v := by
  cases l with
  | nil => exact h
  | cons a l =>
    cases a with
    | write key value => exact Or.inl ⟨h, fun hc => hl (List.mem_cons_of_mem _ hc)⟩
    | flush => exact absurd List.mem_cons_self hl

/-- what the cache may hold after two logs: what it held after the first, if the second does not empty it, or what the second
shows -/
theorem mayHold_append : MayHold t (l ++ l') k v ↔ (MayHold t l k v ∧ flush ∉ l') ∨ MayHold (table t l) l' k v := by
  induction l generalizing t with
  | nil => exact ⟨Or.inr, fun h => h.elim (fun h => mayHold_shown h.1 h.2) id⟩
  | cons a l ih =>
    cases a with
    | write key value =>
      simp only [List.cons_append, MayHold, table, ih, List.mem_append, not_or]
      tauto
    | flush => exact ih

/-- it may hold what the table shows now -/
theorem mayHold_last : MayHold t l k (table t l k) := by
  have h : MayHold t (l ++ []) k (table t l k) := mayHold_append.2 (Or.inr rfl)
  rwa [List.append_nil] at h

theorem mayHold_idle (h : ∀ a ∈ l, a = flush) : MayHold t l k v ↔ t k = v := by
  induction l with
  | nil => rfl
  | cons a l ih =>
    obtain rfl := h a List.mem_cons_self
    exact ih fun b hb => h b (List.mem_cons_of_mem _ hb)

/-- of the entries `P` picks out the cache holds none but those the table shows -/
def Fresh (P : K → V → Prop) (t : K → V) (l : List (Access K V)) : Prop :=
  ∀ k v, P k v → MayHold t l k v → table t l k = v

theorem fresh_flush (hidle : ∀ a ∈ l', a = flush) (hne : l' ≠ []) : Fresh P t (l ++ l') := by
  intro k v hP hv
  have hmem : flush ∈ l' := by
    obtain ⟨a, ha⟩ := List.exists_mem_of_ne_nil _ hne
    exact hidle a ha ▸ ha
  rw [table_append, table_idle hidle]
  rcases mayHold_append.1 hv with ⟨-, hnot⟩ | hnew
  · exact absurd hmem hnot
  · exact (mayHold_idle hidle).1 hnew

/-- a settled log keeps the cache fresh, whatever it stores -/
theorem Fresh.settled (h : Fresh P t l) (hs : Settled l') : Fresh P t (l ++ l') := by
  rcases List.eq_nil_or_concat l' with rfl | ⟨w, a, rfl⟩
  · rwa [List.append_nil]
  · rw [List.concat_eq_append] at hs ⊢
    obtain rfl : a = flush := hs a (by simp)
    rw [← List.append_assoc]
    exact fresh_flush (fun b hb => List.mem_singleton.1 hb) (List.cons_ne_nil _ _)

/-- a store over an entry that `P` does not pick out -/
theorem Fresh.write (h : Fresh P t l) {value : V} (hold : ¬P k (table t l k)) : Fresh P t (l ++ [write k value]) := by
  intro k' v hP hv
  have hlast : MayHold t l k' v ∨ Function.update (table t l) k value k' = v := by
    rcases mayHold_append.1 hv with ⟨hv, -⟩ | ⟨hv, -⟩ | hv
    · exact Or.inl hv
    · exact Or.inl (hv ▸ mayHold_last)
    · exact Or.inr hv
  rw [table_append]
  show Function.update (table t l) k value k' = v
  rcases hlast with hv | hv
  · have htab := h k' v hP hv
    by_cases hk : k' = k
    · subst hk
      rw [htab] at hold
      exact absurd hP hold
    · rw [Function.update_of_ne hk, htab]
  · exact hv

end Access

end Rustproof.Lib
