/-
Capability spaces (`crates/capabilities`): a flat array of slots, free when their type is `Null`.

`insert` fills the first free slot, `lookup` reads a live one, `revoke` empties one. Slots are independent roots: no
operation looks at two of them.
-/
import Rustproof.Abi
import Rustproof.Lib.Table

namespace Rustproof.Capabilities

open Lib

/-- one capability slot; free iff its type is `Null` -/
structure CapSlot where
  capType : CapType
  rights : CapRights
  object : ℕ
deriving DecidableEq, Repr

def CapSlot.EMPTY : CapSlot := ⟨.null, CapRights.NONE, 0⟩

def CapSlot.isFree (s : CapSlot) : Bool := s.capType == .null

@[simp] theorem CapSlot.isFree_EMPTY : CapSlot.EMPTY.isFree = true := rfl

/-- a capability space of `N` slots -/
structure CapSpace (N : ℕ) where
  slots : Table CapSlot

namespace CapSpace

variable {N : ℕ}

def new : CapSpace N := ⟨fun _ => CapSlot.EMPTY⟩

def firstFree (c : CapSpace N) : Option ℕ := firstIdx N fun i => (c.slots i).isFree

/-- fill the first free slot; `Null` is refused, it is the free-slot sentinel -/
def insert (c : CapSpace N) (capType : CapType) (rights : CapRights) (object : ℕ) : Option (ℕ × CapSpace N) :=
  if capType = .null then none
  else
    match c.firstFree with
    | none => none
    | some idx => some (idx, ⟨c.slots.put idx ⟨capType, rights, object⟩⟩)

def lookup (c : CapSpace N) (id : ℕ) : Option CapSlot :=
  if id < N ∧ (c.slots id).isFree = false then some (c.slots id) else none

def revoke (c : CapSpace N) (cap : ℕ) : CapSpace N :=
  if cap ≥ N then c else ⟨c.slots.put cap CapSlot.EMPTY⟩

@[simp] theorem lookup_new (id : ℕ) : (new : CapSpace N).lookup id = none := by
  simp [lookup, new]

theorem lookup_some {c : CapSpace N} {id : ℕ} {s : CapSlot} (h : c.lookup id = some s) :
    id < N ∧ c.slots id = s ∧ s.capType ≠ .null := by
  rw [lookup] at h
  split_ifs at h with hc
  obtain rfl := Option.some.inj h
  refine ⟨hc.1, rfl, fun hn => ?_⟩
  have := hc.2
  simp [CapSlot.isFree, hn] at this

/-- `insert` takes a slot that held nothing and touches no other -/
theorem insert_some {c c' : CapSpace N} {t : CapType} {r : CapRights} {o idx : ℕ}
    (h : c.insert t r o = some (idx, c')) :
    t ≠ .null ∧ idx < N ∧ c.lookup idx = none ∧ (∀ j < idx, (c.slots j).isFree = false) ∧
      c' = ⟨c.slots.put idx ⟨t, r, o⟩⟩ ∧ c'.lookup idx = some ⟨t, r, o⟩ ∧
      ∀ j, j ≠ idx → c'.lookup j = c.lookup j := by
  rw [insert] at h
  split_ifs at h with ht
  cases hf : c.firstFree with
  | none => rw [hf] at h; simp at h
  | some k =>
    rw [hf] at h
    obtain ⟨rfl, rfl⟩ := Prod.mk.inj (Option.some.inj h)
    obtain ⟨hk, hfree, hmin⟩ := firstIdx_some hf
    refine ⟨ht, hk, ?_, hmin, rfl, ?_, fun j hj => ?_⟩
    · simp [lookup, hfree]
    · have : (⟨t, r, o⟩ : CapSlot).isFree = false := by simpa [CapSlot.isFree] using ht
      simp [lookup, hk, this]
    · simp only [lookup, Table.put_of_ne _ hj]

theorem lookup_revoke (c : CapSpace N) (cap id : ℕ) :
    (c.revoke cap).lookup id = if id = cap then none else c.lookup id := by
  rw [revoke]
  by_cases hge : cap ≥ N
  · rw [if_pos hge]
    by_cases hid : id = cap
    · subst hid; rw [if_pos rfl, lookup, if_neg (by omega)]
    · rw [if_neg hid]
  · rw [if_neg hge]
    by_cases hid : id = cap
    · subst hid; simp [lookup]
    · simp only [lookup, Table.put_of_ne _ hid, if_neg hid]

end CapSpace

end Rustproof.Capabilities
