/-
A fixed number of slots, used as a finite map.

Each slot holds an entry, which is live or not, and a live entry has a key. `find` is the first live entry with a key, `used`
the number of live entries. If the live keys are distinct (`Keyed`), the slots are a finite map: `put_free`, `put_same`,
`clear_find` say what filling a free slot, overwriting one and clearing some do to it, and `used_eq` that its size is `used`.
-/
import Rustproof.Lib.Table

namespace Rustproof.Lib.Slots

variable {E K : Type*} [DecidableEq K] (live : E → Bool) (key : E → K) (n : ℕ)

/-- the first live entry with key `k` -/
def find (t : Table E) (k : K) : Option E := (firstIdx n fun i => live (t i) && key (t i) == k).map t

/-- no two live entries have one key -/
def Keyed (t : Table E) : Prop :=
  ∀ i < n, ∀ j < n, live (t i) = true → live (t j) = true → key (t i) = key (t j) → i = j

/-- how many entries are live -/
def used (t : Table E) : ℕ := ((Finset.range n).filter fun i => live (t i) = true).card

/-- clear the live entries that satisfy `p` -/
def clear (empty : E) (p : E → Bool) (t : Table E) : Table E :=
  fun i => if i < n ∧ live (t i) = true ∧ p (t i) = true then empty else t i

variable {live key n} {t : Table E}

theorem find_some {k : K} {e : E} (h : find live key n t k = some e) : ∃ i < n, t i = e ∧ live e = true ∧ key e = k := by
  unfold find at h
  obtain ⟨i, hi, he⟩ := Option.map_eq_some_iff.1 h
  obtain ⟨hlt, hp, -⟩ := firstIdx_some hi
  rw [Bool.and_eq_true, beq_iff_eq, he] at hp
  exact ⟨i, hlt, he, hp⟩

theorem find_none {k : K} : find live key n t k = none ↔ ∀ i < n, live (t i) = true → key (t i) ≠ k := by
  unfold find
  rw [Option.map_eq_none_iff]
  constructor
  · intro h i hi hl hk
    have := firstIdx_none h i hi
    rw [hl, hk, beq_self_eq_true] at this
    exact absurd this (by decide)
  · intro h
    cases hf : firstIdx n fun i => live (t i) && key (t i) == k with
    | none => rfl
    | some i =>
      obtain ⟨hlt, hp, -⟩ := firstIdx_some hf
      rw [Bool.and_eq_true, beq_iff_eq] at hp
      exact absurd hp.2 (h i hlt hp.1)

/-- a live entry is found under its key -/
theorem Keyed.find_live (h : Keyed live key n t) {i : ℕ} (hi : i < n) (hl : live (t i) = true) :
    find live key n t (key (t i)) = some (t i) := by
  cases hf : find live key n t (key (t i)) with
  | none => exact absurd rfl (find_none.1 hf i hi hl)
  | some e =>
    obtain ⟨j, hj, rfl, hlj, hk⟩ := find_some hf
    rw [h j hj i hi hlj hl hk]

/-- two tables with the same live entries find the same -/
theorem find_eq_of_iff {t t' : Table E} (h' : Keyed live key n t') {k k' : K}
    (hiff : ∀ e, (∃ i < n, t i = e ∧ live e = true ∧ key e = k) ↔ ∃ i < n, t' i = e ∧ live e = true ∧ key e = k') :
    find live key n t k = find live key n t' k' := by
  cases hf : find live key n t k with
  | none =>
    symm
    rw [find_none] at hf ⊢
    rintro i hi hl rfl
    obtain ⟨j, hj, he, -, hk⟩ := (hiff (t' i)).2 ⟨i, hi, rfl, hl, rfl⟩
    exact hf j hj (he ▸ hl) (he ▸ hk)
  | some e =>
    obtain ⟨j, hj, he, hl, hk⟩ := (hiff e).1 (find_some hf)
    rw [← hk, ← he]
    exact (h'.find_live hj (he ▸ hl)).symm

/-- **Filling a free slot** adds a key. -/
theorem Keyed.put_free (h : Keyed live key n t) {i : ℕ} (hi : i < n) (hfree : live (t i) = false) {e : E}
    (hl : live e = true) (hnew : find live key n t (key e) = none) :
    Keyed live key n (t.put i e) ∧
      ∀ k, find live key n (t.put i e) k = if k = key e then some e else find live key n t k := by
  have hput : ∀ j, live (t.put i e j) = true → j = i ∧ t.put i e j = e ∨ j ≠ i ∧ t.put i e j = t j := by
    intro j _
    by_cases hj : j = i
    · rw [hj]; exact Or.inl ⟨rfl, Table.put_self _ _ _⟩
    · exact Or.inr ⟨hj, Table.put_of_ne _ hj _⟩
  have hkeyed : Keyed live key n (t.put i e) := by
    intro a ha b hb hla hlb hk
    rcases hput a hla with ⟨rfl, hea⟩ | ⟨hna, hea⟩ <;> rcases hput b hlb with ⟨hb', heb⟩ | ⟨hnb, heb⟩
    · exact hb'.symm
    · rw [hea, heb] at hk
      exact absurd hk.symm (find_none.1 hnew b hb (heb ▸ hlb))
    · rw [hea, heb] at hk
      exact absurd hk (find_none.1 hnew a ha (hea ▸ hla))
    · rw [hea] at hla hk
      rw [heb] at hlb hk
      exact h a ha b hb hla hlb hk
  refine ⟨hkeyed, fun k => ?_⟩
  split_ifs with hk
  · have := hkeyed.find_live hi (by rw [Table.put_self]; exact hl)
    rwa [Table.put_self, ← hk] at this
  · refine find_eq_of_iff h fun d => ⟨?_, ?_⟩
    · rintro ⟨j, hj, rfl, hlj, hkj⟩
      rcases hput j hlj with ⟨-, he⟩ | ⟨-, he⟩
      · rw [he] at hkj; exact absurd hkj.symm hk
      · exact ⟨j, hj, he.symm, hlj, hkj⟩
    · rintro ⟨j, hj, rfl, hlj, hkj⟩
      have hne : j ≠ i := by rintro rfl; rw [hfree] at hlj; exact absurd hlj (by decide)
      exact ⟨j, hj, Table.put_of_ne _ hne _, hlj, hkj⟩

/-- **Overwriting a live entry** under its key changes what is found there. -/
theorem Keyed.put_same (h : Keyed live key n t) {i : ℕ} (hi : i < n) (hlive : live (t i) = true) {e : E}
    (hl : live e = true) (hkey : key e = key (t i)) :
    Keyed live key n (t.put i e) ∧
      ∀ k, find live key n (t.put i e) k = if k = key e then some e else find live key n t k := by
  have hput : ∀ j, live (t.put i e j) = live (t j) ∧ key (t.put i e j) = key (t j) := by
    intro j
    by_cases hj : j = i
    · rw [hj, Table.put_self]; exact ⟨hl.trans hlive.symm, hkey⟩
    · rw [Table.put_of_ne _ hj]; exact ⟨rfl, rfl⟩
  have hkeyed : Keyed live key n (t.put i e) := by
    intro a ha b hb hla hlb hk
    rw [(hput a).1] at hla
    rw [(hput b).1] at hlb
    rw [(hput a).2, (hput b).2] at hk
    exact h a ha b hb hla hlb hk
  refine ⟨hkeyed, fun k => ?_⟩
  split_ifs with hk
  · have := hkeyed.find_live hi (by rw [Table.put_self]; exact hl)
    rwa [Table.put_self, ← hk] at this
  · refine find_eq_of_iff h fun d => ⟨?_, ?_⟩
    · rintro ⟨j, hj, rfl, hlj, hkj⟩
      have hne : j ≠ i := by rintro rfl; rw [Table.put_self] at hkj; exact hk hkj.symm
      exact ⟨j, hj, (Table.put_of_ne _ hne _).symm, hlj, hkj⟩
    · rintro ⟨j, hj, rfl, hlj, hkj⟩
      have hne : j ≠ i := by rintro rfl; exact hk (hkj.symm.trans hkey.symm)
      exact ⟨j, hj, Table.put_of_ne _ hne _, hlj, hkj⟩

/-- **Clearing entries** removes their keys. -/
theorem Keyed.clear (h : Keyed live key n t) (empty : E) (hempty : live empty = false) (p : E → Bool) :
    Keyed live key n (clear live n empty p t) ∧
      ∀ k, find live key n (clear live n empty p t) k = (find live key n t k).filter fun e => !p e := by
  have hclear : ∀ i < n, live (Slots.clear live n empty p t i) = true →
      Slots.clear live n empty p t i = t i ∧ live (t i) = true ∧ p (t i) = false := by
    intro i hi hl
    unfold Slots.clear at hl ⊢
    split_ifs at hl ⊢ with hc
    · rw [hempty] at hl; exact absurd hl (by decide)
    · exact ⟨rfl, hl, by by_contra hp; exact hc ⟨hi, hl, by simpa using hp⟩⟩
  have hkeyed : Keyed live key n (Slots.clear live n empty p t) := by
    intro a ha b hb hla hlb hk
    obtain ⟨hea, hla, -⟩ := hclear a ha hla
    obtain ⟨heb, hlb, -⟩ := hclear b hb hlb
    rw [hea, heb] at hk
    exact h a ha b hb hla hlb hk
  refine ⟨hkeyed, fun k => ?_⟩
  cases hf : find live key n t k with
  | none =>
    rw [Option.filter_none, find_none]
    rw [find_none] at hf
    intro i hi hl
    obtain ⟨he, hl, -⟩ := hclear i hi hl
    rw [he]
    exact hf i hi hl
  | some e =>
    obtain ⟨i, hi, rfl, hl, rfl⟩ := find_some hf
    cases hp : p (t i) with
    | true =>
      simp only [Option.filter_some, hp, Bool.not_true, Bool.false_eq_true, if_false]
      rw [find_none]
      intro j hj hlj hk
      obtain ⟨he, hlj, hpj⟩ := hclear j hj hlj
      rw [he] at hk
      rw [h j hj i hi hlj hl hk, hp] at hpj
      exact absurd hpj (by decide)
    | false =>
      have he : Slots.clear live n empty p t i = t i := by
        unfold Slots.clear
        rw [if_neg (by rw [hp]; simp)]
      have := hkeyed.find_live hi (by rw [he]; exact hl)
      rw [he] at this
      rw [this, Option.filter_some, hp]
      rfl

/-! ## Counting -/

/-- the live entries that satisfy `p` are as many as the keys that find one -/
theorem Keyed.card_eq (h : Keyed live key n t) (p : E → Bool) :
    ((Finset.range n).filter fun i => live (t i) = true ∧ p (t i) = true).card =
      {k | ∃ e, find live key n t k = some e ∧ p e = true}.ncard := by
  have himage : {k | ∃ e, find live key n t k = some e ∧ p e = true} =
      (fun i => key (t i)) '' ((Finset.range n).filter fun i => live (t i) = true ∧ p (t i) = true : Finset ℕ) := by
    ext k
    constructor
    · rintro ⟨e, hf, hp⟩
      obtain ⟨i, hi, rfl, hl, rfl⟩ := find_some hf
      exact ⟨i, Finset.mem_coe.2 (Finset.mem_filter.2 ⟨Finset.mem_range.2 hi, hl, hp⟩), rfl⟩
    · rintro ⟨i, hi, rfl⟩
      obtain ⟨hi, hl, hp⟩ := Finset.mem_filter.1 (Finset.mem_coe.1 hi)
      exact ⟨t i, h.find_live (Finset.mem_range.1 hi) hl, hp⟩
  rw [himage, Set.InjOn.ncard_image, Set.ncard_coe_finset]
  intro i hi j hj hk
  obtain ⟨hi, hli, -⟩ := Finset.mem_filter.1 (Finset.mem_coe.1 hi)
  obtain ⟨hj, hlj, -⟩ := Finset.mem_filter.1 (Finset.mem_coe.1 hj)
  exact h i (Finset.mem_range.1 hi) j (Finset.mem_range.1 hj) hli hlj hk

/-- the keys of a table are finitely many -/
theorem finite_find (t : Table E) : {k | (find live key n t k).isSome}.Finite := by
  refine ((Finset.range n).finite_toSet.image fun i => key (t i)).subset ?_
  intro k hk
  obtain ⟨e, he⟩ := Option.isSome_iff_exists.1 hk
  obtain ⟨i, hi, rfl, -, hkey⟩ := find_some he
  exact ⟨i, Finset.mem_coe.2 (Finset.mem_range.2 hi), hkey⟩

/-- the size of the map is the number of slots in use -/
theorem Keyed.used_eq (h : Keyed live key n t) : used live n t = {k | (find live key n t k).isSome}.ncard := by
  have := h.card_eq fun _ => true
  simpa [used, Option.isSome_iff_exists] using this

theorem used_le (t : Table E) : used live n t ≤ n :=
  (Finset.card_filter_le _ _).trans_eq (Finset.card_range n)

/-- a slot is free while fewer are in use than there are -/
theorem firstFree (t : Table E) : (∃ i, firstIdx n (fun i => !live (t i)) = some i) ↔ used live n t < n := by
  constructor
  · rintro ⟨i, hi⟩
    obtain ⟨hlt, hfree, -⟩ := firstIdx_some hi
    rw [Bool.not_eq_true'] at hfree
    calc used live n t ≤ ((Finset.range n).erase i).card := by
          refine Finset.card_le_card fun j hj => ?_
          obtain ⟨hj, hl⟩ := Finset.mem_filter.1 hj
          refine Finset.mem_erase.2 ⟨?_, hj⟩
          rintro rfl
          rw [hfree] at hl
          exact absurd hl (by decide)
      _ < (Finset.range n).card := Finset.card_lt_card (Finset.erase_ssubset (Finset.mem_range.2 hlt))
      _ = n := Finset.card_range n
  · intro hlt
    cases hf : firstIdx n fun i => !live (t i) with
    | some i => exact ⟨i, rfl⟩
    | none =>
      have hall : (Finset.range n).filter (fun i => live (t i) = true) = Finset.range n := by
        refine Finset.filter_true_of_mem fun i hi => ?_
        simpa using firstIdx_none hf i (Finset.mem_range.1 hi)
      rw [used, hall, Finset.card_range] at hlt
      exact absurd hlt (lt_irrefl _)

end Rustproof.Lib.Slots
