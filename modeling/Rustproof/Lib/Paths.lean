/-
Chains of a relation, and what is left of them when a vertex is taken out.

`exists_rank`: finitely many arrows without a cycle can be ranked.
`transGen_bypass`: a vertex with one arrow into it can be bypassed; the chains between the other vertices stay.
`transGen_leaving`: arrows that leave a set no arrow enters lie on no chain that starts outside it.
`transGen_leaf`: one arrow to a new vertex adds the chains that end there, and no others.
-/
import Mathlib.Logic.Relation
import Mathlib.Data.Finset.Card
import Mathlib.Data.Finset.Filter

namespace Rustproof.Lib

open Relation

variable {α ι : Type*}

/-- the relation of a finite family of arrows -/
def Arrow (s : Finset ι) (src dst : ι → α) (a b : α) : Prop := ∃ i ∈ s, src i = a ∧ dst i = b

/-- **Finitely many arrows without a cycle can be ranked**: count the arrows that lead to a vertex. -/
theorem exists_rank (s : Finset ι) (src dst : ι → α) (h : ∀ a, ¬TransGen (Arrow s src dst) a a) :
    ∃ rank : α → ℕ, ∀ i ∈ s, rank (src i) < rank (dst i) := by
  classical
  refine ⟨fun a => (s.filter fun i => ReflTransGen (Arrow s src dst) (dst i) a).card, fun i hi => ?_⟩
  have harrow : Arrow s src dst (src i) (dst i) := ⟨i, hi, rfl, rfl⟩
  apply Finset.card_lt_card
  refine Finset.ssubset_iff_of_subset (fun j hj => ?_) |>.2 ⟨i, ?_, ?_⟩
  · rw [Finset.mem_filter] at hj ⊢
    exact ⟨hj.1, hj.2.tail harrow⟩
  · exact Finset.mem_filter.2 ⟨hi, .refl⟩
  · -- an arrow does not lead to its own source
    intro hmem
    exact h (dst i) (TransGen.tail' (Finset.mem_filter.1 hmem).2 harrow)

variable {r r' : α → α → Prop}

/-- **Bypassing a vertex.** `c` has one arrow into it, from `p`; `r'` replaces it and the arrows out of `c` by arrows from
`p`. -/
theorem transGen_bypass {p c : α} (hpc : r p c) (hin : ∀ a, r a c → a = p) (hself : ¬r c c)
    (hr' : ∀ a b, r' a b ↔ (r a b ∧ a ≠ c ∧ b ≠ c) ∨ (a = p ∧ r c b)) {a b : α} (ha : a ≠ c) (hb : b ≠ c) :
    TransGen r' a b ↔ TransGen r a b := by
  constructor
  · intro h
    have step : ∀ x y, r' x y → TransGen r x y := by
      intro x y hxy
      rcases (hr' x y).1 hxy with ⟨hxy, -, -⟩ | ⟨rfl, hcy⟩
      · exact .single hxy
      · exact (TransGen.single hpc).tail hcy
    induction h with
    | single hab => exact step _ _ hab
    | @tail m d hab hbc ih =>
      by_cases hm : m = c
      · -- no arrow of `r'` leads to `c`
        subst hm
        exfalso
        have hinto : ∀ x, ¬r' x m := by
          intro x hx
          rcases (hr' x m).1 hx with ⟨-, -, h0⟩ | ⟨-, h0⟩
          · exact h0 rfl
          · exact hself h0
        cases hab with
        | single h0 => exact hinto _ h0
        | tail _ h0 => exact hinto _ h0
      · exact (ih hm).trans (step _ _ hbc)
  · intro h
    -- a chain that stops at `c` has been at `p` just before
    have key : (b ≠ c → TransGen r' a b) ∧ (b = c → a = p ∨ TransGen r' a p) := by
      clear hb
      induction h with
      | single hab =>
        refine ⟨fun hb => .single ((hr' _ _).2 (Or.inl ⟨hab, ha, hb⟩)), ?_⟩
        rintro rfl
        exact Or.inl (hin _ hab)
      | @tail m d _ hmd ih =>
        by_cases hm : m = c
        · subst hm
          refine ⟨fun _ => ?_, ?_⟩
          · have hpd : r' p d := (hr' _ _).2 (Or.inr ⟨rfl, hmd⟩)
            rcases ih.2 rfl with rfl | hap
            · exact .single hpd
            · exact hap.tail hpd
          · rintro rfl
            exact absurd hmd hself
        · refine ⟨fun hd => (ih.1 hm).tail ((hr' _ _).2 (Or.inl ⟨hmd, hm, hd⟩)), ?_⟩
          rintro rfl
          rw [← hin _ hmd]
          exact Or.inr (ih.1 hm)
    exact key.1 hb

/-- **Arrows out of a set that no arrow enters** are on no chain from outside it. -/
theorem transGen_leaving {S : α → Prop} (hS : ∀ a b, r a b → ¬S b) (hr' : ∀ a b, r' a b ↔ r a b ∧ ¬S a) {a b : α}
    (ha : ¬S a) : TransGen r' a b ↔ TransGen r a b := by
  constructor
  · intro h
    exact TransGen.mono (fun x y hxy => ((hr' x y).1 hxy).1) a b h
  · intro h
    induction h with
    | single hab => exact .single ((hr' _ _).2 ⟨hab, ha⟩)
    | tail ham hmb ih =>
      refine ih.tail ((hr' _ _).2 ⟨hmb, ?_⟩)
      cases ham with
      | single h0 => exact hS _ _ h0
      | tail _ h0 => exact hS _ _ h0

/-- **An arrow to a new vertex** adds the chains that end there. -/
theorem transGen_leaf {p c : α} (hr' : ∀ a b, r' a b ↔ r a b ∨ a = p ∧ b = c) (hout : ∀ b, ¬r c b)
    (hin : ∀ a, ¬r a c) (hne : p ≠ c)
    (a b : α) : (b ≠ c → (TransGen r' a b ↔ TransGen r a b)) ∧ (b = c → (TransGen r' a b ↔ a = p ∨ TransGen r a p)) := by
  have hmono : ∀ x y, TransGen r x y → TransGen r' x y :=
      fun x y h => TransGen.mono (fun _ _ hxy => (hr' _ _).2 (Or.inl hxy)) x y h
  have key : ∀ b, TransGen r' a b → (b ≠ c → TransGen r a b) ∧ (b = c → a = p ∨ TransGen r a p) := by
    intro b h
    induction h with
    | @single b hab =>
      rcases (hr' _ _).1 hab with hab | ⟨rfl, rfl⟩
      · exact ⟨fun _ => .single hab, fun he => absurd (he ▸ hab) (hin a)⟩
      · exact ⟨fun hb => absurd rfl hb, fun _ => Or.inl rfl⟩
    | @tail m b _ hmb ih =>
      rcases (hr' _ _).1 hmb with hmb | ⟨rfl, rfl⟩
      · -- the chain has not been at the new vertex
        have hm : m ≠ c := fun he => hout b (he ▸ hmb)
        exact ⟨fun _ => (ih.1 hm).tail hmb, fun he => absurd (he ▸ hmb) (hin m)⟩
      · exact ⟨fun hb => absurd rfl hb, fun _ => Or.inr (ih.1 hne)⟩
  refine ⟨fun hb => ⟨fun h => (key b h).1 hb, hmono a b⟩, ?_⟩
  rintro rfl
  refine ⟨fun h => (key b h).2 rfl, ?_⟩
  rintro (rfl | h)
  · exact .single ((hr' _ _).2 (Or.inr ⟨rfl, rfl⟩))
  · exact (hmono _ _ h).tail ((hr' _ _).2 (Or.inr ⟨rfl, rfl⟩))

end Rustproof.Lib
