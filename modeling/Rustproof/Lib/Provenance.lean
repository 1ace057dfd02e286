/-
Where things came from (support library).

Things sit at places, and a place is used again. A log says which places were cleared for something new, and when the thing at one
place was handed on to another, which was empty. `Came l a b` is what a log tells: the thing at `b` came from the one at `a`, at
first hand or through others, whatever has become of these since.

A table of the present handings knows less: things go, and what they were handed on through goes with them. `Tracks held r D`
says that between the things there still are, the chains of `r` are nevertheless all of `D`. It is kept when a place is cleared
(`Tracks.clear`), when something is handed on (`Tracks.hand`), and when things go without breaking a chain between two that stay
(`Tracks.drop`).
-/
import Rustproof.Lib.Paths

namespace Rustproof.Lib

open Relation

variable {α ε : Type*}

/-- what happens to places -/
inductive Handing (α : Type*) where
  /-- whatever was at the places of `S` is gone, and nothing at them came from anywhere -/
  | clear (S : Set α)
  /-- what is at `a` is handed on to `b`, which was empty -/
  | hand (a b : α)

namespace Handing

/-- what is known afterwards, if `D` was known before -/
def tell (D : α → α → Prop) : Handing α → α → α → Prop
  | clear S => fun x y => x ∉ S ∧ y ∉ S ∧ D x y
  | hand a b => fun x y => x ≠ b ∧ (y = b ∧ (x = a ∨ D x a) ∨ y ≠ b ∧ D x y)

/-- **What a log tells**: the thing at the second place came from the one at the first. -/
def Came (l : List (Handing α)) : α → α → Prop := l.foldl tell fun _ _ => False

theorem came_append (l l' : List (Handing α)) : Came (l ++ l') = l'.foldl tell (Came l) := List.foldl_append

end Handing

/-- between things that are held, the chains of `r` are what `D` says of their places -/
def Tracks (place : ε → α) (held : ε → Prop) (r : ε → ε → Prop) (D : α → α → Prop) : Prop :=
  ∀ x y, held x → held y → (D (place x) (place y) ↔ TransGen r x y)

namespace Tracks

variable {place : ε → α} {held held' : ε → Prop} {r r' : ε → ε → Prop} {D : α → α → Prop}

/-- things go, and no chain between two that stay is lost or made -/
theorem drop (h : Tracks place held r D) (hsub : ∀ x, held' x → held x)
    (hkeep : ∀ x y, held' x → held' y → (TransGen r' x y ↔ TransGen r x y)) : Tracks place held' r' D := fun x y hx hy =>
  (h x y (hsub x hx) (hsub y hy)).trans (hkeep x y hx hy).symm

/-- a thing that is not held is on no chain -/
theorem off (hends : ∀ x y, r x y → held x ∧ held y) {x y : ε} (h : TransGen r x y) : held x ∧ held y := by
  induction h with
  | single hxy => exact hends _ _ hxy
  | tail _ hyz ih => exact ⟨ih.1, (hends _ _ hyz).2⟩

/-- places are cleared for new things, which nothing was handed on to or from -/
theorem clear (h : Tracks place held r D) (hends : ∀ x y, r x y → held x ∧ held y) {S : Set α}
    (hnew : ∀ x, held' x → place x ∉ S ∧ held x ∨ place x ∈ S ∧ ¬held x) :
    Tracks place held' r (Handing.tell D (.clear S)) := by
  intro x y hx hy
  rcases hnew x hx with ⟨hxS, hxh⟩ | ⟨hxS, hxh⟩
  · rcases hnew y hy with ⟨hyS, hyh⟩ | ⟨hyS, hyh⟩
    · rw [← h x y hxh hyh]
      exact ⟨fun ht => ht.2.2, fun hd => ⟨hxS, hyS, hd⟩⟩
    · exact iff_of_false (fun ht => ht.2.1 hyS) fun hr => hyh (off hends hr).2
  · exact iff_of_false (fun ht => ht.1 hxS) fun hr => hxh (off hends hr).1

/-- what `a` holds is handed on to `b` -/
theorem hand (h : Tracks place held r D) (hends : ∀ x y, r x y → held x ∧ held y) {a b : ε} (ha : held a) (hb : ¬held b)
    (hnew : ∀ x, held' x → held x ∧ place x ≠ place b ∨ x = b) (hr : ∀ x y, r' x y ↔ r x y ∨ x = a ∧ y = b)
    (hinj : ∀ x, held x → place x = place a → x = a) :
    Tracks place held' r' (Handing.tell D (.hand (place a) (place b))) := by
  have hleaf := transGen_leaf hr (fun y hby => hb (hends b y hby).1) (fun x hxb => hb (hends x b hxb).2) fun he => hb (he ▸ ha)
  intro x y hx hy
  rcases hnew x hx with ⟨hxh, hxb⟩ | rfl
  · have hxne : x ≠ b := fun he => hb (he ▸ hxh)
    rcases hnew y hy with ⟨hyh, hyb⟩ | rfl
    · have hyne : y ≠ b := fun he => hb (he ▸ hyh)
      rw [(hleaf x y).1 hyne, ← h x y hxh hyh]
      constructor
      · rintro ⟨-, ⟨he, -⟩ | ⟨-, hd⟩⟩
        · exact absurd he hyb
        · exact hd
      · exact fun hd => ⟨hxb, Or.inr ⟨hyb, hd⟩⟩
    · rw [(hleaf x y).2 rfl, ← h x a hxh ha]
      constructor
      · rintro ⟨-, ⟨-, he | hd⟩ | ⟨hne, -⟩⟩
        · exact Or.inl (hinj x hxh he)
        · exact Or.inr hd
        · exact absurd rfl hne
      · rintro (rfl | hd)
        · exact ⟨hxb, Or.inl ⟨rfl, Or.inl rfl⟩⟩
        · exact ⟨hxb, Or.inl ⟨rfl, Or.inr hd⟩⟩
  · refine iff_of_false (fun ht => ht.1 rfl) fun hc => ?_
    -- nothing leaves the end of the new chain
    obtain ⟨z, hz⟩ : ∃ z, r' x z := by
      rcases TransGen.head'_iff.1 hc with ⟨z, hz, -⟩
      exact ⟨z, hz⟩
    rcases (hr x z).1 hz with hz | ⟨rfl, -⟩
    · exact hb (hends x z hz).1
    · exact hb ha

end Tracks

end Rustproof.Lib
