/-
Walks that judge every entry they pass.

A page-table walker may refuse at any level. `judged` is a walk whose verdict on an entry of a level is an answer or to go on;
what it answers inside a window depends on the last-level entry alone if every upper entry that is present is a link as
`Format.link` writes it (`Linked`), and links are let through (`judged_eq_leaf`). The operations on a tree keep it linked.
-/
import Rustproof.Lib.RadixTree

namespace Rustproof.Lib.RadixTree

variable {E : Type} {F : Format E} {depth : ℕ} {window : ℕ → Prop} {m m' : Store E} {root t g i : ℕ} {p : List ℕ}

/-! ## Links as written -/

variable (F depth window) in
/-- every upper entry inside the window that is present is some page's link -/
def Linked (m : Store E) (root : ℕ) : Prop :=
  ∀ i p t, Valid depth window (i :: p) → tableAt F m root p = some t → F.present (m t i) = true → ∃ g, m t i = F.link g

theorem Linked.congr (hL : Linked F depth window m root) (h : ∀ t ∈ tables F depth window m root, m' t = m t) :
    Linked F depth window m' root := by
  intro i p t hp ht hpres
  rw [tableAt_congr h hp.tail] at ht
  rw [h t (mem_tables hp.tail ht)] at hpres ⊢
  exact hL i p t hp ht hpres

/-- an emptied page has no links -/
theorem Linked.fresh (h : ∀ i, window i → F.present (m root i) = false) : Linked F depth window m root := by
  obtain ⟨hT, htab⟩ := Tree.fresh F depth h
  intro i p t hp ht hpres
  have hmem := mem_tables hp.tail ht
  rw [htab, Set.mem_singleton_iff] at hmem
  subst hmem
  obtain rfl := hT.inj p [] t hp.tail (Valid.nil _ _) ht rfl
  rw [h i (hp.enters i rfl)] at hpres
  exact absurd hpres (by decide)

theorem Linked.hang (hL : Linked F depth window m root) (hT : Tree F depth window m root) (hp : Valid depth window (i :: p))
    (ht : tableAt F m root p = some t) (habs : F.present (m t i) = false) (hfresh : g ∉ tables F depth window m root)
    (hfits : F.Fits g) : Linked F depth window (hang F m t i g) root := by
  have hgt : g ≠ t := fun e => hfresh (e ▸ mem_tables hp.tail ht)
  intro j q u hq hu hpres
  rw [tableAt_hang hT hp ht habs hfresh hfits hq.tail] at hu
  by_cases hqe : q = i :: p
  · -- nothing hangs from the new page yet
    rw [if_pos hqe] at hu
    rw [← Option.some.inj hu, hang_fresh hgt, F.present_empty] at hpres
    exact absurd hpres (by decide)
  · rw [if_neg hqe] at hu
    have hug : u ≠ g := fun e => hfresh (e ▸ mem_tables hq.tail hu)
    by_cases hself : u = t ∧ j = i
    · exact ⟨g, by rw [hself.1, hself.2, hang_self]⟩
    · rw [hang_of_ne hug fun e ej => hself ⟨e, ej⟩] at hpres ⊢
      exact hL j q u hq hu hpres

theorem Linked.setLeaf (hL : Linked F depth window m root) (hT : Tree F depth window m root) (hp : Valid depth window p)
    (hlen : p.length = depth) (ht : tableAt F m root p = some t) (e : E) : Linked F depth window (m.put t i e) root := by
  intro j q u hq hu hpres
  rw [tableAt_setLeaf hT hp hlen ht hq.tail] at hu
  -- an upper page is no last-level page
  have hne : u ≠ t := by
    rintro rfl
    have hqp := hT.inj q p u hq.tail hp hu ht
    have := hq.room
    rw [hqp] at this
    omega
  rw [Store.put_of_ne _ hne] at hpres ⊢
  exact hL j q u hq hu hpres

/-! ## Judging -/

variable (F) in
/-- the walk for page number `v` from page `t` at level `l`, where `judge` answers at an entry of a level, or lets the walk on -/
def judged (judge : ℕ → E → Option Bool) (m : Store E) (v : ℕ) : ℕ → ℕ → Bool
  | 0, t => (judge 0 (m t (v % 512))).getD false
  | l + 1, t =>
    let e := m t (v / 512 ^ (l + 1) % 512)
    (judge (l + 1) e).getD (judged judge m v l (F.addr e))

/-- a judge that refuses what is absent and lets every link on -/
structure Lets (F : Format E) (judge : ℕ → E → Option Bool) : Prop where
  absent : ∀ l e, F.present e = false → judge l e = some false
  link : ∀ l g, judge (l + 1) (F.link g) = none

theorem judged_of_tableAt {judge : ℕ → E → Option Bool} (hj : Lets F judge) (hT : Tree F depth window m root)
    (hL : Linked F depth window m root) {v : ℕ} (hw : window (v / 512 ^ depth % 512)) (l : ℕ) (hl : l ≤ depth)
    (ht : tableAt F m root (outer depth v l) = some t) :
    judged F judge m v l t = (judge 0 (leaf F m root (v % 512) (path depth v))).getD false := by
  induction l generalizing t with
  | zero => rw [outer_zero] at ht; rw [judged, leaf_of_some ht]
  | succ l ih =>
    have hv := valid_outer (l := l) hw (by omega)
    rw [outer_step (by omega)] at hv
    have hstep : tableAt F m root (outer depth v l) = follow F (m t (v / 512 ^ (l + 1) % 512)) := by
      rw [outer_step (by omega), tableAt, ht, Option.bind_some]
    rw [judged]
    cases hpres : F.present (m t (v / 512 ^ (l + 1) % 512)) with
    | false =>
      rw [follow_of_absent hpres] at hstep
      rw [leaf_of_none (tableAt_outer_none (by omega) hstep), hj.absent _ _ hpres, hj.absent _ _ F.present_empty]
      rfl
    | true =>
      obtain ⟨g, hg⟩ := hL _ _ _ hv ht hpres
      rw [follow, if_pos ⟨hpres, hT.noHuge _ _ _ hv ht hpres⟩] at hstep
      rw [← ih (by omega) hstep, hg, hj.link l g]
      rfl

/-- **Inside the window a judged walk judges the leaf.** -/
theorem judged_eq_leaf {judge : ℕ → E → Option Bool} (hj : Lets F judge) (hT : Tree F depth window m root)
    (hL : Linked F depth window m root) {v : ℕ} (hw : window (v / 512 ^ depth % 512)) :
    judged F judge m v depth root = (judge 0 (leaf F m root (v % 512) (path depth v))).getD false :=
  judged_of_tableAt hj hT hL hw depth le_rfl (by rw [outer_top]; rfl)

end Rustproof.Lib.RadixTree
