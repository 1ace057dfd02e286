/-
Radix trees of pages, as page-table hardware walks them.

A store gives every page 512 entries. An entry that is present and not huge links to the page of the next level.
`tableAt m root p` is the page reached from `root` along the index list `p`, innermost index first. A `Tree` is a root
from which no page is reached along two paths, as far as the paths stay inside a window of root indices.
- `tableAt_congr`: pages outside the tree do not matter.
- `Tree.link`: hanging a fresh empty page under an absent entry adds one path and changes no leaf.
- `Tree.setLeaf`: writing an entry of a last-level page changes that leaf and nothing else.
- `walk_eq_leaf`: inside the window the hardware walk reads the leaf.
-/
import Mathlib.Tactic

namespace Rustproof.Lib.RadixTree

/-- how an entry is read, and how a link to a page is written -/
structure Format (E : Type) where
  present : E → Bool
  /-- at an upper level: a leaf, not a link -/
  huge : E → Bool
  /-- at the last level: a present entry that maps a page -/
  isLeaf : E → Bool
  addr : E → ℕ
  link : ℕ → E
  empty : E
  /-- the page addresses an entry can carry -/
  Fits : ℕ → Prop
  present_empty : present empty = false
  present_link : ∀ pa, present (link pa) = true
  huge_link : ∀ pa, huge (link pa) = false
  addr_link : ∀ pa, Fits pa → addr (link pa) = pa

/-- the entries of every page -/
abbrev Store (E : Type) := ℕ → ℕ → E

variable {E : Type}

namespace Store

/-- write entry `i` of page `t` -/
def put (m : Store E) (t i : ℕ) (e : E) : Store E := fun t' i' => if t' = t ∧ i' = i then e else m t' i'

/-- fill page `t` with `e` -/
def fill (m : Store E) (t : ℕ) (e : E) : Store E := fun t' i' => if t' = t then e else m t' i'

theorem put_apply (m : Store E) (t i : ℕ) (e : E) (t' i' : ℕ) :
    m.put t i e t' i' = if t' = t ∧ i' = i then e else m t' i' := rfl

theorem put_of_ne (m : Store E) {t t' : ℕ} (h : t' ≠ t) (i : ℕ) (e : E) : m.put t i e t' = m t' := by
  funext i'; rw [put_apply, if_neg fun hc => h hc.1]

theorem fill_of_ne (m : Store E) {t t' : ℕ} (h : t' ≠ t) (e : E) : m.fill t e t' = m t' := by
  funext i'; exact if_neg h

@[simp] theorem fill_self (m : Store E) (t : ℕ) (e : E) (i : ℕ) : m.fill t e t i = e := if_pos rfl

end Store

variable (F : Format E)

/-- the page an entry links to -/
def follow (e : E) : Option ℕ := if F.present e = true ∧ F.huge e = false then some (F.addr e) else none

/-- the page reached from `root` along `p`, innermost index first -/
def tableAt (m : Store E) (root : ℕ) : List ℕ → Option ℕ
  | [] => some root
  | i :: p => (tableAt m root p).bind fun t => follow F (m t i)

variable (depth : ℕ) (window : ℕ → Prop)

/-- a path of table indices that leaves the root through the window -/
structure Valid (p : List ℕ) : Prop where
  short : p.length ≤ depth
  bounded : ∀ i ∈ p, i < 512
  enters : ∀ i, p.getLast? = some i → window i

theorem Valid.nil : Valid depth window [] := ⟨Nat.zero_le _, by simp, by simp⟩

variable {depth window}

theorem Valid.tail {i : ℕ} {p : List ℕ} (h : Valid depth window (i :: p)) : Valid depth window p := by
  refine ⟨le_trans (Nat.le_succ _) h.short, fun j hj => h.bounded j (List.mem_cons_of_mem _ hj), fun j hj => ?_⟩
  refine h.enters j ?_
  cases p with
  | nil => simp at hj
  | cons k p => rw [List.getLast?_cons_cons]; exact hj

theorem Valid.room {i : ℕ} {p : List ℕ} (h : Valid depth window (i :: p)) : p.length < depth := h.short

variable (depth window)

/-- the pages of the tree -/
def tables (m : Store E) (root : ℕ) : Set ℕ := {t | ∃ p, Valid depth window p ∧ tableAt F m root p = some t}

/-- no page is reached along two paths, and no upper entry inside the window is huge -/
structure Tree (m : Store E) (root : ℕ) : Prop where
  inj : ∀ p q t, Valid depth window p → Valid depth window q → tableAt F m root p = some t →
    tableAt F m root q = some t → p = q
  noHuge : ∀ i p t, Valid depth window (i :: p) → tableAt F m root p = some t → F.present (m t i) = true →
    F.huge (m t i) = false

/-- the entry a full walk ends at: index `i` of the last-level page at `p` -/
def leaf (m : Store E) (root i : ℕ) (p : List ℕ) : E :=
  match tableAt F m root p with
  | some t => m t i
  | none => F.empty

variable {F depth window}

theorem mem_tables {m : Store E} {root : ℕ} {p : List ℕ} {t : ℕ} (hp : Valid depth window p)
    (ht : tableAt F m root p = some t) : t ∈ tables F depth window m root := ⟨p, hp, ht⟩

theorem root_mem_tables (m : Store E) (root : ℕ) : root ∈ tables F depth window m root :=
  ⟨[], Valid.nil depth window, rfl⟩

theorem leaf_of_some {m : Store E} {root i : ℕ} {p : List ℕ} {t : ℕ} (h : tableAt F m root p = some t) :
    leaf F m root i p = m t i := by rw [leaf, h]

theorem leaf_of_none {m : Store E} {root i : ℕ} {p : List ℕ} (h : tableAt F m root p = none) :
    leaf F m root i p = F.empty := by rw [leaf, h]

@[simp] theorem follow_empty : follow F F.empty = none := by simp [follow, F.present_empty]

theorem follow_link {pa : ℕ} (h : F.Fits pa) : follow F (F.link pa) = some pa := by
  simp [follow, F.present_link, F.huge_link, F.addr_link pa h]

theorem follow_of_absent {e : E} (h : F.present e = false) : follow F e = none := by simp [follow, h]

/-! ## Pages outside the tree -/

theorem tableAt_congr {m m' : Store E} {root : ℕ} (h : ∀ t ∈ tables F depth window m root, m' t = m t) {p : List ℕ}
    (hp : Valid depth window p) : tableAt F m' root p = tableAt F m root p := by
  induction p with
  | nil => rfl
  | cons i p ih =>
    rw [tableAt, tableAt, ih hp.tail]
    cases ht : tableAt F m root p with
    | none => rfl
    | some t => rw [Option.bind_some, Option.bind_some, h t (mem_tables hp.tail ht)]

theorem tables_congr {m m' : Store E} {root : ℕ} (h : ∀ t ∈ tables F depth window m root, m' t = m t) :
    tables F depth window m' root = tables F depth window m root := by
  ext t
  exact exists_congr fun p => and_congr_right fun hp => by rw [tableAt_congr h hp]

theorem Tree.congr {m m' : Store E} {root : ℕ} (hT : Tree F depth window m root)
    (h : ∀ t ∈ tables F depth window m root, m' t = m t) : Tree F depth window m' root := by
  refine ⟨fun p q t hp hq h1 h2 => ?_, fun i p t hp ht hpres => ?_⟩
  · rw [tableAt_congr h hp] at h1
    rw [tableAt_congr h hq] at h2
    exact hT.inj p q t hp hq h1 h2
  · rw [tableAt_congr h hp.tail] at ht
    rw [h t (mem_tables hp.tail ht)] at hpres ⊢
    exact hT.noHuge i p t hp ht hpres

theorem leaf_congr {m m' : Store E} {root : ℕ} (h : ∀ t ∈ tables F depth window m root, m' t = m t) {p : List ℕ}
    (hp : Valid depth window p) (i : ℕ) : leaf F m' root i p = leaf F m root i p := by
  rw [leaf, leaf, tableAt_congr h hp]
  cases ht : tableAt F m root p with
  | none => rfl
  | some t => simp only [h t (mem_tables hp ht)]

/-! ## A fresh page under an absent entry -/

section Link

variable {m : Store E} {root t g i : ℕ} {p : List ℕ}

/-- hang the emptied page `g` under entry `i` of page `t` -/
def hang (F : Format E) (m : Store E) (t i g : ℕ) : Store E := (m.fill g F.empty).put t i (F.link g)

theorem hang_fresh (h : g ≠ t) (j : ℕ) : hang F m t i g g j = F.empty := by
  rw [hang, Store.put_of_ne _ h, Store.fill_self]

theorem hang_self : hang F m t i g t i = F.link g := by simp [hang, Store.put_apply]

theorem hang_of_ne {t' j : ℕ} (hg : t' ≠ g) (h : t' = t → j ≠ i) : hang F m t i g t' j = m t' j := by
  rw [hang, Store.put_apply, if_neg fun hc => h hc.1 hc.2, Store.fill_of_ne _ hg]

theorem hang_other {t' : ℕ} (hg : t' ≠ g) (ht : t' ≠ t) : hang F m t i g t' = m t' := by
  funext j; exact hang_of_ne hg fun h => absurd h ht

variable (hT : Tree F depth window m root) (hp : Valid depth window (i :: p)) (ht : tableAt F m root p = some t)
  (habs : F.present (m t i) = false) (hfresh : g ∉ tables F depth window m root) (hfits : F.Fits g)

include hT hp ht habs hfresh hfits

theorem tableAt_hang {q : List ℕ} (hq : Valid depth window q) :
    tableAt F (hang F m t i g) root q = if q = i :: p then some g else tableAt F m root q := by
  have hgt : g ≠ t := fun e => hfresh (e ▸ mem_tables hp.tail ht)
  have hnone : tableAt F m root (i :: p) = none := by
    rw [tableAt, ht, Option.bind_some, follow_of_absent habs]
  induction q with
  | nil => rw [if_neg (by simp)]; rfl
  | cons j q ih =>
    rw [tableAt, ih hq.tail]
    by_cases hqp : q = i :: p
    · -- below the new page nothing is present, and nothing was reached before
      rw [if_pos hqp, Option.bind_some, hang_fresh hgt, follow_empty, if_neg, tableAt, hqp, hnone]
      · rfl
      · intro e
        have := congrArg List.length (List.cons.inj e).2
        rw [hqp] at this; simp at this
    rw [if_neg hqp, tableAt]
    cases hu : tableAt F m root q with
    | none =>
      rw [if_neg]
      · rfl
      · intro e; rw [(List.cons.inj e).2, ht] at hu; simp at hu
    | some u =>
      have hug : u ≠ g := fun e => hfresh (e ▸ mem_tables hq.tail hu)
      rw [Option.bind_some, Option.bind_some]
      by_cases hself : u = t ∧ j = i
      · have hpq : q = p := hT.inj q p t hq.tail hp.tail (hself.1 ▸ hu) ht
        rw [hself.1, hself.2, hpq, if_pos rfl, hang_self, follow_link hfits]
      · rw [hang_of_ne hug fun e ej => hself ⟨e, ej⟩, if_neg]
        intro e
        obtain ⟨e1, e2⟩ := List.cons.inj e
        rw [e2, ht] at hu
        exact hself ⟨(Option.some.inj hu).symm, e1⟩

theorem Tree.link : Tree F depth window (hang F m t i g) root := by
  have hgt : g ≠ t := fun e => hfresh (e ▸ mem_tables hp.tail ht)
  have hat := fun q hq => tableAt_hang hT hp ht habs hfresh hfits (q := q) hq
  refine ⟨fun q r u hq hr h1 h2 => ?_, fun j q u hq hu hpres => ?_⟩
  · rw [hat q hq] at h1
    rw [hat r hr] at h2
    by_cases hqe : q = i :: p <;> by_cases hre : r = i :: p
    · rw [hqe, hre]
    · rw [if_pos hqe] at h1
      rw [if_neg hre] at h2
      exact absurd (mem_tables hr h2) (Option.some.inj h1 ▸ hfresh)
    · rw [if_neg hqe] at h1
      rw [if_pos hre] at h2
      exact absurd (mem_tables hq h1) (Option.some.inj h2 ▸ hfresh)
    · rw [if_neg hqe] at h1
      rw [if_neg hre] at h2
      exact hT.inj q r u hq hr h1 h2
  · rw [hat q hq.tail] at hu
    by_cases hqe : q = i :: p
    · rw [if_pos hqe] at hu
      rw [← Option.some.inj hu, hang_fresh hgt, F.present_empty] at hpres
      exact absurd hpres (by decide)
    · rw [if_neg hqe] at hu
      have hug : u ≠ g := fun e => hfresh (e ▸ mem_tables hq.tail hu)
      by_cases hself : u = t ∧ j = i
      · rw [hself.1, hself.2, hang_self]; exact F.huge_link g
      · rw [hang_of_ne hug fun e ej => hself ⟨e, ej⟩] at hpres ⊢
        exact hT.noHuge j q u hq hu hpres

theorem tables_hang : tables F depth window (hang F m t i g) root = insert g (tables F depth window m root) := by
  have hat := fun q hq => tableAt_hang hT hp ht habs hfresh hfits (q := q) hq
  ext u
  constructor
  · rintro ⟨q, hq, hu⟩
    rw [hat q hq] at hu
    split_ifs at hu with hqe
    · exact Or.inl (Option.some.inj hu).symm
    · exact Or.inr ⟨q, hq, hu⟩
  · rintro (rfl | ⟨q, hq, hu⟩)
    · exact ⟨i :: p, hp, by rw [hat _ hp, if_pos rfl]⟩
    · refine ⟨q, hq, ?_⟩
      rw [hat q hq, if_neg]
      · exact hu
      · rintro rfl
        rw [tableAt, ht, Option.bind_some, follow_of_absent habs] at hu
        simp at hu

theorem leaf_hang {q : List ℕ} (hq : Valid depth window q) (hlen : q.length = depth) (j : ℕ) :
    leaf F (hang F m t i g) root j q = leaf F m root j q := by
  have hgt : g ≠ t := fun e => hfresh (e ▸ mem_tables hp.tail ht)
  rw [leaf, leaf, tableAt_hang hT hp ht habs hfresh hfits hq]
  by_cases hqe : q = i :: p
  · have hnone : tableAt F m root q = none := by
      rw [hqe, tableAt, ht, Option.bind_some, follow_of_absent habs]
    rw [if_pos hqe, hnone]
    exact hang_fresh hgt j
  · rw [if_neg hqe]
    cases hu : tableAt F m root q with
    | none => rfl
    | some u =>
      have hug : u ≠ g := fun e => hfresh (e ▸ mem_tables hq hu)
      refine hang_of_ne hug fun e => ?_
      -- `t` is an upper page, `u` a last-level one
      have hqp := hT.inj q p t hq hp.tail (e ▸ hu) ht
      have := hp.room
      rw [← hqp] at this; omega

end Link

/-! ## Writing a leaf -/

section SetLeaf

variable {m : Store E} {root t i : ℕ} {p : List ℕ} {e : E}
variable (hT : Tree F depth window m root) (hp : Valid depth window p) (hlen : p.length = depth)
  (ht : tableAt F m root p = some t)

include hT hp hlen ht

theorem tableAt_setLeaf {q : List ℕ} (hq : Valid depth window q) :
    tableAt F (m.put t i e) root q = tableAt F m root q := by
  induction q with
  | nil => rfl
  | cons j q ih =>
    rw [tableAt, tableAt, ih hq.tail]
    cases hu : tableAt F m root q with
    | none => rfl
    | some u =>
      have hne : u ≠ t := by
        rintro rfl
        have hqp := hT.inj q p u hq.tail hp hu ht
        have := hq.room
        rw [hqp] at this; omega
      rw [Option.bind_some, Option.bind_some, Store.put_of_ne _ hne]

theorem Tree.setLeaf : Tree F depth window (m.put t i e) root := by
  have hat := fun q hq => tableAt_setLeaf (i := i) (e := e) hT hp hlen ht (q := q) hq
  refine ⟨fun q r u hq hr h1 h2 => ?_, fun j q u hq hu hpres => ?_⟩
  · rw [hat q hq] at h1
    rw [hat r hr] at h2
    exact hT.inj q r u hq hr h1 h2
  · rw [hat q hq.tail] at hu
    have hne : u ≠ t := by
      rintro rfl
      have hqp := hT.inj q p u hq.tail hp hu ht
      have := hq.room
      rw [hqp] at this; omega
    rw [Store.put_of_ne _ hne] at hpres ⊢
    exact hT.noHuge j q u hq hu hpres

theorem tables_setLeaf : tables F depth window (m.put t i e) root = tables F depth window m root := by
  ext u
  exact exists_congr fun q => and_congr_right fun hq => by rw [tableAt_setLeaf hT hp hlen ht hq]

theorem leaf_setLeaf {q : List ℕ} (hq : Valid depth window q) (j : ℕ) :
    leaf F (m.put t i e) root j q = if j = i ∧ q = p then e else leaf F m root j q := by
  rw [leaf, leaf, tableAt_setLeaf hT hp hlen ht hq]
  cases hu : tableAt F m root q with
  | none =>
    rw [if_neg]
    rintro ⟨_, rfl⟩
    rw [ht] at hu; simp at hu
  | some u =>
    show m.put t i e u j = if j = i ∧ q = p then e else m u j
    rw [Store.put_apply]
    by_cases hself : u = t ∧ j = i
    · rw [if_pos hself, if_pos ⟨hself.2, hT.inj q p t hq hp (hself.1 ▸ hu) ht⟩]
    · rw [if_neg hself, if_neg]
      rintro ⟨rfl, rfl⟩
      rw [ht] at hu
      exact hself ⟨(Option.some.inj hu).symm, rfl⟩

end SetLeaf

/-! ## Walking by page number -/

/-- the table indices of page number `v`, innermost first: its base-512 digits above the last -/
def path : ℕ → ℕ → List ℕ
  | 0, _ => []
  | d + 1, v => v / 512 % 512 :: path d (v / 512)

@[simp] theorem length_path (d v : ℕ) : (path d v).length = d := by
  induction d generalizing v with
  | zero => rfl
  | succ d ih => rw [path, List.length_cons, ih]

/-- page numbers of `d + 1` digits are told apart by last digit and path -/
theorem path_inj {d v w : ℕ} (hv : v < 512 ^ (d + 1)) (hw : w < 512 ^ (d + 1)) (hlast : v % 512 = w % 512)
    (hpath : path d v = path d w) : v = w := by
  induction d generalizing v w with
  | zero => simp only [Nat.zero_add, pow_one] at hv hw; omega
  | succ d ih =>
    obtain ⟨h1, h2⟩ := List.cons.inj hpath
    have hv' : v / 512 < 512 ^ (d + 1) := Nat.div_lt_of_lt_mul (by rw [pow_succ] at hv; linarith)
    have hw' : w / 512 < 512 ^ (d + 1) := Nat.div_lt_of_lt_mul (by rw [pow_succ] at hw; linarith)
    have := ih hv' hw' h1 h2
    omega

/-- the root index of page number `v` -/
theorem getLast?_path {d v i : ℕ} (h : (path d v).getLast? = some i) : i = v / 512 ^ d % 512 := by
  induction d generalizing v with
  | zero => simp [path] at h
  | succ d ih =>
    cases d with
    | zero =>
      simp only [path, List.getLast?_singleton, Option.some.injEq] at h
      simpa using h.symm
    | succ d =>
      rw [path, path, List.getLast?_cons_cons, ← path] at h
      rw [ih h, Nat.div_div_eq_div_mul, ← pow_succ']

theorem valid_path (v : ℕ) (hw : window (v / 512 ^ depth % 512)) : Valid depth window (path depth v) := by
  refine ⟨by rw [length_path], fun i hi => ?_, fun i hi => by rw [getLast?_path hi]; exact hw⟩
  clear hw
  induction depth generalizing v with
  | zero => simp [path] at hi
  | succ d ih =>
    rcases List.mem_cons.1 hi with rfl | hi
    · exact Nat.mod_lt _ (by decide)
    · exact ih _ hi

/-- the indices a walk for page number `v` has used when it arrives at level `l` -/
def outer (depth v l : ℕ) : List ℕ := path (depth - l) (v / 512 ^ l)

@[simp] theorem outer_zero (depth v : ℕ) : outer depth v 0 = path depth v := by simp [outer]

@[simp] theorem outer_top (depth v : ℕ) : outer depth v depth = [] := by simp [outer, path]

/-- going down one level uses one more index -/
theorem outer_step {l : ℕ} (hl : l < depth) (v : ℕ) :
    outer depth v l = v / 512 ^ (l + 1) % 512 :: outer depth v (l + 1) := by
  obtain ⟨k, hk⟩ : ∃ k, depth - l = k + 1 := ⟨depth - l - 1, by omega⟩
  have hk' : depth - (l + 1) = k := by omega
  rw [outer, outer, hk, path, hk', Nat.div_div_eq_div_mul, ← pow_succ]

theorem length_outer (depth v l : ℕ) : (outer depth v l).length = depth - l := length_path _ _

theorem valid_outer {v l : ℕ} (hw : window (v / 512 ^ depth % 512)) (hl : l ≤ depth) :
    Valid depth window (outer depth v l) := by
  refine ⟨by rw [length_outer]; omega, fun i hi => ?_, fun i hi => ?_⟩
  · have : Valid (depth - l) (fun _ => True) (path (depth - l) (v / 512 ^ l)) := valid_path _ trivial
    exact this.bounded i hi
  · rw [getLast?_path hi, Nat.div_div_eq_div_mul, ← pow_add, Nat.add_sub_cancel' hl]; exact hw

/-- below a missing page nothing is reached -/
theorem tableAt_outer_none {m : Store E} {root v l : ℕ} (hl : l ≤ depth)
    (h : tableAt F m root (outer depth v l) = none) : tableAt F m root (path depth v) = none := by
  induction l with
  | zero => rwa [outer_zero] at h
  | succ l ih => exact ih (by omega) (by rw [outer_step (by omega), tableAt, h]; rfl)

variable (F)

/-- follow the links for page number `v` from page `t` at level `l` down to the last level -/
def reach (m : Store E) (v : ℕ) : ℕ → ℕ → Option ℕ
  | 0, t => some t
  | l + 1, t => (follow F (m t (v / 512 ^ (l + 1) % 512))).bind (reach m v l)

/-- the hardware walk for page number `v`, from page `t` at level `l`: the level and entry it stops at -/
def walk (m : Store E) (v : ℕ) : ℕ → ℕ → Option (ℕ × E)
  | 0, t =>
    let e := m t (v % 512)
    if F.present e = true ∧ F.isLeaf e = true then some (0, e) else none
  | l + 1, t =>
    let e := m t (v / 512 ^ (l + 1) % 512)
    if F.present e = false then none
    else if F.huge e = true then some (l + 1, e)
    else walk m v l (F.addr e)

variable {F}

/-- following the links is looking the path up -/
theorem reach_of_tableAt {m : Store E} {root v l : ℕ} (hl : l ≤ depth) {t : ℕ}
    (ht : tableAt F m root (outer depth v l) = some t) : reach F m v l t = tableAt F m root (path depth v) := by
  induction l generalizing t with
  | zero => rw [outer_zero] at ht; rw [reach, ht]
  | succ l ih =>
    have hstep : tableAt F m root (outer depth v l) = follow F (m t (v / 512 ^ (l + 1) % 512)) := by
      rw [outer_step (by omega), tableAt, ht, Option.bind_some]
    rw [reach]
    cases hf : follow F (m t (v / 512 ^ (l + 1) % 512)) with
    | none => rw [hf] at hstep; rw [tableAt_outer_none (by omega) hstep]; rfl
    | some u => rw [hf] at hstep; exact ih (by omega) hstep

/-- the walk, level by level, follows the tree's own paths -/
theorem walk_of_tableAt {m : Store E} {root v : ℕ} (hT : Tree F depth window m root)
    (hw : window (v / 512 ^ depth % 512)) (l : ℕ) (hl : l ≤ depth) {t : ℕ}
    (ht : tableAt F m root (outer depth v l) = some t) :
    walk F m v l t =
      if F.present (leaf F m root (v % 512) (path depth v)) = true ∧
          F.isLeaf (leaf F m root (v % 512) (path depth v)) = true
      then some (0, leaf F m root (v % 512) (path depth v)) else none := by
  induction l generalizing t with
  | zero => rw [outer_zero] at ht; rw [walk, leaf_of_some ht]
  | succ l ih =>
    have hv := valid_outer (l := l) hw (by omega)
    rw [outer_step (by omega)] at hv
    have hstep : tableAt F m root (outer depth v l) = follow F (m t (v / 512 ^ (l + 1) % 512)) := by
      rw [outer_step (by omega), tableAt, ht, Option.bind_some]
    rw [walk]
    cases hpres : F.present (m t (v / 512 ^ (l + 1) % 512)) with
    | false =>
      -- an absent link: the leaf below it is empty
      rw [follow_of_absent hpres] at hstep
      rw [leaf_of_none (tableAt_outer_none (by omega) hstep), F.present_empty]
      simp
    | true =>
      have hhuge := hT.noHuge _ _ _ hv ht hpres
      rw [follow, if_pos ⟨hpres, hhuge⟩] at hstep
      simp only [hhuge, Bool.true_eq_false, Bool.false_eq_true, if_false]
      exact ih (by omega) hstep

/-- **Inside the window the hardware walk reads the leaf.** -/
theorem walk_eq_leaf {m : Store E} {root v : ℕ} (hT : Tree F depth window m root)
    (hw : window (v / 512 ^ depth % 512)) :
    walk F m v depth root =
      if F.present (leaf F m root (v % 512) (path depth v)) = true ∧
          F.isLeaf (leaf F m root (v % 512) (path depth v)) = true
      then some (0, leaf F m root (v % 512) (path depth v)) else none :=
  walk_of_tableAt hT hw depth le_rfl (by rw [outer_top]; rfl)

/-- a walk that enters through the window reads pages of the tree only -/
theorem walk_congr {m m' : Store E} {root v : ℕ} (h : ∀ t ∈ tables F depth window m root, m' t = m t)
    (hw : window (v / 512 ^ depth % 512)) : walk F m' v depth root = walk F m v depth root := by
  have key : ∀ l ≤ depth, ∀ t, tableAt F m root (outer depth v l) = some t → walk F m' v l t = walk F m v l t := by
    intro l
    induction l with
    | zero =>
      intro hl t ht
      have hmem := mem_tables (valid_outer hw hl) ht
      rw [walk, walk, h t hmem]
    | succ l ih =>
      intro hl t ht
      have hmem := mem_tables (valid_outer hw hl) ht
      rw [walk, walk, h t hmem]
      split_ifs with h1 h2
      · rfl
      · rfl
      · refine ih (by omega) _ ?_
        rw [outer_step (by omega), tableAt, ht, Option.bind_some, follow, if_pos]
        exact ⟨by simpa using h1, by simpa using h2⟩
  exact key depth le_rfl root (by rw [outer_top]; rfl)

/-- the walk leaves the first page by one entry -/
theorem walk_enter {m : Store E} {v l t t' : ℕ} (h : m t (v / 512 ^ (l + 1) % 512) = m t' (v / 512 ^ (l + 1) % 512)) :
    walk F m v (l + 1) t = walk F m v (l + 1) t' := by
  rw [walk, walk, h]

/-- the walk uses nine bits of the page number at each level -/
theorem walk_low {m : Store E} {v w l t : ℕ} (h : ∀ k ≤ l, v / 512 ^ k % 512 = w / 512 ^ k % 512) :
    walk F m v l t = walk F m w l t := by
  induction l generalizing t with
  | zero =>
    have h0 := h 0 le_rfl
    rw [pow_zero, Nat.div_one, Nat.div_one] at h0
    rw [walk, walk, h0]
  | succ l ih =>
    rw [walk, walk, h (l + 1) le_rfl]
    rw [ih fun k hk => h k (by omega)]

/-! ## A new root -/

variable (F depth) in
/-- an emptied page is a tree by itself -/
theorem Tree.fresh {m : Store E} {root : ℕ} (h : ∀ i, window i → F.present (m root i) = false) :
    Tree F depth window m root ∧ tables F depth window m root = {root} := by
  have hat : ∀ p t, Valid depth window p → tableAt F m root p = some t → p = [] := by
    intro p
    induction p with
    | nil => intros; rfl
    | cons i p ih =>
      intro t hp ht
      rw [tableAt] at ht
      obtain ⟨u, hu, hfol⟩ := Option.bind_eq_some_iff.1 ht
      obtain rfl := ih u hp.tail hu
      obtain rfl := Option.some.inj hu
      rw [follow_of_absent (h i (hp.enters i rfl))] at hfol
      simp at hfol
  refine ⟨⟨fun p q t hp hq h1 h2 => by rw [hat p t hp h1, hat q t hq h2], fun i p t hp ht hpres => ?_⟩, ?_⟩
  · obtain rfl := hat p t hp.tail ht
    obtain rfl := Option.some.inj ht
    rw [h i (hp.enters i rfl)] at hpres
    exact absurd hpres (by decide)
  · ext t
    constructor
    · rintro ⟨p, hp, ht⟩
      obtain rfl := hat p t hp ht
      exact (Option.some.inj ht).symm
    · rintro rfl
      exact root_mem_tables m t

theorem leaf_fresh {m : Store E} {root : ℕ} (hd : 0 < depth) (h : ∀ i, window i → F.present (m root i) = false)
    {q : List ℕ} (hq : Valid depth window q) (hlen : q.length = depth) (j : ℕ) : leaf F m root j q = F.empty := by
  cases ht : tableAt F m root q with
  | none => exact leaf_of_none ht
  | some t =>
    obtain ⟨hT, htab⟩ := Tree.fresh F depth h
    have hmem := mem_tables hq ht
    rw [htab, Set.mem_singleton_iff] at hmem
    have := hT.inj q [] root hq (Valid.nil _ _) (hmem ▸ ht) rfl
    rw [this] at hlen; simp at hlen; omega

end Rustproof.Lib.RadixTree
