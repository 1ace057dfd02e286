/-
What the page-table operations do to a process's space.

A `Supply` is what the callers of page-table code promise about the allocator: it hands out fresh frames, and the memory it
touches is its own. A space is well built over a supply when its pages form a tree that has no page the supply may still
hand out (`Built`). `Within r r'` says where an operation on a well-built space may come to, and `Grown r r'` that every
allocation on the way was made there.
- `descend_spec`: making the missing tables moves no leaf.
- `map_spec`: `map` either sets the leaf of its own page, which was absent, or moves no leaf.
- `unmap_spec`: `unmap` clears the leaf of its own page.
- `create_spec`: a new root with the kernel's entries is a well-built space without leaves.
- `translate_eq`: the walk reads the leaf.
-/
import Rustproof.Vspace.AddressSpace

namespace Rustproof.Vspace

open Lib RadixTree Mm FrameAllocator

variable {U : Mmu} {α : Type} [FrameAllocator α] {root : ℕ}

/-- an allocator of fresh frames; `free r` is what it may still hand out -/
structure Supply (U : Mmu) (α : Type) [FrameAllocator α] where
  Ok : α → Prop
  free : α → Set ℕ
  fits : ∀ r g, Ok r → g ∈ free r → U.fmt.Fits g
  ok_alloc : ∀ r, Ok r → Ok (allocFrame r).2
  ok_write : ∀ r m, Ok r → Ok (setMem r m)
  free_alloc : ∀ r, Ok r → free (allocFrame r).2 ⊆ free r
  free_write : ∀ r m, Ok r → free (setMem r m) = free r
  fresh : ∀ r g, Ok r → (allocFrame r).1 = some g → g ∈ free r ∧ g ∉ free (allocFrame r).2
  mem_alloc : ∀ r t, Ok r → t ∉ free r → mem (allocFrame r).2 t = mem r t

variable {P : Supply U α}

/-- the space under `root` is a tree, of pages the supply has given up -/
structure Built (P : Supply U α) (root : ℕ) (r : α) : Prop where
  ok : P.Ok r
  tree : U.Tree (mem r) root
  apart : ∀ t ∈ U.tables (mem r) root, t ∉ P.free r

/-- where an operation on the space under `root` may move the allocator and its memory -/
structure Within (P : Supply U α) (root : ℕ) (r r' : α) : Prop where
  built : Built P root r'
  tables : ∀ t ∈ U.tables (mem r') root, t ∈ U.tables (mem r) root ∨ t ∈ P.free r ∧ t ∉ P.free r'
  free : P.free r' ⊆ P.free r
  off : ∀ t, t ∉ U.tables (mem r) root → t ∉ P.free r → mem r' t = mem r t
  links : ∀ p t, Valid U.depth U.window p → tableAt U.fmt (mem r) root p = some t →
    tableAt U.fmt (mem r') root p = some t
  /-- the root's entries outside the window stay -/
  shared : ∀ i, ¬ U.window i → mem r' root i = mem r root i

theorem Within.refl {r : α} (h : Built P root r) : Within P root r r :=
  ⟨h, fun _ ht => Or.inl ht, fun _ hg => hg, fun _ _ _ => rfl, fun _ _ _ ht => ht, fun _ _ => rfl⟩

theorem Within.trans {r r' r'' : α} (h : Within P root r r') (h' : Within P root r' r'') : Within P root r r'' := by
  refine ⟨h'.built, fun t ht => ?_, fun g hg => h.free (h'.free hg), fun t ht hf => ?_,
    fun p t hp ht => h'.links p t hp (h.links p t hp ht), fun i hi => (h'.shared i hi).trans (h.shared i hi)⟩
  · rcases h'.tables t ht with ht | ⟨hf, hn⟩
    · rcases h.tables t ht with ht | ⟨hf, hn⟩
      · exact Or.inl ht
      · exact Or.inr ⟨hf, fun hc => hn (h'.free hc)⟩
    · exact Or.inr ⟨h.free hf, hn⟩
  · rw [h'.off t (fun hc => (h.tables t hc).elim ht fun hc => hf hc.1) fun hc => hf (h.free hc), h.off t ht hf]

/-- an operation on the space under `root`: what its allocations keep as long as the space is well built, and its stores
keep, it keeps -/
structure Grown (P : Supply U α) (root : ℕ) (r r' : α) : Prop extends Within P root r r' where
  log : ∀ T : α → Prop, (∀ u, Within P root r u → T u → T (allocFrame u).2) → (∀ u m, T u → T (setMem u m)) → T r → T r'

theorem Grown.refl {r : α} (h : Built P root r) : Grown P root r r := ⟨Within.refl h, fun _ _ _ hT => hT⟩

theorem Grown.trans {r r' r'' : α} (h : Grown P root r r') (h' : Grown P root r' r'') : Grown P root r r'' :=
  ⟨h.toWithin.trans h'.toWithin, fun T ha hw hT =>
    h'.log T (fun u hu => ha u (h.toWithin.trans hu)) hw (h.log T ha hw hT)⟩

/-- the root is on no longer path -/
theorem Built.root_path {r : α} (h : Built P root r) {p : List ℕ} (hp : Valid U.depth U.window p)
    (ht : tableAt U.fmt (mem r) root p = some root) : p = [] := h.tree.inj p [] root hp (Valid.nil _ _) ht rfl

/-- a machine that differs off the tree is as well built -/
theorem leaf_congr {m m' : Mem} (h : ∀ t ∈ U.tables m root, m' t = m t) {v : ℕ} (hv : U.Own v) :
    U.leaf m' root v = U.leaf m root v := RadixTree.leaf_congr h (U.valid_path hv) _

/-! ## Making tables -/

/-- allocating moves no leaf -/
theorem grown_alloc {r : α} (h : Built P root r) :
    Grown P root r (allocFrame r).2 ∧ U.tables (mem (allocFrame r).2) root = U.tables (mem r) root ∧
      ∀ v, U.Own v → U.leaf (mem (allocFrame r).2) root v = U.leaf (mem r) root v := by
  have hsame : ∀ t ∈ U.tables (mem r) root, mem (allocFrame r).2 t = mem r t :=
    fun t ht => P.mem_alloc r t h.ok (h.apart t ht)
  have htab : U.tables (mem (allocFrame r).2) root = U.tables (mem r) root := tables_congr hsame
  refine ⟨⟨⟨⟨P.ok_alloc r h.ok, h.tree.congr hsame, fun t ht hc => ?_⟩, fun t ht => Or.inl (htab ▸ ht),
    P.free_alloc r h.ok, fun t _ hf => P.mem_alloc r t h.ok hf,
    fun p t hp ht => (tableAt_congr hsame hp).trans ht, fun i _ => by rw [hsame root (root_mem_tables _ _)]⟩,
    fun _ ha _ hT => ha r (Within.refl h) hT⟩, htab, fun v hv => leaf_congr hsame hv⟩
  exact h.apart t (htab ▸ ht) (P.free_alloc r h.ok hc)

section Link

variable {r : α} {g t i : ℕ} {p : List ℕ}

/-- a fresh frame hung under an absent entry of the tree -/
theorem grown_link (h : Built P root r) (hp : (allocFrame r).1 = some g)
    (hv : Valid U.depth U.window (i :: p)) (ht : tableAt U.fmt (mem r) root p = some t)
    (habs : U.fmt.present (mem r t i) = false) :
    let m := hang U.fmt (mem (allocFrame r).2) t i g
    Grown P root r (setMem (allocFrame r).2 m) ∧
      (∀ v, U.Own v → U.leaf m root v = U.leaf (mem r) root v) ∧ tableAt U.fmt m root (i :: p) = some g := by
  intro m
  obtain ⟨hgrown, htab, hleaf⟩ := grown_alloc h
  obtain ⟨hg, hgone⟩ := P.fresh r g h.ok hp
  set r' := (allocFrame r).2
  -- the machine after the allocation is the one the link is made in
  have hsame : ∀ u ∈ U.tables (mem r) root, mem r' u = mem r u := fun u hu => P.mem_alloc r u h.ok (h.apart u hu)
  have ht' : tableAt U.fmt (mem r') root p = some t := by rw [tableAt_congr hsame hv.tail]; exact ht
  have htmem : t ∈ U.tables (mem r) root := mem_tables hv.tail ht
  have habs' : U.fmt.present (mem r' t i) = false := by rw [hsame t htmem]; exact habs
  have hgfresh' : g ∉ U.tables (mem r') root := by rw [htab]; exact fun hc => h.apart g hc hg
  have hfits := P.fits r g h.ok hg
  have htab' : U.tables m root = insert g (U.tables (mem r') root) :=
    tables_hang hgrown.built.tree hv ht' habs' hgfresh' hfits
  have hfree : P.free (setMem r' m) = P.free r' := P.free_write r' m hgrown.built.ok
  refine ⟨⟨⟨⟨P.ok_write r' m hgrown.built.ok, ?_, fun u hu => ?_⟩, fun u hu => ?_, ?_, fun u hu hf => ?_,
    fun q u hq hu => ?_, fun j hj => ?_⟩, fun _ ha hw hT => hw _ _ (ha r (Within.refl h) hT)⟩, fun v hvv => ?_, ?_⟩
  · rw [mem_setMem]; exact Tree.link hgrown.built.tree hv ht' habs' hgfresh' hfits
  · rw [mem_setMem, htab', htab] at hu
    rw [hfree]
    rcases hu with rfl | hu
    · exact hgone
    · exact fun hc => h.apart u hu (hgrown.free hc)
  · rw [mem_setMem, htab', htab] at hu
    rw [hfree]
    rcases hu with rfl | hu
    · exact Or.inr ⟨hg, hgone⟩
    · exact Or.inl hu
  · rw [hfree]; exact hgrown.free
  · have hug : u ≠ g := fun e => hf (e ▸ hg)
    have hut : u ≠ t := fun e => hu (e ▸ htmem)
    rw [mem_setMem]
    exact (hang_other hug hut).trans (hgrown.off u hu hf)
  · -- the new link's path led nowhere before
    have hne : q ≠ i :: p := by
      rintro rfl
      rw [tableAt, ht, Option.bind_some, follow_of_absent habs] at hu
      simp at hu
    rw [mem_setMem, tableAt_hang hgrown.built.tree hv ht' habs' hgfresh' hfits hq, if_neg hne]
    exact hgrown.links q u hq hu
  · rw [mem_setMem, ← hgrown.shared j hj]
    refine hang_of_ne (fun e => h.apart root (root_mem_tables _ _) (e ▸ hg)) fun e hji => hj ?_
    -- an entry of the root itself is one of the window
    obtain rfl := h.root_path hv.tail (e ▸ ht)
    exact hji ▸ hv.enters i rfl
  · rw [Mmu.leaf, leaf_hang hgrown.built.tree hv ht' habs' hgfresh' hfits (U.valid_path hvv) (length_path _ _)]
    exact hleaf v hvv
  · rw [tableAt_hang hgrown.built.tree hv ht' habs' hgfresh' hfits hv, if_pos rfl]

end Link

/-- **Making the missing tables moves no leaf**, and arrives at the last-level page. -/
theorem descend_spec {v : ℕ} (hv : U.Own v) {l : ℕ} (hl : l ≤ U.depth) {t : ℕ} {r : α}
    (h : Built P root r) (ht : tableAt U.fmt (mem r) root (outer U.depth v l) = some t) :
    Grown P root r (descend U v l t r).2 ∧
      (∀ v', U.Own v' → U.leaf (mem (descend U v l t r).2) root v' = U.leaf (mem r) root v') ∧
      match (descend U v l t r).1 with
      | .ok u => tableAt U.fmt (mem (descend U v l t r).2) root (path U.depth v) = some u
      | .error e => e = .outOfFrames ∧ tableAt U.fmt (mem r) root (path U.depth v) = none := by
  induction l generalizing t r with
  | zero =>
    rw [outer_zero] at ht
    exact ⟨Grown.refl h, fun _ _ => rfl, ht⟩
  | succ l ih =>
    have hvalid : Valid U.depth U.window (outer U.depth v l) := valid_outer (U.window_path hv) (by omega)
    rw [outer_step (by omega)] at hvalid
    have hnext : ∀ m : Mem, tableAt U.fmt m root (outer U.depth v l) =
        tableAt U.fmt m root (v / 512 ^ (l + 1) % 512 :: outer U.depth v (l + 1)) := fun m => by
      rw [outer_step (by omega)]
    rw [descend]
    cases hpres : U.fmt.present (mem r t (v / 512 ^ (l + 1) % 512)) with
    | true =>
      have hhuge := h.tree.noHuge _ _ _ hvalid ht hpres
      simp only [hhuge, if_true, Bool.false_eq_true, if_false]
      refine ih (by omega) h ?_
      rw [hnext, tableAt, ht, Option.bind_some, follow, if_pos ⟨hpres, hhuge⟩]
    | false =>
      simp only [Bool.false_eq_true, if_false]
      -- nothing is reached below an absent entry
      have hnone : tableAt U.fmt (mem r) root (path U.depth v) = none := tableAt_outer_none (l := l) (by omega) (by
        rw [hnext, tableAt, ht, Option.bind_some, follow_of_absent hpres])
      rcases halloc : allocFrame r with ⟨_ | g, r'⟩
      · obtain ⟨hgrown, -, hleaf⟩ := grown_alloc h
        rw [halloc] at hgrown hleaf
        exact ⟨hgrown, hleaf, rfl, hnone⟩
      · obtain ⟨hgrown, hleaf, hat⟩ := grown_link h (by rw [halloc]) hvalid ht hpres
        rw [halloc] at hgrown hleaf hat
        simp only
        obtain ⟨h1, h2, h3⟩ := ih (by omega) hgrown.built (by rw [hnext, mem_setMem]; exact hat)
        refine ⟨hgrown.trans h1, fun v' hv' => (h2 v' hv').trans ?_, ?_⟩
        · rw [mem_setMem]; exact hleaf v' hv'
        · revert h3
          cases (descend U v l g (setMem r' (hang U.fmt (mem r') t (v / 512 ^ (l + 1) % 512) g))).1 with
          | ok u => exact id
          | error e => exact fun h3 => ⟨h3.1, hnone⟩

/-! ## `map` -/

/-- writing the last-level entry of a page of the space -/
theorem built_setLeaf {r : α} (h : Built P root r) {v t : ℕ} (hv : U.Own v)
    (ht : tableAt U.fmt (mem r) root (path U.depth v) = some t) (e : Word) :
    let m := (mem r).put t (v % 512) e
    Built P root (setMem r m) ∧ U.tables m root = U.tables (mem r) root ∧ (∀ u, u ≠ t → m u = mem r u) ∧
      ∀ v', U.Own v' → U.leaf m root v' = if v' = v then e else U.leaf (mem r) root v' := by
  intro m
  have hp := U.valid_path hv
  have hlen := length_path U.depth v
  have htab : U.tables m root = U.tables (mem r) root := tables_setLeaf h.tree hp hlen ht
  refine ⟨⟨P.ok_write r m h.ok, ?_, fun u hu => ?_⟩, htab, fun u hu => Store.put_of_ne _ hu _ _, fun v' hv' => ?_⟩
  · rw [mem_setMem]; exact Tree.setLeaf h.tree hp hlen ht
  · rw [mem_setMem, htab] at hu
    rw [P.free_write r m h.ok]; exact h.apart u hu
  rw [Mmu.leaf, leaf_setLeaf h.tree hp hlen ht (U.valid_path hv')]
  by_cases hvv : v' = v
  · subst hvv; simp
  · rw [if_neg hvv, if_neg]
    · rfl
    · rintro ⟨h1, h2⟩
      exact hvv (path_inj hv'.1 hv.1 h1 h2)

/-- why `map` failed, read off the space and the arguments -/
def Refusal (U : Mmu) (m : Mem) (root va pa : ℕ) (flags : Word) : MapError → Prop
  | .unalignedVirt => va % PAGE_SIZE ≠ 0
  | .unalignedPhys => pa % PAGE_SIZE ≠ 0
  | .invalidLeafFlags => U.flagsOk flags = false
  | .alreadyMapped => U.fmt.present (U.leaf m root (va / PAGE_SIZE)) = true
  | .outOfFrames => tableAt U.fmt m root (path U.depth (va / PAGE_SIZE)) = none
  | .hugePagePresent => False

/-- **`map`** sets the leaf of its own page, which was absent, or moves no leaf. -/
theorem map_spec {va : ℕ} {r : α} (pa : ℕ) (flags : Word) (hv : U.Own (va / PAGE_SIZE)) (h : Built P root r) :
    Grown P root r (map U root va pa flags r).2 ∧
      match (map U root va pa flags r).1 with
      | .error e => Refusal U (mem r) root va pa flags e ∧
          ∀ v, U.Own v → U.leaf (mem (map U root va pa flags r).2) root v = U.leaf (mem r) root v
      | .ok _ => (va % PAGE_SIZE = 0 ∧ pa % PAGE_SIZE = 0 ∧ U.flagsOk flags = true) ∧
          U.fmt.present (U.leaf (mem r) root (va / PAGE_SIZE)) = false ∧
          ∀ v, U.Own v → U.leaf (mem (map U root va pa flags r).2) root v =
            if v = va / PAGE_SIZE then U.entry pa flags else U.leaf (mem r) root v := by
  rw [map]
  by_cases h1 : va % PAGE_SIZE ≠ 0
  · rw [if_pos h1]; exact ⟨Grown.refl h, h1, fun _ _ => rfl⟩
  by_cases h2 : pa % PAGE_SIZE ≠ 0
  · rw [if_neg h1, if_pos h2]; exact ⟨Grown.refl h, h2, fun _ _ => rfl⟩
  by_cases h3 : U.flagsOk flags = false
  · rw [if_neg h1, if_neg h2, if_pos h3]; exact ⟨Grown.refl h, h3, fun _ _ => rfl⟩
  rw [if_neg h1, if_neg h2, if_neg h3]
  obtain ⟨hgrown, hleaf, hat⟩ := descend_spec (t := root) hv le_rfl h (by rw [outer_top]; rfl)
  simp only
  rcases hd : descend U (va / PAGE_SIZE) U.depth root r with ⟨e | t, r'⟩
  · rw [hd] at hgrown hleaf hat
    obtain ⟨rfl, hnone⟩ := hat
    exact ⟨hgrown, hnone, hleaf⟩
  rw [hd] at hgrown hleaf hat
  have hold : U.leaf (mem r') root (va / PAGE_SIZE) = mem r' t (va / PAGE_SIZE % 512) := leaf_of_some hat
  simp only
  cases hpres : U.fmt.present (mem r' t (va / PAGE_SIZE % 512)) with
  | true =>
    rw [if_pos rfl]
    refine ⟨hgrown, ?_, hleaf⟩
    show U.fmt.present (U.leaf (mem r) root (va / PAGE_SIZE)) = true
    rw [← hleaf _ hv, hold]; exact hpres
  | false =>
    rw [if_neg (by decide)]
    obtain ⟨hbuilt, htab, hoff, hset⟩ := built_setLeaf hgrown.built hv hat (U.entry pa flags)
    refine ⟨⟨⟨hbuilt, fun u hu => ?_, ?_, fun u hu hf => ?_, fun p u hp hu => ?_, fun i hi => ?_⟩,
      fun T ha hw hT => hw _ _ (hgrown.log T ha hw hT)⟩,
      ⟨by simpa using h1, by simpa using h2, by simpa using h3⟩, ?_, fun v hvv => ?_⟩
    · rw [mem_setMem, htab] at hu
      rw [P.free_write _ _ hgrown.built.ok]
      exact hgrown.tables u hu
    · rw [P.free_write _ _ hgrown.built.ok]; exact hgrown.free
    · rw [mem_setMem]
      refine (hoff u fun e => ?_).trans (hgrown.off u hu hf)
      subst e
      exact (hgrown.tables u (mem_tables (U.valid_path hv) hat)).elim hu fun hc => hf hc.1
    · rw [mem_setMem, tableAt_setLeaf hgrown.built.tree (U.valid_path hv) (length_path _ _) hat hp]
      exact hgrown.links p u hp hu
    · rw [mem_setMem, hoff root fun e => ?_]
      · exact hgrown.shared i hi
      · -- the last-level page is not the root
        have hlen := congrArg List.length (hgrown.built.root_path (U.valid_path hv) (e ▸ hat))
        rw [length_path] at hlen
        exact absurd hlen U.depth_pos.ne'
    · rw [← hleaf _ hv, hold]; exact hpres
    · rw [mem_setMem, hset v hvv, hleaf v hvv]

/-- a page that was mapped can be mapped again: its tables are there -/
theorem map_ok {va pa : ℕ} {flags : Word} {r : α} (hv : U.Own (va / PAGE_SIZE)) (h : Built P root r)
    (hva : va % PAGE_SIZE = 0) (hpa : pa % PAGE_SIZE = 0) (hfl : U.flagsOk flags = true)
    (habs : U.fmt.present (U.leaf (mem r) root (va / PAGE_SIZE)) = false)
    (hreach : tableAt U.fmt (mem r) root (path U.depth (va / PAGE_SIZE)) ≠ none) :
    (map U root va pa flags r).1 = .ok () := by
  have hs := (map_spec pa flags hv h).2
  cases hm : (map U root va pa flags r).1 with
  | ok u => rfl
  | error e =>
    rw [hm] at hs
    have hr := hs.1
    cases e with
    | unalignedVirt => exact absurd hva hr
    | unalignedPhys => exact absurd hpa hr
    | outOfFrames => exact absurd hr hreach
    | alreadyMapped => exact absurd (hr.symm.trans habs) (by decide)
    | hugePagePresent => exact absurd hr id
    | invalidLeafFlags => exact absurd (hr.symm.trans hfl) (by decide)

/-- `map_page`: the leaf it sets carries the frame and the permissions asked for -/
theorem mapPage_spec {va : ℕ} (pa : ℕ) (perms : Perms) {r : α} (hv : U.Own (va / PAGE_SIZE)) (h : Built P root r) :
    Grown P root r (mapPage U root va pa perms r).2 ∧
      (match (mapPage U root va pa perms r).1 with
        | false => ∀ v, U.Own v → U.leaf (mem (mapPage U root va pa perms r).2) root v = U.leaf (mem r) root v
        | true => ∃ e, U.user e = perms.user ∧ U.writable e = perms.write ∧ pa % PAGE_SIZE = 0 ∧
            (pa < 2 ^ 52 → U.fmt.addr e = pa) ∧ U.fmt.present (U.leaf (mem r) root (va / PAGE_SIZE)) = false ∧
            ∀ v, U.Own v → U.leaf (mem (mapPage U root va pa perms r).2) root v =
              if v = va / PAGE_SIZE then e else U.leaf (mem r) root v) := by
  rw [mapPage]
  cases henc : U.encode perms with
  | none => exact ⟨Grown.refl h, fun _ _ => rfl⟩
  | some flags =>
    obtain ⟨hgrown, hres⟩ := map_spec pa flags hv h
    simp only
    rcases hm : map U root va pa flags r with ⟨e | u, r'⟩
    · rw [hm] at hgrown hres
      exact ⟨hgrown, hres.2⟩
    · rw [hm] at hgrown hres
      obtain ⟨⟨-, hal, -⟩, habs, hleaf⟩ := hres
      obtain ⟨huser, hwrite⟩ := (U.encode_spec perms flags henc).2 pa
      exact ⟨hgrown, U.entry pa flags, huser, hwrite, hal,
        fun hlt => U.entry_addr pa flags hal (lt_of_lt_of_le hlt U.physLimit_le), habs, hleaf⟩

/-! ## `unmap` -/

/-- **`unmap`** clears the leaf of its own page. -/
theorem unmap_spec {va : ℕ} {m : Mem} (hv : U.Own (va / PAGE_SIZE)) (hT : U.Tree m root) :
    U.Tree (unmap U m root va).2 root ∧ U.tables (unmap U m root va).2 root = U.tables m root ∧
      (∀ t, t ∉ U.tables m root → (unmap U m root va).2 t = m t) ∧
      (∀ v, U.Own v → v ≠ va / PAGE_SIZE → U.leaf (unmap U m root va).2 root v = U.leaf m root v) ∧
      U.fmt.present (U.leaf (unmap U m root va).2 root (va / PAGE_SIZE)) = false := by
  have hreach := reach_of_tableAt (F := U.fmt) (m := m) (v := va / PAGE_SIZE) (le_refl U.depth) (t := root)
    (by rw [outer_top]; rfl)
  rw [unmap]
  simp only
  rw [hreach]
  cases ht : tableAt U.fmt m root (path U.depth (va / PAGE_SIZE)) with
  | none =>
    refine ⟨hT, rfl, fun _ _ => rfl, fun _ _ _ => rfl, ?_⟩
    rw [Mmu.leaf, leaf_of_none ht]; exact U.fmt.present_empty
  | some t =>
    have hold : U.leaf m root (va / PAGE_SIZE) = m t (va / PAGE_SIZE % 512) := leaf_of_some ht
    have hp := U.valid_path hv
    have hlen := length_path U.depth (va / PAGE_SIZE)
    simp only
    cases hpres : U.fmt.present (m t (va / PAGE_SIZE % 512)) with
    | false =>
      rw [if_neg (by decide)]
      exact ⟨hT, rfl, fun _ _ => rfl, fun _ _ _ => rfl, by rw [hold]; exact hpres⟩
    | true =>
      rw [if_pos rfl]
      refine ⟨Tree.setLeaf hT hp hlen ht, tables_setLeaf hT hp hlen ht,
        fun u hu => Store.put_of_ne _ (fun e => hu (by rw [e]; exact mem_tables hp ht)) _ _, fun v hvv hne => ?_, ?_⟩
      · rw [Mmu.leaf, leaf_setLeaf hT hp hlen ht (U.valid_path hvv), if_neg]
        · rfl
        · rintro ⟨h1, h2⟩; exact hne (path_inj hvv.1 hv.1 h1 h2)
      · rw [Mmu.leaf, leaf_setLeaf hT hp hlen ht hp, if_pos ⟨rfl, rfl⟩]
        exact U.fmt.present_empty

/-- what `unmap` returns is the frame its page's leaf named; the tables stay -/
theorem unmap_frame {va : ℕ} {m : Mem} (hv : U.Own (va / PAGE_SIZE)) (hT : U.Tree m root) :
    (unmap U m root va).1 = (if U.fmt.present (U.leaf m root (va / PAGE_SIZE)) = true
      then some (U.fmt.addr (U.leaf m root (va / PAGE_SIZE))) else none) ∧
      ∀ p, Valid U.depth U.window p → tableAt U.fmt (unmap U m root va).2 root p = tableAt U.fmt m root p := by
  have hreach := reach_of_tableAt (F := U.fmt) (m := m) (v := va / PAGE_SIZE) (le_refl U.depth) (t := root)
    (by rw [outer_top]; rfl)
  rw [unmap]
  simp only
  rw [hreach]
  cases ht : tableAt U.fmt m root (path U.depth (va / PAGE_SIZE)) with
  | none =>
    have hold : U.leaf m root (va / PAGE_SIZE) = U.fmt.empty := leaf_of_none ht
    rw [hold, U.fmt.present_empty]
    exact ⟨rfl, fun _ _ => rfl⟩
  | some t =>
    have hold : U.leaf m root (va / PAGE_SIZE) = m t (va / PAGE_SIZE % 512) := leaf_of_some ht
    rw [hold]
    simp only
    split_ifs with hpres
    · exact ⟨rfl, fun p hp => tableAt_setLeaf hT (U.valid_path hv) (length_path _ _) ht hp⟩
    · exact ⟨rfl, fun _ _ => rfl⟩

/-- the root's entries outside the window are no leaf's -/
theorem unmap_shared {va : ℕ} {m : Mem} (hv : U.Own (va / PAGE_SIZE)) (hT : U.Tree m root) (i : ℕ) :
    (unmap U m root va).2 root i = m root i := by
  have hreach := reach_of_tableAt (F := U.fmt) (m := m) (v := va / PAGE_SIZE) (le_refl U.depth) (t := root)
    (by rw [outer_top]; rfl)
  rw [unmap]
  simp only
  rw [hreach]
  cases ht : tableAt U.fmt m root (path U.depth (va / PAGE_SIZE)) with
  | none => rfl
  | some t =>
    have hne : root ≠ t := fun e => by
      have hp := hT.inj _ [] root (U.valid_path hv) (Valid.nil _ _) (e ▸ ht) rfl
      have := congrArg List.length hp
      rw [length_path] at this
      exact absurd this U.depth_pos.ne'
    simp only
    split_ifs
    · exact congrFun (Store.put_of_ne _ hne _ _) i
    · rfl

/-- the leaves of the pages `S` were cleared, and nothing else of the space changed -/
structure Cleared (U : Mmu) (root : ℕ) (S : Set ℕ) (m m' : Mem) : Prop where
  tree : U.Tree m' root
  tables : U.tables m' root = U.tables m root
  off : ∀ t, t ∉ U.tables m root → m' t = m t
  links : ∀ p, Valid U.depth U.window p → tableAt U.fmt m' root p = tableAt U.fmt m root p
  shared : ∀ i, ¬ U.window i → m' root i = m root i
  keep : ∀ v, U.Own v → v ∉ S → U.leaf m' root v = U.leaf m root v
  gone : ∀ v, U.Own v → v ∈ S → U.fmt.present (U.leaf m' root v) = false

namespace Cleared

variable {S S' : Set ℕ} {m m' m'' : Mem}

theorem refl (hT : U.Tree m root) : Cleared U root ∅ m m :=
  ⟨hT, rfl, fun _ _ => rfl, fun _ _ => rfl, fun _ _ => rfl, fun _ _ _ => rfl, fun _ _ h => absurd h (Set.notMem_empty _)⟩

theorem trans (h : Cleared U root S m m') (h' : Cleared U root S' m' m'') : Cleared U root (S ∪ S') m m'' := by
  refine ⟨h'.tree, h'.tables.trans h.tables, fun t ht => ?_, fun p hp => (h'.links p hp).trans (h.links p hp),
    fun i hi => (h'.shared i hi).trans (h.shared i hi), fun v hv hn => ?_, fun v hv hs => ?_⟩
  · rw [h'.off t (by rw [h.tables]; exact ht), h.off t ht]
  · rw [h'.keep v hv fun hs => hn (Or.inr hs), h.keep v hv fun hs => hn (Or.inl hs)]
  · by_cases hs' : v ∈ S'
    · exact h'.gone v hv hs'
    · rw [h'.keep v hv hs']
      exact h.gone v hv (hs.resolve_right hs')

/-- a leaf that is there was there -/
theorem present (h : Cleared U root S m m') {v : ℕ} (hv : U.Own v) (hp : U.fmt.present (U.leaf m' root v) = true) :
    v ∉ S ∧ U.leaf m' root v = U.leaf m root v := by
  have hn : v ∉ S := fun hs => by
    rw [h.gone v hv hs] at hp
    exact absurd hp (by decide)
  exact ⟨hn, h.keep v hv hn⟩

/-- clearing leaves stays within the space -/
theorem within {r : α} (hb : Built P root r) (h : Cleared U root S (mem r) m') : Within P root r (setMem r m') := by
  have hfree : P.free (setMem r m') = P.free r := P.free_write r m' hb.ok
  refine ⟨⟨P.ok_write r m' hb.ok, ?_, fun t ht => ?_⟩, fun t ht => ?_, ?_, fun t ht _ => ?_, fun p t hp ht => ?_,
    fun i hi => ?_⟩
  · rw [mem_setMem]; exact h.tree
  · rw [mem_setMem, h.tables] at ht
    rw [hfree]; exact hb.apart t ht
  · rw [mem_setMem, h.tables] at ht
    exact Or.inl ht
  · rw [hfree]
  · rw [mem_setMem]; exact h.off t ht
  · rw [mem_setMem, h.links p hp]; exact ht
  · rw [mem_setMem]; exact h.shared i hi

theorem grown {r : α} (hb : Built P root r) (h : Cleared U root S (mem r) m') : Grown P root r (setMem r m') :=
  ⟨h.within hb, fun _ _ hw hT => hw _ _ hT⟩

end Cleared

theorem unmap_cleared {m : Mem} (va : ℕ) (hv : U.Own (va / PAGE_SIZE)) (hT : U.Tree m root) :
    Cleared U root {va / PAGE_SIZE} m (unmap U m root va).2 := by
  obtain ⟨h1, h2, h3, h4, h5⟩ := unmap_spec hv hT
  exact ⟨h1, h2, h3, (unmap_frame hv hT).2, fun i _ => unmap_shared hv hT i, fun v hvv hn => h4 v hvv hn, fun v _ hs => by
    rw [Set.mem_singleton_iff.1 hs]; exact h5⟩

/-! ## A new space -/

/-- `share_kernel` writes the kernel's entries of the root, and those only -/
theorem shareKernel_spec (m : Mem) {ktoken : ℕ} (hne : root ≠ U.root ktoken) :
    (∀ i < U.kernelEntries, shareKernel U m root ktoken root i = m (U.root ktoken) i) ∧
      (∀ i, U.kernelEntries ≤ i → shareKernel U m root ktoken root i = m root i) ∧
      ∀ t, t ≠ root → shareKernel U m root ktoken t = m t := by
  unfold shareKernel
  generalize U.kernelEntries = n
  induction n with
  | zero => exact ⟨fun i hi => absurd hi (Nat.not_lt_zero i), fun _ _ => rfl, fun _ _ => rfl⟩
  | succ n ih =>
    obtain ⟨h1, h2, h3⟩ := ih
    rw [List.range_succ, List.foldl_append, List.foldl_cons, List.foldl_nil]
    refine ⟨fun i hi => ?_, fun i hi => ?_, fun t ht => ?_⟩
    · by_cases hin : i = n
      · subst hin
        rw [Store.put_apply, if_pos ⟨rfl, rfl⟩, h3 _ (Ne.symm hne)]
      · rw [Store.put_apply, if_neg fun hc => hin hc.2]
        exact h1 i (by omega)
    · rw [Store.put_apply, if_neg (by omega)]
      exact h2 i (by omega)
    · rw [Store.put_of_ne _ ht, h3 t ht]

/-- **A fresh root** with the kernel's entries in it is a space without leaves; nothing that was not free has changed. -/
theorem create_spec {r r' : α} {ktoken : ℕ} (h : P.Ok r) (hc : create U r = (some root, r'))
    (hkroot : U.root ktoken ∉ P.free r) :
    let u := setMem r' (shareKernel U (mem r') root ktoken)
    Built P root u ∧ (root ∈ P.free r ∧ root ∉ P.free u ∧ P.free u ⊆ P.free r) ∧
      (U.tables (mem u) root = {root} ∧ ∀ v, U.Own v → U.fmt.present (U.leaf (mem u) root v) = false) ∧
      (∀ i < U.kernelEntries, mem u root i = mem r (U.root ktoken) i) ∧ ∀ t, t ∉ P.free r → mem u t = mem r t := by
  intro u
  rw [create] at hc
  rcases ha : allocFrame r with ⟨_ | g, r₁⟩
  · rw [ha] at hc; simp at hc
  rw [ha] at hc
  obtain ⟨hg, rfl⟩ := Prod.mk.inj hc
  obtain rfl := Option.some.inj hg
  obtain ⟨hfree, hgone⟩ := P.fresh r g h (by rw [ha])
  have hok₁ := P.ok_alloc r h
  have hsub := P.free_alloc r h
  have hoff := P.mem_alloc r
  rw [ha] at hok₁ hsub hoff hgone
  have hne : g ≠ U.root ktoken := fun e => hkroot (e ▸ hfree)
  have hmem : mem u = shareKernel U ((mem r₁).fill g U.fmt.empty) g ktoken := by
    show mem (setMem _ _) = _
    rw [mem_setMem, mem_setMem]
  obtain ⟨hk1, hk2, hk3⟩ := shareKernel_spec ((mem r₁).fill g U.fmt.empty) hne
  have hokfill := P.ok_write r₁ ((mem r₁).fill g U.fmt.empty) hok₁
  have hfreeU : P.free u = P.free r₁ := (P.free_write _ _ hokfill).trans (P.free_write _ _ hok₁)
  have hempty : ∀ i, U.window i → U.fmt.present (mem u g i) = false := by
    intro i hi
    rw [hmem, hk2 i hi, Store.fill_self]
    exact U.fmt.present_empty
  obtain ⟨hT, htab⟩ := Tree.fresh U.fmt U.depth hempty
  refine ⟨⟨P.ok_write _ _ hokfill, hT, fun t ht => ?_⟩, ⟨hfree, hfreeU ▸ hgone, hfreeU ▸ hsub⟩, ⟨htab, fun v hv => ?_⟩,
    fun i hi => ?_, fun t ht => ?_⟩
  · rw [Mmu.tables, htab] at ht
    obtain rfl := ht
    exact hfreeU ▸ hgone
  · rw [Mmu.leaf, leaf_fresh U.depth_pos hempty (U.valid_path hv) (length_path _ _)]
    exact U.fmt.present_empty
  · rw [hmem, hk1 i hi, Store.fill_of_ne _ (Ne.symm hne), hoff _ h hkroot]
  · have htne : t ≠ g := fun e => ht (e ▸ hfree)
    rw [hmem, hk3 t htne, Store.fill_of_ne _ htne, hoff t h ht]

/-! ## Reading -/

/-- an offset inside the page does not leave it -/
theorem pageAddr_base (a va : ℕ) : pageAddr (a / PAGE_SIZE * PAGE_SIZE + va % PAGE_SIZE) = pageAddr a := by
  simp only [pageAddr, PAGE_SIZE]; omega

theorem translate_eq {m : Mem} {va pa : ℕ} (hv : U.Own (va / PAGE_SIZE)) (hT : U.Tree m root)
    (h : translate U m root va = some pa) :
    U.fmt.present (U.leaf m root (va / PAGE_SIZE)) = true ∧ U.fmt.isLeaf (U.leaf m root (va / PAGE_SIZE)) = true ∧
      pageAddr pa = pageAddr (U.fmt.addr (U.leaf m root (va / PAGE_SIZE))) := by
  rw [translate, walk_eq_leaf hT (U.window_path hv)] at h
  split_ifs at h with hc
  · refine ⟨hc.1, hc.2, ?_⟩
    simp only [Option.map_some, pow_zero, one_mul, Option.some.injEq] at h
    rw [← h, Mmu.leaf]
    exact pageAddr_base _ _
  · simp at h

/-! ## Storing through a space -/

section Store

variable {A : Arch} {cr3 va : ℕ} {m : Mem}

/-- a store goes to the page the leaf names -/
theorem storeUser_off (hT : A.Tree m (A.root cr3)) (hv : A.Own (va / PAGE_SIZE)) (b : Byte) {t : ℕ}
    (ht : A.fmt.present (A.leaf m (A.root cr3) (va / PAGE_SIZE)) = true →
      t ≠ pageAddr (A.fmt.addr (A.leaf m (A.root cr3) (va / PAGE_SIZE)))) : storeUser A cr3 m va b t = m t := by
  rw [storeUser]
  cases htr : translate A.toMmu m (A.root cr3) va with
  | none => rfl
  | some pa =>
    obtain ⟨hp, -, hpage⟩ := translate_eq hv hT htr
    exact writeByte_of_ne m (by rw [hpage]; exact ht hp) b

/-- **The stores of a copy** stay in the pages its leaves name, if none of these is a page of the tree. -/
theorem storeUserBytes_off {S : Set ℕ} (bs : List Byte) (hT : A.Tree m (A.root cr3))
    (hS : ∀ t ∈ A.tables m (A.root cr3), t ∉ S)
    (hin : ∀ k < bs.length, A.Own ((va + k) / PAGE_SIZE) ∧
      (A.fmt.present (A.leaf m (A.root cr3) ((va + k) / PAGE_SIZE)) = true →
        pageAddr (A.fmt.addr (A.leaf m (A.root cr3) ((va + k) / PAGE_SIZE))) ∈ S)) :
    ∀ t, t ∉ S → storeUserBytes A cr3 m va bs t = m t := by
  induction bs generalizing m va with
  | nil => exact fun _ _ => rfl
  | cons b bs ih =>
    obtain ⟨hv, hp⟩ := hin 0 (by simp)
    rw [Nat.add_zero] at hv hp
    have hoff : ∀ t, t ∉ S → storeUser A cr3 m va b t = m t := fun t ht =>
      storeUser_off hT hv b fun hpres he => ht (by rw [he]; exact hp hpres)
    have hsame : ∀ t ∈ A.tables m (A.root cr3), storeUser A cr3 m va b t = m t := fun t ht => hoff t (hS t ht)
    have htab : A.tables (storeUser A cr3 m va b) (A.root cr3) = A.tables m (A.root cr3) := tables_congr hsame
    intro t ht
    rw [storeUserBytes, ih (hT.congr hsame) (by rw [htab]; exact hS) (fun k hk => ?_) t ht, hoff t ht]
    obtain ⟨hv', hp'⟩ := hin (k + 1) (by simpa using hk)
    rw [Nat.add_assoc, Nat.add_comm 1 k]
    refine ⟨hv', fun hpres => ?_⟩
    rw [leaf_congr hsame hv'] at hpres ⊢
    exact hp' hpres

/-- a checked range lies in the user window -/
theorem userPtrOk_own {n : ℕ} (h : userPtrOk A va n = true) {k : ℕ} (hk : k < n) : A.Own ((va + k) / PAGE_SIZE) := by
  simp only [userPtrOk, decide_eq_true_eq] at h
  exact A.user_own _ (by omega) (by omega)

end Store

end Rustproof.Vspace
