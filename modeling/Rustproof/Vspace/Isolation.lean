/-
Spaces that share the kernel (`create`, `share_kernel`, then `map_page` and `unmap_page` in any order).

A `World` is an allocator and the spaces made with it, each by its root. Every space has the kernel's root entries, so the trees
meet in the kernel's own page tables. `Spaces` is what keeps them apart: each is well built over the supply, no page is in two of
them, and the kernel's page tables are in none and are not free.

- `exec_spaces`: one operation keeps `Spaces`, and moves nothing of another space or of the kernel.
- `spaces_isolated`: so it is after any operations, and what a space shows outside the user window stays.
- `alias_translates`: the walk drops the upper bits of an address, so an address beyond them shows what the window shows.
-/
import Rustproof.Vspace.Refine

namespace Rustproof.Vspace

open Lib RadixTree FrameAllocator

/-! ## Walks -/

section Walks

variable {U : Mmu} {m m' : Mem} {a b va : ℕ}

/-- what the two readers say of an address -/
def SameReads (U : Mmu) (m m' : Mem) (a b va : ℕ) : Prop :=
  translate U m' b va = translate U m a va ∧ leafFlags U m' b va = leafFlags U m a va

theorem sameReads_of_walk (h : walk U.fmt m' (va / PAGE_SIZE) U.depth b = walk U.fmt m (va / PAGE_SIZE) U.depth a) :
    SameReads U m m' a b va := by
  unfold SameReads translate leafFlags
  rw [h]
  exact ⟨rfl, rfl⟩

/-- the page frames of the kernel's page tables, under every root entry -/
def kernelFrames (U : Mmu) (m : Mem) (kroot : ℕ) : Set ℕ := RadixTree.tables U.fmt U.depth (fun _ => True) m kroot

/-- below a root entry of the kernel the walk reads the kernel's page tables -/
theorem walk_shared {m₀ : Mem} {kroot v : ℕ} (hk : ∀ t ∈ kernelFrames U m₀ kroot, m t = m₀ t)
    (hroot : m a (v / 512 ^ U.depth % 512) = m₀ kroot (v / 512 ^ U.depth % 512)) :
    walk U.fmt m v U.depth a = walk U.fmt m₀ v U.depth kroot := by
  have hsame : walk U.fmt m v U.depth kroot = walk U.fmt m₀ v U.depth kroot := walk_congr hk trivial
  rw [← hsame]
  obtain ⟨d, hd⟩ := Nat.exists_eq_succ_of_ne_zero U.depth_pos.ne'
  rw [hd] at hroot ⊢
  refine walk_enter ?_
  rw [hroot, hk kroot (root_mem_tables _ _)]

/-- the page number a walk sees -/
def lowPage (U : Mmu) (v : ℕ) : ℕ := v % 512 ^ (U.depth + 1)

theorem lowPage_lt (v : ℕ) : lowPage U v < 512 ^ (U.depth + 1) := Nat.mod_lt _ (pow_pos (by decide) _)

theorem lowPage_digit {v k : ℕ} (hk : k ≤ U.depth) : lowPage U v / 512 ^ k % 512 = v / 512 ^ k % 512 := by
  unfold lowPage
  obtain ⟨j, hj⟩ : ∃ j, U.depth + 1 = k + (j + 1) := ⟨U.depth - k, by omega⟩
  rw [hj, pow_add, Nat.mod_mul_right_div_self, Nat.mod_mod_of_dvd]
  exact Dvd.intro_left (512 ^ j) (pow_succ 512 j).symm

theorem walk_lowPage (v : ℕ) : walk U.fmt m v U.depth a = walk U.fmt m (lowPage U v) U.depth a :=
  walk_low fun _ hk => (lowPage_digit hk).symm

theorem lowPage_top (v : ℕ) : lowPage U v / 512 ^ U.depth = v / 512 ^ U.depth % 512 := by
  rw [← lowPage_digit le_rfl, Nat.mod_eq_of_lt]
  have := lowPage_lt (U := U) v
  rw [pow_succ] at this
  exact Nat.div_lt_of_lt_mul this

/-- a page whose root entry is the space's own -/
theorem lowPage_own {v : ℕ} (h : U.window (v / 512 ^ U.depth % 512)) : U.Own (lowPage U v) :=
  ⟨lowPage_lt v, by rw [lowPage_top]; exact h⟩

/-- inside a tree whose leaf stays, the walk stays -/
theorem walk_leaf {v : ℕ} (hT : U.Tree m a) (hT' : U.Tree m' a) (hw : U.window (v / 512 ^ U.depth % 512))
    (hleaf : U.leaf m' a (lowPage U v) = U.leaf m a (lowPage U v)) :
    walk U.fmt m' v U.depth a = walk U.fmt m v U.depth a := by
  have hw' := U.window_path (lowPage_own hw)
  rw [walk_lowPage v, walk_lowPage v, walk_eq_leaf hT hw', walk_eq_leaf hT' hw']
  unfold Mmu.leaf at hleaf
  rw [hleaf]

end Walks

/-! ## Operations -/

/-- an allocator and the spaces made with it, in order -/
structure World (α : Type) where
  r : α
  roots : List ℕ

inductive SpaceOp where
  | create
  | mapPage (space va pa : ℕ) (perms : Perms)
  | unmapPage (space va : ℕ)

/-- the space it is made on -/
def SpaceOp.space : SpaceOp → Option ℕ
  | .create => none
  | .mapPage j _ _ _ => some j
  | .unmapPage j _ => some j

variable {α : Type} [FrameAllocator α]

/-- `create` and `share_kernel`; an operation on a space that does not exist does nothing -/
def World.exec (U : Mmu) (ktoken : ℕ) (s : World α) : SpaceOp → World α
  | .create =>
    match create U s.r with
    | (none, r) => { s with r := r }
    | (some root, r) => ⟨setMem r (shareKernel U (mem r) root ktoken), s.roots ++ [root]⟩
  | .mapPage j va pa perms =>
    match s.roots[j]? with
    | none => s
    | some root => { s with r := (mapPage U root va pa perms s.r).2 }
  | .unmapPage j va =>
    match s.roots[j]? with
    | none => s
    | some root => { s with r := setMem s.r (unmap U (mem s.r) root va).2 }

def World.run (U : Mmu) (ktoken : ℕ) (ops : List SpaceOp) (s : World α) : World α := ops.foldl (World.exec U ktoken) s

/-! ## Spaces apart -/

section Apart

variable {U : Mmu} {P : Supply U α} {m₀ : Mem} {ktoken : ℕ}

/-- the spaces are well built and apart, and the kernel's page tables, as they were in `m₀`, are in none and are not free -/
structure Spaces (P : Supply U α) (m₀ : Mem) (ktoken : ℕ) (s : World α) : Prop where
  ok : P.Ok s.r
  built : ∀ a ∈ s.roots, Built P a s.r
  nodup : s.roots.Nodup
  apart : ∀ a ∈ s.roots, ∀ b ∈ s.roots, a ≠ b → ∀ t ∈ U.tables (mem s.r) a, t ∉ U.tables (mem s.r) b
  shared : ∀ a ∈ s.roots, ∀ i < U.kernelEntries, mem s.r a i = m₀ (U.root ktoken) i
  kernel : ∀ t ∈ kernelFrames U m₀ (U.root ktoken), mem s.r t = m₀ t
  kernelFree : ∀ t ∈ kernelFrames U m₀ (U.root ktoken), t ∉ P.free s.r
  kernelApart : ∀ a ∈ s.roots, ∀ t ∈ kernelFrames U m₀ (U.root ktoken), t ∉ U.tables (mem s.r) a

/-- before the first space -/
theorem Spaces.start {r : α} (hok : P.Ok r) (hk : ∀ t ∈ kernelFrames U (mem r) (U.root ktoken), t ∉ P.free r) :
    Spaces P (mem r) ktoken ⟨r, []⟩ :=
  ⟨hok, fun _ h => absurd h List.not_mem_nil, List.nodup_nil, fun _ h => absurd h List.not_mem_nil,
    fun _ h => absurd h List.not_mem_nil, fun _ _ => rfl, hk, fun _ h => absurd h List.not_mem_nil⟩

/-- a space none of whose pages changed is as it was -/
theorem Built.of_same {r r' : α} {b : ℕ} (h : Built P b r) (hok : P.Ok r') (hfree : P.free r' ⊆ P.free r)
    (hsame : ∀ t ∈ U.tables (mem r) b, mem r' t = mem r t) :
    Built P b r' ∧ U.tables (mem r') b = U.tables (mem r) b := by
  have htab : U.tables (mem r') b = U.tables (mem r) b := tables_congr hsame
  exact ⟨⟨hok, h.tree.congr hsame, fun t ht hc => h.apart t (htab ▸ ht) (hfree hc)⟩, htab⟩

variable {s : World α}

/-- **Work on one space** leaves the others and the kernel's page tables alone. -/
theorem Spaces.within (h : Spaces P m₀ ktoken s) {a : ℕ} (ha : a ∈ s.roots) {r' : α} (hw : Within P a s.r r') :
    Spaces P m₀ ktoken { s with r := r' } ∧ (∀ b ∈ s.roots, b ≠ a → ∀ t ∈ U.tables (mem s.r) b, mem r' t = mem s.r t) := by
  have hothers : ∀ b ∈ s.roots, b ≠ a → ∀ t ∈ U.tables (mem s.r) b, mem r' t = mem s.r t := by
    intro b hb hne t ht
    exact hw.off t (h.apart b hb a ha hne t ht) ((h.built b hb).apart t ht)
  have hother : ∀ b ∈ s.roots, b ≠ a → Built P b r' ∧ U.tables (mem r') b = U.tables (mem s.r) b := by
    intro b hb hne
    exact (h.built b hb).of_same hw.built.ok hw.free (hothers b hb hne)
  -- what the space has gained was free, and so in no other space
  have hgain : ∀ b ∈ s.roots, b ≠ a → ∀ t ∈ U.tables (mem r') a, t ∉ U.tables (mem s.r) b := by
    intro b hb hne t ht htb
    rcases hw.tables t ht with hta | ⟨hf, -⟩
    · exact h.apart b hb a ha hne t htb hta
    · exact (h.built b hb).apart t htb hf
  refine ⟨⟨hw.built.ok, fun b hb => ?_, h.nodup, fun b hb c hc hne t ht => ?_, fun b hb i hi => ?_, fun t ht => ?_,
    fun t ht hc => h.kernelFree t ht (hw.free hc), fun b hb t ht htb => ?_⟩, hothers⟩
  · by_cases hba : b = a
    · subst hba; exact hw.built
    · exact (hother b hb hba).1
  · show t ∉ U.tables (mem r') c
    change t ∈ U.tables (mem r') b at ht
    by_cases hba : b = a
    · subst hba
      rw [(hother c hc hne.symm).2]
      exact hgain c hc hne.symm t ht
    · rw [(hother b hb hba).2] at ht
      by_cases hca : c = a
      · subst hca
        exact fun hta => hgain b hb hba t hta ht
      · rw [(hother c hc hca).2]
        exact h.apart b hb c hc hne t ht
  · show mem r' b i = _
    by_cases hba : b = a
    · subst hba
      rw [hw.shared i (Nat.not_le.2 hi)]
      exact h.shared b hb i hi
    · rw [hothers b hb hba b (root_mem_tables _ _)]
      exact h.shared b hb i hi
  · show mem r' t = _
    rw [hw.off t (h.kernelApart a ha t ht) (h.kernelFree t ht)]
    exact h.kernel t ht
  · change t ∈ U.tables (mem r') b at htb
    by_cases hba : b = a
    · subst hba
      rcases hw.tables t htb with htb | ⟨hf, -⟩
      · exact h.kernelApart b hb t ht htb
      · exact h.kernelFree t ht hf
    · rw [(hother b hb hba).2] at htb
      exact h.kernelApart b hb t ht htb

/-- work outside every space, on frames that were free -/
theorem Spaces.off (h : Spaces P m₀ ktoken s) {r' : α} (hok : P.Ok r') (hfree : P.free r' ⊆ P.free s.r)
    (hoff : ∀ t, t ∉ P.free s.r → mem r' t = mem s.r t) :
    Spaces P m₀ ktoken { s with r := r' } ∧ ∀ b ∈ s.roots, U.tables (mem r') b = U.tables (mem s.r) b := by
  have hsame : ∀ b ∈ s.roots, ∀ t ∈ U.tables (mem s.r) b, mem r' t = mem s.r t :=
    fun b hb t ht => hoff t ((h.built b hb).apart t ht)
  have hother : ∀ b ∈ s.roots, Built P b r' ∧ U.tables (mem r') b = U.tables (mem s.r) b :=
    fun b hb => (h.built b hb).of_same hok hfree (hsame b hb)
  refine ⟨⟨hok, fun b hb => (hother b hb).1, h.nodup, fun b hb c hc hne t ht => ?_, fun b hb i hi => ?_, fun t ht => ?_,
    fun t ht hc => h.kernelFree t ht (hfree hc), fun b hb t ht htb => ?_⟩, fun b hb => (hother b hb).2⟩
  · show t ∉ U.tables (mem r') c
    change t ∈ U.tables (mem r') b at ht
    rw [(hother b hb).2] at ht
    rw [(hother c hc).2]
    exact h.apart b hb c hc hne t ht
  · show mem r' b i = _
    rw [hsame b hb b (root_mem_tables _ _)]
    exact h.shared b hb i hi
  · show mem r' t = _
    rw [hoff t (h.kernelFree t ht)]
    exact h.kernel t ht
  · change t ∈ U.tables (mem r') b at htb
    rw [(hother b hb).2] at htb
    exact h.kernelApart b hb t ht htb

/-- below the kernel's root entries every space shows what the kernel's does -/
theorem Spaces.kernelReads {s' : World α} (h : Spaces P m₀ ktoken s) (h' : Spaces P m₀ ktoken s') {b va : ℕ} (hb : b ∈ s.roots)
    (hb' : b ∈ s'.roots) (hi : va / PAGE_SIZE / 512 ^ U.depth % 512 < U.kernelEntries) :
    SameReads U (mem s.r) (mem s'.r) b b va := by
  refine sameReads_of_walk ?_
  rw [walk_shared h.kernel (h.shared b hb _ hi), walk_shared h'.kernel (h'.shared b hb' _ hi)]

/-- a space none of whose pages changed shows what it did -/
theorem Spaces.sameReads {s' : World α} (h : Spaces P m₀ ktoken s) (h' : Spaces P m₀ ktoken s') {b : ℕ} (hb : b ∈ s.roots)
    (hb' : b ∈ s'.roots) (hsame : ∀ t ∈ U.tables (mem s.r) b, mem s'.r t = mem s.r t) (va : ℕ) :
    SameReads U (mem s.r) (mem s'.r) b b va := by
  by_cases hi : U.window (va / PAGE_SIZE / 512 ^ U.depth % 512)
  · exact sameReads_of_walk (walk_congr hsame hi)
  · exact h.kernelReads h' hb hb' (Nat.not_le.1 hi)

/-- a space shows what it did at every page whose leaf stays -/
theorem Spaces.sameLeaf {s' : World α} (h : Spaces P m₀ ktoken s) (h' : Spaces P m₀ ktoken s') {b : ℕ} (hb : b ∈ s.roots)
    (hb' : b ∈ s'.roots) {va : ℕ} (hleaf : U.Own (lowPage U (va / PAGE_SIZE)) →
      U.leaf (mem s'.r) b (lowPage U (va / PAGE_SIZE)) = U.leaf (mem s.r) b (lowPage U (va / PAGE_SIZE))) :
    SameReads U (mem s.r) (mem s'.r) b b va := by
  by_cases hi : U.window (va / PAGE_SIZE / 512 ^ U.depth % 512)
  · exact sameReads_of_walk (walk_leaf (h.built b hb).tree (h'.built b hb').tree hi (hleaf (lowPage_own hi)))
  · exact h.kernelReads h' hb hb' (Nat.not_le.1 hi)

/-- the page an operation is about -/
def SpaceOp.page : SpaceOp → Option ℕ
  | .create => none
  | .mapPage _ va _ _ => some (va / PAGE_SIZE)
  | .unmapPage _ va => some (va / PAGE_SIZE)

/-- what one operation leaves of the spaces there were: a space it is not made on shows what it did, and so does the space it is
made on at every other page -/
structure Leaves (U : Mmu) (s s' : World α) (o : SpaceOp) : Prop where
  roots : ∀ (k b : ℕ), s.roots[k]? = some b → s'.roots[k]? = some b
  others : ∀ (k b : ℕ), o.space ≠ some k → s.roots[k]? = some b → ∀ va, SameReads U (mem s.r) (mem s'.r) b b va
  pages : ∀ (k b : ℕ), s.roots[k]? = some b → ∀ va, o.page ≠ some (lowPage U (va / PAGE_SIZE)) →
    SameReads U (mem s.r) (mem s'.r) b b va

/-- what an operation on space `j`, whose root is `a`, leaves -/
theorem Spaces.leaves (h : Spaces P m₀ ktoken s) {j a : ℕ} (hj : s.roots[j]? = some a) {r' : α} (hw : Within P a s.r r')
    {o : SpaceOp} (ho : o.space = some j) (hleaf : ∀ v, U.Own v → o.page ≠ some v → U.leaf (mem r') a v = U.leaf (mem s.r) a v) :
    Spaces P m₀ ktoken { s with r := r' } ∧ Leaves U s { s with r := r' } o := by
  have ha : a ∈ s.roots := List.mem_of_getElem? hj
  obtain ⟨h', hothers⟩ := h.within ha hw
  -- another space has another root
  have hne : ∀ (k b : ℕ), k ≠ j → s.roots[k]? = some b → b ≠ a := by
    rintro k b hkj hk rfl
    obtain ⟨hk1, hk2⟩ := List.getElem?_eq_some_iff.1 hk
    obtain ⟨hj1, hj2⟩ := List.getElem?_eq_some_iff.1 hj
    exact hkj ((h.nodup.getElem_inj_iff).1 (hk2.trans hj2.symm))
  have hother : ∀ (k b : ℕ), k ≠ j → s.roots[k]? = some b → ∀ va, SameReads U (mem s.r) (mem r') b b va := by
    intro k b hkj hk va
    have hb := List.mem_of_getElem? hk
    exact h.sameReads h' hb hb (hothers b hb (hne k b hkj hk)) va
  refine ⟨h', fun _ _ hk => hk, fun k b hsp hk va => hother k b (fun e => hsp (ho.trans (e ▸ rfl))) hk va, ?_⟩
  intro k b hk va hpage
  by_cases hkj : k = j
  · subst hkj
    obtain rfl := Option.some.inj (hk.symm.trans hj)
    exact h.sameLeaf h' ha ha fun hown => hleaf _ hown hpage
  · exact hother k b hkj hk va

/-- **One operation** on pages of the spaces' own keeps the spaces apart. -/
theorem exec_spaces (h : Spaces P m₀ ktoken s) {o : SpaceOp} (ho : ∀ v, o.page = some v → U.Own v) :
    Spaces P m₀ ktoken (s.exec U ktoken o) ∧ Leaves U s (s.exec U ktoken o) o := by
  have hidle : Leaves U s s o := ⟨fun _ _ hk => hk, fun _ _ _ _ _ => ⟨rfl, rfl⟩, fun _ _ _ _ _ => ⟨rfl, rfl⟩⟩
  cases o with
  | create =>
    have hkroot : U.root ktoken ∉ P.free s.r := h.kernelFree _ (root_mem_tables _ _)
    rw [World.exec]
    rcases hc : create U s.r with ⟨_ | root, r'⟩
    · -- the allocator is empty
      have hr' : r' = (allocFrame s.r).2 := by
        rw [create] at hc
        rcases ha : allocFrame s.r with ⟨_ | g, r₁⟩
        · rw [ha] at hc; exact (Prod.mk.inj hc).2.symm
        · rw [ha] at hc; simp at hc
      subst hr'
      obtain ⟨h', -⟩ := h.off (P.ok_alloc _ h.ok) (P.free_alloc _ h.ok) fun t ht => P.mem_alloc _ t h.ok ht
      have hsame : ∀ (k b : ℕ), s.roots[k]? = some b → ∀ va, SameReads U (mem s.r) (mem (allocFrame s.r).2) b b va := by
        intro k b hk va
        have hb := List.mem_of_getElem? hk
        exact h.sameReads h' hb hb (fun t ht => P.mem_alloc _ t h.ok ((h.built b hb).apart t ht)) va
      exact ⟨h', fun _ _ hk => hk, fun k b _ hk va => hsame k b hk va, fun k b hk va _ => hsame k b hk va⟩
    · obtain ⟨hbuilt, ⟨hfree, hgone, hsub⟩, ⟨htab, -⟩, hshare, hoff⟩ := create_spec h.ok hc hkroot
      dsimp only
      set u := setMem r' (shareKernel U (mem r') root ktoken) with hu
      obtain ⟨h', htabs⟩ := h.off hbuilt.ok hsub hoff
      have hfresh : ∀ b ∈ s.roots, root ∉ U.tables (mem s.r) b := fun b hb hc => (h.built b hb).apart _ hc hfree
      have hnew : Spaces P m₀ ktoken ⟨u, s.roots ++ [root]⟩ := by
        have hmem : ∀ {b}, b ∈ s.roots ++ [root] → b ∈ s.roots ∨ b = root := by
          intro b hb
          rcases List.mem_append.1 hb with hb | hb
          · exact Or.inl hb
          · exact Or.inr (List.mem_singleton.1 hb)
        refine ⟨hbuilt.ok, fun b hb => ?_, ?_, fun b hb c hc hne t ht => ?_, fun b hb i hi => ?_, h'.kernel, h'.kernelFree,
          fun b hb t ht htb => ?_⟩
        · rcases hmem hb with hb | rfl
          · exact h'.built b hb
          · exact hbuilt
        · refine List.nodup_append.2 ⟨h.nodup, List.nodup_singleton _, fun b hb c hc => ?_⟩
          rw [List.mem_singleton.1 hc]
          rintro rfl
          exact hfresh b hb (root_mem_tables _ _)
        · rcases hmem hb with hb' | rfl
          · rcases hmem hc with hc' | rfl
            · exact h'.apart b hb' c hc' hne t ht
            · -- the new tree is its root
              show t ∉ U.tables (mem u) c
              rw [htab]
              rintro rfl
              change t ∈ U.tables (mem u) b at ht
              rw [htabs b hb'] at ht
              exact hfresh b hb' ht
          · rcases hmem hc with hc' | rfl
            · change t ∈ U.tables (mem u) b at ht
              rw [htab] at ht
              obtain rfl := ht
              show t ∉ U.tables (mem u) c
              rw [htabs c hc']
              exact hfresh c hc'
            · exact absurd rfl hne
        · rcases hmem hb with hb | rfl
          · exact h'.shared b hb i hi
          · exact (hshare i hi).trans (congrFun (h.kernel _ (root_mem_tables _ _)) i)
        · rcases hmem hb with hb | rfl
          · exact h'.kernelApart b hb t ht htb
          · change t ∈ U.tables (mem u) b at htb
            rw [htab] at htb
            obtain rfl := htb
            exact h.kernelFree t ht hfree
      have hroots : ∀ (k b : ℕ), s.roots[k]? = some b → (s.roots ++ [root])[k]? = some b := by
        intro k b hk
        obtain ⟨hlt, -⟩ := List.getElem?_eq_some_iff.1 hk
        rw [List.getElem?_append_left hlt]
        exact hk
      have hsame : ∀ (k b : ℕ), s.roots[k]? = some b → ∀ va, SameReads U (mem s.r) (mem u) b b va := by
        intro k b hk va
        have hb := List.mem_of_getElem? hk
        exact h.sameReads h' hb hb (fun t ht => hoff t ((h.built b hb).apart t ht)) va
      exact ⟨hnew, hroots, fun k b _ hk va => hsame k b hk va, fun k b hk va _ => hsame k b hk va⟩
  | mapPage j va pa perms =>
    rw [World.exec]
    cases hj : s.roots[j]? with
    | none => exact ⟨h, hidle⟩
    | some a =>
      have hown := ho _ rfl
      obtain ⟨hg, hres⟩ := mapPage_spec pa perms hown (h.built a (List.mem_of_getElem? hj))
      refine h.leaves hj hg.toWithin rfl fun v hv hne => ?_
      cases hm : (mapPage U a va pa perms s.r).1 with
      | false => rw [hm] at hres; exact hres v hv
      | true =>
        rw [hm] at hres
        obtain ⟨e, -, -, -, -, -, hleaf⟩ := hres
        exact (hleaf v hv).trans (if_neg fun hc => hne (congrArg some hc.symm))
  | unmapPage j va =>
    rw [World.exec]
    cases hj : s.roots[j]? with
    | none => exact ⟨h, hidle⟩
    | some a =>
      have hown := ho _ rfl
      have hb := h.built a (List.mem_of_getElem? hj)
      have hc := unmap_cleared va hown hb.tree
      refine h.leaves hj (hc.within hb) rfl fun v hv hne => ?_
      rw [mem_setMem]
      exact hc.keep v hv fun hm => hne (congrArg some (Set.mem_singleton_iff.1 hm).symm)

/-- the spaces after any operations -/
theorem run_spaces (h : Spaces P m₀ ktoken s) {ops : List SpaceOp} (hops : ∀ o ∈ ops, ∀ v, o.page = some v → U.Own v) :
    Spaces P m₀ ktoken (s.run U ktoken ops) := by
  induction ops generalizing s with
  | nil => exact h
  | cons o ops ih =>
    exact ih (exec_spaces h (hops o List.mem_cons_self)).1 fun o' ho' => hops o' (List.mem_cons_of_mem _ ho')

end Apart

/-! ## The user window -/

/-- `va` is in the user window -/
def InUserWindow (A : Arch) (va : ℕ) : Prop := A.userBase ≤ va ∧ va < A.userLimit

instance (A : Arch) (va : ℕ) : Decidable (InUserWindow A va) := inferInstanceAs (Decidable (_ ∧ _))

/-- the bits of an address a walk uses: 48 on x86-64, 39 on Sv39 -/
def lowBits (A : Arch) (va : ℕ) : ℕ := va % (512 ^ (A.depth + 1) * PAGE_SIZE)

/-- the addresses an operation is given are in the user window -/
def SpaceOp.InWindow (A : Arch) : SpaceOp → Prop
  | .create => True
  | .mapPage _ va _ _ => InUserWindow A va
  | .unmapPage _ va => InUserWindow A va

theorem SpaceOp.InWindow.page {A : Arch} {o : SpaceOp} (h : o.InWindow A) {v : ℕ} (hv : o.page = some v) :
    ∃ va, InUserWindow A va ∧ v = va / PAGE_SIZE := by
  cases o with
  | create => simp [SpaceOp.page] at hv
  | mapPage j va pa perms => exact ⟨va, h, (Option.some.inj hv).symm⟩
  | unmapPage j va => exact ⟨va, h, (Option.some.inj hv).symm⟩

theorem SpaceOp.InWindow.own {A : Arch} {o : SpaceOp} (h : o.InWindow A) {v : ℕ} (hv : o.page = some v) : A.Own v := by
  obtain ⟨va, hva, rfl⟩ := h.page hv
  exact A.user_own va hva.1 hva.2

variable {A : Arch} {ktoken : ℕ} {m₀ : Mem} {s s' : World α} {o : SpaceOp}

/-- what an operation on one of the spaces may not change, between the worlds before and after it -/
structure Isolated (A : Arch) (ktoken : ℕ) (m₀ : Mem) (s s' : World α) (o : SpaceOp) : Prop where
  /-- another space shows the same at every address -/
  others : ∀ (k b : ℕ), o.space ≠ some k → s.roots[k]? = some b → ∀ va, SameReads A.toMmu (mem s.r) (mem s'.r) b b va
  /-- every space shows the same outside the user window -/
  outside : ∀ (k b : ℕ), s.roots[k]? = some b → ∀ va, ¬InUserWindow A (lowBits A va) →
    SameReads A.toMmu (mem s.r) (mem s'.r) b b va
  /-- the kernel's page tables are not written -/
  kernel : ∀ t ∈ kernelFrames A.toMmu m₀ (A.root ktoken), mem s'.r t = mem s.r t

/-- the user window is whole pages -/
theorem limit_aligned (hA : A = X86 ∨ A = Riscv) : A.userLimit % PAGE_SIZE = 0 := by
  rcases hA with rfl | rfl
  · rfl
  · rfl

theorem Leaves.isolated {P : Supply A.toMmu α} (hA : A = X86 ∨ A = Riscv) (h : Spaces P m₀ ktoken s) (h' : Spaces P m₀ ktoken s')
    (hl : Leaves A.toMmu s s' o) (ho : o.InWindow A) : Isolated A ktoken m₀ s s' o := by
  refine ⟨hl.others, fun k b hk va hout => hl.pages k b hk va fun hpage => ?_,
    fun t ht => (h'.kernel t ht).trans (h.kernel t ht).symm⟩
  obtain ⟨va₀, ⟨hlo, hhi⟩, hv⟩ := ho.page hpage
  have hlow : lowPage A.toMmu (va / PAGE_SIZE) = lowBits A va / PAGE_SIZE := (Nat.mod_mul_left_div_self va PAGE_SIZE _).symm
  rw [hlow] at hv
  have hbase := A.base_aligned
  have hlim := limit_aligned hA
  -- the window is whole pages, so an address of the page is in it
  refine hout ⟨?_, ?_⟩
  · simp only [PAGE_SIZE] at *; omega
  · simp only [PAGE_SIZE] at *; omega

/-- **Spaces that share the kernel are isolated from each other**, after any creations, mappings and unmappings. -/
theorem spaces_isolated (hA : A = X86 ∨ A = Riscv) {P : Supply A.toMmu α} {r₀ : α} (hok : P.Ok r₀)
    (hkernel : ∀ t ∈ kernelFrames A.toMmu (mem r₀) (A.root ktoken), t ∉ P.free r₀) {ops : List SpaceOp}
    (hops : ∀ o' ∈ ops, o'.InWindow A) (ho : o.InWindow A) :
    Isolated A ktoken (mem r₀) (World.run A.toMmu ktoken ops ⟨r₀, []⟩)
      ((World.run A.toMmu ktoken ops ⟨r₀, []⟩).exec A.toMmu ktoken o) o := by
  have h := run_spaces (Spaces.start hok hkernel) fun o' ho' _ hv => (hops o' ho').own hv
  obtain ⟨h', hl⟩ := exec_spaces h fun _ hv => ho.own hv
  exact hl.isolated hA h h' ho

/-! ## A machine with two spaces -/

/-- an empty kernel root at page 1, and the pages from 2 on to hand out -/
def twelvePages : FrameList := ⟨fun _ _ => 0, (List.range' 2 12).map (· * PAGE_SIZE)⟩

theorem twelvePages_ok (U : Mmu) : (FrameList.supply U).Ok twelvePages := by
  refine ⟨by decide, fun g hg => ?_⟩
  have hall : ∀ g ∈ twelvePages.left, g % PAGE_SIZE = 0 ∧ g < 2 ^ 52 := by decide
  exact U.fits_of_lt (hall g hg).1 (hall g hg).2

/-- the kernel's only page table is its root -/
theorem twelvePages_kernel (U : Mmu) {kroot : ℕ} (hk : kroot = PAGE_SIZE) :
    ∀ t ∈ kernelFrames U (mem twelvePages) kroot, t ∉ (FrameList.supply U).free twelvePages := by
  intro t ht
  have hempty : ∀ i, True → U.fmt.present (mem twelvePages kroot i) = false := by
    intro i _
    show U.fmt.present 0 = false
    rw [← U.empty_eq]
    exact U.fmt.present_empty
  rw [kernelFrames, (Tree.fresh U.fmt U.depth hempty).2] at ht
  obtain rfl := ht
  subst hk
  show PAGE_SIZE ∉ twelvePages.left
  decide

/-- one user address mapped in both spaces, then unmapped in the second -/
def sharedAddress (A : Arch) : List SpaceOp :=
  [.create, .create, .mapPage 0 A.userBase 0x200000 Perms.USER_RW, .mapPage 1 A.userBase 0x300000 Perms.USER_RO]

/-- two spaces on Sv39: unmapping the page in one leaves it in the other -/
theorem sharedAddress_isolated :
    let s := World.run Riscv.toMmu (Riscv.token PAGE_SIZE) (sharedAddress Riscv) ⟨twelvePages, []⟩
    let s' := s.exec Riscv.toMmu (Riscv.token PAGE_SIZE) (.unmapPage 1 Riscv.userBase)
    s.roots = [0x2000, 0x3000] ∧
      Isolated Riscv (Riscv.token PAGE_SIZE) (mem twelvePages) s s' (.unmapPage 1 Riscv.userBase) ∧
      translate Riscv.toMmu (mem s'.r) 0x3000 Riscv.userBase = none ∧
      translate Riscv.toMmu (mem s'.r) 0x2000 Riscv.userBase = some 0x200000 := by
  intro s s'
  have hops : ∀ o' ∈ sharedAddress Riscv, o'.InWindow Riscv := by
    simp [sharedAddress, SpaceOp.InWindow, InUserWindow, Riscv]
  have ho : (SpaceOp.unmapPage 1 Riscv.userBase).InWindow Riscv := by
    simp [SpaceOp.InWindow, InUserWindow, Riscv]
  have hroot : Riscv.root (Riscv.token PAGE_SIZE) = PAGE_SIZE := Riscv.root_token _ (by decide) (by decide)
  have hiso := spaces_isolated (Or.inr rfl) (twelvePages_ok Riscv.toMmu) (twelvePages_kernel Riscv.toMmu hroot) hops ho
  exact ⟨rfl, hiso, by decide +kernel, by decide +kernel⟩

/-- **An alias of the window.** Mapping a page at the base of the window makes the address 2^48 above it translate. -/
theorem alias_translates :
    let s := World.run X86.toMmu PAGE_SIZE [.create] ⟨twelvePages, []⟩
    let s' := s.exec X86.toMmu PAGE_SIZE (.mapPage 0 X86.userBase 0x200000 Perms.USER_RW)
    let beyond := 2 ^ 48 + X86.userBase
    (FrameList.supply X86.toMmu).Ok twelvePages ∧
      (∀ t ∈ kernelFrames X86.toMmu (mem twelvePages) (X86.root PAGE_SIZE), t ∉ (FrameList.supply X86.toMmu).free twelvePages) ∧
      s.roots = [0x2000] ∧ InUserWindow X86 X86.userBase ∧ beyond < 2 ^ 64 ∧ ¬InUserWindow X86 beyond ∧
      translate X86.toMmu (mem s.r) 0x2000 beyond = none ∧ translate X86.toMmu (mem s'.r) 0x2000 beyond = some 0x200000 := by
  intro s s' beyond
  exact ⟨twelvePages_ok _, twelvePages_kernel _ rfl, rfl, by decide, by decide, by decide, by decide +kernel, by decide +kernel⟩

end Rustproof.Vspace
