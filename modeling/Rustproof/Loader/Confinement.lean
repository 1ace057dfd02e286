/-
Where an image may put its pages: when loading stays in the user window, and leaves the kernel's page tables alone.

The loader checks no address of the image. A page below a root entry shared with the kernel goes into the kernel's own page
tables, where an entry that was absent is present from then on (`Broken`); a page elsewhere goes where the low bits of its
address say.

- `placed_or_broken`: an accepted load fills the space with the pages of the image, or breaks into the kernel's page tables.
- `confined_iff`: an accepted image is confined exactly if its segments lie in the user window.
- `kernelSegment_loads`: an image that maps a user page into the kernel's page tables.
-/
import Rustproof.Loader.Pages

namespace Rustproof.Loader

open Lib RadixTree Vspace FrameAllocator

variable {A : Arch} {α : Type} [FrameAllocator α] {root : ℕ} {elf : List Byte} {P : Supply A.toMmu α} {m₀ : Mem} {ktoken : ℕ}

/-! ## The prepared space -/

/-- what `load_process` relies on of the kernel's page tables: no page of them is free, and the root entries every space shares
are there -/
structure KernelSpace (P : Supply A.toMmu α) (ktoken : ℕ) (r₀ : α) : Prop where
  ok : P.Ok r₀
  free : ∀ t ∈ kernelFrames A.toMmu (mem r₀) (A.root ktoken), t ∉ P.free r₀
  mapped : ∀ i < A.kernelEntries, A.fmt.present (mem r₀ (A.root ktoken) i) = true

/-- a space prepared as `load_process` does -/
def prepare (U : Mmu) (ktoken : ℕ) (r₀ : α) : Option ℕ × α :=
  match create U r₀ with
  | (none, r) => (none, r)
  | (some root, r) => (some root, setMem r (shareKernel U (mem r) root ktoken))

/-- a filled space that has the kernel's root entries, with the kernel's page tables as they were in `m₀` -/
structure Placed (P : Supply A.toMmu α) (m₀ : Mem) (ktoken : ℕ) (elf : List Byte) (root : ℕ) (done : List (Segment × ℕ))
    (r : α) : Prop extends Filled P elf root done r where
  spaces : Spaces P m₀ ktoken ⟨r, [root]⟩

/-- one more page of the space's own -/
theorem place_step {x : Segment × ℕ} {done : List (Segment × ℕ)} {r r' : α} (h : Placed P m₀ ktoken elf root done r)
    (hw : A.window (x.2 / PAGE_SIZE / 512 ^ A.depth % 512)) (hl : loadPage A elf root x.1 x.2 r = (.ok (), r')) :
    Placed P m₀ ktoken elf root (done ++ [x]) r' := by
  obtain ⟨hf, hwithin⟩ := fill_step h.toFilled hw hl
  exact ⟨hf, (h.spaces.within (List.mem_singleton_self _) hwithin).1⟩

theorem prepare_placed {r₀ r : α} (hok : P.Ok r₀) (hk : ∀ t ∈ kernelFrames A.toMmu (mem r₀) (A.root ktoken), t ∉ P.free r₀)
    (hp : prepare A.toMmu ktoken r₀ = (some root, r)) : Placed P (mem r₀) ktoken elf root [] r := by
  rw [prepare] at hp
  rcases hc : create A.toMmu r₀ with ⟨_ | g, r₁⟩
  · rw [hc] at hp; exact absurd (Prod.mk.inj hp).1 (by simp)
  rw [hc] at hp
  obtain ⟨hg, rfl⟩ := Prod.mk.inj hp
  obtain rfl := Option.some.inj hg
  have hs := (exec_spaces (o := .create) (Spaces.start hok hk) fun v hv => absurd hv (by simp [SpaceOp.page])).1
  rw [World.exec, hc] at hs
  obtain ⟨-, -, ⟨-, habs⟩, -⟩ := create_spec hok hc (hk _ (root_mem_tables _ _))
  exact ⟨⟨hs.built g (List.mem_singleton_self _), fun x hx => absurd hx List.not_mem_nil, List.nodup_nil,
    fun v hv _ => habs v hv, fun x hx => absurd hx List.not_mem_nil⟩, hs⟩

/-- what an accepted `map` went through -/
theorem map_inv {U : Mmu} {va pa : ℕ} {flags : Word} {r r' : α} (h : map U root va pa flags r = (.ok (), r')) :
    ∃ u r₁, descend U (va / PAGE_SIZE) U.depth root r = (.ok u, r₁) ∧
      U.fmt.present (mem r₁ u (va / PAGE_SIZE % 512)) = false ∧
      r' = setMem r₁ ((mem r₁).put u (va / PAGE_SIZE % 512) (U.entry pa flags)) := by
  unfold map at h
  split_ifs at h with h1 h2 h3
  · exact absurd (Prod.mk.inj h).1 (by simp)
  · exact absurd (Prod.mk.inj h).1 (by simp)
  · exact absurd (Prod.mk.inj h).1 (by simp)
  · dsimp only at h
    rcases hd : descend U (va / PAGE_SIZE) U.depth root r with ⟨e | u, r₁⟩
    · rw [hd] at h; exact absurd (Prod.mk.inj h).1 (by simp)
    · rw [hd] at h
      dsimp only at h
      split_ifs at h with hleaf
      · exact absurd (Prod.mk.inj h).1 (by simp)
      · exact ⟨u, r₁, rfl, by simpa using hleaf, (Prod.mk.inj h).2.symm⟩

/-! ## Entries that stay -/

/-- an entry of a frame that is not free, and present -/
def Stands (P : Supply A.toMmu α) (t i : ℕ) (r : α) : Prop :=
  P.Ok r ∧ t ∉ P.free r ∧ A.fmt.present (mem r t i) = true

section Stands

variable {t i : ℕ} {r : α}

theorem Stands.alloc (h : Stands P t i r) : Stands P t i (allocFrame r).2 := by
  obtain ⟨hok, hfree, hp⟩ := h
  refine ⟨P.ok_alloc r hok, fun hc => hfree (P.free_alloc r hok hc), ?_⟩
  rw [P.mem_alloc r t hok hfree]
  exact hp

theorem Stands.write (h : Stands P t i r) {m : Mem} (hm : A.fmt.present (m t i) = true) : Stands P t i (setMem r m) := by
  obtain ⟨hok, hfree, -⟩ := h
  refine ⟨P.ok_write r m hok, ?_, by rw [mem_setMem]; exact hm⟩
  rw [P.free_write r m hok]
  exact hfree

/-- storing a present entry -/
theorem Stands.put (h : Stands P t i r) {u j : ℕ} {e : Word} (he : A.fmt.present e = true) :
    Stands P t i (setMem r ((mem r).put u j e)) := by
  refine h.write ?_
  rw [Store.put_apply]
  split_ifs
  · exact he
  · exact h.2.2

theorem Stands.descend (h : Stands P t i r) (v l u : ℕ) : Stands P t i (descend A.toMmu v l u r).2 := by
  induction l generalizing u r with
  | zero => exact h
  | succ l ih =>
    rw [Vspace.descend]
    split_ifs
    · exact h
    · exact ih h _
    · have ha := h.alloc
      rcases halloc : allocFrame r with ⟨_ | g, r'⟩
      · rw [halloc] at ha; exact ha
      · rw [halloc] at ha
        have hfresh := (P.fresh r g h.1 (by rw [halloc])).1
        have hne : t ≠ g := fun e => h.2.1 (e ▸ hfresh)
        refine ih (ha.write ?_) g
        rw [hang, Store.put_apply]
        split_ifs
        · exact A.fmt.present_link g
        · rw [Store.fill_of_ne _ hne]; exact ha.2.2

theorem Stands.map (h : Stands P t i r) (va pa : ℕ) (flags : Word) : Stands P t i (map A.toMmu root va pa flags r).2 := by
  unfold Vspace.map
  split_ifs with h1 h2 h3
  · exact h
  · exact h
  · exact h
  · have hd := h.descend (va / PAGE_SIZE) A.depth root
    dsimp only
    rcases hr : Vspace.descend A.toMmu (va / PAGE_SIZE) A.depth root r with ⟨_ | u, r'⟩
    · rw [hr] at hd; exact hd
    · rw [hr] at hd
      dsimp only
      split_ifs
      · exact hd
      · exact hd.put (A.entry_present pa flags (by simpa using h3)).1

theorem Stands.loadPage (h : Stands P t i r) {g : Segment} {va : ℕ} {r' : α}
    (hl : loadPage A elf root g va r = (.ok (), r')) : Stands P t i r' := by
  obtain ⟨frame, r₁, intra, bytes, halloc, hbytes, hmap⟩ := loadPage_ok hl
  have hfresh := (P.fresh r frame h.1 (by rw [halloc])).1
  have hal := ((A.fits frame).1 (P.fits r frame h.1 hfresh)).1
  have hne : t ≠ frame := fun e => h.2.1 (e ▸ hfresh)
  have ha := h.alloc
  rw [halloc] at ha
  have hw : Stands P t i (setMem r₁ (writeBytes ((mem r₁).fill frame 0) (frame + intra) bytes)) := by
    refine ha.write ?_
    rw [writeBytes_frame hbytes (mem r₁) hal hne]
    exact ha.2.2
  have hm : Stands P t i (Vspace.map A.toMmu root va frame (segmentFlags A g) _).2 := hw.map va frame (segmentFlags A g)
  rw [hmap] at hm
  exact hm

end Stands

/-! ## Breaking into the kernel's page tables -/

/-- an entry of the kernel's page tables that was absent is present -/
def Broken (P : Supply A.toMmu α) (m₀ : Mem) (ktoken : ℕ) (r : α) : Prop :=
  ∃ t ∈ kernelFrames A.toMmu m₀ (A.root ktoken), ∃ i, A.fmt.present (m₀ t i) = false ∧ Stands P t i r

theorem Broken.loadPage {g : Segment} {va : ℕ} {r r' : α} (h : Broken P m₀ ktoken r)
    (hl : loadPage A elf root g va r = (.ok (), r')) : Broken P m₀ ktoken r' := by
  obtain ⟨t, ht, i, habs, hs⟩ := h
  exact ⟨t, ht, i, habs, hs.loadPage hl⟩

/-- a descent inside the kernel's page tables ends in one of them, or adds a link to one -/
theorem descend_kernel {v l t u : ℕ} {r r' : α} (hok : P.Ok r)
    (hfree : ∀ t ∈ kernelFrames A.toMmu m₀ (A.root ktoken), t ∉ P.free r)
    (hk : ∀ t ∈ kernelFrames A.toMmu m₀ (A.root ktoken), mem r t = m₀ t) (hl : l ≤ A.depth)
    (ht : tableAt A.fmt m₀ (A.root ktoken) (outer A.depth v l) = some t) (hd : descend A.toMmu v l t r = (.ok u, r')) :
    r' = r ∧ u ∈ kernelFrames A.toMmu m₀ (A.root ktoken) ∨ Broken P m₀ ktoken r' := by
  have hmem : ∀ k ≤ A.depth, ∀ t, tableAt A.fmt m₀ (A.root ktoken) (outer A.depth v k) = some t →
      t ∈ kernelFrames A.toMmu m₀ (A.root ktoken) := fun k hk t ht => mem_tables (valid_outer trivial hk) ht
  induction l generalizing t with
  | zero =>
    obtain ⟨hu, hr⟩ := Prod.mk.inj hd
    obtain rfl := Except.ok.inj hu
    exact Or.inl ⟨hr.symm, hmem 0 hl t ht⟩
  | succ l ih =>
    have htK := hmem (l + 1) hl t ht
    rw [descend] at hd
    rw [hk t htK] at hd
    split_ifs at hd with hpres hhuge
    · exact absurd (Prod.mk.inj hd).1 (by simp)
    · refine ih (by omega) ?_ hd
      rw [outer_step (by omega), tableAt, ht, Option.bind_some, follow, if_pos ⟨hpres, by simpa using hhuge⟩]
    · rcases halloc : allocFrame r with ⟨_ | g, r₁⟩
      · rw [halloc] at hd; exact absurd (Prod.mk.inj hd).1 (by simp)
      · -- the link added here stays
        rw [halloc] at hd
        dsimp only at hd
        have hok₁ := P.ok_alloc r hok
        have hsub := P.free_alloc r hok
        rw [halloc] at hok₁ hsub
        refine Or.inr ⟨t, htK, v / 512 ^ (l + 1) % 512, by simpa using hpres, ?_⟩
        have hs : Stands P t (v / 512 ^ (l + 1) % 512) (setMem r₁ (hang A.fmt (mem r₁) t (v / 512 ^ (l + 1) % 512) g)) := by
          refine ⟨P.ok_write _ _ hok₁, ?_, ?_⟩
          · rw [P.free_write _ _ hok₁]
            exact fun hc => hfree t htK (hsub hc)
          · rw [mem_setMem, hang_self]; exact A.fmt.present_link g
        have hdesc := hs.descend v l g
        rw [hd] at hdesc
        exact hdesc

/-- **A page below a root entry of the kernel** breaks into its page tables. -/
theorem loadPage_breaks {done : List (Segment × ℕ)} {x : Segment × ℕ} {r r' : α}
    (hroot : ∀ i < A.kernelEntries, A.fmt.present (m₀ (A.root ktoken) i) = true) (h : Placed P m₀ ktoken elf root done r)
    (hw : x.2 / PAGE_SIZE / 512 ^ A.depth % 512 < A.kernelEntries) (hl : loadPage A elf root x.1 x.2 r = (.ok (), r')) :
    Broken P m₀ ktoken r' := by
  obtain ⟨frame, r₁, intra, bytes, halloc, hbytes, hmap⟩ := loadPage_ok hl
  have hok := h.spaces.ok
  have hfresh := (P.fresh r frame hok (by rw [halloc])).1
  have hal := ((A.fits frame).1 (P.fits r frame hok hfresh)).1
  have hok₁ := P.ok_alloc r hok
  have hsub := P.free_alloc r hok
  have hoff := fun t ht => P.mem_alloc r t hok ht
  rw [halloc] at hok₁ hsub hoff
  set r₂ := setMem r₁ (writeBytes ((mem r₁).fill frame 0) (frame + intra) bytes) with hr₂
  have hok₂ : P.Ok r₂ := P.ok_write _ _ hok₁
  have hfree₂ : P.free r₂ = P.free r₁ := P.free_write _ _ hok₁
  -- nothing outside the free frames has changed yet
  have hsame : ∀ t, t ∉ P.free r → mem r₂ t = mem r t := by
    intro t ht
    have hne : t ≠ frame := fun e => ht (e ▸ hfresh)
    rw [hr₂, mem_setMem, writeBytes_frame hbytes (mem r₁) hal hne, hoff t ht]
  have hfreeK : ∀ t ∈ kernelFrames A.toMmu m₀ (A.root ktoken), t ∉ P.free r₂ := by
    intro t ht hc
    rw [hfree₂] at hc
    exact h.spaces.kernelFree t ht (hsub hc)
  have hk : ∀ t ∈ kernelFrames A.toMmu m₀ (A.root ktoken), mem r₂ t = m₀ t :=
    fun t ht => (hsame t (h.spaces.kernelFree t ht)).trans (h.spaces.kernel t ht)
  have hentry : mem r₂ root (x.2 / PAGE_SIZE / 512 ^ A.depth % 512) =
      m₀ (A.root ktoken) (x.2 / PAGE_SIZE / 512 ^ A.depth % 512) := by
    rw [hsame root (h.built.apart root (root_mem_tables _ _))]
    exact h.spaces.shared root (List.mem_singleton_self _) _ hw
  obtain ⟨u, r₃, hd, hleaf, rfl⟩ := map_inv hmap
  -- the descent goes on below the kernel's root
  have hdk : r₃ = r₂ ∧ u ∈ kernelFrames A.toMmu m₀ (A.root ktoken) ∨ Broken P m₀ ktoken r₃ := by
    obtain ⟨d, hdepth⟩ := Nat.exists_eq_succ_of_ne_zero A.depth_pos.ne'
    have htop : tableAt A.fmt m₀ (A.root ktoken) (outer A.depth (x.2 / PAGE_SIZE) A.depth) = some (A.root ktoken) := by
      rw [outer_top]; rfl
    refine descend_kernel hok₂ hfreeK hk le_rfl htop ?_
    rw [← hd]
    have hpres := hroot _ hw
    rw [hdepth] at hentry hpres ⊢
    have hkroot := hk _ (root_mem_tables _ _)
    rw [descend, descend, hentry, hkroot, if_pos hpres, if_pos hpres]
  have he := (A.entry_present frame (segmentFlags A x.1) (segmentFlags_ok x.1)).1
  rcases hdk with ⟨rfl, hu⟩ | ⟨t, ht, i, habs, hs⟩
  · refine ⟨u, hu, x.2 / PAGE_SIZE % 512, ?_, P.ok_write _ _ hok₂, ?_, ?_⟩
    · rw [← hk u hu]; exact hleaf
    · rw [P.free_write _ _ hok₂]; exact hfreeK u hu
    · rw [mem_setMem, Store.put_apply, if_pos ⟨rfl, rfl⟩]; exact he
  · exact ⟨t, ht, i, habs, hs.put he⟩

/-- **An accepted load** fills the space with the pages of the image, or breaks into the kernel's page tables. -/
theorem placed_or_broken {xs : List (Segment × ℕ)} {r r' : α}
    (hroot : ∀ i < A.kernelEntries, A.fmt.present (m₀ (A.root ktoken) i) = true) (h : Placed P m₀ ktoken elf root [] r)
    (hl : loadAll A elf root xs r = (.ok (), r')) : Placed P m₀ ktoken elf root xs r' ∨ Broken P m₀ ktoken r' := by
  have step : ∀ x ∈ xs, ∀ done r r', Placed P m₀ ktoken elf root done r ∨ Broken P m₀ ktoken r →
      loadPage A elf root x.1 x.2 r = (.ok (), r') →
      Placed P m₀ ktoken elf root (done ++ [x]) r' ∨ Broken P m₀ ktoken r' := by
    intro x _ done r r' hJ hx
    rcases hJ with hJ | hJ
    · by_cases hw : A.window (x.2 / PAGE_SIZE / 512 ^ A.depth % 512)
      · exact Or.inl (place_step hJ hw hx)
      · exact Or.inr (loadPage_breaks hroot hJ (Nat.not_le.1 hw) hx)
    · exact Or.inr (hJ.loadPage hx)
  exact loadAll_induct (J := fun done r => Placed P m₀ ktoken elf root done r ∨ Broken P m₀ ktoken r) step (Or.inl h) hl

/-! ## Addresses -/

/-- the bytes a walk tells apart -/
def span (A : Arch) : ℕ := 512 ^ (A.depth + 1) * PAGE_SIZE

/-- a 64-bit address whose upper bits repeat the highest bit of the walk -/
def Canonical (A : Arch) (va : ℕ) : Prop := va < span A / 2 ∨ 2 ^ 64 - span A / 2 ≤ va ∧ va < 2 ^ 64

/-- the canonical address of page number `v` -/
def canonicalOf (A : Arch) (v : ℕ) : ℕ := if v * PAGE_SIZE < span A / 2 then v * PAGE_SIZE else 2 ^ 64 - span A + v * PAGE_SIZE

section Addresses

variable {va v : ℕ}

theorem canonicalOf_lowPage (hA : A = X86 ∨ A = Riscv) (hal : va % PAGE_SIZE = 0) (hc : Canonical A va) :
    canonicalOf A (lowPage A.toMmu (va / PAGE_SIZE)) = va := by
  rcases hA with rfl | rfl
  · have hs : span X86 = 2 ^ 48 := rfl
    have hl : lowPage X86.toMmu (va / PAGE_SIZE) = va / 4096 % 2 ^ 36 := rfl
    unfold Canonical at hc
    unfold canonicalOf
    rw [hs] at hc ⊢
    rw [hl]
    simp only [PAGE_SIZE] at *
    split_ifs <;> omega
  · have hs : span Riscv = 2 ^ 39 := rfl
    have hl : lowPage Riscv.toMmu (va / PAGE_SIZE) = va / 4096 % 2 ^ 27 := rfl
    unfold Canonical at hc
    unfold canonicalOf
    rw [hs] at hc ⊢
    rw [hl]
    simp only [PAGE_SIZE] at *
    split_ifs <;> omega

theorem canonical_canonicalOf (hA : A = X86 ∨ A = Riscv) (hv : v < 512 ^ (A.depth + 1)) :
    Canonical A (canonicalOf A v) ∧ canonicalOf A v % PAGE_SIZE = 0 ∧ lowPage A.toMmu (canonicalOf A v / PAGE_SIZE) = v := by
  rcases hA with rfl | rfl
  · have hs : span X86 = 2 ^ 48 := rfl
    have hl : ∀ n, lowPage X86.toMmu n = n % 2 ^ 36 := fun _ => rfl
    have hd : 512 ^ (X86.depth + 1) = 2 ^ 36 := rfl
    unfold Canonical canonicalOf
    rw [hd] at hv
    rw [hs, hl]
    simp only [PAGE_SIZE]
    split_ifs <;> omega
  · have hs : span Riscv = 2 ^ 39 := rfl
    have hl : ∀ n, lowPage Riscv.toMmu n = n % 2 ^ 27 := fun _ => rfl
    have hd : 512 ^ (Riscv.depth + 1) = 2 ^ 27 := rfl
    unfold Canonical canonicalOf
    rw [hd] at hv
    rw [hs, hl]
    simp only [PAGE_SIZE]
    split_ifs <;> omega

/-- an address of the user window is canonical, and its page number is the one the walk sees -/
theorem window_canonical (hA : A = X86 ∨ A = Riscv) (h : InUserWindow A va) :
    Canonical A va ∧ lowPage A.toMmu (va / PAGE_SIZE) = va / PAGE_SIZE := by
  have hown := A.user_own va h.1 h.2
  refine ⟨?_, Nat.mod_eq_of_lt hown.1⟩
  have hlim := h.2
  rcases hA with rfl | rfl
  · have hs : span X86 = 2 ^ 48 := rfl
    have hl : X86.userLimit = 0x8100000000 := rfl
    unfold Canonical
    omega
  · have hs : span Riscv = 2 ^ 39 := rfl
    have hl : Riscv.userLimit = 0x200000000 := rfl
    unfold Canonical
    omega

end Addresses

/-! ## Confinement -/

/-- what a load may do to a space: a page that has come to translate meets a segment of the image, no address outside the user
window translates otherwise than before, and the kernel's page tables are untouched -/
structure Confined (A : Arch) (elf : List Byte) (ktoken root : ℕ) (m₀ m m' : Mem) : Prop where
  pages : ∀ va, Canonical A va → va % PAGE_SIZE = 0 → translate A.toMmu m root va = none →
    translate A.toMmu m' root va ≠ none →
      ∃ g, Loads A elf g ∧ ∃ a, (va ≤ a ∧ a < va + PAGE_SIZE) ∧ g.vaddr ≤ a ∧ a < g.vaddr + g.memsz
  outside : ∀ va, Canonical A va → ¬InUserWindow A va → translate A.toMmu m' root va = translate A.toMmu m root va
  kernel : ∀ t ∈ kernelFrames A.toMmu m₀ (A.root ktoken), m' t = m t

/-- every segment with something in it lies in the user window -/
def SegmentsInWindow (A : Arch) (elf : List Byte) : Prop :=
  ∀ g, Loads A elf g → g.memsz ≠ 0 → A.userBase ≤ g.vaddr ∧ g.vaddr + g.memsz ≤ A.userLimit

/-- the pages of a segment in the user window are in it -/
theorem page_inWindow {g : Segment} (hlim : A.userLimit % PAGE_SIZE = 0)
    (hin : A.userBase ≤ g.vaddr ∧ g.vaddr + g.memsz ≤ A.userLimit) {va : ℕ} (hva : va ∈ segmentPages g) : InUserWindow A va := by
  have hbase := A.base_aligned
  obtain ⟨hal, hlo, hhi⟩ := mem_segmentPages.1 hva
  unfold InUserWindow
  simp only [PAGE_SIZE] at *
  omega

section Read

variable {m : Mem} {va : ℕ}

/-- what is read at a page of the space's own -/
theorem translate_own (hT : A.Tree m root) (hw : A.window (va / PAGE_SIZE / 512 ^ A.depth % 512)) :
    translate A.toMmu m root va = none ↔ ¬(A.fmt.present (A.leaf m root (lowPage A.toMmu (va / PAGE_SIZE))) = true ∧
      A.fmt.isLeaf (A.leaf m root (lowPage A.toMmu (va / PAGE_SIZE))) = true) := by
  have hw' := A.window_path (lowPage_own hw)
  unfold Vspace.translate
  rw [walk_lowPage, walk_eq_leaf hT hw', Option.map_eq_none_iff]
  unfold Mmu.leaf
  split_ifs with hc
  · simp [hc]
  · simp [hc]

end Read

section Confine

variable {h : Header} {r r' : α}

/-- at a page of the space's own that the image has, the loaded space translates; at no other does it -/
theorem Filled.translates {done : List (Segment × ℕ)} (hf : Filled P elf root done r) {va : ℕ}
    (hw : A.window (va / PAGE_SIZE / 512 ^ A.depth % 512)) :
    translate A.toMmu (mem r) root va ≠ none ↔ lowPage A.toMmu (va / PAGE_SIZE) ∈ done.map (slotOf A) := by
  rw [Ne, translate_own hf.built.tree hw, not_not]
  constructor
  · intro hp
    by_contra hn
    rw [hf.absent _ (lowPage_own hw) hn] at hp
    exact absurd hp.1 (by decide)
  · intro hm
    obtain ⟨x, hx, hxv⟩ := List.mem_map.1 hm
    obtain ⟨frame, hleaf, -⟩ := hf.page x hx
    rw [← hxv, hleaf]
    exact A.entry_present frame _ (segmentFlags_ok x.1)

/-- **A load of segments in the user window is confined.** -/
theorem confined_of_placed (hA : A = X86 ∨ A = Riscv) (hd : readHeader A elf = .ok h) (hin : SegmentsInWindow A elf)
    (hf : Placed P m₀ ktoken elf root [] r) (hf' : Placed P m₀ ktoken elf root (imagePages elf h) r') :
    Confined A elf ktoken root m₀ (mem r) (mem r') := by
  have hlim := limit_aligned hA
  have hwin : ∀ x ∈ imagePages elf h, InUserWindow A x.2 := by
    intro x hx
    obtain ⟨hl, h0, hva⟩ := (mem_imagePages hd).1 hx
    exact page_inWindow hlim (hin x.1 hl h0) hva
  -- below the kernel's root entries nothing has changed
  have hkernel : ∀ va, ¬A.window (va / PAGE_SIZE / 512 ^ A.depth % 512) →
      translate A.toMmu (mem r') root va = translate A.toMmu (mem r) root va := fun va hw =>
    (hf.spaces.kernelReads hf'.spaces (List.mem_singleton_self _) (List.mem_singleton_self _) (Nat.not_le.1 hw)).1
  refine ⟨fun va hc hal hnone hsome => ?_, fun va hc hout => ?_,
    fun t ht => (hf'.spaces.kernel t ht).trans (hf.spaces.kernel t ht).symm⟩
  · by_cases hw : A.window (va / PAGE_SIZE / 512 ^ A.depth % 512)
    · obtain ⟨x, hx, hxv⟩ := List.mem_map.1 ((hf'.translates hw).1 hsome)
      obtain ⟨hl, h0, hva⟩ := (mem_imagePages hd).1 hx
      obtain ⟨hxal, hlo, hhi⟩ := mem_segmentPages.1 hva
      have hxc := (window_canonical hA (hwin x hx)).1
      -- one canonical address for a page number
      have hsame : va = x.2 := by
        rw [← canonicalOf_lowPage hA hal hc, ← canonicalOf_lowPage hA hxal hxc]
        exact congrArg _ hxv.symm
      refine ⟨x.1, hl, max va x.1.vaddr, ⟨le_max_left _ _, ?_⟩, le_max_right _ _, ?_⟩
      · exact max_lt (by simp only [PAGE_SIZE]; omega) (hsame ▸ hlo)
      · exact max_lt (hsame ▸ hhi) (by omega)
    · exact absurd (hkernel va hw ▸ hnone) hsome
  · by_cases hw : A.window (va / PAGE_SIZE / 512 ^ A.depth % 512)
    · have hnone : translate A.toMmu (mem r) root va = none := by
        by_contra hsome
        exact absurd ((hf.translates hw).1 hsome) List.not_mem_nil
      rw [hnone]
      by_contra hsome
      obtain ⟨x, hx, hxv⟩ := List.mem_map.1 ((hf'.translates hw).1 hsome)
      obtain ⟨hxc, hxlow⟩ := window_canonical hA (hwin x hx)
      have hbase := A.base_aligned
      -- the page is in the window, so the address is
      have hpage : va / PAGE_SIZE * PAGE_SIZE = x.2 / PAGE_SIZE * PAGE_SIZE := by
        have hcp : Canonical A (va / PAGE_SIZE * PAGE_SIZE) := by
          rcases hA with rfl | rfl
          · have hs : span X86 = 2 ^ 48 := rfl
            unfold Canonical at hc ⊢
            simp only [PAGE_SIZE] at *
            omega
          · have hs : span Riscv = 2 ^ 39 := rfl
            unfold Canonical at hc ⊢
            simp only [PAGE_SIZE] at *
            omega
        have hdiv : va / PAGE_SIZE * PAGE_SIZE / PAGE_SIZE = va / PAGE_SIZE := Nat.mul_div_cancel _ (by decide)
        obtain ⟨-, -, hva⟩ := (mem_imagePages hd).1 hx
        have hxal := (mem_segmentPages.1 hva).1
        have hc1 := canonicalOf_lowPage hA (Nat.mul_mod_left _ _) hcp
        have hc2 := canonicalOf_lowPage hA hxal hxc
        rw [hdiv] at hc1
        rw [← hc1, ← hxv]
        change canonicalOf A (lowPage A.toMmu (x.2 / PAGE_SIZE)) = _
        rw [hc2]
        simp only [PAGE_SIZE] at *
        omega
      obtain ⟨hlo, hhi⟩ := hwin x hx
      refine hout ⟨?_, ?_⟩
      · simp only [PAGE_SIZE] at *; omega
      · simp only [PAGE_SIZE] at *; omega
    · exact hkernel va hw

/-- **When loading is confined.** An accepted image leaves its own pages only, in the user window only, and the kernel's page
tables alone, exactly if its segments lie in the user window. -/
theorem confined_iff (hA : A = X86 ∨ A = Riscv) {r₀ : α} (hk : KernelSpace P ktoken r₀)
    (hp : prepare A.toMmu ktoken r₀ = (some root, r)) {entry : ℕ} (hl : loadElf A elf root r = (.ok entry, r')) :
    Confined A elf ktoken root (mem r₀) (mem r) (mem r') ↔ SegmentsInWindow A elf := by
  obtain ⟨h, hd, -, hall⟩ := loadElf_ok hl
  have hf : Placed P (mem r₀) ktoken elf root [] r := prepare_placed hk.ok hk.free hp
  have hlim := limit_aligned hA
  constructor
  · intro hconf
    have hf' : Placed P (mem r₀) ktoken elf root (imagePages elf h) r' := by
      rcases placed_or_broken hk.mapped hf hall with hf' | ⟨t, ht, i, habs, -, -, hpres⟩
      · exact hf'
      · rw [hconf.kernel t ht, hf.spaces.kernel t ht, habs] at hpres
        exact absurd hpres (by decide)
    -- every page of the image is in the user window
    have hwin : ∀ x ∈ imagePages elf h, InUserWindow A x.2 := by
      intro x hx
      have hown := hf'.own x hx
      obtain ⟨hc, hcal, hclow⟩ := canonical_canonicalOf hA hown.1
      have hw : A.window (canonicalOf A (slotOf A x) / PAGE_SIZE / 512 ^ A.depth % 512) := by
        rw [← lowPage_top, hclow]
        exact hown.2
      have hnone : translate A.toMmu (mem r) root (canonicalOf A (slotOf A x)) = none := by
        by_contra hsome
        exact absurd ((hf.translates hw).1 hsome) List.not_mem_nil
      have hsome : translate A.toMmu (mem r') root (canonicalOf A (slotOf A x)) ≠ none :=
        (hf'.translates hw).2 (by rw [hclow]; exact List.mem_map_of_mem hx)
      obtain ⟨g, hg, a, ⟨ha1, ha2⟩, ha3, ha4⟩ := hconf.pages _ hc hcal hnone hsome
      -- a segment that has the page is the one it was mapped for
      have hmem : (g, canonicalOf A (slotOf A x)) ∈ imagePages elf h :=
        (mem_imagePages hd).2 ⟨hg, by show g.memsz ≠ 0; omega, mem_segmentPages.2 ⟨hcal, by show g.vaddr < _; omega, by
          show canonicalOf A (slotOf A x) < g.vaddr + g.memsz; omega⟩⟩
      have hsame : (g, canonicalOf A (slotOf A x)) = x :=
        List.inj_on_of_nodup_map hf'.nodup hmem hx (by show lowPage _ _ = _; exact hclow)
      have hx2 : x.2 = canonicalOf A (slotOf A x) := (congrArg Prod.snd hsame).symm
      rw [hx2]
      by_contra hout
      rw [hconf.outside _ hc hout] at hsome
      exact hsome hnone
    intro g hg h0
    have hfirst : pageAddr g.vaddr ∈ segmentPages g := by
      refine mem_segmentPages.2 ⟨?_, ?_, ?_⟩ <;> simp only [pageAddr, PAGE_SIZE] <;> omega
    have hlast : pageAddr (g.vaddr + g.memsz - 1) ∈ segmentPages g := by
      refine mem_segmentPages.2 ⟨?_, ?_, ?_⟩ <;> simp only [pageAddr, PAGE_SIZE] <;> omega
    have h1 := hwin (g, _) ((mem_imagePages hd).2 ⟨hg, h0, hfirst⟩)
    have h2 := hwin (g, _) ((mem_imagePages hd).2 ⟨hg, h0, hlast⟩)
    obtain ⟨h1, -⟩ := h1
    obtain ⟨-, h2⟩ := h2
    simp only [PAGE_SIZE] at h1 h2 hlim
    omega
  · intro hin
    have hstep : ∀ x ∈ imagePages elf h, ∀ done s s', Placed P (mem r₀) ktoken elf root done s →
        loadPage A elf root x.1 x.2 s = (.ok (), s') → Placed P (mem r₀) ktoken elf root (done ++ [x]) s' := by
      intro x hx done s s' hs hx'
      obtain ⟨hg, h0, hva⟩ := (mem_imagePages hd).1 hx
      have hwx := page_inWindow hlim (hin x.1 hg h0) hva
      have hown := A.user_own x.2 hwx.1 hwx.2
      exact place_step hs (A.window_path hown) hx'
    exact confined_of_placed hA hd hin hf (loadAll_induct (J := Placed P (mem r₀) ktoken elf root) hstep hf hall)

end Confine

/-! ## Two images -/

/-- `n` zero bytes -/
def zeros (n : ℕ) : List Byte := List.replicate n 0

/-- an image of the machine with the `PT_LOAD` segments `gs`, and `file` behind its headers -/
def imageBytes (A : Arch) (entry : ℕ) (gs : List Segment) (file : List Byte) : List Byte :=
  [0x7F, 0x45, 0x4C, 0x46, 2] ++ zeros 11 ++ leBytes 2 ET_EXEC ++ leBytes 2 A.machine ++ zeros 4 ++ leBytes 8 entry ++
    leBytes 8 EHDR_SIZE ++ zeros 14 ++ leBytes 2 PHDR_SIZE ++ leBytes 2 gs.length ++ zeros 6 ++
    gs.flatMap (fun g => leBytes 4 PT_LOAD ++ leBytes 4 g.flags ++ leBytes 8 g.offset ++ leBytes 8 g.vaddr ++ zeros 8 ++
      leBytes 8 g.filesz ++ leBytes 8 g.memsz ++ zeros 8) ++ file

/-- the kernel's root at page 1, an empty page table at page 2 below its first entry, and the pages from 3 on to hand out -/
def bootedPages : FrameList :=
  ⟨hang X86.fmt (fun _ _ => 0) PAGE_SIZE 0 (2 * PAGE_SIZE), (List.range' 3 12).map (· * PAGE_SIZE)⟩

theorem bootedPages_kernel : KernelSpace (FrameList.supply X86.toMmu) PAGE_SIZE bootedPages := by
  have hall : ∀ g ∈ bootedPages.left, g % PAGE_SIZE = 0 ∧ g < 2 ^ 52 := by decide
  have hempty : ∀ i, True → X86.fmt.present ((fun _ _ => 0 : Mem) PAGE_SIZE i) = false := fun _ _ => X86.fmt.present_empty
  obtain ⟨htree, htab⟩ : RadixTree.Tree X86.fmt X86.depth (fun _ => True) (fun _ _ => 0 : Mem) PAGE_SIZE ∧
      RadixTree.tables X86.fmt X86.depth (fun _ => True) (fun _ _ => 0 : Mem) PAGE_SIZE = {PAGE_SIZE} := Tree.fresh _ _ hempty
  -- the kernel has the two page tables
  have hframes : kernelFrames X86.toMmu (mem bootedPages) (X86.root PAGE_SIZE) = {2 * PAGE_SIZE, PAGE_SIZE} := by
    have hp : Valid X86.depth (fun _ => True) [0] := ⟨by decide, by simp, fun _ _ => trivial⟩
    have hnew : 2 * PAGE_SIZE ∉ RadixTree.tables X86.fmt X86.depth (fun _ => True) (fun _ _ => 0 : Mem) PAGE_SIZE := by
      rw [htab]
      decide
    have hh := tables_hang htree hp rfl (hempty 0 trivial) hnew (X86.fits_of_lt (by decide) (by decide))
    rw [htab] at hh
    exact hh
  refine ⟨⟨by decide, fun g hg => X86.fits_of_lt (hall g hg).1 (hall g hg).2⟩, fun t ht => ?_, fun i hi => ?_⟩
  · rw [hframes] at ht
    show t ∉ bootedPages.left
    rcases ht with rfl | rfl
    · decide
    · decide
  · obtain rfl : i = 0 := Nat.lt_one_iff.1 hi
    decide +kernel

/-- a segment of two pages in the user window: three bytes of the file, then zeros -/
def userImage : List Byte := imageBytes X86 0x8000000234 [⟨5, 120, 0x8000000234, 3, 0x1800⟩] [0x0F, 0x05, 0xF4]

/-- an image whose one segment is in the user window is confined -/
theorem userSegment_confined :
    let r := (prepare X86.toMmu PAGE_SIZE bootedPages).2
    let r' := (loadElf X86 userImage 0x3000 r).2
    translate X86.toMmu (mem r') 0x3000 0x8000001000 = some 0x8000 ∧
      Confined X86 userImage PAGE_SIZE 0x3000 (mem bootedPages) (mem r) (mem r') := by
  intro r r'
  have hp : prepare X86.toMmu PAGE_SIZE bootedPages = (some 0x3000, r) := rfl
  have hres : (loadElf X86 userImage 0x3000 r).1 = .ok 0x8000000234 := by decide +kernel
  have hl : loadElf X86 userImage 0x3000 r = (.ok 0x8000000234, r') := by
    rw [← hres]
  refine ⟨by decide +kernel, (confined_iff (Or.inl rfl) bootedPages_kernel hp hl).2 ?_⟩
  rintro g ⟨h, hd, i, hi, hg⟩ -
  have hh : readHeader X86 userImage = .ok ⟨0x8000000234, 64, 56, 1⟩ := by decide +kernel
  obtain rfl := Except.ok.inj (hd.symm.trans hh)
  obtain rfl : i = 0 := Nat.lt_one_iff.1 hi
  have hg' : readPhdr userImage ⟨0x8000000234, 64, 56, 1⟩ 0 = .ok (some ⟨5, 120, 0x8000000234, 3, 0x1800⟩) := by decide +kernel
  obtain rfl := Option.some.inj (Except.ok.inj (hg.symm.trans hg'))
  decide

/-- a segment of one byte at 1 GiB, below the root entry the space shares with the kernel -/
def kernelImage : List Byte := imageBytes X86 0x40000000 [⟨5, 120, 0x40000000, 1, 1⟩] [0xF4]

/-- **An image that reaches into the kernel's page tables** is accepted: its page translates outside the user window, through an
entry the load has added to a page table of the kernel. -/
theorem kernelSegment_loads :
    let r := (prepare X86.toMmu PAGE_SIZE bootedPages).2
    let r' := (loadElf X86 kernelImage 0x3000 r).2
    KernelSpace (FrameList.supply X86.toMmu) PAGE_SIZE bootedPages ∧
      prepare X86.toMmu PAGE_SIZE bootedPages = (some 0x3000, r) ∧ loadElf X86 kernelImage 0x3000 r = (.ok 0x40000000, r') ∧
      ¬InUserWindow X86 0x40000000 ∧ translate X86.toMmu (mem r) 0x3000 0x40000000 = none ∧
      translate X86.toMmu (mem r') 0x3000 0x40000000 = some 0x4000 ∧
      2 * PAGE_SIZE ∈ kernelFrames X86.toMmu (mem bootedPages) (X86.root PAGE_SIZE) ∧
      mem r' (2 * PAGE_SIZE) 1 ≠ mem r (2 * PAGE_SIZE) 1 ∧
      ¬Confined X86 kernelImage PAGE_SIZE 0x3000 (mem bootedPages) (mem r) (mem r') := by
  intro r r'
  have hout : ¬InUserWindow X86 0x40000000 := by decide
  have hnone : translate X86.toMmu (mem r) 0x3000 0x40000000 = none := by decide +kernel
  have hsome : translate X86.toMmu (mem r') 0x3000 0x40000000 = some 0x4000 := by decide +kernel
  have hframe : 2 * PAGE_SIZE ∈ kernelFrames X86.toMmu (mem bootedPages) (X86.root PAGE_SIZE) :=
    mem_tables (p := [0]) ⟨by decide, by simp, fun _ _ => trivial⟩ (by decide +kernel)
  have hres : (loadElf X86 kernelImage 0x3000 r).1 = .ok 0x40000000 := by decide +kernel
  refine ⟨bootedPages_kernel, rfl, ?_, hout, hnone, hsome, hframe, by decide +kernel, fun hconf => ?_⟩
  · rw [← hres]
  · have hsame := hconf.outside 0x40000000 (Or.inl (by decide)) hout
    rw [hnone, hsome] at hsame
    exact absurd hsame (by decide)

end Rustproof.Loader
