/-
What loading does to a fresh space: every leaf it makes maps a fresh frame that is no page of the tree.

`OwnLeaves` says it of all leaves. Growing a space keeps it, because new tables are fresh frames (`OwnLeaves.grown`), and
each mapped page adds a frame that was just allocated for it.
- `loadElf_spec`: loading an image whose segments lie in the user window.
- `loadStack_spec`: the stack pages.
-/
import Rustproof.Loader.Elf
import Rustproof.Vspace.Spec

namespace Rustproof.Loader

open Lib RadixTree Vspace FrameAllocator

variable {A : Arch} {U : Mmu} {α : Type} [FrameAllocator α] {root : ℕ} {G V : Set ℕ}

/-- every present leaf is at a page of `V`, and maps a frame of `G` that was handed out, and not for a table -/
def OwnLeaves (P : Supply U α) (G V : Set ℕ) (root : ℕ) (r : α) : Prop :=
  ∀ v, U.Own v → U.fmt.present (U.leaf (mem r) root v) = true →
    (v ∈ V ∧ U.fmt.addr (U.leaf (mem r) root v) ∈ G) ∧ U.fmt.addr (U.leaf (mem r) root v) ∉ P.free r ∧
      U.fmt.addr (U.leaf (mem r) root v) ∉ U.tables (mem r) root

section Space

variable {P : Supply U α} {r r' : α}

/-- a frame that is handed out and no table stays so while the space grows -/
theorem own_grown (hg : Grown P root r r') {a : ℕ} (ha : a ∉ P.free r ∧ a ∉ U.tables (mem r) root) :
    a ∉ P.free r' ∧ a ∉ U.tables (mem r') root := by
  refine ⟨fun hf => ha.1 (hg.free hf), fun ht => ?_⟩
  rcases hg.tables _ ht with ht | ⟨hf, -⟩
  · exact ha.2 ht
  · exact ha.1 hf

theorem OwnLeaves.grown (ho : OwnLeaves P G V root r) (hg : Grown P root r r')
    (hl : ∀ v, U.Own v → U.leaf (mem r') root v = U.leaf (mem r) root v) : OwnLeaves P G V root r' := by
  intro v hv hp
  rw [hl v hv] at hp ⊢
  exact ⟨(ho v hv hp).1, own_grown hg (ho v hv hp).2⟩

/-- a fresh frame, filled -/
theorem grown_filled (h : Built P root r) {frame : ℕ} (halloc : allocFrame r = (some frame, r')) {m : Mem}
    (hm : ∀ t, t ≠ frame → m t = mem r' t) :
    Grown P root r (setMem r' m) ∧ frame ∉ P.free (setMem r' m) ∧ frame ∉ U.tables m root ∧
      ∀ v, U.Own v → U.leaf m root v = U.leaf (mem r) root v := by
  obtain ⟨hfree, hgone⟩ := P.fresh r frame h.ok (by rw [halloc])
  have hok := P.ok_alloc r h.ok
  have hsub := P.free_alloc r h.ok
  have hmem := fun t ht => P.mem_alloc r t h.ok ht
  rw [halloc] at hgone hok hsub hmem
  have hoff : ∀ t, t ∉ P.free r → m t = mem r t := fun t ht => (hm t fun e => ht (e ▸ hfree)).trans (hmem t ht)
  have hsame : ∀ t ∈ U.tables (mem r) root, m t = mem r t := fun t ht => hoff t (h.apart t ht)
  have htab : U.tables m root = U.tables (mem r) root := tables_congr hsame
  have hfr : P.free (setMem r' m) = P.free r' := P.free_write r' m hok
  refine ⟨⟨⟨⟨P.ok_write r' m hok, ?_, fun t ht => ?_⟩, fun t ht => Or.inl ?_, ?_, fun t _ hf => ?_, fun p t hp ht => ?_,
    fun i _ => ?_⟩, fun T ha hw hT => ?_⟩,
    by rw [hfr]; exact hgone, fun ht => h.apart frame (htab ▸ ht) hfree, fun v hv => Vspace.leaf_congr hsame hv⟩
  · rw [mem_setMem]; exact h.tree.congr hsame
  · rw [mem_setMem, htab] at ht
    rw [hfr]; exact fun hc => h.apart t ht (hsub hc)
  · rw [mem_setMem, htab] at ht; exact ht
  · rw [hfr]; exact hsub
  · rw [mem_setMem]; exact hoff t hf
  · rw [mem_setMem]; exact (tableAt_congr hsame hp).trans ht
  · rw [mem_setMem, hsame root (root_mem_tables _ _)]
  · have := ha r (Within.refl h) hT
    rw [halloc] at this
    exact hw _ _ this

/-- a fresh frame, filled, then mapped at its own page: the two steps `load_segment` and the stack loop share -/
theorem mapFresh_spec {frame va : ℕ} {m : Mem} (flags : Word) (h : Built P root r) (ho : OwnLeaves P G V root r)
    (hG : P.free r ⊆ G) (halloc : allocFrame r = (some frame, r')) (hm : ∀ t, t ≠ frame → m t = mem r' t)
    (hv : U.Own (va / PAGE_SIZE)) (hV : va / PAGE_SIZE ∈ V) :
    Grown P root r (map U root va frame flags (setMem r' m)).2 ∧
      OwnLeaves P G V root (map U root va frame flags (setMem r' m)).2 := by
  obtain ⟨hg₂, hgone, hnt, hl₂⟩ := grown_filled h halloc hm
  have hfree : frame ∈ P.free r := (P.fresh r frame h.ok (by rw [halloc])).1
  have ho₂ := ho.grown hg₂ fun v hvv => by rw [mem_setMem]; exact hl₂ v hvv
  obtain ⟨hg₃, hres⟩ := map_spec frame flags hv hg₂.built
  refine ⟨hg₂.trans hg₃, ?_⟩
  cases hm₃ : (map U root va frame flags (setMem r' m)).1 with
  | error e => rw [hm₃] at hres; exact ho₂.grown hg₃ hres.2
  | ok u =>
    rw [hm₃] at hres
    obtain ⟨-, -, hset⟩ := hres
    intro v hvv hp
    rw [hset v hvv] at hp ⊢
    split_ifs at hp ⊢ with hvv'
    · obtain ⟨hal, hlt⟩ := (U.fits frame).1 (P.fits r frame h.ok hfree)
      rw [U.entry_addr frame flags hal hlt]
      exact ⟨⟨hvv' ▸ hV, hG hfree⟩, own_grown hg₃ ⟨hgone, by rw [mem_setMem]; exact hnt⟩⟩
    · exact ⟨(ho₂ v hvv hp).1, own_grown hg₃ (ho₂ v hvv hp).2⟩

end Space

section Load

variable {P : Supply A.toMmu α} {r : α}

/-! ## The image -/

theorem pageBytes_in {elf : List Byte} {g : Segment} {va intra : ℕ} {bytes : List Byte}
    (h : pageBytes elf g va = .ok (intra, bytes)) : intra + bytes.length ≤ PAGE_SIZE := by
  rw [pageBytes] at h
  simp only at h
  split_ifs at h with h1 h2
  · obtain ⟨rfl, rfl⟩ := Prod.mk.inj (Except.ok.inj h)
    rw [List.length_take]
    omega
  · obtain ⟨rfl, rfl⟩ := Prod.mk.inj (Except.ok.inj h)
    simp

theorem loadPage_spec {g : Segment} {va : ℕ} (elf : List Byte) (hv : A.Own (va / PAGE_SIZE)) (hV : va / PAGE_SIZE ∈ V)
    (h : Built P root r) (ho : OwnLeaves P G V root r) (hG : P.free r ⊆ G) :
    Grown P root r (loadPage A elf root g va r).2 ∧ OwnLeaves P G V root (loadPage A elf root g va r).2 := by
  obtain ⟨hg, -, hl⟩ := grown_alloc h
  rw [loadPage]
  rcases halloc : allocFrame r with ⟨_ | frame, r₁⟩
  · rw [halloc] at hg hl
    exact ⟨hg, ho.grown hg hl⟩
  simp only
  cases hb : pageBytes elf g va with
  | error e =>
    rw [halloc] at hg hl
    exact ⟨hg, ho.grown hg hl⟩
  | ok ib =>
    obtain ⟨intra, bytes⟩ := ib
    have hin := pageBytes_in hb
    have hal := ((A.fits frame).1 (P.fits r frame h.ok (P.fresh r frame h.ok (by rw [halloc])).1)).1
    have hm : ∀ t, t ≠ frame → writeBytes ((mem r₁).fill frame 0) (frame + intra) bytes t = mem r₁ t := fun t ht => by
      rw [writeBytes_of_ne _ frame bytes (fun k hk => ?_) ht, Store.fill_of_ne _ ht]
      simp only [pageAddr, PAGE_SIZE] at *
      omega
    obtain ⟨hg, ho'⟩ := mapFresh_spec (A.elfFlags (g.flags / 2 % 2 == 1) (g.flags % 2 == 1)) h ho hG halloc hm hv hV
    simp only
    rcases hmap : map A.toMmu root va frame (A.elfFlags (g.flags / 2 % 2 == 1) (g.flags % 2 == 1))
      (setMem r₁ (writeBytes ((mem r₁).fill frame 0) (frame + intra) bytes)) with ⟨_ | _, r₂⟩
    all_goals rw [hmap] at hg ho'; exact ⟨hg, ho'⟩

/-- loading page after page -/
theorem loadPages_spec {elf : List Byte} {g : Segment} {vas : List ℕ}
    (hv : ∀ va ∈ vas, A.Own (va / PAGE_SIZE) ∧ va / PAGE_SIZE ∈ V) (h : Built P root r) (ho : OwnLeaves P G V root r)
    (hG : P.free r ⊆ G) :
    Grown P root r (loadPages A elf root g vas r).2 ∧ OwnLeaves P G V root (loadPages A elf root g vas r).2 := by
  induction vas generalizing r with
  | nil => exact ⟨Grown.refl h, ho⟩
  | cons va vas ih =>
    obtain ⟨hown, hin⟩ := hv va List.mem_cons_self
    obtain ⟨hg, ho'⟩ := loadPage_spec (g := g) elf hown hin h ho hG
    rw [loadPages]
    rcases hp : loadPage A elf root g va r with ⟨_ | _, r'⟩
    · rw [hp] at hg ho'; exact ⟨hg, ho'⟩
    · rw [hp] at hg ho'
      obtain ⟨hg', ho''⟩ :=
        ih (fun va' hva' => hv va' (List.mem_cons_of_mem _ hva')) hg.built ho' (hg.free.trans hG)
      exact ⟨hg.trans hg', ho''⟩

/-- the pages of a segment inside the user window are the process's own -/
theorem segmentPages_own {g : Segment} (hlo : A.userBase ≤ g.vaddr) (hhi : g.vaddr + g.memsz ≤ A.userLimit) {va : ℕ}
    (hva : va ∈ segmentPages g) : A.Own (va / PAGE_SIZE) := by
  have hal := A.base_aligned
  simp only [segmentPages, List.mem_map, List.mem_range] at hva
  obtain ⟨k, hk, rfl⟩ := hva
  refine A.user_own _ ?_ ?_
  · simp only [pageAddr, PAGE_SIZE] at *; omega
  · simp only [pageAddr, PAGE_SIZE] at *; omega

theorem loadSegment_spec {g : Segment} (elf : List Byte) (hlo : A.userBase ≤ g.vaddr)
    (hhi : g.vaddr + g.memsz ≤ A.userLimit) (hV : ∀ va ∈ segmentPages g, va / PAGE_SIZE ∈ V) (h : Built P root r)
    (ho : OwnLeaves P G V root r) (hG : P.free r ⊆ G) :
    Grown P root r (loadSegment A elf root g r).2 ∧ OwnLeaves P G V root (loadSegment A elf root g r).2 := by
  rw [loadSegment]
  split_ifs
  · exact ⟨Grown.refl h, ho⟩
  · exact ⟨Grown.refl h, ho⟩
  · exact loadPages_spec (fun va hva => ⟨segmentPages_own hlo hhi hva, hV va hva⟩) h ho hG

theorem loadPhdrs_spec (elf : List Byte) (hd : Header) (is : List ℕ)
    (hin : ∀ i ∈ is, ∀ g, readPhdr elf hd i = .ok (some g) →
      (A.userBase ≤ g.vaddr ∧ g.vaddr + g.memsz ≤ A.userLimit) ∧ ∀ va ∈ segmentPages g, va / PAGE_SIZE ∈ V)
    (h : Built P root r) (ho : OwnLeaves P G V root r) (hG : P.free r ⊆ G) :
    Grown P root r (loadPhdrs A elf root hd is r).2 ∧ OwnLeaves P G V root (loadPhdrs A elf root hd is r).2 := by
  induction is generalizing r with
  | nil => exact ⟨Grown.refl h, ho⟩
  | cons i is ih =>
    have hin' := fun j hj => hin j (List.mem_cons_of_mem i hj)
    rw [loadPhdrs]
    rcases hp : readPhdr elf hd i with _ | _ | g
    · exact ⟨Grown.refl h, ho⟩
    · exact ih hin' h ho hG
    · obtain ⟨⟨hlo, hhi⟩, hV⟩ := hin i List.mem_cons_self g hp
      obtain ⟨hg, ho'⟩ := loadSegment_spec elf hlo hhi hV h ho hG
      simp only
      rcases hs : loadSegment A elf root g r with ⟨_ | _, r'⟩
      · rw [hs] at hg ho'; exact ⟨hg, ho'⟩
      · rw [hs] at hg ho'
        obtain ⟨hg', ho''⟩ := ih hin' hg.built ho' (hg.free.trans hG)
        exact ⟨hg.trans hg', ho''⟩

/-- **Loading an image** grows the space, and every leaf maps a fresh frame that is no table. -/
theorem loadElf_spec {elf : List Byte} (hin : Inside A elf) (hV : ∀ g, Loads A elf g → ∀ va ∈ segmentPages g, va / PAGE_SIZE ∈ V)
    (h : Built P root r) (ho : OwnLeaves P G V root r) (hG : P.free r ⊆ G) :
    Grown P root r (loadElf A elf root r).2 ∧ OwnLeaves P G V root (loadElf A elf root r).2 := by
  rw [loadElf]
  cases hd : readHeader A elf with
  | error e => exact ⟨Grown.refl h, ho⟩
  | ok hdr =>
    obtain ⟨hg, ho'⟩ := loadPhdrs_spec elf hdr (List.range hdr.phnum)
      (fun i hi g hgi => have hl : Loads A elf g := ⟨hdr, hd, i, List.mem_range.1 hi, hgi⟩
        ⟨hin g hl, hV g hl⟩) h ho hG
    simp only
    rcases hp : loadPhdrs A elf root hdr (List.range hdr.phnum) r with ⟨_ | _, r'⟩
    all_goals rw [hp] at hg ho'; exact ⟨hg, ho'⟩

/-! ## The stack -/

theorem stack_own {p : ℕ} (hp1 : 1 ≤ p) (hp : p ≤ A.userStackPages) :
    A.Own ((A.userStackTop - p * PAGE_SIZE) / PAGE_SIZE) := by
  obtain ⟨h1, h2⟩ := A.stack_in
  have hmul : p * PAGE_SIZE ≤ A.userStackPages * PAGE_SIZE := Nat.mul_le_mul_right _ hp
  refine A.user_own _ ?_ ?_
  · omega
  · simp only [PAGE_SIZE] at *; omega

theorem loadStack_spec {ps : List ℕ}
    (hps : ∀ p ∈ ps, (1 ≤ p ∧ p ≤ A.userStackPages) ∧ (A.userStackTop - p * PAGE_SIZE) / PAGE_SIZE ∈ V)
    (h : Built P root r) (ho : OwnLeaves P G V root r) (hG : P.free r ⊆ G) :
    Grown P root r (loadStack A root ps r).2 ∧ OwnLeaves P G V root (loadStack A root ps r).2 := by
  induction ps generalizing r with
  | nil => exact ⟨Grown.refl h, ho⟩
  | cons p ps ih =>
    obtain ⟨⟨hp1, hp2⟩, hV⟩ := hps p List.mem_cons_self
    obtain ⟨hg, -, hl⟩ := grown_alloc h
    rw [loadStack]
    rcases halloc : allocFrame r with ⟨_ | frame, r₁⟩
    · rw [halloc] at hg hl
      exact ⟨hg, ho.grown hg hl⟩
    simp only [mapPage]
    cases henc : A.encode Perms.USER_RW with
    | none =>
      rw [halloc] at hg hl
      exact ⟨hg, ho.grown hg hl⟩
    | some flags =>
      obtain ⟨hg, ho'⟩ := mapFresh_spec flags h ho hG halloc (fun _ _ => rfl) (stack_own hp1 hp2) hV
      rw [setMem_mem] at hg ho'
      simp only
      rcases hm : map A.toMmu root (A.userStackTop - p * PAGE_SIZE) frame flags r₁ with ⟨_ | _, r₂⟩
      · rw [hm] at hg ho'; exact ⟨hg, ho'⟩
      · rw [hm] at hg ho'
        obtain ⟨hg', ho''⟩ := ih (fun q hq => hps q (List.mem_cons_of_mem _ hq)) hg.built ho' (hg.free.trans hG)
        exact ⟨hg.trans hg', ho''⟩

end Load

end Rustproof.Loader
