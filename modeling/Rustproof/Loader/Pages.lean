/-
An accepted image, page by page.

`load_elf` walks the program headers and, within a segment, its pages. `imagePages` is the list of pages it comes to, and
`loadElf_ok` says that an accepted load is `loadPage` along that list.

`Filled` is what holds along the way while every page lies in a part of the address space that is the space's own: each page is
mapped once, to a frame of its own that has the segment's bytes, and nothing else is mapped. `fill_step` adds a page.
-/
import Rustproof.Loader.Spec
import Rustproof.Vspace.Isolation

namespace Rustproof.Loader

open Lib RadixTree Vspace FrameAllocator

variable {A : Arch} {α : Type} [FrameAllocator α] {root : ℕ} {elf : List Byte}

/-! ## The pages of an image -/

/-- the pages of program header `i`: none unless it is a `PT_LOAD` with something in it -/
def headerPages (elf : List Byte) (h : Header) (i : ℕ) : List (Segment × ℕ) :=
  match readPhdr elf h i with
  | .ok (some g) => if g.memsz = 0 then [] else (segmentPages g).map (Prod.mk g)
  | _ => []

/-- the pages of an image, in the order they are loaded -/
def imagePages (elf : List Byte) (h : Header) : List (Segment × ℕ) := (List.range h.phnum).flatMap (headerPages elf h)

theorem mem_headerPages {h : Header} {i : ℕ} {x : Segment × ℕ} :
    x ∈ headerPages elf h i ↔ readPhdr elf h i = .ok (some x.1) ∧ x.1.memsz ≠ 0 ∧ x.2 ∈ segmentPages x.1 := by
  unfold headerPages
  constructor
  · intro hx
    split at hx
    · next g hg =>
      split_ifs at hx with h0
      · exact absurd hx List.not_mem_nil
      · obtain ⟨va, hva, rfl⟩ := List.mem_map.1 hx
        exact ⟨hg, h0, hva⟩
    · exact absurd hx List.not_mem_nil
  · rintro ⟨hg, h0, hva⟩
    rw [hg]
    dsimp only
    rw [if_neg h0]
    exact List.mem_map.2 ⟨x.2, hva, rfl⟩

theorem mem_imagePages {h : Header} (hd : readHeader A elf = .ok h) {x : Segment × ℕ} :
    x ∈ imagePages elf h ↔ Loads A elf x.1 ∧ x.1.memsz ≠ 0 ∧ x.2 ∈ segmentPages x.1 := by
  unfold imagePages
  rw [List.mem_flatMap]
  constructor
  · rintro ⟨i, hi, hx⟩
    obtain ⟨hg, h0, hva⟩ := mem_headerPages.1 hx
    exact ⟨⟨h, hd, i, List.mem_range.1 hi, hg⟩, h0, hva⟩
  · rintro ⟨⟨h', hd', i, hi, hg⟩, h0, hva⟩
    obtain rfl := Except.ok.inj (hd.symm.trans hd')
    exact ⟨i, List.mem_range.2 hi, mem_headerPages.2 ⟨hg, h0, hva⟩⟩

/-- a page is a segment's if it meets its range -/
theorem mem_segmentPages {g : Segment} {va : ℕ} :
    va ∈ segmentPages g ↔ va % PAGE_SIZE = 0 ∧ g.vaddr < va + PAGE_SIZE ∧ va < g.vaddr + g.memsz := by
  unfold segmentPages
  simp only [List.mem_map, List.mem_range, pageAddr, PAGE_SIZE]
  constructor
  · rintro ⟨k, hk, rfl⟩
    omega
  · rintro ⟨hal, hlo, hhi⟩
    exact ⟨(va - g.vaddr / 4096 * 4096) / 4096, by omega, by omega⟩

/-- load pages in order, until one fails -/
def loadAll (A : Arch) (elf : List Byte) (root : ℕ) : List (Segment × ℕ) → α → Except LoadError Unit × α
  | [], r => (.ok (), r)
  | x :: xs, r =>
    match loadPage A elf root x.1 x.2 r with
    | (.error e, r) => (.error e, r)
    | (.ok _, r) => loadAll A elf root xs r

theorem loadAll_append {xs ys : List (Segment × ℕ)} {r r' : α} (h : loadAll A elf root xs r = (.ok (), r')) :
    loadAll A elf root (xs ++ ys) r = loadAll A elf root ys r' := by
  induction xs generalizing r with
  | nil => obtain rfl := (Prod.mk.inj h).2; rfl
  | cons x xs ih =>
    rw [loadAll] at h
    rw [List.cons_append, loadAll]
    rcases hx : loadPage A elf root x.1 x.2 r with ⟨e | _, r₁⟩
    · rw [hx] at h; exact absurd (Prod.mk.inj h).1 (by simp)
    · rw [hx] at h; exact ih h

theorem loadPages_eq (g : Segment) (vas : List ℕ) (r : α) :
    loadPages A elf root g vas r = loadAll A elf root (vas.map (Prod.mk g)) r := by
  induction vas generalizing r with
  | nil => rfl
  | cons va vas ih =>
    rw [List.map_cons, loadPages, loadAll]
    rcases loadPage A elf root g va r with ⟨_ | _, r'⟩
    · rfl
    · exact ih r'

theorem loadPhdrs_ok {h : Header} {is : List ℕ} {r r' : α} (hl : loadPhdrs A elf root h is r = (.ok (), r')) :
    loadAll A elf root (is.flatMap (headerPages elf h)) r = (.ok (), r') := by
  induction is generalizing r with
  | nil => exact hl
  | cons i is ih =>
    rw [loadPhdrs] at hl
    rw [List.flatMap_cons]
    rcases hg : readPhdr elf h i with _ | _ | g
    · rw [hg] at hl; exact absurd (Prod.mk.inj hl).1 (by simp)
    · rw [hg] at hl
      rw [headerPages, hg]
      exact ih hl
    · rw [hg] at hl
      dsimp only at hl
      rcases hs : loadSegment A elf root g r with ⟨e | u, r₁⟩
      · rw [hs] at hl; exact absurd (Prod.mk.inj hl).1 (by simp)
      · rw [hs] at hl
        have hpages : loadAll A elf root (headerPages elf h i) r = (.ok (), r₁) := by
          rw [headerPages, hg]
          dsimp only
          rw [loadSegment] at hs
          split_ifs at hs ⊢ with h0 hov
          · exact hs
          · exact absurd (Prod.mk.inj hs).1 (by simp)
          · rw [← loadPages_eq]; exact hs
        rw [loadAll_append hpages]
        exact ih hl

/-- **An accepted load**: the pages of the image in order, and the entry point of its header. -/
theorem loadElf_ok {r r' : α} {entry : ℕ} (hl : loadElf A elf root r = (.ok entry, r')) :
    ∃ h, readHeader A elf = .ok h ∧ entry = h.entry ∧ loadAll A elf root (imagePages elf h) r = (.ok (), r') := by
  rw [loadElf] at hl
  cases hd : readHeader A elf with
  | error e => rw [hd] at hl; exact absurd (Prod.mk.inj hl).1 (by simp)
  | ok h =>
    rw [hd] at hl
    dsimp only at hl
    rcases hp : loadPhdrs A elf root h (List.range h.phnum) r with ⟨e | u, r₁⟩
    · rw [hp] at hl; exact absurd (Prod.mk.inj hl).1 (by simp)
    · rw [hp] at hl
      obtain ⟨hentry, rfl⟩ := Prod.mk.inj hl
      exact ⟨h, rfl, (Except.ok.inj hentry).symm, loadPhdrs_ok hp⟩

/-- what every page keeps, an accepted load keeps -/
theorem loadAll_induct {J : List (Segment × ℕ) → α → Prop} {xs done : List (Segment × ℕ)} {r r' : α}
    (step : ∀ x ∈ xs, ∀ done r r', J done r → loadPage A elf root x.1 x.2 r = (.ok (), r') → J (done ++ [x]) r')
    (h : J done r) (hl : loadAll A elf root xs r = (.ok (), r')) : J (done ++ xs) r' := by
  induction xs generalizing done r with
  | nil =>
    obtain rfl := (Prod.mk.inj hl).2
    rwa [List.append_nil]
  | cons x xs ih =>
    rw [loadAll] at hl
    rcases hx : loadPage A elf root x.1 x.2 r with ⟨e | _, r₁⟩
    · rw [hx] at hl; exact absurd (Prod.mk.inj hl).1 (by simp)
    · rw [hx] at hl
      have := ih (fun y hy => step y (List.mem_cons_of_mem _ hy)) (step x List.mem_cons_self done r r₁ h hx) hl
      rwa [List.append_assoc] at this

/-! ## Mapping beyond the bits of the walk -/

section Low

variable {U : Mmu}

theorem descend_low {v w l t : ℕ} {r : α} (h : ∀ k ≤ l, v / 512 ^ k % 512 = w / 512 ^ k % 512) :
    descend U v l t r = descend U w l t r := by
  induction l generalizing t r with
  | zero => rfl
  | succ l ih =>
    have ih : ∀ (t : ℕ) (r : α), descend U v l t r = descend U w l t r := fun t r => ih fun k hk => h k (by omega)
    rw [descend, descend, h (l + 1) le_rfl]
    simp only [ih]

/-- `map` uses the bits of the address that a walk uses -/
theorem map_low {va va' pa : ℕ} {flags : Word} {r : α} (hal : va % PAGE_SIZE = va' % PAGE_SIZE)
    (hv : va' / PAGE_SIZE = lowPage U (va / PAGE_SIZE)) : map U root va pa flags r = map U root va' pa flags r := by
  have hdigit : ∀ k ≤ U.depth, va / PAGE_SIZE / 512 ^ k % 512 = va' / PAGE_SIZE / 512 ^ k % 512 := by
    intro k hk
    rw [hv]
    exact (lowPage_digit hk).symm
  have h0 := hdigit 0 (Nat.zero_le _)
  rw [pow_zero, Nat.div_one, Nat.div_one] at h0
  unfold map
  dsimp only
  rw [hal, h0, descend_low hdigit]

end Low

/-! ## Filling a space -/

/-- the page number a page of the image is mapped at -/
def slotOf (A : Arch) (x : Segment × ℕ) : ℕ := lowPage A.toMmu (x.2 / PAGE_SIZE)

/-- the leaf flags of a segment -/
def segmentFlags (A : Arch) (g : Segment) : Word := A.elfFlags (g.flags / 2 % 2 == 1) (g.flags % 2 == 1)

/-- byte `o` of a loaded page: the image's where the file reaches, and zero around it -/
def pageByte (elf : List Byte) (x : Segment × ℕ) (o : ℕ) : Byte :=
  if x.1.vaddr ≤ x.2 + o ∧ x.2 + o < x.1.vaddr + min x.1.filesz x.1.memsz then
    (elf[x.1.offset + (x.2 + o - x.1.vaddr)]?).getD 0
  else 0

variable {P : Supply A.toMmu α}

/-- the pages `done` of the image, and no others, are mapped in the space under `root`: each once, to a frame of its own that is
no table, with the flags and the bytes of its segment -/
structure Filled (P : Supply A.toMmu α) (elf : List Byte) (root : ℕ) (done : List (Segment × ℕ)) (r : α) : Prop where
  built : Built P root r
  own : ∀ x ∈ done, A.Own (slotOf A x)
  nodup : (done.map (slotOf A)).Nodup
  absent : ∀ v, A.Own v → v ∉ done.map (slotOf A) → A.fmt.present (A.leaf (mem r) root v) = false
  page : ∀ x ∈ done, ∃ frame, A.leaf (mem r) root (slotOf A x) = A.entry frame (segmentFlags A x.1) ∧
    (frame % PAGE_SIZE = 0 ∧ frame < A.physLimit) ∧ (frame ∉ P.free r ∧ frame ∉ A.tables (mem r) root) ∧
    ∀ o < PAGE_SIZE, readByte (mem r) (frame + o) = pageByte elf x o

theorem segmentFlags_ok (g : Segment) : A.flagsOk (segmentFlags A g) = true :=
  (A.encode_spec _ _ (A.elfFlags_eq _ _)).1

/-- at a page that is loaded the walk ends at its leaf, whose frame has the page's bytes -/
theorem Filled.walk_page {done : List (Segment × ℕ)} {r : α} (hf : Filled P elf root done r) {x : Segment × ℕ} (hx : x ∈ done) :
    ∃ frame, walk A.fmt (mem r) (slotOf A x) A.depth root = some (0, A.entry frame (segmentFlags A x.1)) ∧
      (frame % PAGE_SIZE = 0 ∧ frame < A.physLimit) ∧ frame ∉ P.free r ∧
      ∀ o < PAGE_SIZE, readByte (mem r) (frame + o) = pageByte elf x o := by
  obtain ⟨frame, hleaf, hfits, ⟨hgone, -⟩, hbytes⟩ := hf.page x hx
  refine ⟨frame, ?_, hfits, hgone, hbytes⟩
  have hwalk := walk_eq_leaf hf.built.tree (A.window_path (hf.own x hx))
  unfold Mmu.leaf at hleaf
  rw [hleaf, if_pos (A.entry_present frame _ (segmentFlags_ok x.1))] at hwalk
  exact hwalk

/-- at any other page of the space's own the walk finds nothing -/
theorem Filled.walk_absent {done : List (Segment × ℕ)} {r : α} (hf : Filled P elf root done r) {v : ℕ} (hv : A.Own v)
    (hn : v ∉ done.map (slotOf A)) : walk A.fmt (mem r) v A.depth root = none := by
  have hwalk := walk_eq_leaf hf.built.tree (A.window_path hv)
  have habs := hf.absent v hv hn
  unfold Mmu.leaf at habs
  rw [habs, if_neg fun h => absurd h.1 (by decide)] at hwalk
  exact hwalk

/-- the bytes of a page after its frame is scrubbed and filled -/
theorem pageBytes_spec {g : Segment} {va intra : ℕ} {bytes : List Byte} (h : pageBytes elf g va = .ok (intra, bytes)) (m : Mem)
    {frame : ℕ} (hal : frame % PAGE_SIZE = 0) {o : ℕ} (ho : o < PAGE_SIZE) :
    readByte (writeBytes (m.fill frame 0) (frame + intra) bytes) (frame + o) = pageByte elf (g, va) o := by
  have hzero : readByte (m.fill frame 0) (frame + o) = 0 := readByte_fill m (pageAddr_add hal ho)
  rw [readByte_writeBytes, hzero]
  unfold pageBytes at h
  dsimp only at h
  unfold pageByte
  dsimp only
  split_ifs at h with hlt hbad
  · obtain ⟨rfl, rfl⟩ := Prod.mk.inj (Except.ok.inj h)
    have hstart : max va g.vaddr - va + (min (va + PAGE_SIZE) (min (g.vaddr + g.filesz) (g.vaddr + g.memsz)) - max va g.vaddr) =
        min (va + PAGE_SIZE) (min (g.vaddr + g.filesz) (g.vaddr + g.memsz)) - va := by omega
    have hmin : min (g.vaddr + g.filesz) (g.vaddr + g.memsz) = g.vaddr + min g.filesz g.memsz := by omega
    rw [hmin] at hlt hbad hstart ⊢
    by_cases hin : g.vaddr ≤ va + o ∧ va + o < g.vaddr + min g.filesz g.memsz
    · -- inside the copy: the file offset advances with the address
      have hle : frame + (max va g.vaddr - va) ≤ frame + o := by omega
      have hidx : g.offset + (max va g.vaddr - g.vaddr) + (frame + o - (frame + (max va g.vaddr - va))) =
          g.offset + (va + o - g.vaddr) := by omega
      rw [if_pos hle, if_pos hin, List.getElem?_take, if_pos (by omega), List.getElem?_drop, hidx]
    · rw [if_neg hin]
      split_ifs with hle
      · rw [List.getElem?_take, if_neg (by omega)]
        rfl
      · rfl
  · obtain ⟨rfl, rfl⟩ := Prod.mk.inj (Except.ok.inj h)
    have hout : ¬(g.vaddr ≤ va + o ∧ va + o < g.vaddr + min g.filesz g.memsz) := by omega
    rw [if_neg hout]
    simp

/-- what an accepted page went through -/
theorem loadPage_ok {g : Segment} {va : ℕ} {r r' : α} (h : loadPage A elf root g va r = (.ok (), r')) :
    ∃ frame r₁ intra bytes, allocFrame r = (some frame, r₁) ∧ pageBytes elf g va = .ok (intra, bytes) ∧
      map A.toMmu root va frame (segmentFlags A g) (setMem r₁ (writeBytes ((mem r₁).fill frame 0) (frame + intra) bytes)) =
        (.ok (), r') := by
  rw [loadPage] at h
  rcases ha : allocFrame r with ⟨_ | frame, r₁⟩
  · rw [ha] at h; exact absurd (Prod.mk.inj h).1 (by simp)
  rw [ha] at h
  dsimp only at h
  cases hb : pageBytes elf g va with
  | error e => rw [hb] at h; exact absurd (Prod.mk.inj h).1 (by simp)
  | ok ib =>
    obtain ⟨intra, bytes⟩ := ib
    rw [hb] at h
    refine ⟨frame, r₁, intra, bytes, rfl, rfl, ?_⟩
    dsimp only at h
    unfold segmentFlags
    split at h
    · exact absurd (Prod.mk.inj h).1 (by simp)
    · next heq => rw [heq, (Prod.mk.inj h).2]

/-- a copy into a fresh frame stays in it -/
theorem writeBytes_frame {g : Segment} {va intra : ℕ} {bytes : List Byte} (h : pageBytes elf g va = .ok (intra, bytes)) (m : Mem)
    {frame : ℕ} (hal : frame % PAGE_SIZE = 0) {t : ℕ} (ht : t ≠ frame) :
    writeBytes (m.fill frame 0) (frame + intra) bytes t = m t := by
  have hin := pageBytes_in h
  rw [writeBytes_of_ne _ frame bytes (fun k hk => ?_) ht, Store.fill_of_ne _ ht]
  simp only [pageAddr, PAGE_SIZE] at *
  omega

/-- **One more page** of the space's own. -/
theorem fill_step {x : Segment × ℕ} {done : List (Segment × ℕ)} {r r' : α} (h : Filled P elf root done r)
    (hw : A.window (x.2 / PAGE_SIZE / 512 ^ A.depth % 512)) (hl : loadPage A elf root x.1 x.2 r = (.ok (), r')) :
    Filled P elf root (done ++ [x]) r' ∧ Within P root r r' := by
  obtain ⟨frame, r₁, intra, bytes, halloc, hbytes, hmap⟩ := loadPage_ok hl
  have hbuilt := h.built
  obtain ⟨hfree, -⟩ := P.fresh r frame hbuilt.ok (by rw [halloc])
  have hfits := (A.fits frame).1 (P.fits r frame hbuilt.ok hfree)
  obtain ⟨hg, hgone, hnt, hleaf⟩ := grown_filled hbuilt halloc fun t ht => writeBytes_frame hbytes (mem r₁) hfits.1 ht
  set r₂ := setMem r₁ (writeBytes ((mem r₁).fill frame 0) (frame + intra) bytes) with hr₂
  have hmem₂ : mem r₂ = writeBytes ((mem r₁).fill frame 0) (frame + intra) bytes := mem_setMem _ _
  -- the page is mapped at the address the walk sees
  have hown : A.Own (slotOf A x) := lowPage_own hw
  have hal : x.2 % PAGE_SIZE = (slotOf A x * PAGE_SIZE + x.2 % PAGE_SIZE) % PAGE_SIZE := by
    simp only [PAGE_SIZE]; omega
  have hdiv : (slotOf A x * PAGE_SIZE + x.2 % PAGE_SIZE) / PAGE_SIZE = slotOf A x := by
    simp only [PAGE_SIZE]; omega
  rw [map_low hal hdiv] at hmap
  obtain ⟨hg', hres⟩ := map_spec frame (segmentFlags A x.1) (hdiv.symm ▸ hown) hg.built
  rw [hmap] at hg' hres
  obtain ⟨-, habs, hset⟩ := hres
  rw [hdiv] at habs hset
  change A.fmt.present (A.leaf (mem r₂) root (slotOf A x)) = false at habs
  rw [hmem₂, hleaf _ hown] at habs
  have hall := hg.trans hg'
  have hleaf' : ∀ v, A.Own v → A.leaf (mem r') root v =
      if v = slotOf A x then A.entry frame (segmentFlags A x.1) else A.leaf (mem r) root v := by
    intro v hv
    rw [hset v hv, hmem₂, hleaf v hv]
  have hnew : slotOf A x ∉ done.map (slotOf A) := by
    intro hmem
    obtain ⟨y, hy, hyx⟩ := List.mem_map.1 hmem
    obtain ⟨f, hf, -⟩ := h.page y hy
    rw [hyx] at hf
    rw [hf, (A.entry_present f _ (segmentFlags_ok y.1)).1] at habs
    exact absurd habs (by decide)
  -- a frame that is neither free nor a table keeps its bytes
  have hbytes' : ∀ {u u' : α} {f : ℕ}, Grown P root u u' → f % PAGE_SIZE = 0 → f ∉ P.free u ∧ f ∉ A.tables (mem u) root →
      ∀ o < PAGE_SIZE, readByte (mem u') (f + o) = readByte (mem u) (f + o) := by
    intro u u' f hu hf hfu o ho
    refine readByte_congr ?_
    rw [pageAddr_add hf ho]
    exact hu.off f hfu.2 hfu.1
  refine ⟨⟨hall.built, fun y hy => ?_, ?_, fun v hv hn => ?_, fun y hy => ?_⟩, hall.toWithin⟩
  · rcases List.mem_append.1 hy with hy | hy
    · exact h.own y hy
    · rw [List.mem_singleton.1 hy]; exact hown
  · rw [List.map_append, List.map_singleton]
    refine List.nodup_append.2 ⟨h.nodup, List.nodup_singleton _, fun a ha b hb => ?_⟩
    rw [List.mem_singleton.1 hb]
    rintro rfl
    exact hnew ha
  · rw [List.map_append, List.map_singleton, List.mem_append, not_or, List.mem_singleton] at hn
    rw [hleaf' v hv, if_neg hn.2]
    exact h.absent v hv hn.1
  · rcases List.mem_append.1 hy with hy | hy
    · obtain ⟨f, hf, hfit, hout, hread⟩ := h.page y hy
      have hne : slotOf A y ≠ slotOf A x := fun e => hnew (e ▸ List.mem_map_of_mem hy)
      refine ⟨f, ?_, hfit, own_grown hall hout, fun o ho => ?_⟩
      · rw [hleaf' _ (h.own y hy), if_neg hne]; exact hf
      · rw [hbytes' hall hfit.1 hout o ho]; exact hread o ho
    · rw [List.mem_singleton.1 hy]
      have hout : frame ∉ P.free r₂ ∧ frame ∉ A.tables (mem r₂) root := ⟨hgone, by rw [hmem₂]; exact hnt⟩
      refine ⟨frame, ?_, hfits, own_grown hg' hout, fun o ho => ?_⟩
      · rw [hleaf' _ hown, if_pos rfl]
      · rw [hbytes' hg' hfits.1 hout o ho, hmem₂]
        exact pageBytes_spec hbytes (mem r₁) hfits.1 ho

end Rustproof.Loader
