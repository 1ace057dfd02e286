/-
What an accepted image leaves in a fresh space.

A fresh space is a new root with nothing shared, so every page number is the space's own (`whole`), and after an accepted load
the pages of the image are its leaves, each mapped once (`loadElf_filled`).

- `Filled.reads`: what is read at an address of the image, through the walk and the page's frame.
- `load_content`: the bytes, the flags and the entry point after an accepted load, and the images that are refused because two
  of their segments meet in a page.
-/
import Rustproof.Loader.Confinement

namespace Rustproof.Loader

open Lib RadixTree Vspace FrameAllocator

variable {A : Arch} {α : Type} [FrameAllocator α] {root : ℕ} {elf : List Byte}

/-! ## Nothing left to the kernel -/

/-- the machine, with no root entry left to the kernel -/
def whole (A : Arch) : Arch :=
  { A with kernelEntries := 0, user_own := fun va h1 h2 => ⟨(A.user_own va h1 h2).1, Nat.zero_le _⟩ }

section Whole

theorem descend_whole (v l t : ℕ) (r : α) : descend (whole A).toMmu v l t r = descend A.toMmu v l t r := by
  induction l generalizing t r with
  | zero => rfl
  | succ l ih =>
    rw [descend, descend]
    simp only [ih]
    rfl

theorem map_whole (va pa : ℕ) (flags : Word) (r : α) :
    map (whole A).toMmu root va pa flags r = map A.toMmu root va pa flags r := by
  unfold map
  simp only [descend_whole]
  rfl

theorem loadAll_whole (xs : List (Segment × ℕ)) (r : α) : loadAll (whole A) elf root xs r = loadAll A elf root xs r := by
  have hpage : ∀ (g : Segment) (va : ℕ) (r : α), loadPage (whole A) elf root g va r = loadPage A elf root g va r := by
    intro g va r
    unfold loadPage
    simp only [map_whole]
    rfl
  induction xs generalizing r with
  | nil => rfl
  | cons x xs ih =>
    rw [loadAll, loadAll, hpage]
    simp only [ih]

/-- a supply promises the same of the whole machine -/
def wholeSupply (P : Supply A.toMmu α) : Supply (whole A).toMmu α := { P with fits := P.fits }

end Whole

/-! ## The pages of an accepted image -/

section Filled

variable {P : Supply A.toMmu α} {r r' : α}

/-- every page of an accepted load had its bytes in the file -/
theorem loadAll_bytes {xs : List (Segment × ℕ)} (hl : loadAll A elf root xs r = (.ok (), r')) :
    ∀ x ∈ xs, ∃ ib, pageBytes elf x.1 x.2 = .ok ib := by
  induction xs generalizing r with
  | nil => exact fun x hx => absurd hx List.not_mem_nil
  | cons y ys ih =>
    rw [loadAll] at hl
    rcases hy : loadPage A elf root y.1 y.2 r with ⟨e | _, r₁⟩
    · rw [hy] at hl; exact absurd (Prod.mk.inj hl).1 (by simp)
    · rw [hy] at hl
      obtain ⟨-, -, intra, bytes, -, hb, -⟩ := loadPage_ok hy
      intro x hx
      rcases List.mem_cons.1 hx with rfl | hx
      · exact ⟨_, hb⟩
      · exact ih hl x hx

/-- an accepted load into a fresh space fills it with the pages of the image -/
theorem loadElf_filled {r₀ : α} (hok : P.Ok r₀) (hc : create A.toMmu r₀ = (some root, r)) {entry : ℕ}
    (hl : loadElf A elf root r = (.ok entry, r')) :
    ∃ h, readHeader A elf = .ok h ∧ entry = h.entry ∧ Filled (wholeSupply P) elf root (imagePages elf h) r' ∧
      ∀ x ∈ imagePages elf h, ∃ ib, pageBytes elf x.1 x.2 = .ok ib := by
  obtain ⟨h, hd, hentry, hall⟩ := loadElf_ok hl
  refine ⟨h, hd, hentry, ?_, loadAll_bytes hall⟩
  have hshows : Shows (wholeSupply P) root (fun _ => none) r := create_shows hok hc
  have hstart : Filled (wholeSupply P) elf root [] r := ⟨hshows.built, fun x hx => absurd hx List.not_mem_nil, List.nodup_nil,
    fun v hv _ => hshows.entry v hv, fun x hx => absurd hx List.not_mem_nil⟩
  rw [← loadAll_whole] at hall
  refine loadAll_induct (J := Filled (wholeSupply P) elf root) ?_ hstart hall
  intro x _ done s s' hs hx
  exact (fill_step hs (Nat.zero_le _) hx).1

/-- what is read at an address of a page of the image -/
theorem Filled.reads {done : List (Segment × ℕ)} (hf : Filled P elf root done r) {x : Segment × ℕ} (hx : x ∈ done) {va : ℕ}
    (hva : va / PAGE_SIZE = x.2 / PAGE_SIZE) :
    (∃ pa, translate A.toMmu (mem r) root va = some pa ∧ readByte (mem r) pa = pageByte elf x (va % PAGE_SIZE)) ∧
      leafFlags A.toMmu (mem r) root va = some (A.flags (segmentFlags A x.1) ||| A.presentFlag) := by
  obtain ⟨frame, hpage, ⟨hal, hlt⟩, -, hbytes⟩ := hf.walk_page hx
  have hwalk : walk A.fmt (mem r) (va / PAGE_SIZE) A.depth root = some (0, A.entry frame (segmentFlags A x.1)) := by
    rw [hva, walk_lowPage]
    exact hpage
  have haddr := A.entry_addr frame (segmentFlags A x.1) hal hlt
  unfold Vspace.translate leafFlags
  rw [hwalk, Option.map_some, Option.map_some]
  dsimp only
  rw [haddr, A.entry_flags, pow_zero, one_mul]
  refine ⟨⟨_, rfl, ?_⟩, rfl⟩
  have hframe : frame / PAGE_SIZE * PAGE_SIZE = frame := by simp only [PAGE_SIZE] at *; omega
  rw [hframe]
  exact hbytes _ (Nat.mod_lt _ (by decide))

end Filled

/-! ## Segments and pages -/

/-- a byte of the segment is in page number `n` -/
def Touches (g : Segment) (n : ℕ) : Prop := ∃ a, (g.vaddr ≤ a ∧ a < g.vaddr + g.memsz) ∧ a / PAGE_SIZE = n

/-- two of the image's segments have bytes in one page -/
def Overlap (A : Arch) (elf : List Byte) : Prop :=
  ∃ h, readHeader A elf = .ok h ∧ ∃ i j, i < j ∧ j < h.phnum ∧ ∃ g g', readPhdr elf h i = .ok (some g) ∧
    readPhdr elf h j = .ok (some g') ∧ ∃ n, Touches g n ∧ Touches g' n

theorem Touches.page {g : Segment} {va : ℕ} (h : Touches g (va / PAGE_SIZE)) : g.memsz ≠ 0 ∧ pageAddr va ∈ segmentPages g := by
  obtain ⟨a, ⟨hlo, hhi⟩, ha⟩ := h
  refine ⟨by omega, mem_segmentPages.2 ⟨?_, ?_, ?_⟩⟩ <;> simp only [pageAddr, PAGE_SIZE] at * <;> omega

theorem pageAddr_div (va : ℕ) : pageAddr va / PAGE_SIZE = va / PAGE_SIZE := Nat.mul_div_cancel _ (by decide)

/-- byte `va` of a loaded page is the file's where the file reaches, and zero around it -/
theorem pageByte_at {g : Segment} {va : ℕ} {ib : ℕ × List Byte} (hb : pageBytes elf g (pageAddr va) = .ok ib) :
    (g.vaddr ≤ va ∧ va < g.vaddr + min g.filesz g.memsz →
      elf[g.offset + (va - g.vaddr)]? = some (pageByte elf (g, pageAddr va) (va % PAGE_SIZE))) ∧
      (¬(g.vaddr ≤ va ∧ va < g.vaddr + min g.filesz g.memsz) → pageByte elf (g, pageAddr va) (va % PAGE_SIZE) = 0) := by
  have hva : pageAddr va + va % PAGE_SIZE = va := Nat.div_add_mod' va PAGE_SIZE
  unfold pageByte
  dsimp only
  rw [hva]
  refine ⟨fun hin => ?_, fun hout => if_neg hout⟩
  rw [if_pos hin]
  -- the copy of the page stayed inside the file
  have hlen : g.offset + (va - g.vaddr) < elf.length := by
    unfold pageBytes at hb
    dsimp only at hb
    split_ifs at hb with hlt hbad
    · simp only [PAGE_SIZE] at *
      omega
    · simp only [PAGE_SIZE] at *
      omega
  rw [List.getElem?_eq_getElem hlen]
  rfl

/-- an accepted image has no two segments in one page -/
theorem not_overlap {h : Header} (hd : readHeader A elf = .ok h) (hnd : ((imagePages elf h).map (slotOf A)).Nodup) :
    ¬Overlap A elf := by
  rintro ⟨h', hd', i, j, hij, hj, g, g', hg, hg', n, hn, hn'⟩
  obtain rfl := Except.ok.inj (hd.symm.trans hd')
  obtain ⟨a, -, rfl⟩ := id hn
  unfold imagePages at hnd
  rw [List.map_flatMap, List.nodup_flatMap] at hnd
  have hlen : (List.range h.phnum).length = h.phnum := List.length_range
  have hdis := List.pairwise_iff_getElem.1 hnd.2 i j (by omega) (by omega) hij
  rw [List.getElem_range, List.getElem_range] at hdis
  have hslot : ∀ {k : ℕ} {s : Segment}, readPhdr elf h k = .ok (some s) → Touches s (a / PAGE_SIZE) →
      lowPage A.toMmu (a / PAGE_SIZE) ∈ (headerPages elf h k).map (slotOf A) := by
    intro k s hs ht
    obtain ⟨h0, hpage⟩ := ht.page
    refine List.mem_map.2 ⟨(s, pageAddr a), mem_headerPages.2 ⟨hs, h0, hpage⟩, ?_⟩
    show lowPage A.toMmu (pageAddr a / PAGE_SIZE) = _
    rw [pageAddr_div]
  exact hdis (hslot hg hn) (hslot hg' hn')

/-! ## Both instruction sets -/

/-- the machine of an instruction set -/
def machineOf : Isa → Arch
  | .x86_64 => X86
  | .sv39 => Riscv

/-- the flags of a leaf let its page be executed: `NO_EXEC` is clear on x86-64, `X` is set on Sv39 -/
def executable : Isa → Word → Bool
  | .x86_64, flags => !flags.getLsbD 63
  | .sv39, flags => flags.getLsbD 3

theorem segmentFlags_spec (isa : Isa) (g : Segment) :
    let flags := (machineOf isa).flags (segmentFlags (machineOf isa) g) ||| (machineOf isa).presentFlag
    (machineOf isa).user flags = true ∧ (machineOf isa).writable flags = (g.flags / 2 % 2 == 1) ∧
      executable isa flags = (g.flags % 2 == 1) := by
  unfold segmentFlags
  generalize (g.flags / 2 % 2 == 1) = w
  generalize (g.flags % 2 == 1) = x
  cases isa <;> cases w <;> cases x <;> decide

/-- what an accepted image has left in the space under `root` -/
structure Content (isa : Isa) (elf : List Byte) (root entry : ℕ) (m : Mem) : Prop where
  /-- `e_entry` -/
  entry : rd elf 24 8 = .ok entry
  /-- every byte of a segment is the file's, or zero past `p_filesz` -/
  bytes : ∀ g, Loads (machineOf isa) elf g → ∀ o < g.memsz, ∃ pa, translate (machineOf isa).toMmu m root (g.vaddr + o) = some pa ∧
    some (readByte m pa) = if o < min g.filesz g.memsz then elf[g.offset + o]? else some 0
  /-- the rest of its pages is zero -/
  rest : ∀ g, Loads (machineOf isa) elf g → ∀ va, Touches g (va / PAGE_SIZE) → va < g.vaddr ∨ g.vaddr + g.memsz ≤ va →
    ∃ pa, translate (machineOf isa).toMmu m root va = some pa ∧ readByte m pa = 0
  /-- its pages have the permissions of `p_flags` -/
  flags : ∀ g, Loads (machineOf isa) elf g → ∀ va, Touches g (va / PAGE_SIZE) →
    ∃ flags, leafFlags (machineOf isa).toMmu m root va = some flags ∧ (machineOf isa).user flags = true ∧
      (machineOf isa).writable flags = (g.flags / 2 % 2 == 1) ∧ executable isa flags = (g.flags % 2 == 1)

theorem bind_ok {ε β γ : Type} {x : Except ε β} {f : β → Except ε γ} {c : γ} (h : x >>= f = .ok c) :
    ∃ b, x = .ok b ∧ f b = .ok c := by
  cases x with
  | error e => exact absurd h (by simp [bind, Except.bind])
  | ok b => exact ⟨b, rfl, h⟩

theorem readHeader_entry {h : Header} (hd : readHeader A elf = .ok h) : rd elf 24 8 = .ok h.entry := by
  unfold readHeader at hd
  split_ifs at hd
  obtain ⟨machine, -, hd⟩ := bind_ok hd
  split_ifs at hd
  obtain ⟨type, -, hd⟩ := bind_ok hd
  split_ifs at hd
  obtain ⟨entry, he, hd⟩ := bind_ok hd
  obtain ⟨phoff, -, hd⟩ := bind_ok hd
  obtain ⟨phentsize, -, hd⟩ := bind_ok hd
  obtain ⟨phnum, -, hd⟩ := bind_ok hd
  rw [he, ← Except.ok.inj hd]

/-- **The content of a loaded image**, in a fresh space, on both instruction sets; and an image two of whose segments meet in a
page is refused. -/
theorem load_content (isa : Isa) {P : Supply (machineOf isa).toMmu α} {r₀ r : α} (hok : P.Ok r₀)
    (hc : create (machineOf isa).toMmu r₀ = (some root, r)) :
    (∀ entry r', loadElf (machineOf isa) elf root r = (.ok entry, r') → Content isa elf root entry (mem r')) ∧
      (Overlap (machineOf isa) elf → ∃ e, (loadElf (machineOf isa) elf root r).1 = .error e) := by
  refine ⟨fun entry r' hl => ?_, fun hover => ?_⟩
  · obtain ⟨h, hd, rfl, hf, hb⟩ := loadElf_filled hok hc hl
    have hreads : ∀ g, Loads (machineOf isa) elf g → ∀ va, Touches g (va / PAGE_SIZE) → (g, pageAddr va) ∈ imagePages elf h := by
      intro g hg va ht
      obtain ⟨h0, hpage⟩ := ht.page
      exact (mem_imagePages hd).2 ⟨hg, h0, hpage⟩
    refine ⟨readHeader_entry hd, fun g hg o ho => ?_, fun g hg va ht hout => ?_, fun g hg va ht => ?_⟩
    · have hx := hreads g hg (g.vaddr + o) ⟨_, ⟨by omega, by omega⟩, rfl⟩
      obtain ⟨ib, hib⟩ : ∃ ib, pageBytes elf g (pageAddr (g.vaddr + o)) = .ok ib := hb _ hx
      obtain ⟨⟨pa, hpa, hread⟩, -⟩ := hf.reads hx (pageAddr_div _).symm
      obtain ⟨hin, hout⟩ := pageByte_at hib
      refine ⟨pa, hpa, ?_⟩
      rw [hread]
      split_ifs with hlt
      · have := hin ⟨by omega, by omega⟩
        rw [Nat.add_sub_cancel_left] at this
        exact this.symm
      · exact congrArg some (hout (by omega))
    · have hx := hreads g hg va ht
      obtain ⟨ib, hib⟩ : ∃ ib, pageBytes elf g (pageAddr va) = .ok ib := hb _ hx
      obtain ⟨⟨pa, hpa, hread⟩, -⟩ := hf.reads hx (pageAddr_div _).symm
      exact ⟨pa, hpa, hread.trans ((pageByte_at hib).2 (by omega))⟩
    · obtain ⟨-, hfl⟩ := hf.reads (hreads g hg va ht) (pageAddr_div _).symm
      exact ⟨_, hfl, segmentFlags_spec isa g⟩
  · rcases hl : loadElf (machineOf isa) elf root r with ⟨e | entry, r'⟩
    · exact ⟨e, rfl⟩
    · obtain ⟨h, hd, -, hf, -⟩ := loadElf_filled hok hc hl
      exact absurd hover (not_overlap hd hf.nodup)

/-- a writable segment that ends in the middle of page 0x11, and code that starts `gap` bytes behind it -/
def twoSegments (A : Arch) (gap : ℕ) : List Byte :=
  imageBytes A 0x11800 [⟨6, 176, 0x10FFE, 3, 0x802⟩, ⟨5, 179, 0x11800 + gap, 2, 2⟩] [0x0F, 0x05, 0xF4, 0xEB, 0xFE]

/-- with the code on a page of its own the image has its content; behind the data, on the same page, it is refused -/
theorem twoSegments_content :
    let r := (create Riscv.toMmu twelvePages).2
    Content .sv39 (twoSegments Riscv 0x800) 0x2000 0x11800 (mem (loadElf Riscv (twoSegments Riscv 0x800) 0x2000 r).2) ∧
      ∃ e, (loadElf Riscv (twoSegments Riscv 0) 0x2000 r).1 = .error e := by
  intro r
  have hc : create (machineOf .sv39).toMmu twelvePages = (some 0x2000, r) := rfl
  have hres : (loadElf Riscv (twoSegments Riscv 0x800) 0x2000 r).1 = .ok 0x11800 := by decide +kernel
  have hl : loadElf Riscv (twoSegments Riscv 0x800) 0x2000 r =
      (.ok 0x11800, (loadElf Riscv (twoSegments Riscv 0x800) 0x2000 r).2) := by
    rw [← hres]
  have hover : Overlap Riscv (twoSegments Riscv 0) :=
    ⟨⟨0x11800, 64, 56, 2⟩, by decide +kernel, 0, 1, by decide, by decide, ⟨6, 176, 0x10FFE, 3, 0x802⟩, ⟨5, 179, 0x11800, 2, 2⟩,
      by decide +kernel, by decide +kernel, 0x11, ⟨0x11000, by decide, by decide⟩, ⟨0x11800, by decide, by decide⟩⟩
  exact ⟨(load_content .sv39 (twelvePages_ok _) hc).1 0x11800 _ hl, (load_content .sv39 (twelvePages_ok _) hc).2 hover⟩

end Rustproof.Loader
