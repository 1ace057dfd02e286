/-
The memory a new process starts with.

- `buildSpace_filled`: a space that was built has the pages of the image and of the stack, and no others, each in a frame of
  its own; a stack page is loaded like a page of a segment without file bytes (`loadStack_all`).
- `userMemory_filled`: so what user mode reads of it depends on the image only.
-/
import Rustproof.Kernel.Spaces
import Rustproof.Loader.Pages

namespace Rustproof.Kernel

open Lib Prog Mm Vspace Loader

variable {A : Arch} {C : Config} {s t : KState} {F rest : Multiset ℕ}

/-! ## The pages of a new space -/

/-- page `p` below the stack top: a page of a writable segment without file bytes -/
def stackPage (A : Arch) (p : ℕ) : Segment × ℕ :=
  (⟨2, 0, A.userStackTop - p * PAGE_SIZE, 0, PAGE_SIZE⟩, A.userStackTop - p * PAGE_SIZE)

/-- the pages of a new space, in the order they are loaded: the image's, then the stack's -/
def initialPages (A : Arch) (elf : List Byte) (h : Header) : List (Segment × ℕ) :=
  imagePages elf h ++ (List.range' 1 A.userStackPages).map (stackPage A)

/-- scrubbing a scrubbed frame -/
theorem fill_fill (m : Mem) (f : ℕ) : (m.fill f 0).fill f 0 = m.fill f 0 := by
  funext a i
  simp only [RadixTree.Store.fill]
  split_ifs <;> rfl

theorem stackPage_bytes (elf : List Byte) (p : ℕ) : pageBytes elf (stackPage A p).1 (stackPage A p).2 = .ok (0, []) := by
  unfold pageBytes
  dsimp only
  apply if_neg
  simp only [stackPage]
  omega

/-- the stack's flags are those of a writable segment -/
theorem stackPage_flags (p : ℕ) : A.encode Perms.USER_RW = some (segmentFlags A (stackPage A p).1) := by
  have hflags : segmentFlags A (stackPage A p).1 = A.elfFlags true false := by simp [segmentFlags, stackPage]
  rw [hflags]
  exact A.elfFlags_eq true false

/-- **The stack loop loads pages** like those of an image: the allocator has scrubbed them already. -/
theorem loadStack_all {elf : List Byte} {root : ℕ} {ps : List ℕ} {r r' : RecordingAlloc} (hr : r.Ok F rest)
    (h : loadStack A root ps r = (true, r')) : loadAll A elf root (ps.map (stackPage A)) r = (.ok (), r') := by
  induction ps generalizing r with
  | nil =>
    obtain rfl := (Prod.mk.inj h).2
    rfl
  | cons p ps ih =>
    rw [loadStack] at h
    rcases ha : FrameAllocator.allocFrame r with ⟨_ | frame, r₁⟩
    · rw [ha] at h
      exact absurd (Prod.mk.inj h).1 (by decide)
    have hsome := RecordingAlloc.allocFrame_some hr (p := frame) (congrArg Prod.fst ha)
    rw [show r.allocFrame = (some frame, r₁) from ha] at hsome
    obtain ⟨-, hr₁, -, hmem, -⟩ := hsome
    have hscrub : FrameAllocator.setMem r₁ (writeBytes ((FrameAllocator.mem r₁).fill frame 0) (frame + 0) []) = r₁ := by
      have hfill : (FrameAllocator.mem r₁).fill frame 0 = FrameAllocator.mem r₁ := by
        have hm : FrameAllocator.mem r₁ = r.w.mem.fill frame 0 := hmem
        rw [hm, fill_fill]
      rw [hfill]
      exact FrameAllocator.setMem_mem r₁
    rw [ha] at h
    dsimp only at h
    unfold mapPage at h
    rw [stackPage_flags p] at h
    dsimp only at h
    have hkeep : (Vspace.map A.toMmu root (A.userStackTop - p * PAGE_SIZE) frame (segmentFlags A (stackPage A p).1) r₁).2.Ok F
        rest := map_keep ok_alloc ok_write _ _ _ _ hr₁
    rcases hm : Vspace.map A.toMmu root (A.userStackTop - p * PAGE_SIZE) frame (segmentFlags A (stackPage A p).1) r₁ with
      ⟨_ | _, r₂⟩
    · rw [hm] at h
      exact absurd (Prod.mk.inj h).1 (by decide)
    rw [hm] at h hkeep
    have hpage : loadPage A elf root (stackPage A p).1 (stackPage A p).2 r = (.ok (), r₂) := by
      unfold loadPage
      rw [ha]
      dsimp only
      rw [stackPage_bytes]
      dsimp only
      rw [hscrub]
      have hm' : Vspace.map A.toMmu root (stackPage A p).2 frame
          (A.elfFlags ((stackPage A p).1.flags / 2 % 2 == 1) ((stackPage A p).1.flags % 2 == 1)) r₁ = (.ok (), r₂) := hm
      rw [hm']
    rw [List.map_cons, loadAll, hpage]
    exact ih hkeep h

/-- **A space that was built** has the pages of the image and of the stack. -/
theorem buildSpace_filled (hin : Inside A C.userElf) (hk : A.root C.ktoken ∉ F) {r r' : RecordingAlloc} (hr : r.Ok F rest)
    {token entry : ℕ} (hb : buildSpace A C r = (some (token, entry), r')) :
    ∃ root hd, A.root token = root ∧ readHeader A C.userElf = .ok hd ∧ hd.entry = entry ∧
      Filled (supply A F rest) C.userElf root (initialPages A C.userElf hd) r' := by
  rw [buildSpace] at hb
  rcases hc : Vspace.create A.toMmu r with ⟨_ | root, r₁⟩
  · rw [hc] at hb
    exact absurd (Prod.mk.inj hb).1 (by simp)
  rw [hc] at hb
  dsimp only at hb
  have hkfree : A.root C.ktoken ∉ (supply A F rest).free r := fun hf => hk (hr.free_mem hf)
  obtain ⟨hbuilt, -, hrf, -, -, habs, -⟩ := newSpace_spec (P := supply A F rest) (C := C) hr hc hkfree
  have hroot : A.root (A.token root) = root := by
    obtain ⟨hal, hlt⟩ := hr.tracked_lt (hr.free_mem hrf)
    exact A.root_token root hal hlt
  set u : RecordingAlloc := { r₁ with w := { r₁.w with mem := Vspace.shareKernel A.toMmu r₁.w.mem root C.ktoken } }
  have hstart : Filled (supply A F rest) C.userElf root [] u :=
    ⟨hbuilt, fun x hx => absurd hx List.not_mem_nil, List.nodup_nil, fun v hv _ => habs v hv,
      fun x hx => absurd hx List.not_mem_nil⟩
  rcases hl : loadElf A C.userElf root u with ⟨e | entry', r₂⟩
  · rw [hl] at hb
    exact absurd (Prod.mk.inj hb).1 (by simp)
  rw [hl] at hb
  dsimp only at hb
  obtain ⟨hd, hhd, rfl, himage⟩ := loadElf_ok hl
  have hpages : ∀ x ∈ imagePages C.userElf hd, A.window (x.2 / PAGE_SIZE / 512 ^ A.depth % 512) := by
    intro x hx
    obtain ⟨hloads, -, hva⟩ := (mem_imagePages hhd).1 hx
    obtain ⟨hlo, hhi⟩ := hin x.1 hloads
    exact A.window_path (segmentPages_own hlo hhi hva)
  have hfilled := loadAll_induct (J := Filled (supply A F rest) C.userElf root)
    (fun x hx done u u' hu hx' => (fill_step hu (hpages x hx) hx').1) hstart himage
  rw [List.nil_append] at hfilled
  rcases hst : loadStack A root (List.range' 1 A.userStackPages) r₂ with ⟨_ | _, r₃⟩
  · rw [hst] at hb
    exact absurd (Prod.mk.inj hb).1 (by simp)
  rw [hst] at hb
  obtain ⟨hout, rfl⟩ := Prod.mk.inj hb
  obtain ⟨htok, hentry⟩ := Prod.mk.inj (Option.some.inj hout)
  have hstack : ∀ x ∈ (List.range' 1 A.userStackPages).map (stackPage A),
      A.window (x.2 / PAGE_SIZE / 512 ^ A.depth % 512) := by
    intro x hx
    obtain ⟨p, hp, rfl⟩ := List.mem_map.1 hx
    rw [List.mem_range'_1] at hp
    exact A.window_path (stack_own hp.1 (by omega))
  refine ⟨root, hd, ?_, hhd, hentry, ?_⟩
  · rw [← htok]
    exact hroot
  · exact loadAll_induct (J := Filled (supply A F rest) C.userElf root)
      (fun x hx done u u' hu hx' => (fill_step hu (hstack x hx) hx').1) hfilled (loadStack_all hfilled.built.ok hst)

/-! ## What user mode reads -/

/-- what user mode finds at `va` in the space under `root`: the flags of its page and the byte; nothing where it has no access -/
def userMemory (A : Arch) (m : Mem) (root va : ℕ) : Option (Word × Byte) :=
  (RadixTree.walk A.fmt m (va / PAGE_SIZE) A.depth root).bind fun x =>
    if A.user x.2 = true then
      some (A.flags x.2, readByte m (A.fmt.addr x.2 + va % (512 ^ x.1 * PAGE_SIZE)))
    else none

/-- what user mode finds at `va` where exactly the pages `xs` are loaded -/
def pageMemory (A : Arch) (elf : List Byte) (xs : List (Segment × ℕ)) (va : ℕ) : Option (Word × Byte) :=
  (xs.find? fun x => Loader.slotOf A x == lowPage A.toMmu (va / PAGE_SIZE)).map fun x =>
    (A.flags (segmentFlags A x.1) ||| A.presentFlag, pageByte elf x (va % PAGE_SIZE))

/-- the memory of a new process: the image's bytes, and zero on the rest of its pages and on the stack -/
def initialMemory (A : Arch) (elf : List Byte) (va : ℕ) : Option (Word × Byte) :=
  match readHeader A elf with
  | .error _ => none
  | .ok h => pageMemory A elf (initialPages A elf h) va

/-- the kernel's part of the address space, in the tables the boot left, is closed to user mode -/
def KernelPrivate (A : Arch) (C : Config) (m₀ : Mem) : Prop :=
  ∀ v x, ¬A.window (v / 512 ^ A.depth % 512) → RadixTree.walk A.fmt m₀ v A.depth (A.root C.ktoken) = some x → A.user x.2 = false

/-- a space with the kernel's root entries walks through the kernel's tables there -/
theorem walk_kernel {m m₀ : Mem} {root v : ℕ} (hk : ∀ a ∈ kernelTables A C m₀, m a = m₀ a)
    (hshared : ∀ i < A.kernelEntries, m root i = m₀ (A.root C.ktoken) i) (hv : ¬A.window (v / 512 ^ A.depth % 512)) :
    RadixTree.walk A.fmt m v A.depth root = RadixTree.walk A.fmt m₀ v A.depth (A.root C.ktoken) := by
  have hlt : v / 512 ^ A.depth % 512 < A.kernelEntries := by simpa [Mmu.window] using hv
  have hsame : RadixTree.walk A.fmt m v A.depth (A.root C.ktoken) = RadixTree.walk A.fmt m₀ v A.depth (A.root C.ktoken) :=
    RadixTree.walk_congr hk hlt
  have hroot : m (A.root C.ktoken) = m₀ (A.root C.ktoken) := hk _ (RadixTree.root_mem_tables _ _)
  rw [← hsame]
  obtain ⟨d, hd⟩ := Nat.exists_eq_succ_of_ne_zero A.depth_pos.ne'
  rw [hd] at hlt ⊢
  apply RadixTree.walk_enter
  rw [hshared _ hlt, hroot]

/-- no loaded page is found at a page number exactly where none is mapped there -/
theorem find_slot_none {xs : List (Segment × ℕ)} {v : ℕ} :
    (xs.find? fun x => Loader.slotOf A x == v) = none ↔ v ∉ xs.map (Loader.slotOf A) := by
  simp [List.find?_eq_none]

/-- **What user mode reads of loaded pages** does not depend on the frames they are in, nor on anything the supply still has. -/
theorem userMemory_filled {P : Supply A.toMmu RecordingAlloc} {elf : List Byte} {root : ℕ} {xs : List (Segment × ℕ)}
    {r : RecordingAlloc} (hf : Filled P elf root xs r) {m : Mem} (hm : ∀ a, a ∉ P.free r → m a = r.w.mem a)
    (hpriv : ∀ v x, ¬A.window (v / 512 ^ A.depth % 512) → RadixTree.walk A.fmt m v A.depth root = some x → A.user x.2 = false)
    (va : ℕ) : userMemory A m root va = pageMemory A elf xs va := by
  by_cases hw : A.window (va / PAGE_SIZE / 512 ^ A.depth % 512)
  · set v := lowPage A.toMmu (va / PAGE_SIZE) with hv
    have hown : A.Own v := lowPage_own hw
    have hwalk : RadixTree.walk A.fmt m (va / PAGE_SIZE) A.depth root =
        RadixTree.walk A.fmt (FrameAllocator.mem r) v A.depth root := by
      rw [RadixTree.walk_congr (fun a ha => hm a (hf.built.apart a ha)) hw]
      exact walk_lowPage _
    unfold userMemory pageMemory
    rw [hwalk, ← hv]
    cases hfind : xs.find? fun x => Loader.slotOf A x == v with
    | none =>
      rw [hf.walk_absent hown (find_slot_none.1 hfind)]
      rfl
    | some x =>
      have hslot : Loader.slotOf A x = v := by simpa using List.find?_some hfind
      obtain ⟨frame, hpage, ⟨hal, hlt⟩, hgone, hbytes⟩ := hf.walk_page (List.mem_of_find?_eq_some hfind)
      rw [hslot] at hpage
      have huser : A.user (A.entry frame (segmentFlags A x.1)) = true :=
        ((A.encode_spec _ _ (A.elfFlags_eq _ _)).2 frame).1
      have hoff : va % PAGE_SIZE < PAGE_SIZE := Nat.mod_lt _ (by decide)
      have hread : readByte m (frame + va % PAGE_SIZE) = pageByte elf x (va % PAGE_SIZE) := by
        rw [← hbytes _ hoff]
        exact readByte_congr (by rw [pageAddr_add hal hoff]; exact hm frame hgone)
      rw [hpage, Option.bind_some, if_pos huser, pow_zero, Nat.one_mul, A.entry_flags, A.entry_addr frame _ hal hlt, hread]
      rfl
  · -- below the kernel's root entries user mode has no access, and no page is loaded
    have hnone : xs.find? (fun x => Loader.slotOf A x == lowPage A.toMmu (va / PAGE_SIZE)) = none := by
      rw [find_slot_none]
      intro hmem
      obtain ⟨x, hx, hxv⟩ := List.mem_map.1 hmem
      have hown := (hf.own x hx).2
      rw [hxv, lowPage_top] at hown
      exact hw hown
    unfold userMemory pageMemory
    rw [hnone]
    cases hwalk : RadixTree.walk A.fmt m (va / PAGE_SIZE) A.depth root with
    | none => rfl
    | some x => simp [hpriv _ x hw hwalk]

end Rustproof.Kernel
