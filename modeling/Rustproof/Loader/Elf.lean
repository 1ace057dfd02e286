/-
The static ELF64 loader (`crates/loader`, `crates/loader-riscv`): parse the program headers and materialise every `PT_LOAD`
segment page by page.

The two crates differ in the machine they accept and in the leaf flags they choose, which the `Arch` carries.
-/
import Rustproof.Vspace.AddressSpace

namespace Rustproof.Loader

open Lib RadixTree Vspace FrameAllocator

inductive LoadError where
  | badMagic
  | not64
  | notExec
  | badMachine
  | truncated
  | outOfFrames
  | mapFailed
deriving DecidableEq, Repr

/-- the value of little-endian bytes -/
def leValue : List Byte → ℕ
  | [] => 0
  | b :: bs => b.toNat + 256 * leValue bs

/-- an `n`-byte little-endian field at `off`: `rd_u16`, `rd_u32`, `rd_u64` -/
def rd (elf : List Byte) (off n : ℕ) : Except LoadError ℕ :=
  if off + n < U64 ∧ off + n ≤ elf.length then .ok (leValue ((elf.drop off).take n)) else .error .truncated

/-- one `PT_LOAD` program header -/
structure Segment where
  flags : ℕ
  offset : ℕ
  vaddr : ℕ
  filesz : ℕ
  memsz : ℕ
deriving DecidableEq, Repr

def EHDR_SIZE : ℕ := 64
def PHDR_SIZE : ℕ := 56
def PT_LOAD : ℕ := 1
def ET_EXEC : ℕ := 2

/-- the header fields the walk over program headers needs -/
structure Header where
  entry : ℕ
  phoff : ℕ
  phentsize : ℕ
  phnum : ℕ
deriving DecidableEq, Repr

/-- validate the Elf64 header -/
def readHeader (A : Arch) (elf : List Byte) : Except LoadError Header := do
  if elf.length < EHDR_SIZE then .error .truncated
  else if elf.take 4 ≠ [0x7F, 0x45, 0x4C, 0x46] then .error .badMagic
  else if elf[4]? ≠ some 2 then .error .not64
  else
    let machine ← rd elf 18 2
    if machine ≠ A.machine then .error .badMachine
    else
      let type ← rd elf 16 2
      if type ≠ ET_EXEC then .error .notExec
      else
        let entry ← rd elf 24 8
        let phoff ← rd elf 32 8
        let phentsize ← rd elf 54 2
        let phnum ← rd elf 56 2
        .ok ⟨entry, phoff, phentsize, phnum⟩

/-- program header `i`; `none` for one that is not `PT_LOAD` -/
def readPhdr (elf : List Byte) (h : Header) (i : ℕ) : Except LoadError (Option Segment) := do
  let off := h.phoff + i * h.phentsize
  if i * h.phentsize ≥ U64 ∨ off ≥ U64 ∨ off + PHDR_SIZE ≥ U64 then .error .truncated
  else if off + PHDR_SIZE > elf.length then .error .truncated
  else
    let type ← rd elf off 4
    if type ≠ PT_LOAD then .ok none
    else
      let flags ← rd elf (off + 4) 4
      let offset ← rd elf (off + 8) 8
      let vaddr ← rd elf (off + 16) 8
      let filesz ← rd elf (off + 32) 8
      let memsz ← rd elf (off + 40) 8
      .ok (some ⟨flags, offset, vaddr, filesz, memsz⟩)

/-- the file bytes that belong in the page at `pageVa`, and where in the page they start -/
def pageBytes (elf : List Byte) (g : Segment) (pageVa : ℕ) : Except LoadError (ℕ × List Byte) :=
  let copyEnd := min (g.vaddr + g.filesz) (g.vaddr + g.memsz)
  let start := max pageVa g.vaddr
  let stop := min (pageVa + PAGE_SIZE) copyEnd
  if start < stop then
    let fileStart := g.offset + (start - g.vaddr)
    if fileStart ≥ U64 ∨ fileStart + (stop - start) > elf.length then .error .truncated
    else .ok (start - pageVa, (elf.drop fileStart).take (stop - start))
  else .ok (0, [])

variable (A : Arch) {α : Type} [FrameAllocator α]

/-- one page of a segment: a fresh frame, scrubbed, filled from the file, mapped -/
def loadPage (elf : List Byte) (root : ℕ) (g : Segment) (pageVa : ℕ) (r : α) : Except LoadError Unit × α :=
  match allocFrame r with
  | (none, r) => (.error .outOfFrames, r)
  | (some frame, r) =>
    match pageBytes elf g pageVa with
    | .error e => (.error e, r)
    | .ok (intra, bytes) =>
      let r := setMem r (writeBytes ((mem r).fill frame 0) (frame + intra) bytes)
      match map A.toMmu root pageVa frame (A.elfFlags (g.flags / 2 % 2 == 1) (g.flags % 2 == 1)) r with
      | (.error _, r) => (.error .mapFailed, r)
      | (.ok _, r) => (.ok (), r)

/-- the pages of a segment, lowest first -/
def loadPages (elf : List Byte) (root : ℕ) (g : Segment) : List ℕ → α → Except LoadError Unit × α
  | [], r => (.ok (), r)
  | va :: vas, r =>
    match loadPage A elf root g va r with
    | (.error e, r) => (.error e, r)
    | (.ok _, r) => loadPages elf root g vas r

/-- the addresses `page_va` takes: from the page of `p_vaddr` up to the end of the segment -/
def segmentPages (g : Segment) : List ℕ :=
  let first := pageAddr g.vaddr
  (List.range ((g.vaddr + g.memsz - first + (PAGE_SIZE - 1)) / PAGE_SIZE)).map fun k => first + k * PAGE_SIZE

/-- `load_segment` -/
def loadSegment (elf : List Byte) (root : ℕ) (g : Segment) (r : α) : Except LoadError Unit × α :=
  if g.memsz = 0 then (.ok (), r)
  else if g.vaddr + g.memsz ≥ U64 ∨ g.vaddr + g.filesz ≥ U64 then (.error .truncated, r)
  else loadPages A elf root g (segmentPages g) r

/-- the walk over the program headers -/
def loadPhdrs (elf : List Byte) (root : ℕ) (h : Header) : List ℕ → α → Except LoadError Unit × α
  | [], r => (.ok (), r)
  | i :: is, r =>
    match readPhdr elf h i with
    | .error e => (.error e, r)
    | .ok none => loadPhdrs elf root h is r
    | .ok (some g) =>
      match loadSegment A elf root g r with
      | (.error e, r) => (.error e, r)
      | (.ok _, r) => loadPhdrs elf root h is r

/-- `load_elf`: map every `PT_LOAD` segment, return the entry point -/
def loadElf (elf : List Byte) (root : ℕ) (r : α) : Except LoadError ℕ × α :=
  match readHeader A elf with
  | .error e => (.error e, r)
  | .ok h =>
    match loadPhdrs A elf root h (List.range h.phnum) r with
    | (.error e, r) => (.error e, r)
    | (.ok _, r) => (.ok h.entry, r)

/-- the stack loop of `load_process`: one fresh page per entry of `ps`, below the stack top -/
def loadStack (root : ℕ) : List ℕ → α → Bool × α
  | [], r => (true, r)
  | p :: ps, r =>
    match allocFrame r with
    | (none, r) => (false, r)
    | (some frame, r) =>
      match mapPage A.toMmu root (A.userStackTop - p * PAGE_SIZE) frame Perms.USER_RW r with
      | (false, r) => (false, r)
      | (true, r) => loadStack root ps r

/-! ## What allocators keep -/

section Keep

variable {A} {I : α → Prop} (halloc : ∀ r, I r → I (allocFrame r).2) (hmem : ∀ r m, I r → I (setMem r m))

include halloc hmem

theorem loadPage_keep (elf : List Byte) (root : ℕ) (g : Segment) (va : ℕ) {r : α} (h : I r) :
    I (loadPage A elf root g va r).2 := by
  have h1 := halloc r h
  rw [loadPage]
  rcases hr : allocFrame r with ⟨_ | frame, r'⟩
  · rw [hr] at h1; exact h1
  rw [hr] at h1
  simp only
  cases pageBytes elf g va with
  | error e => exact h1
  | ok ib =>
    have h2 := map_keep (U := A.toMmu) halloc hmem root va frame (A.elfFlags (g.flags / 2 % 2 == 1) (g.flags % 2 == 1))
      (hmem r' (writeBytes ((mem r').fill frame 0) (frame + ib.1) ib.2) h1)
    simp only
    split
    · rename_i he; rw [he] at h2; exact h2
    · rename_i he; rw [he] at h2; exact h2

theorem loadPages_keep (elf : List Byte) (root : ℕ) (g : Segment) (vas : List ℕ) {r : α} (h : I r) :
    I (loadPages A elf root g vas r).2 := by
  induction vas generalizing r with
  | nil => exact h
  | cons va vas ih =>
    have h1 := loadPage_keep (A := A) halloc hmem elf root g va h
    rw [loadPages]
    rcases hr : loadPage A elf root g va r with ⟨_ | _, r'⟩
    · rw [hr] at h1; exact h1
    · rw [hr] at h1; exact ih h1

theorem loadPhdrs_keep (elf : List Byte) (root : ℕ) (hd : Header) (is : List ℕ) {r : α} (h : I r) :
    I (loadPhdrs A elf root hd is r).2 := by
  induction is generalizing r with
  | nil => exact h
  | cons i is ih =>
    rw [loadPhdrs]
    rcases readPhdr elf hd i with _ | _ | g
    · exact h
    · exact ih h
    · have h1 : I (loadSegment A elf root g r).2 := by
        rw [loadSegment]
        split_ifs
        · exact h
        · exact h
        · exact loadPages_keep (A := A) halloc hmem elf root g _ h
      simp only
      rcases hr : loadSegment A elf root g r with ⟨_ | _, r'⟩
      · rw [hr] at h1; exact h1
      · rw [hr] at h1; exact ih h1

theorem loadElf_keep (elf : List Byte) (root : ℕ) {r : α} (h : I r) : I (loadElf A elf root r).2 := by
  rw [loadElf]
  cases readHeader A elf with
  | error e => exact h
  | ok hd =>
    have h1 := loadPhdrs_keep (A := A) halloc hmem elf root hd (List.range hd.phnum) h
    simp only
    rcases hr : loadPhdrs A elf root hd (List.range hd.phnum) r with ⟨_ | _, r'⟩
    all_goals rw [hr] at h1; exact h1

theorem loadStack_keep (root : ℕ) (ps : List ℕ) {r : α} (h : I r) : I (loadStack A root ps r).2 := by
  induction ps generalizing r with
  | nil => exact h
  | cons p ps ih =>
    have h1 := halloc r h
    rw [loadStack]
    rcases hr : allocFrame r with ⟨_ | frame, r'⟩
    · rw [hr] at h1; exact h1
    · rw [hr] at h1
      have h2 := mapPage_keep (U := A.toMmu) halloc hmem root (A.userStackTop - p * PAGE_SIZE) frame Perms.USER_RW h1
      simp only
      rcases hr2 : mapPage A.toMmu root (A.userStackTop - p * PAGE_SIZE) frame Perms.USER_RW r' with ⟨_ | _, r''⟩
      · rw [hr2] at h2; exact h2
      · rw [hr2] at h2; exact ih h2

end Keep

/-- `g` is a `PT_LOAD` segment of the image -/
def Loads (elf : List Byte) (g : Segment) : Prop :=
  ∃ h, readHeader A elf = .ok h ∧ ∃ i < h.phnum, readPhdr elf h i = .ok (some g)

/-- every `PT_LOAD` segment of the image lies inside the user window -/
def Inside (elf : List Byte) : Prop := ∀ g, Loads A elf g → A.userBase ≤ g.vaddr ∧ g.vaddr + g.memsz ≤ A.userLimit

/-- every `PT_LOAD` segment of the image ends below the device window, as the `Arch` promises of the loaded image -/
def BelowDevice (elf : List Byte) : Prop := ∀ g, Loads A elf g → g.vaddr + g.memsz ≤ A.userMmioBase

end Rustproof.Loader
