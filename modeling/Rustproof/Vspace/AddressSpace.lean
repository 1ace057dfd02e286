/-
Address spaces (`crates/vspace`, `crates/vspace-riscv`): page tables built and edited entry by entry in memory.

One definition serves both instruction sets; `U : Mmu` is the entry format and the number of levels. A space is the
address of its root page. `map` descends from the root, makes the missing tables from the allocator it is given, and
writes the leaf; `unmap` clears a leaf and leaves the tables; `leafFlags` and `translate` only read.

What an allocator keeps under its own operation and under stores, it keeps under `map` (`map_keep`).
-/
import Rustproof.Hal.Arch

namespace Rustproof.Vspace

open Lib RadixTree FrameAllocator

inductive MapError where
  | unalignedVirt
  | unalignedPhys
  | outOfFrames
  | alreadyMapped
  | hugePagePresent
  | invalidLeafFlags
deriving DecidableEq, Repr

variable (U : Mmu) {α : Type} [FrameAllocator α]

/-- `AddressSpace::create`: an emptied root -/
def create (r : α) : Option ℕ × α :=
  match allocFrame r with
  | (none, r) => (none, r)
  | (some root, r) => (some root, setMem r ((mem r).fill root U.fmt.empty))

/-- `share_kernel`: copy the kernel's root entries -/
def shareKernel (m : Mem) (root ktoken : ℕ) : Mem :=
  (List.range U.kernelEntries).foldl (fun m i => m.put root i (m (U.root ktoken) i)) m

/-- from page `t` at level `l` down to the last-level page for page number `v`, creating the missing links -/
def descend (v : ℕ) : ℕ → ℕ → α → Except MapError ℕ × α
  | 0, t, r => (.ok t, r)
  | l + 1, t, r =>
    let i := v / 512 ^ (l + 1) % 512
    let e := mem r t i
    if U.fmt.present e = true then
      if U.fmt.huge e = true then (.error .hugePagePresent, r) else descend v l (U.fmt.addr e) r
    else
      match allocFrame r with
      | (none, r) => (.error .outOfFrames, r)
      | (some g, r) => descend v l g (setMem r (hang U.fmt (mem r) t i g))

/-- `AddressSpace::map`: `va` to `pa`, never over a present leaf -/
def map (root va pa : ℕ) (flags : Word) (r : α) : Except MapError Unit × α :=
  if va % PAGE_SIZE ≠ 0 then (.error .unalignedVirt, r)
  else if pa % PAGE_SIZE ≠ 0 then (.error .unalignedPhys, r)
  else if U.flagsOk flags = false then (.error .invalidLeafFlags, r)
  else
    let v := va / PAGE_SIZE
    match descend U v U.depth root r with
    | (.error e, r) => (.error e, r)
    | (.ok t, r) =>
      if U.fmt.present (mem r t (v % 512)) = true then (.error .alreadyMapped, r)
      else (.ok (), setMem r ((mem r).put t (v % 512) (U.entry pa flags)))

/-- `Space::map_page` -/
def mapPage (root va pa : ℕ) (perms : Perms) (r : α) : Bool × α :=
  match U.encode perms with
  | none => (false, r)
  | some flags =>
    match map U root va pa flags r with
    | (.ok _, r) => (true, r)
    | (.error _, r) => (false, r)

/-- `AddressSpace::unmap`: clear the leaf for `va`, returning the frame it named -/
def unmap (m : Mem) (root va : ℕ) : Option ℕ × Mem :=
  let v := va / PAGE_SIZE
  match reach U.fmt m v U.depth root with
  | none => (none, m)
  | some t =>
    let e := m t (v % 512)
    if U.fmt.present e = true then (some (U.fmt.addr e), m.put t (v % 512) U.fmt.empty) else (none, m)

/-- `AddressSpace::leaf_flags`: the flags of the entry a walk for `va` ends at -/
def leafFlags (m : Mem) (root va : ℕ) : Option Word :=
  (walk U.fmt m (va / PAGE_SIZE) U.depth root).map fun (_, e) => U.flags e

/-- the physical address `va` translates to, through a page of any size -/
def translate (m : Mem) (root va : ℕ) : Option ℕ :=
  (walk U.fmt m (va / PAGE_SIZE) U.depth root).map fun (l, e) =>
    let size := 512 ^ l * PAGE_SIZE
    U.fmt.addr e / size * size + va % size

/-! ## What allocators keep -/

section Keep

variable {U} {I : α → Prop} (halloc : ∀ r, I r → I (allocFrame r).2) (hmem : ∀ r m, I r → I (setMem r m))

include halloc hmem

theorem create_keep {r : α} (h : I r) : I (create U r).2 := by
  have h1 := halloc r h
  rw [create]
  rcases hr : allocFrame r with ⟨_ | root, r'⟩
  · rw [hr] at h1; exact h1
  · rw [hr] at h1; exact hmem _ _ h1

theorem descend_keep (v l t : ℕ) {r : α} (h : I r) : I (descend U v l t r).2 := by
  induction l generalizing t r with
  | zero => exact h
  | succ l ih =>
    rw [descend]
    split_ifs
    · exact h
    · exact ih _ h
    · have h1 := halloc r h
      rcases hr : allocFrame r with ⟨_ | g, r'⟩
      · rw [hr] at h1; exact h1
      · rw [hr] at h1; exact ih g (hmem _ _ h1)

theorem map_keep (root va pa : ℕ) (flags : Word) {r : α} (h : I r) : I (map U root va pa flags r).2 := by
  rw [map]
  split_ifs
  · exact h
  · exact h
  · exact h
  · have h1 := descend_keep (U := U) halloc hmem (va / PAGE_SIZE) U.depth root h
    simp only
    rcases hr : descend U (va / PAGE_SIZE) U.depth root r with ⟨_ | t, r'⟩
    · rw [hr] at h1; exact h1
    · rw [hr] at h1
      simp only
      split_ifs
      · exact h1
      · exact hmem _ _ h1

theorem mapPage_keep (root va pa : ℕ) (perms : Perms) {r : α} (h : I r) : I (mapPage U root va pa perms r).2 := by
  rw [mapPage]
  cases U.encode perms with
  | none => exact h
  | some flags =>
    have h1 := map_keep (U := U) halloc hmem root va pa flags h
    simp only
    rcases hr : map U root va pa flags r with ⟨_ | _, r'⟩
    all_goals rw [hr] at h1; exact h1

end Keep

/-! ## User memory, through the active tables -/

/-- `user_ptr_ok` -/
def userPtrOk (A : Arch) (uptr len : ℕ) : Bool :=
  decide (len < USER_COPY_LIMIT ∧ A.userBase ≤ uptr ∧ uptr + len < U64 ∧ uptr + len ≤ A.userLimit)

/-- `user_range_mapped`: inside the user window, and every page of the range mapped with what the access needs -/
def userRangeMapped (A : Arch) (m : Mem) (cr3 uptr len : ℕ) (needWrite : Bool) : Bool :=
  userPtrOk A uptr len && (len == 0 ||
    (List.range ((uptr + len - pageAddr uptr + (PAGE_SIZE - 1)) / PAGE_SIZE)).all fun k =>
      ((leafFlags A.toMmu m (A.root cr3) (pageAddr uptr + k * PAGE_SIZE)).elim false (A.permits needWrite)))

/-- a store of one byte through the active tables; an untranslated address stores nothing -/
def storeUser (A : Arch) (cr3 : ℕ) (m : Mem) (va : ℕ) (b : Byte) : Mem :=
  (translate A.toMmu m (A.root cr3) va).elim m fun pa => writeByte m pa b

/-- the stores of a copy to user memory, byte by byte -/
def storeUserBytes (A : Arch) (cr3 : ℕ) : Mem → ℕ → List Byte → Mem
  | m, _, [] => m
  | m, va, b :: bs => storeUserBytes A cr3 (storeUser A cr3 m va b) (va + 1) bs

/-- `copy_to_user`: the memory afterwards, `none` if the range is refused -/
def copyToUser (A : Arch) (m : Mem) (cr3 uptr : ℕ) (bytes : List Byte) : Option Mem :=
  if userRangeMapped A m cr3 uptr bytes.length true then some (storeUserBytes A cr3 m uptr bytes) else none

/-- `copy_from_user`: `len` bytes from `uptr`, `none` if the range is refused -/
def copyFromUser (A : Arch) (m : Mem) (cr3 uptr len : ℕ) : Option (List Byte) :=
  if userRangeMapped A m cr3 uptr len false then
    some ((List.range len).map fun k => (translate A.toMmu m (A.root cr3) (uptr + k)).elim 0 (readByte m))
  else none

end Rustproof.Vspace
