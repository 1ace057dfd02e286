/-
The hardware-abstraction surface (`crates/hal`): page permissions, the page-table format and the trap frame of one
instruction set.

`Mmu` is what `Space` and the page-table crate behind it fix: the entry format, the number of levels, how flags are
chosen, how a paging token names a root. Its last fields are the facts about that format the kernel relies on, so a
format that loses an address or a permission bit cannot be given. `Arch` adds the address-space layout and the registers
a system call uses, with the layout facts the boot checks.
-/
import Rustproof.Hal.Memory
import Rustproof.Lib.Table

namespace Rustproof

open Lib RadixTree

/-- `hal::Perms` -/
structure Perms where
  write : Bool
  exec : Bool
  user : Bool
  device : Bool
deriving DecidableEq, Repr

namespace Perms

def USER_RW : Perms := ⟨true, false, true, false⟩
def USER_RO : Perms := ⟨false, false, true, false⟩

/-- `Perms::from_elf` -/
def fromElf (pfW pfX : Bool) : Perms := ⟨pfW, pfX, true, false⟩

end Perms

/-- a saved user register file -/
abbrev UserFrame := Table Word

def UserFrame.ZERO : UserFrame := fun _ => 0

/-- how many user bytes one call may touch: `user_ptr_ok` refuses `1 << 20` and more -/
abbrev USER_COPY_LIMIT : ℕ := 2 ^ 20

structure Mmu where
  fmt : Format Word
  /-- page-table levels above the last -/
  depth : ℕ
  /-- root entries every space shares with the kernel: those below this index -/
  kernelEntries : ℕ
  /-- the leaf entry for a frame and flags, the present bit included -/
  entry : ℕ → Word → Word
  /-- the flags `map` accepts for a leaf -/
  flagsOk : Word → Bool
  /-- the flags `map_page` chooses; `none` where it refuses -/
  encode : Perms → Option Word
  /-- the flags the image loader chooses -/
  elfFlags : Bool → Bool → Word
  /-- the flag bits of an entry, and the one every leaf carries -/
  flags : Word → Word
  presentFlag : Word
  /-- one past the largest address an entry carries -/
  physLimit : ℕ
  /-- flags that carry what a user access (a write, if `true`) needs -/
  permits : Bool → Word → Bool
  user : Word → Bool
  writable : Word → Bool
  /-- the paging token of a root, and the root a token names -/
  token : ℕ → ℕ
  root : ℕ → ℕ
  depth_pos : 0 < depth
  empty_eq : fmt.empty = 0
  physLimit_le : 2 ^ 52 ≤ physLimit
  fits : ∀ pa, fmt.Fits pa ↔ pa % PAGE_SIZE = 0 ∧ pa < physLimit
  entry_present : ∀ pa fl, flagsOk fl = true → fmt.present (entry pa fl) = true ∧ fmt.isLeaf (entry pa fl) = true
  entry_addr : ∀ pa fl, pa % PAGE_SIZE = 0 → pa < physLimit → fmt.addr (entry pa fl) = pa
  entry_flags : ∀ pa fl, flags (entry pa fl) = flags fl ||| presentFlag
  encode_spec : ∀ p fl, encode p = some fl →
    flagsOk fl = true ∧ ∀ pa, user (entry pa fl) = p.user ∧ writable (entry pa fl) = p.write
  elfFlags_eq : ∀ w x, encode (Perms.fromElf w x) = some (elfFlags w x)
  permits_spec : ∀ w e, permits w (flags e) = true → user e = true ∧ (w = true → writable e = true)
  root_token : ∀ r, r % PAGE_SIZE = 0 → r < 2 ^ 52 → root (token r) = r

namespace Mmu

variable (U : Mmu)

/-- the root entries of a space's own -/
def window (i : ℕ) : Prop := U.kernelEntries ≤ i

/-- page number `v` lies in the part of the address space that is the process's own -/
def Own (v : ℕ) : Prop := v < 512 ^ (U.depth + 1) ∧ U.window (v / 512 ^ U.depth)

/-- the pages of the tree under `root`, outside the entries shared with the kernel -/
def tables (m : Mem) (root : ℕ) : Set ℕ := RadixTree.tables U.fmt U.depth U.window m root

/-- the pages under `root` form a tree, outside the entries shared with the kernel -/
def Tree (m : Mem) (root : ℕ) : Prop := RadixTree.Tree U.fmt U.depth U.window m root

/-- the last-level entry for page number `v` -/
def leaf (m : Mem) (root v : ℕ) : Word := RadixTree.leaf U.fmt m root (v % 512) (path U.depth v)

theorem fits_of_lt {pa : ℕ} (h : pa % PAGE_SIZE = 0) (hlt : pa < 2 ^ 52) : U.fmt.Fits pa :=
  (U.fits pa).2 ⟨h, lt_of_lt_of_le hlt U.physLimit_le⟩

/-- an entry user mode can read through -/
def UserLeaf (e : Word) : Prop := U.fmt.present e = true ∧ U.fmt.isLeaf e = true ∧ U.user e = true

instance (e : Word) : Decidable (U.UserLeaf e) := inferInstanceAs (Decidable (_ ∧ _))

theorem window_path {v : ℕ} (h : U.Own v) : U.window (v / 512 ^ U.depth % 512) := by
  obtain ⟨hlt, hw⟩ := h
  rwa [Nat.mod_eq_of_lt]
  exact Nat.div_lt_of_lt_mul (by rw [pow_succ] at hlt; exact hlt)

theorem valid_path {v : ℕ} (h : U.Own v) : Valid U.depth U.window (path U.depth v) :=
  RadixTree.valid_path v (U.window_path h)

end Mmu

/-- one process's share window: `SHARE_SLOTS` slots of `REGION_MAX_PAGES` pages -/
abbrev SHARE_SLOTS : ℕ := 4

/-- largest region, in pages -/
abbrev REGION_MAX_PAGES : ℕ := 4

structure Arch extends Mmu where
  userBase : ℕ
  userLimit : ℕ
  userStackTop : ℕ
  userStackPages : ℕ
  userMmioBase : ℕ
  userShareBase : ℕ
  /-- `e_machine` of an image for this machine -/
  machine : ℕ
  /-- this machine has the I/O page tables -/
  iommu : Bool
  /-- words of a trap frame -/
  frameWords : ℕ
  frameInit : ℕ → ℕ → ℕ → UserFrame
  frameNum : UserFrame → ℕ
  frameArg : UserFrame → ℕ → ℕ
  /-- the registers of the three results -/
  retReg : ℕ
  ret2Reg : ℕ
  ret3Reg : ℕ
  ret_apart : retReg ≠ ret2Reg ∧ retReg ≠ ret3Reg ∧ ret2Reg ≠ ret3Reg
  base_aligned : userBase % PAGE_SIZE = 0
  limit_lt : userLimit < 2 ^ 63
  user_own : ∀ va, userBase ≤ va → va < userLimit → toMmu.Own (va / PAGE_SIZE)
  stack_aligned : userStackTop % PAGE_SIZE = 0
  stack_in : userBase + userStackPages * PAGE_SIZE ≤ userStackTop ∧ userStackTop ≤ userLimit
  mmio_aligned : userMmioBase % PAGE_SIZE = 0
  mmio_in : userBase ≤ userMmioBase ∧ userMmioBase + PAGE_SIZE ≤ userShareBase
  /-- the device window sits below the stack -/
  mmio_below : userMmioBase + PAGE_SIZE + userStackPages * PAGE_SIZE ≤ userStackTop
  share_aligned : userShareBase % PAGE_SIZE = 0
  share_in : userShareBase + SHARE_SLOTS * REGION_MAX_PAGES * PAGE_SIZE ≤ userLimit

namespace Arch

variable (A : Arch)

/-- `frame_set_ret`, `frame_set_ret2`, `frame_set_ret3` -/
def frameSetRet (f : UserFrame) (v : ℕ) : UserFrame := f.put A.retReg (BitVec.ofNat 64 v)
def frameSetRet2 (f : UserFrame) (v : ℕ) : UserFrame := f.put A.ret2Reg (BitVec.ofNat 64 v)
def frameSetRet3 (f : UserFrame) (v : ℕ) : UserFrame := f.put A.ret3Reg (BitVec.ofNat 64 v)

/-- setting the first and the third result again leaves the second, and everything else -/
theorem ret_again (f : UserFrame) (a b c v z : ℕ) :
    A.frameSetRet3 (A.frameSetRet (A.frameSetRet3 (A.frameSetRet2 (A.frameSetRet f a) b) c) v) z =
      A.frameSetRet3 (A.frameSetRet2 (A.frameSetRet f v) b) z := by
  obtain ⟨h12, -, -⟩ := A.ret_apart
  funext j
  simp only [frameSetRet, frameSetRet2, frameSetRet3, Table.put_apply]
  by_cases h3 : j = A.ret3Reg
  · rw [if_pos h3, if_pos h3]
  by_cases h1 : j = A.retReg
  · simp only [h1, if_true, if_neg h12]
  · simp only [if_neg h1, if_neg h3]

end Arch

end Rustproof
