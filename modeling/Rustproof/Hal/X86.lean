/-
x86-64: 4-level page tables, the `iretq` trap frame and the address-space layout (`arch_x86.rs`, `crates/vspace`).

An entry is a physical address in bits 12 to 51 and flags in the others, so encoding an address never disturbs a flag and
the reverse (`getLsbD_newEntry`).
-/
import Rustproof.Hal.Arch

namespace Rustproof.X86

open Lib RadixTree

/-- bits 12 to 51 -/
def ADDR_MASK : Word := 0x000FFFFFFFFFF000

def PRESENT : Word := 0x1
def WRITABLE : Word := 0x2
def USER : Word := 0x4
def NO_CACHE : Word := 0x18
def HUGE : Word := 0x80
def NO_EXEC : Word := 0x8000000000000000

/-- `PageTableEntry::new` -/
def newEntry (pa : ℕ) (flags : Word) : Word := (BitVec.ofNat 64 pa &&& ADDR_MASK) ||| (flags &&& ~~~ ADDR_MASK)

/-- the flags of `X86Space::map_page` -/
def pageFlags (p : Perms) : Word :=
  PRESENT ||| (if p.write then WRITABLE else 0) ||| (if p.user then USER else 0) |||
    (if p.exec then 0 else NO_EXEC) ||| (if p.device then NO_CACHE else 0)

/-- the flags of `load_segment` -/
def elfFlags (pfW pfX : Bool) : Word :=
  PRESENT ||| USER ||| (if pfW then WRITABLE else 0) ||| (if pfX then 0 else NO_EXEC)

/-- the flags `user_range_mapped` asks for -/
def needed (write : Bool) : Word := PRESENT ||| USER ||| (if write then WRITABLE else 0)

/-- `PageTableEntry::flags` -/
def flags (e : Word) : Word := e &&& ~~~ ADDR_MASK

/-- `PageFlags::contains` -/
def permits (write : Bool) (fl : Word) : Bool := fl &&& needed write == needed write

/-! ## Addresses and flags do not meet -/

theorem getLsbD_ADDR_MASK (i : ℕ) : ADDR_MASK.getLsbD i = decide (12 ≤ i ∧ i < 52) := by
  by_cases hi : i < 64
  · have h : ∀ i < 64, ADDR_MASK.getLsbD i = decide (12 ≤ i ∧ i < 52) := by decide
    exact h i hi
  · rw [BitVec.getLsbD_of_ge _ _ (by omega)]
    symm; rw [decide_eq_false_iff_not]; omega

theorem getLsbD_newEntry (pa : ℕ) (flags : Word) {i : ℕ} (hi : i < 64) :
    (newEntry pa flags).getLsbD i = if 12 ≤ i ∧ i < 52 then pa.testBit i else flags.getLsbD i := by
  rw [newEntry, BitVec.getLsbD_or, BitVec.getLsbD_and, BitVec.getLsbD_and, BitVec.getLsbD_not, BitVec.getLsbD_ofNat,
    getLsbD_ADDR_MASK]
  by_cases h : 12 ≤ i ∧ i < 52 <;> simp [h, hi]

/-- a page-aligned address below 2^52 is its own address field -/
theorem masked_addr {pa : ℕ} (hal : pa % PAGE_SIZE = 0) (hlt : pa < 2 ^ 52) :
    BitVec.ofNat 64 pa &&& ADDR_MASK = BitVec.ofNat 64 pa := by
  refine BitVec.eq_of_getLsbD_eq fun i hi => ?_
  rw [BitVec.getLsbD_and, getLsbD_ADDR_MASK, BitVec.getLsbD_ofNat]
  by_cases h : 12 ≤ i ∧ i < 52
  · simp [h]
  · have : pa.testBit i = false := by
      by_cases hlow : i < 12
      · have := Nat.testBit_mod_two_pow pa 12 i
        rw [show (2 : ℕ) ^ 12 = PAGE_SIZE from rfl, hal, Nat.zero_testBit] at this
        simpa [hlow] using this.symm
      · exact Nat.testBit_lt_two_pow (lt_of_lt_of_le hlt (Nat.pow_le_pow_right (by decide) (by omega)))
    simp [this]

theorem toNat_masked {pa : ℕ} (hal : pa % PAGE_SIZE = 0) (hlt : pa < 2 ^ 52) :
    (BitVec.ofNat 64 pa &&& ADDR_MASK).toNat = pa := by
  rw [masked_addr hal hlt, BitVec.toNat_ofNat]
  exact Nat.mod_eq_of_lt (lt_trans hlt (by decide))

theorem addr_newEntry {pa : ℕ} (flags : Word) (hal : pa % PAGE_SIZE = 0) (hlt : pa < 2 ^ 52) :
    (newEntry pa flags &&& ADDR_MASK).toNat = pa := by
  have : newEntry pa flags &&& ADDR_MASK = BitVec.ofNat 64 pa &&& ADDR_MASK := by
    refine BitVec.eq_of_getLsbD_eq fun i hi => ?_
    rw [BitVec.getLsbD_and, getLsbD_newEntry pa flags hi, BitVec.getLsbD_and, getLsbD_ADDR_MASK, BitVec.getLsbD_ofNat]
    by_cases h : 12 ≤ i ∧ i < 52 <;> simp [h, hi]
  rw [this, toNat_masked hal hlt]

/-! ## The format -/

theorem notPresent_zero : (0 : Word).getLsbD 0 = false := by decide

def fmt : Format Word where
  present e := e.getLsbD 0
  huge e := e.getLsbD 7
  isLeaf _ := true
  addr e := (e &&& ADDR_MASK).toNat
  link pa := newEntry pa (PRESENT ||| WRITABLE ||| USER)
  empty := 0
  Fits pa := pa % PAGE_SIZE = 0 ∧ pa < 2 ^ 52
  present_empty := notPresent_zero
  present_link pa := by rw [getLsbD_newEntry _ _ (by decide), if_neg (by decide)]; decide
  huge_link pa := by rw [getLsbD_newEntry _ _ (by decide), if_neg (by decide)]; decide
  addr_link pa h := addr_newEntry _ h.1 h.2

theorem pageFlags_bits (p : Perms) :
    (pageFlags p ||| PRESENT).getLsbD 0 = true ∧ (pageFlags p ||| PRESENT).getLsbD 1 = p.write ∧
      (pageFlags p ||| PRESENT).getLsbD 2 = p.user := by
  obtain ⟨w, x, u, d⟩ := p
  cases w <;> cases x <;> cases u <;> cases d <;> decide

theorem flags_newEntry (pa : ℕ) (fl : Word) : flags (newEntry pa (fl ||| PRESENT)) = flags fl ||| PRESENT := by
  refine BitVec.eq_of_getLsbD_eq fun i hi => ?_
  rw [flags, BitVec.getLsbD_and, getLsbD_newEntry pa _ hi, BitVec.getLsbD_not, getLsbD_ADDR_MASK, BitVec.getLsbD_or,
    BitVec.getLsbD_or, flags, BitVec.getLsbD_and, BitVec.getLsbD_not, getLsbD_ADDR_MASK]
  by_cases h : 12 ≤ i ∧ i < 52
  · have hbit : ∀ i < 64, 12 ≤ i → PRESENT.getLsbD i = false := by decide
    simp [h, hbit i hi h.1]
  · simp [h, hi]

theorem permits_user {w : Bool} {e : Word} (h : permits w (flags e) = true) :
    e.getLsbD 2 = true ∧ (w = true → e.getLsbD 1 = true) := by
  rw [permits, beq_iff_eq, flags] at h
  have hbit : ∀ i, (needed w).getLsbD i = true → e.getLsbD i = true := fun i hi => by
    rw [← h, BitVec.getLsbD_and, BitVec.getLsbD_and] at hi
    simp only [Bool.and_eq_true] at hi
    exact hi.1.1
  exact ⟨hbit 2 (by cases w <;> decide), fun hw => hbit 1 (by rw [hw]; decide)⟩

def mmu : Mmu where
  fmt := fmt
  depth := 3
  kernelEntries := 1
  entry pa flags := newEntry pa (flags ||| PRESENT)
  flagsOk _ := true
  encode p := some (pageFlags p)
  elfFlags := elfFlags
  flags := flags
  presentFlag := PRESENT
  physLimit := 2 ^ 52
  permits := permits
  user e := e.getLsbD 2
  writable e := e.getLsbD 1
  token r := r
  root t := (BitVec.ofNat 64 t &&& ADDR_MASK).toNat
  depth_pos := by decide
  empty_eq := rfl
  physLimit_le := le_rfl
  fits pa := Iff.rfl
  entry_present pa fl _ := by
    refine ⟨?_, rfl⟩
    show (newEntry pa (fl ||| PRESENT)).getLsbD 0 = true
    rw [getLsbD_newEntry _ _ (by decide), BitVec.getLsbD_or]
    simp [PRESENT]
  entry_addr pa fl h1 h2 := addr_newEntry _ h1 h2
  entry_flags := flags_newEntry
  encode_spec p fl h := by
    obtain rfl := Option.some.inj h
    obtain ⟨-, hw, hu⟩ := pageFlags_bits p
    refine ⟨rfl, fun pa => ⟨?_, ?_⟩⟩
    · rw [getLsbD_newEntry _ _ (by decide), if_neg (by decide)]; exact hu
    · rw [getLsbD_newEntry _ _ (by decide), if_neg (by decide)]; exact hw
  elfFlags_eq w x := by cases w <;> cases x <;> decide
  permits_spec w e h := permits_user h
  root_token r h1 h2 := toNat_masked h1 h2

/-! ## Registers and layout -/

/-- the register file with one register replaced -/
def setReg (f : UserFrame) (i v : ℕ) : UserFrame := f.put i (BitVec.ofNat 64 v)

/-- `TrapFrame::new_user` -/
def newUser (entry sp arg0 : ℕ) : UserFrame :=
  setReg (setReg (setReg (setReg (setReg (setReg UserFrame.ZERO 9 arg0) 15 entry) 16 0x2B) 17 0x202) 18 sp) 19 0x23

/-- `frame_arg`: `rdi`, `rsi`, `rdx`, `r10`, `r8` -/
def frameArg (f : UserFrame) : ℕ → ℕ
  | 0 => (f 9).toNat
  | 1 => (f 10).toNat
  | 2 => (f 11).toNat
  | 3 => (f 5).toNat
  | 4 => (f 7).toNat
  | _ => 0

end Rustproof.X86

namespace Rustproof

/-- the x86-64 hardware surface -/
def X86 : Arch where
  toMmu := X86.mmu
  userBase := 0x8000000000
  userLimit := 0x8100000000
  userStackTop := 0x8040000000
  userStackPages := 16
  userMmioBase := 0x8020000000
  userShareBase := 0x8050000000
  machine := 0x3E
  iommu := true
  frameWords := 20
  frameInit := X86.newUser
  frameNum f := (f 14).toNat
  frameArg := X86.frameArg
  retReg := 14
  ret2Reg := 11
  ret3Reg := 5
  ret_apart := by decide
  base_aligned := by decide
  limit_lt := by decide
  user_own va h1 h2 := by
    refine ⟨?_, ?_⟩
    · show va / 4096 < 512 ^ 4
      omega
    · show 1 ≤ va / 4096 / 512 ^ 3
      omega
  stack_aligned := by decide
  stack_in := by decide
  mmio_aligned := by decide
  mmio_in := by decide
  mmio_below := by decide
  share_aligned := by decide
  share_in := by decide

end Rustproof
