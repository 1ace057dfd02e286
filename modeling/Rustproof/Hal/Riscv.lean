/-
rv64: Sv39 page tables, the `sret` trap frame and the address-space layout (`arch_riscv.rs`, `crates/vspace-riscv`).

An entry is a page number in bits 10 to 53 and flags in the others. An entry that carries none of `R`, `W`, `X` is a
pointer, at any level; `map_page` refuses device memory.
-/
import Rustproof.Hal.Arch

namespace Rustproof.Riscv

open Lib RadixTree

/-- bits 10 to 53 -/
def PPN_MASK : Word := 0x003FFFFFFFFFFC00

def V : Word := 0x1
def R : Word := 0x2
def W : Word := 0x4
def X : Word := 0x8
def U : Word := 0x10
def RWX : Word := 0xE

/-- `Pte::new` -/
def newPte (pa : ℕ) (flags : Word) : Word :=
  (BitVec.ofNat 64 (pa / PAGE_SIZE % 2 ^ 44) <<< 10) ||| (flags &&& ~~~ PPN_MASK)

/-- `Pte::addr` -/
def pteAddr (e : Word) : ℕ := e.toNat / 2 ^ 10 % 2 ^ 44 * PAGE_SIZE

/-- `Pte::is_leaf` -/
def isLeaf (e : Word) : Bool := e &&& RWX != 0

/-- the flags of `RiscvSpace::map_page`, which refuses device memory -/
def pageFlags (p : Perms) : Option Word :=
  if p.device then none
  else some (V ||| R ||| (if p.write then W else 0) ||| (if p.exec then X else 0) ||| (if p.user then U else 0))

/-- the flags of `load_segment` -/
def elfFlags (pfW pfX : Bool) : Word := V ||| R ||| U ||| (if pfW then W else 0) ||| (if pfX then X else 0)

/-- the flags `user_range_mapped` asks for -/
def needed (write : Bool) : Word := V ||| R ||| U ||| (if write then W else 0)

/-- `Pte::flags` -/
def flags (e : Word) : Word := e &&& ~~~ PPN_MASK

/-- `PageFlags::contains` -/
def permits (write : Bool) (fl : Word) : Bool := fl &&& needed write == needed write

/-! ## Page numbers and flags do not meet -/

theorem getLsbD_PPN_MASK (i : ℕ) : PPN_MASK.getLsbD i = decide (10 ≤ i ∧ i < 54) := by
  by_cases hi : i < 64
  · have h : ∀ i < 64, PPN_MASK.getLsbD i = decide (10 ≤ i ∧ i < 54) := by decide
    exact h i hi
  · rw [BitVec.getLsbD_of_ge _ _ (by omega)]
    symm; rw [decide_eq_false_iff_not]; omega

theorem getLsbD_newPte (pa : ℕ) (flags : Word) {i : ℕ} (hi : i < 64) :
    (newPte pa flags).getLsbD i =
      if 10 ≤ i ∧ i < 54 then (pa / PAGE_SIZE).testBit (i - 10) else flags.getLsbD i := by
  rw [newPte, BitVec.getLsbD_or, BitVec.getLsbD_shiftLeft, BitVec.getLsbD_and, BitVec.getLsbD_not,
    BitVec.getLsbD_ofNat, getLsbD_PPN_MASK, Nat.testBit_mod_two_pow]
  by_cases h : 10 ≤ i ∧ i < 54
  · have h1 : ¬ i < 10 := by omega
    have h2 : i - 10 < 44 := by omega
    have h3 : i - 10 < 64 := by omega
    simp [h, hi, h1, h2, h3]
  · by_cases h1 : i < 10
    · simp [h, hi, h1]
    · have h2 : ¬ i - 10 < 44 := by omega
      simp [h, hi, h2]

/-- a page-aligned address below 2^56 is read back from its entry -/
theorem addr_newPte {pa : ℕ} (flags : Word) (hal : pa % PAGE_SIZE = 0) (hlt : pa < 2 ^ 56) :
    pteAddr (newPte pa flags) = pa := by
  have hnum : (newPte pa flags).toNat / 2 ^ 10 % 2 ^ 44 = pa / PAGE_SIZE := by
    refine Nat.eq_of_testBit_eq fun i => ?_
    rw [Nat.testBit_mod_two_pow, Nat.testBit_div_two_pow]
    by_cases hi : i < 44
    · have := getLsbD_newPte pa flags (i := i + 10) (by omega)
      rw [if_pos (by omega), Nat.add_sub_cancel] at this
      rw [← this]
      simp [hi, BitVec.getLsbD]
    · have hsmall : pa / PAGE_SIZE < 2 ^ 44 := by simp only [PAGE_SIZE]; omega
      rw [Nat.testBit_lt_two_pow (lt_of_lt_of_le hsmall (Nat.pow_le_pow_right (by decide) (by omega)))]
      simp [hi]
  rw [pteAddr, hnum]
  simp only [PAGE_SIZE] at *
  omega

/-- an entry's `R`, `W` and `X` bits are its flags' -/
theorem isLeaf_newPte (pa : ℕ) (flags : Word) : isLeaf (newPte pa flags) = isLeaf flags := by
  have : newPte pa flags &&& RWX = flags &&& RWX := by
    refine BitVec.eq_of_getLsbD_eq fun i hi => ?_
    rw [BitVec.getLsbD_and, BitVec.getLsbD_and, getLsbD_newPte pa flags hi]
    by_cases h : 10 ≤ i ∧ i < 54
    · have hbits : ∀ i < 64, 10 ≤ i → RWX.getLsbD i = false := by decide
      rw [hbits i hi h.1]; simp
    · rw [if_neg h]
  rw [isLeaf, this, isLeaf]

/-! ## The format -/

def fmt : Format Word where
  present e := e.getLsbD 0
  huge := isLeaf
  isLeaf := isLeaf
  addr := pteAddr
  link pa := newPte pa V
  empty := 0
  Fits pa := pa % PAGE_SIZE = 0 ∧ pa < 2 ^ 56
  present_empty := by decide
  present_link pa := by rw [getLsbD_newPte _ _ (by decide), if_neg (by decide)]; decide
  huge_link pa := by rw [isLeaf_newPte]; decide
  addr_link pa h := addr_newPte _ h.1 h.2

theorem flags_newPte (pa : ℕ) (fl : Word) : flags (newPte pa (fl ||| V)) = flags fl ||| V := by
  refine BitVec.eq_of_getLsbD_eq fun i hi => ?_
  rw [flags, BitVec.getLsbD_and, getLsbD_newPte pa _ hi, BitVec.getLsbD_not, getLsbD_PPN_MASK, BitVec.getLsbD_or,
    BitVec.getLsbD_or, flags, BitVec.getLsbD_and, BitVec.getLsbD_not, getLsbD_PPN_MASK]
  by_cases h : 10 ≤ i ∧ i < 54
  · have hbit : ∀ i < 64, 10 ≤ i → V.getLsbD i = false := by decide
    simp [h, hbit i hi h.1]
  · simp [h, hi]

theorem permits_user {w : Bool} {e : Word} (h : permits w (flags e) = true) :
    e.getLsbD 4 = true ∧ (w = true → e.getLsbD 2 = true) := by
  rw [permits, beq_iff_eq, flags] at h
  have hbit : ∀ i, (needed w).getLsbD i = true → e.getLsbD i = true := fun i hi => by
    rw [← h, BitVec.getLsbD_and, BitVec.getLsbD_and] at hi
    simp only [Bool.and_eq_true] at hi
    exact hi.1.1
  exact ⟨hbit 4 (by cases w <;> decide), fun hw => hbit 2 (by rw [hw]; decide)⟩

theorem pageFlags_bits {p : Perms} {fl : Word} (h : pageFlags p = some fl) :
    isLeaf fl = true ∧ (fl ||| V).getLsbD 4 = p.user ∧ (fl ||| V).getLsbD 2 = p.write := by
  obtain ⟨w, x, u, d⟩ := p
  cases d
  · obtain rfl := Option.some.inj h
    cases w <;> cases x <;> cases u <;> decide
  · simp [pageFlags] at h

def mmu : Mmu where
  fmt := fmt
  depth := 2
  kernelEntries := 3
  entry pa flags := newPte pa (flags ||| V)
  flagsOk := isLeaf
  encode := pageFlags
  elfFlags := elfFlags
  flags := flags
  presentFlag := V
  physLimit := 2 ^ 56
  permits := permits
  user e := e.getLsbD 4
  writable e := e.getLsbD 2
  -- `(8 << 60) | ppn`: the page number never reaches bit 63
  token r := 2 ^ 63 + r / PAGE_SIZE
  root t := t % 2 ^ 44 * PAGE_SIZE
  depth_pos := by decide
  empty_eq := rfl
  physLimit_le := by decide
  fits pa := Iff.rfl
  entry_present pa fl h := by
    refine ⟨?_, ?_⟩
    · show (newPte pa (fl ||| V)).getLsbD 0 = true
      rw [getLsbD_newPte _ _ (by decide), if_neg (by decide), BitVec.getLsbD_or]
      simp [V]
    · show isLeaf (newPte pa (fl ||| V)) = true
      rw [isLeaf_newPte]
      have : (fl ||| V) &&& RWX = fl &&& RWX := by
        rw [BitVec.and_comm, BitVec.and_or_distrib_left, show RWX &&& V = 0#64 by decide, BitVec.or_zero, BitVec.and_comm]
      rw [isLeaf, this]; exact h
  entry_addr pa fl h1 h2 := addr_newPte _ h1 h2
  entry_flags := flags_newPte
  encode_spec p fl h := by
    obtain ⟨h1, h2, h3⟩ := pageFlags_bits h
    refine ⟨h1, fun pa => ⟨?_, ?_⟩⟩
    · rw [getLsbD_newPte _ _ (by decide), if_neg (by decide)]; exact h2
    · rw [getLsbD_newPte _ _ (by decide), if_neg (by decide)]; exact h3
  elfFlags_eq w x := by cases w <;> cases x <;> decide
  permits_spec w e h := permits_user h
  root_token r h1 h2 := by
    show (2 ^ 63 + r / PAGE_SIZE) % 2 ^ 44 * PAGE_SIZE = r
    simp only [PAGE_SIZE] at *
    omega

/-! ## Registers -/

/-- the register file with one register replaced -/
def setReg (f : UserFrame) (i v : ℕ) : UserFrame := f.put i (BitVec.ofNat 64 v)

/-- `frame_init`: `sp`, `a0`, `sepc`, and `sstatus` with `SPIE` and `SUM` -/
def frameInit (entry sp arg0 : ℕ) : UserFrame :=
  setReg (setReg (setReg (setReg UserFrame.ZERO 2 sp) 10 arg0) 32 entry) 33 (2 ^ 5 + 2 ^ 18)

/-- `frame_arg`: `regs.get(10 + i)` -/
def frameArg (f : UserFrame) (i : ℕ) : ℕ := if 10 + i < 32 then (f (10 + i)).toNat else 0

end Rustproof.Riscv

namespace Rustproof

/-- the rv64 hardware surface -/
def Riscv : Arch where
  toMmu := Riscv.mmu
  userBase := 0x100000000
  userLimit := 0x200000000
  userStackTop := 0x140000000
  userStackPages := 16
  userMmioBase := 0x120000000
  userShareBase := 0x150000000
  machine := 0xF3
  iommu := false
  frameWords := 34
  frameInit := Riscv.frameInit
  frameNum f := (f 17).toNat
  frameArg := Riscv.frameArg
  retReg := 10
  ret2Reg := 11
  ret3Reg := 13
  ret_apart := by decide
  base_aligned := by decide
  limit_lt := by decide
  user_own va h1 h2 := by
    refine ⟨?_, ?_⟩
    · show va / 4096 < 512 ^ 3
      omega
    · show 3 ≤ va / 4096 / 512 ^ 2
      omega
  stack_aligned := by decide
  stack_in := by decide
  mmio_aligned := by decide
  mmio_in := by decide
  mmio_below := by decide
  share_aligned := by decide
  share_in := by decide

end Rustproof
