/-
The vocabulary shared by the nucleus crates (`crates/abi`): page constants, the boot memory map, capability types and
rights, system-call numbers and the error words a call returns.

Addresses, lengths and counters are naturals; where the source computes in a `u64` that may overflow, the wrap or the
saturation is written out at that place.
-/
import Mathlib.Tactic

namespace Rustproof

/-! ## Pages and machine words -/

abbrev PAGE_SIZE : ℕ := 4096
abbrev PAGE_SHIFT : ℕ := 12

/-- one past the largest `u64` -/
abbrev U64 : ℕ := 2 ^ 64

/-- `u64::MAX` -/
abbrev U64_MAX : ℕ := 2 ^ 64 - 1

/-- a machine word -/
abbrev Word := BitVec 64

/-- `u64` addition as the release build performs it -/
def wadd (a b : ℕ) : ℕ := (a + b) % U64

/-- `u64::saturating_add` -/
def satAdd (a b : ℕ) : ℕ := min (a + b) U64_MAX

theorem wadd_of_lt {a b : ℕ} (h : a + b < U64) : wadd a b = a + b := Nat.mod_eq_of_lt h

/-- `PhysAddr::is_page_aligned` / `VirtAddr::is_page_aligned` -/
def isPageAligned (a : ℕ) : Bool := a % PAGE_SIZE == 0

/-! ## The boot memory map -/

inductive MemoryKind where
  | usable
  | reserved
  | acpiReclaimable
  | acpiNvs
  | unusable
deriving DecidableEq, Repr

structure MemoryRegion where
  start : ℕ
  len : ℕ
  kind : MemoryKind
deriving DecidableEq, Repr

/-- `MemoryRegion::end`: a plain `+` on two `u64`s -/
def MemoryRegion.stop (r : MemoryRegion) : ℕ := wadd r.start r.len

/-! ## Capabilities -/

inductive CapType where
  | null
  | untyped
  | frame
  | pageTable
  | endpoint
  | notification
  | tcb
  | iommuDomain
  | mmio
  | region
  | irq
deriving DecidableEq, Repr

/-- a rights byte; only three bits are defined -/
abbrev CapRights := BitVec 8

namespace CapRights

def NONE : CapRights := 0
def READ : CapRights := 1
def WRITE : CapRights := 2
def GRANT : CapRights := 4
def ALL : CapRights := 7

/-- `self.0 & other.0 == other.0` -/
def contains (self other : CapRights) : Bool := self &&& other == other

def intersect (self other : CapRights) : CapRights := self &&& other

/-- rights from an untrusted word: every undefined bit is dropped -/
def fromUser (word : ℕ) : CapRights := BitVec.ofNat 8 word &&& ALL

theorem contains_iff {a b : CapRights} : contains a b = true ↔ ∀ i, b.getLsbD i = true → a.getLsbD i = true := by
  unfold contains
  rw [beq_iff_eq]
  constructor
  · intro h i hb
    rw [← h, BitVec.getLsbD_and, Bool.and_eq_true] at hb
    exact hb.1
  · intro h
    refine BitVec.eq_of_getLsbD_eq fun i _ => ?_
    rw [BitVec.getLsbD_and]
    cases hb : b.getLsbD i with
    | false => simp
    | true => simp [h i hb]

@[simp] theorem contains_refl (a : CapRights) : contains a a = true := contains_iff.2 fun _ h => h

theorem contains_trans {a b c : CapRights} (h : contains a b = true) (h' : contains b c = true) :
    contains a c = true :=
  contains_iff.2 fun i hi => contains_iff.1 h i (contains_iff.1 h' i hi)

/-- attenuation never gains a right -/
@[simp] theorem contains_intersect (a b : CapRights) : contains a (intersect a b) = true :=
  contains_iff.2 fun i hi => by
    rw [intersect, BitVec.getLsbD_and, Bool.and_eq_true] at hi
    exact hi.1

end CapRights

/-! ## System calls -/

namespace sysno

def DEBUG_WRITE : ℕ := 0
def EXIT : ℕ := 1
def GET_INFO : ℕ := 2
def MAP_BAR : ℕ := 3
def YIELD : ℕ := 5
def SEND : ℕ := 6
def RECV : ℕ := 7
def SPAWN : ℕ := 8
def REVOKE : ℕ := 10
def POLL_IRQ : ℕ := 11
def WAIT_IRQ : ℕ := 12
def MAKE_REGION : ℕ := 13
def MAP_REGION : ℕ := 14
def UNMAP_REGION : ℕ := 15
def FREE_REGION : ℕ := 16
def MAP_DMA : ℕ := 17
def UNMAP_DMA : ℕ := 18

/-- `a1` of `SPAWN` meaning "delegate nothing" -/
def NO_DELEGATE : ℕ := U64_MAX

end sysno

namespace syserr

def OK : ℕ := 0
def BAD_SYSCALL : ℕ := U64_MAX
def NO_CAP : ℕ := U64_MAX - 1
def NO_MEM : ℕ := U64_MAX - 2
def FAULT : ℕ := U64_MAX - 3

end syserr

namespace spawnerr

def NO_CAP : ℕ := U64_MAX
def NO_DELEGATE : ℕ := U64_MAX - 1
def NO_SLOT : ℕ := U64_MAX - 2
def NO_MEM : ℕ := U64_MAX - 3

end spawnerr

/-- largest byte payload of one message -/
abbrev MAX_MSG_BYTES : ℕ := 128

/-- how many regions one process may own at once -/
abbrev REGION_QUOTA : ℕ := 6

end Rustproof
