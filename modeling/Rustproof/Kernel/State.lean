/-
The kernel's state (`crates/kernel`): the process, region and domain tables, the run queue, the delegation ledger and the
machine.

The tables are functions from their indices; `MAX_PROCS` and the other bounds are where the loops stop. `Config` is what
the boot stashed and nothing changes afterwards. `Halt` is why a run ends: an assertion of the kernel, or `Arch::exit`
with the verdict it reports.
-/
import Rustproof.Crates.Capabilities
import Rustproof.Crates.Deleg
import Rustproof.Crates.Iommu
import Rustproof.Crates.Regions
import Rustproof.Crates.Runstate
import Rustproof.Crates.Sched
import Rustproof.Lib.StateHalt
import Rustproof.Loader.Elf

namespace Rustproof.Kernel

open Lib

abbrev MAX_PROCS : ℕ := 6
/-- processes loaded at boot -/
abbrev NUM_PROCS : ℕ := 3
abbrev CAP_SLOTS : ℕ := 20
abbrev MAX_REGIONS : ℕ := 12
abbrev MAX_DOMAINS : ℕ := 2
abbrev MAX_DELEGATIONS : ℕ := 16
abbrev MAX_IRQ_LINES : ℕ := 8
/-- pages of the device window -/
abbrev DEVICE_PAGES : ℕ := 1
/-- worst-case teardown plan -/
abbrev PLAN_STEPS : ℕ := MAX_PROCS * SHARE_SLOTS + 2 * MAX_REGIONS + SHARE_SLOTS

def IRQ_TIMER : ℕ := 0
def IRQ_CONSOLE : ℕ := 1

/-- `usize::MAX`: `CURRENT` while the kernel is parked -/
def NOBODY : ℕ := U64_MAX

abbrev Caps := Capabilities.CapSpace CAP_SLOTS
abbrev Domain := Iommu.Domain (MAX_REGIONS * REGION_MAX_PAGES) 8

inductive ProcState where
  | free
  | ready
  | blockedSend (ep word len : ℕ)
  | blockedRecv (ep dst max : ℕ)
  | blockedIrq (line : ℕ)
deriving DecidableEq, Repr

inductive Role where
  | producer
  | consumer
  | worker
  | child
deriving DecidableEq, Repr

/-- a shareable memory region; `frames` is the source's `frames[..npages]` -/
structure Region where
  live : Bool
  id : ℕ
  ownerId : ℕ
  frames : List ℕ
deriving DecidableEq, Repr

def Region.EMPTY : Region := ⟨false, 0, 0, []⟩

/-- one scheduled user process; `frames` is the source's `frames[..nframes]` -/
structure Process where
  token : ℕ
  frame : UserFrame
  caps : Caps
  role : Role
  id : ℕ
  state : ProcState
  frames : List ℕ
  /-- region id mapped in each share slot, 0 for none -/
  shares : Table ℕ
  /-- DMA mappings this process asked for: region id (0 for none) and domain id -/
  dma : Table (ℕ × ℕ)
  irqPending : Table ℕ
  msg : Table Byte
  msgLen : ℕ
  pendingDst : ℕ
  pendingLen : ℕ

def Process.EMPTY : Process where
  token := 0
  frame := UserFrame.ZERO
  caps := Capabilities.CapSpace.new
  role := .worker
  id := 0
  state := .free
  frames := []
  shares := fun _ => 0
  dma := fun _ => (0, 0)
  irqPending := fun _ => 0
  msg := fun _ => 0
  msgLen := 0
  pendingDst := 0
  pendingLen := 0

/-- the slot is occupied -/
def Process.live (p : Process) : Bool := p.state != .free

/-- a device domain: its identity (0 if no device claimed it), its device and its level-1 table -/
structure DomainSlot where
  id : ℕ
  bdf : ℕ
  l1 : ℕ
deriving DecidableEq, Repr

def DomainSlot.EMPTY : DomainSlot := ⟨0, 0, 0⟩

/-- what the boot stashed -/
structure Config where
  userElf : List Byte
  ktoken : ℕ
  /-- base of the stand-in device window -/
  devicePhys : ℕ
  /-- base of the bounded device's registers, 0 if none was found -/
  deviceBar : ℕ
  amdviBase : ℕ
  cmdBuf : ℕ
  cmdStore : ℕ
  domainSlots : Table DomainSlot
  /-- free frames when userland started -/
  freeAtStart : ℕ
  /-- the capabilities the boot grants a role -/
  grants : Role → List (CapType × CapRights × ℕ)
  /-- whether the unit answers a COMPLETION_WAIT issued after this many events of the run -/
  completes : ℕ → Bool

/-- why a run ended -/
inductive Halt where
  | ringFull
  | planTruncated
  | mintSourceExtent
  | grantedAtMint
  | loadFailed
  | deadlock
  | staleMapping
  | orphanGrant
  | notContained
  | unusedGrant
  | leak
  | unacknowledged
  | bootOk
deriving DecidableEq, Repr

structure KState where
  w : Machine
  procs : Table Process
  sched : Sched.Scheduler MAX_PROCS
  current : ℕ
  idling : Bool
  regions : Table Region
  nextRegionId : ℕ
  nextId : ℕ
  ledger : Deleg.Ledger MAX_DELEGATIONS
  domains : Table Domain
  cmdTail : ℕ
  timeouts : ℕ
  killed : ℕ
  parks : ℕ
  deviceWakes : ℕ
  dmaWithdrawnAtExit : ℕ

/-- kernel code: it may end the run -/
abbrev K := Prog Halt KState

namespace KState

/-- change process `i` -/
@[simps -fullyApplied] def modProc (s : KState) (i : ℕ) (f : Process → Process) : KState :=
  { s with procs := s.procs.put i (f (s.procs i)) }

/-- the paging base the CPU runs on -/
abbrev cr3 (s : KState) : ℕ := s.w.cr3

/-- load the paging base -/
@[simps -fullyApplied] def setCr3 (s : KState) (token : ℕ) : KState := { s with w := { s.w with cr3 := token } }

/-- replace the memory -/
@[simps -fullyApplied] def setMem (s : KState) (m : Mem) : KState := { s with w := { s.w with mem := m } }

/-- append to the history -/
@[simps -fullyApplied] def record (s : KState) (e : Event) : KState := { s with w := { s.w with history := s.w.history ++ [e] } }

def live (s : KState) (i : ℕ) : Bool := (s.procs i).live

/-- `endpoint_at` -/
def endpointAt (s : KState) (proc cap : ℕ) : Deleg.Endpoint := ⟨proc, (s.procs proc).id, cap⟩

/-- index of the live region with identity `id` -/
def regionIndex (s : KState) (id : ℕ) : Option ℕ :=
  firstIdx MAX_REGIONS fun i => (s.regions i).live && (s.regions i).id == id

/-- the same, where 0 names no region -/
def regionSlot (s : KState) (id : ℕ) : Option ℕ := if id = 0 then none else s.regionIndex id

end KState

end Rustproof.Kernel
