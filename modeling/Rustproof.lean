import Rustproof.Abi
import Rustproof.Lib.BitTable
import Rustproof.Lib.Table
import Rustproof.Lib.Slots
import Rustproof.Lib.Paths
import Rustproof.Lib.RadixTree
import Rustproof.Lib.RadixLinks
import Rustproof.Lib.StateHalt
import Rustproof.Lib.TranslationCache
import Rustproof.Mm.Allocator
import Rustproof.Mm.Invariant
import Rustproof.Mm.Construction
import Rustproof.Mm.GeneralPool
import Rustproof.Mm.Handout
import Rustproof.Mm.Account
import Rustproof.Mm.Safety
import Rustproof.Boot.MemoryMap
import Rustproof.Boot.Pvh
import Rustproof.Boot.Multiboot
import Rustproof.Boot.ReservedMemory
import Rustproof.Boot.Pci
import Rustproof.Boot.Enumeration
import Rustproof.Crates.Capabilities
import Rustproof.Crates.Deleg
import Rustproof.Crates.Derivations
import Rustproof.Crates.Sched
import Rustproof.Crates.Runstate
import Rustproof.Crates.Regions
import Rustproof.Crates.Teardown
import Rustproof.Crates.Iommu
import Rustproof.Crates.IommuReach
import Rustproof.Crates.Ipc
import Rustproof.Hal.Memory
import Rustproof.Hal.Arch
import Rustproof.Hal.X86
import Rustproof.Hal.Riscv
import Rustproof.Vspace.AddressSpace
import Rustproof.Vspace.Spec
import Rustproof.Vspace.Refine
import Rustproof.Vspace.Isolation
import Rustproof.Vspace.UserAccess
import Rustproof.Loader.Elf
import Rustproof.Loader.Spec
import Rustproof.Loader.Pages
import Rustproof.Loader.Confinement
import Rustproof.Loader.Content
import Rustproof.Kernel.UserPointers
import Rustproof.Kernel.State
import Rustproof.Kernel.Caps
import Rustproof.Kernel.Dma
import Rustproof.Kernel.Memory
import Rustproof.Kernel.Process
import Rustproof.Kernel.Trap
import Rustproof.Kernel.Run
import Rustproof.Kernel.Moves
import Rustproof.Kernel.Control
import Rustproof.Kernel.DmaEffect
import Rustproof.Kernel.SpaceEffect
import Rustproof.Kernel.Unmapping
import Rustproof.Kernel.Handlers
import Rustproof.Kernel.Still
import Rustproof.Kernel.Changes
import Rustproof.Kernel.Saved
import Rustproof.Kernel.Quiet
import Rustproof.Kernel.Dispatch
import Rustproof.Kernel.Calls
import Rustproof.Kernel.Inputs
import Rustproof.Kernel.Parked
import Rustproof.Kernel.Registers
import Rustproof.Kernel.Lineage
import Rustproof.Kernel.Authority
import Rustproof.Kernel.Peers
import Rustproof.Kernel.IoTables
import Rustproof.Kernel.Attribution
import Rustproof.Kernel.Mapping
import Rustproof.Kernel.Accounts
import Rustproof.Kernel.Sole
import Rustproof.Kernel.Grants
import Rustproof.Kernel.Spaces
import Rustproof.Kernel.Isolation
import Rustproof.Kernel.FreedFrames
import Rustproof.Kernel.MapBar
import Rustproof.Kernel.ActiveRoot
import Rustproof.Kernel.Revocation
import Rustproof.Kernel.IoMirror
import Rustproof.Kernel.Holders
import Rustproof.Kernel.IdleMoves
import Rustproof.Kernel.DmaReach
import Rustproof.Kernel.DmaAuthority
import Rustproof.Kernel.DmaRoom
import Rustproof.Kernel.UnitLog
import Rustproof.Kernel.UnitCache
import Rustproof.Kernel.Shutdown
import Rustproof.Kernel.Credits
import Rustproof.Kernel.DeviceTable
import Rustproof.Kernel.DeviceWindow
import Rustproof.Kernel.InitialMemory
import Rustproof.Kernel.Newborn
import Rustproof.Kernel.Creation
import Rustproof.Lib.Provenance
import Rustproof.Kernel.Derived
import Rustproof.Lib.CyclicList
import Rustproof.Lib.LittleEndian
import Rustproof.Mm.Exact
import Rustproof.Boot.MapEncoding
import Rustproof.Boot.Ivrs
import Rustproof.Lib.Checksum
import Rustproof.Boot.Acpi
import Rustproof.Boot.AcpiTables
import Rustproof.Crates.RunQueue
import Rustproof.Loader.Checked
import Rustproof.Kernel.Rollback
