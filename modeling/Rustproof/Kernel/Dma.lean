/-
DMA: the I/O page tables, the unit's command ring, and the paths that give and withdraw a device's reach.

- `iommuCmd`, `iommuInvalidate`: the command ring and one complete invalidation of a domain.
- `mapDma`: give a domain reach to every page of a region, at addresses the kernel picks.
- `clearIoMappingsIn`, `withdrawRegionFromDomain`, `withdrawDmaSlot`, `withdrawAllDmaOf`, `unmapDma`: the withdrawals.

An invalidation takes `C.completes` for the unit's answer. The level-1 tables live in memory; their slots 256 to 511 are
the window `MAP_DMA` allocates from.
-/
import Rustproof.Kernel.Caps

namespace Rustproof.Kernel

open Lib Prog

/-! ## I/O page-table entries -/

namespace iopte

def PR : Word := 0x1
def IR : Word := 0x2000000000000000
def IW : Word := 0x4000000000000000
def ADDR : Word := 0x000FFFFFFFFFF000

/-- the entry for `frame` with `rights` -/
def leaf (frame : ℕ) (rights : CapRights) : Word :=
  (BitVec.ofNat 64 frame &&& ADDR) ||| PR ||| (if rights.contains CapRights.READ then IR else 0) |||
    (if rights.contains CapRights.WRITE then IW else 0)

def present (e : Word) : Bool := e &&& PR != 0

def writable (e : Word) : Bool := e &&& IW != 0

/-- the frame number an entry names -/
def frame (e : Word) : ℕ := (e &&& ADDR).toNat / PAGE_SIZE

theorem not_present_zero : present 0 = false := by decide

end iopte

/-- first slot of the window `MAP_DMA` allocates from, and how many there are -/
def DMA_IOVA_FIRST_SLOT : ℕ := 256
def DMA_IOVA_SLOTS : ℕ := 256

/-! ## Naming a domain -/

variable (C : Config)

/-- `domain_lookup(&domain_ids(), named)`: 0 names nothing -/
def domainLookup (named : ℕ) : Option ℕ :=
  firstIdx MAX_DOMAINS fun i => (C.domainSlots i).id != 0 && (C.domainSlots i).id == named

/-- no device claimed a domain -/
def noDomains : Bool := !anyIdx MAX_DOMAINS fun i => (C.domainSlots i).id != 0

/-! ## The command ring -/

/-- one 128-bit command, as the two words it occupies -/
structure Command where
  lo : Word
  hi : Word
deriving DecidableEq, Repr

/-- the words of `[c0, c1, c2, c3]` -/
def Command.ofU32 (c0 c1 c2 c3 : BitVec 32) : Command := ⟨c1 ++ c0, c3 ++ c2⟩

/-- `iommu_cmd`: append one command and ring the tail; false if no buffer is armed -/
def iommuCmd (cmd : Command) : K Bool := do
  let s ← get
  if C.cmdBuf = 0 then ret false
  else if s.cmdTail + 16 > PAGE_SIZE then halt .ringFull
  else
    modify fun s =>
      let i := s.cmdTail / 8
      { s.setMem ((s.w.mem.put C.cmdBuf i cmd.lo).put C.cmdBuf (i + 1) cmd.hi) with
        cmdTail := s.cmdTail + 16 }.record (.tail (s.cmdTail + 16))
    ret true

def DONE : Word := 0x5A5A5A5AA5A5A5A5

/-- INVALIDATE_IOMMU_PAGES for the whole of domain `di` -/
def cmdPages (di : ℕ) : Command := .ofU32 0 (0x30000000 ||| (BitVec.ofNat 32 di &&& 0xFFFF)) 0xFFFFF001 0x7FFFFFFF

/-- INVALIDATE_DEVTAB_ENTRY for the device of domain `di` -/
def cmdDevice (di : ℕ) : Command := .ofU32 (BitVec.ofNat 32 (C.domainSlots di).bdf) 0x20000000 0 0

/-- COMPLETION_WAIT, storing `DONE` at `store` -/
def cmdWait : Command :=
  .ofU32 ((BitVec.ofNat 32 C.cmdStore &&& 0xFFFFFFF8) ||| 1)
    ((BitVec.ofNat 32 (C.cmdStore / 2 ^ 32) &&& 0x000FFFFF) ||| 0x10000000) 0xA5A5A5A5 0x5A5A5A5A

/-- the polling loop: the unit stores `DONE`, or never answers -/
def awaitCompletion (di : ℕ) (s : KState) : Bool × KState :=
  if C.completes s.w.history.length then
    (true, (s.setMem (s.w.mem.put C.cmdStore 0 DONE)).record (.invalidated di))
  else (false, s)

/-- `iommu_invalidate`: drop everything the unit cached for domain `di`, and wait for it to say so -/
def iommuInvalidate (di : ℕ) : K Bool := do
  if C.cmdStore = 0 then ret false
  else
    modify fun s => s.setMem (s.w.mem.put C.cmdStore 0 0)
    let pages ← iommuCmd C (cmdPages di)
    if pages = false then ret false
    else
      let device ← iommuCmd C (cmdDevice C di)
      if device = false then ret false
      else
        let wait ← iommuCmd C (cmdWait C)
        if wait = false then ret false else run (awaitCompletion C di)

/-- one invalidation whose failure is only counted -/
def invalidateCounted (di : ℕ) : K Unit := do
  let done ← iommuInvalidate C di
  onlyIf (done = false) (modify fun s => { s with timeouts := s.timeouts + 1 })

/-- `invalidate_all_domains` -/
def invalidateAllDomains : K Unit :=
  forEach (List.range MAX_DOMAINS) fun di => onlyIf ((C.domainSlots di).id ≠ 0) (invalidateCounted C di)

/-- `if any { if base != 0 { invalidate_all_domains(base) } }` -/
def flushIf (any : Bool) : K Unit := onlyIf (any = true ∧ C.amdviBase ≠ 0) (invalidateAllDomains C)

/-! ## Giving reach -/

namespace KState

/-- change the model of domain `di` -/
@[simps -fullyApplied] def modDomain (s : KState) (di : ℕ) (f : Domain → Domain) : KState :=
  { s with domains := s.domains.put di (f (s.domains di)) }

/-- store `pte` to slot `slot` of domain `di`'s level-1 table -/
@[simps! -fullyApplied] def storeLeaf (s : KState) (di slot : ℕ) (pte : Word) : KState :=
  (s.setMem (s.w.mem.put (C.domainSlots di).l1 slot pte)).record (.leaf di slot pte)

/-- slot `slot` of domain `di`'s level-1 table -/
def leafAt (s : KState) (di slot : ℕ) : Word := s.w.mem (C.domainSlots di).l1 slot

end KState

/-- the search for `npages` adjacent absent slots, from `slot` with a run of `run` behind it -/
def findRun (table : ℕ → Word) (npages : ℕ) : ℕ → ℕ → ℕ → Option ℕ
  | 0, _, _ => none
  | fuel + 1, slot, run =>
    if iopte.present (table slot) = true then findRun table npages fuel (slot + 1) 0
    else if run + 1 = npages then some (slot + 1 - npages)
    else findRun table npages fuel (slot + 1) (run + 1)

/-- undo the pages `0..=k` of a failed call: the mappings and leaves first, then every grant nothing rests on -/
def rollbackDma (di ri first k : ℕ) (s : KState) : KState :=
  let s := (List.range (k + 1)).foldl (fun s j =>
    (s.modDomain di fun d => d.unmap ((first + j) * PAGE_SIZE)).storeLeaf C di (first + j) 0) s
  (List.range (k + 1)).foldl (fun s j =>
    let pfn := (s.regions ri).frames.getD j 0 / PAGE_SIZE
    if (s.domains di).reachable.any (·.frame == pfn) then s else s.modDomain di fun d => d.revoke pfn) s

/-- install the pages `k..` of a region, `n` of them; all or nothing -/
def installDma (di ri first : ℕ) (rights : CapRights) : ℕ → ℕ → KState → Bool × KState
  | 0, _, s => (true, s)
  | n + 1, k, s =>
    let frame := (s.regions ri).frames.getD k 0
    let s := s.modDomain di fun d => (d.grant (frame / PAGE_SIZE) rights).2
    match (s.domains di).map ((first + k) * PAGE_SIZE) (frame / PAGE_SIZE) rights with
    | .error _ => (false, rollbackDma C di ri first k s)
    | .ok d =>
      installDma di ri first rights n (k + 1)
        ((s.modDomain di fun _ => d).storeLeaf C di (first + k) (iopte.leaf frame rights))

/-- `map_dma`: the I/O virtual address chosen, or an error word -/
def mapDma (who domain regionId : ℕ) (rights : CapRights) (s : KState) : ℕ × KState :=
  if noDomains C then (syserr.NO_MEM, s)
  else
    match domainLookup C domain with
    | none => (syserr.NO_CAP, s)
    | some di =>
      if (C.domainSlots di).l1 = 0 then (syserr.NO_MEM, s)
      else
        match s.regionIndex regionId with
        | none => (syserr.NO_CAP, s)
        | some ri =>
          let npages := (s.regions ri).frames.length
          match findRun (s.leafAt C di) npages DMA_IOVA_SLOTS DMA_IOVA_FIRST_SLOT 0 with
          | none => (syserr.NO_MEM, s)
          | some first =>
            match firstIdx SHARE_SLOTS fun i => ((s.procs who).dma i).1 == 0 with
            | none => (syserr.NO_MEM, s)
            | some rec_ =>
              match installDma C di ri first rights npages 0 s with
              | (false, s) => (syserr.NO_CAP, s)
              | (true, s) =>
                (first * PAGE_SIZE, s.modProc who fun p => { p with dma := p.dma.put rec_ (regionId, domain) })

/-! ## Withdrawing reach -/

/-- clear slot `slot` of domain `di`'s table if it names `pfn` -/
def clearSlot (di pfn slot : ℕ) (s : KState) : Bool × KState :=
  let pte := s.leafAt C di slot
  if iopte.present pte = true ∧ iopte.frame pte = pfn then (true, s.storeLeaf C di slot 0) else (false, s)

/-- `clear_io_mappings_in`: clear every entry of domain `di`'s table that names `pfn` -/
def clearIoMappingsIn (di pfn : ℕ) (s : KState) : Bool × KState :=
  if (C.domainSlots di).l1 = 0 then (false, s) else forAny (clearSlot C di pfn) (List.range 512) s

/-- `clear_io_mappings_of`: the same in every domain -/
def clearIoMappingsOf (pfn : ℕ) (s : KState) : Bool × KState :=
  forAny (fun di => clearIoMappingsIn C di pfn) (List.range MAX_DOMAINS) s

/-- one page of `withdraw_region_from_domain`: the table, then the model's mappings, then the grant -/
def withdrawPage (di pfn : ℕ) (s : KState) : Bool × KState :=
  let r := clearIoMappingsIn C di pfn s
  let iovas := (((r.2.domains di).reachable.filter (·.frame == pfn)).map (·.iova)).take (REGION_MAX_PAGES * 2)
  (r.1, r.2.modDomain di fun d => (iovas.foldl Iommu.Domain.unmap d).revoke pfn)

/-- `withdraw_region_from_domain` -/
def withdrawRegionFromDomain (di ri : ℕ) (s : KState) : Bool × KState :=
  forAny (fun frame => withdrawPage C di (frame / PAGE_SIZE)) (s.regions ri).frames s

/-- `withdraw_dma_slot`: one mapping this process asked for -/
def withdrawDmaSlot (who slot : ℕ) (s : KState) : Bool × KState :=
  let (regionId, domain) := (s.procs who).dma slot
  if regionId = 0 then (false, s)
  else
    let s := s.modProc who fun p => { p with dma := p.dma.put slot (0, 0) }
    match domainLookup C domain with
    | none => (false, s)
    | some di =>
      match s.regionIndex regionId with
      | none => (false, s)
      | some ri => withdrawRegionFromDomain C di ri s

/-- one iteration of `withdraw_all_dma_of` -/
def withdrawSlotAtExit (who slot : ℕ) (s : KState) : Bool × KState :=
  let r := withdrawDmaSlot C who slot s
  (r.1, { r.2 with dmaWithdrawnAtExit := if r.1 then r.2.dmaWithdrawnAtExit + 1 else r.2.dmaWithdrawnAtExit })

/-- the loop of `withdraw_all_dma_of` -/
def withdrawSlots (who : ℕ) (s : KState) : Bool × KState := forAny (withdrawSlotAtExit C who) (List.range SHARE_SLOTS) s

/-- `withdraw_all_dma_of` -/
def withdrawAllDmaOf (who : ℕ) : K Unit := do
  let any ← run (withdrawSlots C who)
  flushIf C any

/-- drop this process's records of one mapping -/
def dropRecords (who regionId domain : ℕ) (s : KState) : KState :=
  s.modProc who fun p => { p with dma := fun i => if i < SHARE_SLOTS ∧ p.dma i = (regionId, domain) then (0, 0) else p.dma i }

/-- `unmap_dma` -/
def unmapDma (who domain regionId : ℕ) : K ℕ := do
  let s ← get
  if noDomains C then ret syserr.NO_MEM
  else
    match domainLookup C domain with
    | none => ret syserr.NO_CAP
    | some di =>
      match s.regionIndex regionId with
      | none => ret syserr.NO_CAP
      | some ri => do
        modify fun s => dropRecords who regionId domain (withdrawRegionFromDomain C di ri s).2
        onlyIf (C.amdviBase ≠ 0) (invalidateCounted C di)
        ret syserr.OK

end Rustproof.Kernel
