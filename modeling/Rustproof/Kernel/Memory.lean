/-
Memory a process reaches besides its own: shared regions and the device window, and the end of a region.

- `unmapShareSlot`, `unmapRegionFrom`, `unmapDeviceWindow`, `mapRegion`, `mapDevice`: mappings in one process's space.
- `makeRegion`: frames from the DMA arena, and a capability minted for them.
- `runRegionPlan`: the teardown plan of the `regions` crate, step by step; `releaseRegion` is its last step, where the
  device's reach goes before the frames do.
-/
import Rustproof.Kernel.Dma

namespace Rustproof.Kernel

open Lib Prog

variable (A : Arch) (C : Config)

/-! ## Mappings -/

/-- clear `n` pages of the space under `root`, from `base` on -/
def unmapRange (root base n : ℕ) (m : Mem) : Mem :=
  (List.range n).foldl (fun m i => (Vspace.unmap A.toMmu m root (base + i * PAGE_SIZE)).2) m

namespace KState

/-- reload the paging base, if `proc` is the running process -/
@[simps! -fullyApplied] def activateIfCurrent (s : KState) (proc : ℕ) : KState :=
  s.setCr3 (if proc = s.current then (s.procs proc).token else s.cr3)

/-- clear `n` pages of `proc`'s space from `base` on -/
@[simps! -fullyApplied] def unmapPages (s : KState) (proc base n : ℕ) : KState :=
  s.setMem (unmapRange A (A.root (s.procs proc).token) base n s.w.mem)

/-- the allocator charged to `proc` -/
def allocFor (s : KState) (proc : ℕ) : RecordingAlloc := ⟨s.w, (s.procs proc).frames⟩

/-- the state after `proc`'s allocator was used -/
def afterAlloc (s : KState) (proc : ℕ) (r : RecordingAlloc) : KState :=
  { s with w := r.w }.modProc proc fun p => { p with frames := r.frames }

end KState

/-- `share_va` -/
def shareVa (slot : ℕ) : ℕ := A.userShareBase + slot * REGION_MAX_PAGES * PAGE_SIZE

/-- clear the pages of a share slot and forget what it mapped -/
def emptySlot (proc slot : ℕ) (s : KState) : KState :=
  ((s.unmapPages A proc (shareVa A slot) REGION_MAX_PAGES).modProc proc fun p =>
    { p with shares := p.shares.put slot 0 }).activateIfCurrent proc

/-- `unmap_share_slot` -/
def unmapShareSlot (proc slot : ℕ) (s : KState) : KState :=
  if (s.procs proc).shares slot = 0 then s else emptySlot A proc slot s

/-- `unmap_region_from`: every slot of `proc` that maps `id`; true if there was one -/
def unmapRegionFrom (proc id : ℕ) (s : KState) : Bool × KState :=
  forAny (fun slot s => if (s.procs proc).shares slot ≠ id then (false, s) else (true, emptySlot A proc slot s))
    (List.range SHARE_SLOTS) s

/-- `unmap_device_window` -/
def unmapDeviceWindow (proc : ℕ) (s : KState) : KState :=
  (s.unmapPages A proc A.userMmioBase DEVICE_PAGES).activateIfCurrent proc

/-- the mapping loop of `map_region`: page `i` on, undoing the pages of this call when one fails -/
def mapShare (root base : ℕ) (perms : Perms) : List ℕ → ℕ → RecordingAlloc → Bool × RecordingAlloc
  | [], _, r => (true, r)
  | frame :: frames, i, r =>
    match Vspace.mapPage A.toMmu root (base + i * PAGE_SIZE) frame perms r with
    | (true, r) => mapShare root base perms frames (i + 1) r
    | (false, r) => (false, { r with w := { r.w with mem := unmapRange A root base i r.w.mem } })

/-- `map_region`: the user address chosen, or an error word -/
def mapRegion (proc id : ℕ) (rights : CapRights) (s : KState) : ℕ × KState :=
  match s.regionSlot id with
  | none => (syserr.NO_CAP, s)
  | some idx =>
    match (firstIdx SHARE_SLOTS fun i => (s.procs proc).shares i == id).or
        (firstIdx SHARE_SLOTS fun i => (s.procs proc).shares i == 0) with
    | none => (syserr.NO_MEM, s)
    | some slot =>
      let perms := if rights.contains CapRights.WRITE then Perms.USER_RW else Perms.USER_RO
      let base := shareVa A slot
      let s := s.unmapPages A proc base REGION_MAX_PAGES
      match mapShare A (A.root (s.procs proc).token) base perms (s.regions idx).frames 0 (s.allocFor proc) with
      | (false, r) => (syserr.NO_MEM, (s.afterAlloc proc r).activateIfCurrent proc)
      | (true, r) =>
        (base, ((s.afterAlloc proc r).modProc proc fun p =>
          { p with shares := p.shares.put slot id }).activateIfCurrent proc)

/-- `phys` is the base of the bounded device's registers -/
def isDevice (phys : ℕ) : Bool := A.iommu && C.deviceBar != 0 && phys == C.deviceBar

/-- the mapping loop of `map_device`: page `i` on -/
def mapWindow (root phys : ℕ) (perms : Perms) : List ℕ → RecordingAlloc → Bool × RecordingAlloc
  | [], r => (true, r)
  | i :: is, r =>
    match Vspace.mapPage A.toMmu root (A.userMmioBase + i * PAGE_SIZE) (phys + i * PAGE_SIZE) perms r with
    | (true, r) => mapWindow root phys perms is r
    | (false, r) => (false, r)

/-- `KEnv::map_device`: only the stand-in window or the bounded device's registers -/
def mapDevice (proc phys pages : ℕ) (writable : Bool) (s : KState) : Option ℕ × KState :=
  if ¬ ((C.devicePhys ≠ 0 ∧ phys = C.devicePhys) ∨ isDevice A C phys = true) ∨ pages > DEVICE_PAGES then (none, s)
  else
    let s := s.unmapPages A proc A.userMmioBase DEVICE_PAGES
    match mapWindow A (A.root (s.procs proc).token) phys ⟨writable, false, true, isDevice A C phys⟩ (List.range pages)
        (s.allocFor proc) with
    | (false, r) => (none, s.afterAlloc proc r)
    | (true, r) => (some A.userMmioBase, (s.afterAlloc proc r).setCr3 (s.procs proc).token)

/-! ## Creating a region -/

/-- take `n` frames from the DMA arena, scrubbed; `none` when the arena runs dry -/
def takeDmaFrames : ℕ → List ℕ → Machine → Option (List ℕ) × Machine
  | 0, got, w => (some got, w)
  | n + 1, got, w =>
    match w.fa.allocDmaFrame with
    | (none, fa) => (none, { w with fa := fa }.freeFrames got)
    | (some frame, fa) => takeDmaFrames n (got ++ [frame]) ({ w.handOut with fa := fa }.zeroFrame frame)

/-- `make_region`: the new capability's slot, or an error word -/
def makeRegion (owner pages : ℕ) (rights : CapRights) : K ℕ := do
  let s ← get
  let ownerId := (s.procs owner).id
  if ((List.range MAX_REGIONS).filter fun i => (s.regions i).live && (s.regions i).ownerId == ownerId).length ≥
      REGION_QUOTA then ret syserr.NO_MEM
  else
    match firstIdx MAX_REGIONS fun i => !(s.regions i).live with
    | none => ret syserr.NO_MEM
    | some idx =>
      if s.nextRegionId + 1 ≥ U64 then ret syserr.NO_MEM
      else
        let id := s.nextRegionId
        match takeDmaFrames pages [] s.w with
        | (none, w) => do
          modify fun s => { s with w := w }
          ret syserr.NO_MEM
        | (some frames, w) =>
          match (s.procs owner).caps.insert .region rights id with
          | none => do
            modify fun s => { s with w := w.freeFrames frames }
            ret syserr.NO_MEM
          | some (cap, caps) =>
            if anyIdx MAX_DOMAINS fun di => frames.any fun f => ((s.domains di).granted (f / PAGE_SIZE)).isSome then
              halt .grantedAtMint
            else do
              modify fun s =>
                ({ s.modProc owner (fun p => { p with caps := caps }) with
                  w := w
                  nextRegionId := s.nextRegionId + 1
                  regions := s.regions.put idx ⟨true, id, ownerId, frames⟩ }).record (.minted owner cap id rights)
              ret cap

/-! ## Destroying a region -/

/-- `region_view` -/
def regionView (s : KState) : Regions.View MAX_REGIONS MAX_PROCS SHARE_SLOTS where
  regions i := if (s.regions i).live then ⟨true, (s.regions i).id, (s.regions i).ownerId⟩ else Regions.Region.EMPTY
  holders i := if s.live i then ⟨true, (s.procs i).id, (s.procs i).shares⟩ else Regions.Holder.FREE

/-- empty slot `c` of `p` if it names `region`, and drop the edges naming the slot -/
def forgetCap (region p : ℕ) (s : KState) (c : ℕ) : KState :=
  if ((s.procs p).caps.lookup c).elim false (fun sl => sl.capType == .region && sl.object == region) then
    let s := s.modProc p fun q => { q with caps := q.caps.revoke c }
    { s with ledger := s.ledger.forget (s.endpointAt p c) }
  else s

/-- `Step::ForgetCaps` -/
def forgetCaps (region : ℕ) (s : KState) : KState :=
  (List.range MAX_PROCS).foldl (fun s p =>
    if s.live p then (List.range CAP_SLOTS).foldl (forgetCap region p) s else s) s

/-- withdraw the authorization for one frame in every domain, the tables first -/
def withdrawFrame (frame : ℕ) (s : KState) : Bool × KState :=
  let pfn := frame / PAGE_SIZE
  let r := if A.iommu then clearIoMappingsOf C pfn s else (false, s)
  (r.1, (List.range MAX_DOMAINS).foldl (fun s di => s.modDomain di fun d => d.revoke pfn) r.2)

/-- the same for every frame of a region; true if an entry was cleared -/
def withdrawRegionEverywhere (frames : List ℕ) (s : KState) : Bool × KState := forAny (withdrawFrame A C) frames s

/-- drop every process's records of mappings of `region` -/
def forgetRecords (region : ℕ) (s : KState) : KState :=
  { s with procs := fun p =>
      if p < MAX_PROCS ∧ s.live p then
        { s.procs p with dma := fun i =>
            if i < SHARE_SLOTS ∧ ((s.procs p).dma i).1 = region then (0, 0) else (s.procs p).dma i }
      else s.procs p }

/-- return the frames of region slot `i` and empty it -/
def freeRegion (i : ℕ) (s : KState) : KState :=
  { s with w := s.w.freeFrames (s.regions i).frames, regions := s.regions.put i Region.EMPTY }

/-- `Step::Release` -/
def releaseRegion (region : ℕ) : K Unit := do
  let s ← get
  match s.regionSlot region with
  | none => ret ()
  | some i => do
    let touched ← run (withdrawRegionEverywhere A C (s.regions i).frames)
    flushIf C (A.iommu && touched)
    modify (forgetRecords region)
    modify (freeRegion i)

/-- one step of a teardown plan -/
def runStep : Regions.Step → K Unit
  | .unmap proc slot _ => modify (unmapShareSlot A proc slot)
  | .forgetCaps region => modify (forgetCaps region)
  | .release region => releaseRegion A C region

/-- `run_region_plan` -/
def runRegionPlan (plan : Regions.Plan PLAN_STEPS) : K Unit :=
  if plan.truncated then halt .planTruncated else forEach plan.steps (runStep A C)

/-- `destroy_region` -/
def destroyRegion (idx : ℕ) : K Unit := do
  let s ← get
  runRegionPlan A C (Regions.destroy (regionView s) (s.regions idx).id)

/-- `destroy_regions_owned_by` -/
def destroyRegionsOwnedBy (proc ownerId : ℕ) : K Unit := do
  let s ← get
  runRegionPlan A C (Regions.teardown (regionView s) proc ownerId)

end Rustproof.Kernel
