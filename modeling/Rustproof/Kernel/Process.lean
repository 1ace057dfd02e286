/-
Processes: loading, waking, revocation, teardown, and what happens when nothing is runnable.

- `loadProcess`: a fresh space, the role's grants, and a first frame; a failed build gives every frame back.
- `revokeDelegations`: what the ledger reaches, and for each capability stripped the authority it conferred (`strip`).
- `teardownProcess`: the process's DMA, its regions, its frames, its ledger edges, and the peers it strands.
- `nothingRunnable`: wake who can never be answered, then run, park, or end the run with a verdict.
-/
import Rustproof.Kernel.Memory

namespace Rustproof.Kernel

open Lib Prog

variable (A : Arch) (C : Config)

/-! ## Waking -/

namespace KState

/-- put `i` on the run queue -/
@[simps! -fullyApplied] def enqueue (s : KState) (i : ℕ) : KState :=
  { s with sched := (s.sched.add i).2 }.record (.queued i (s.sched.add i).1)

/-- take `i` off the run queue -/
@[simps -fullyApplied] def dequeue (s : KState) (i : ℕ) : KState := { s with sched := (s.sched.remove i).2 }

/-- wake `i` with `v` in its return register -/
def wake (s : KState) (i v : ℕ) : KState :=
  (s.modProc i fun p => { p with frame := A.frameSetRet p.frame v, state := .ready }).enqueue i

end KState

/-- the registers a refused rendezvous returns: a receiver gets three -/
def refuseFrame (wasRecv : Bool) (f : UserFrame) : UserFrame :=
  if wasRecv then A.frameSetRet3 (A.frameSetRet2 (A.frameSetRet f syserr.NO_CAP) 0) 0
  else A.frameSetRet f syserr.NO_CAP

def ProcState.isRecv : ProcState → Bool
  | .blockedRecv .. => true
  | _ => false

/-- wake the parked process `i` with NO_CAP and drop what it was to be given -/
def refuse (i : ℕ) (s : KState) : KState :=
  (s.modProc i fun p =>
    { p with frame := refuseFrame A p.state.isRecv p.frame, state := .ready, pendingLen := 0 }).enqueue i

/-- one process of `credit_irq` -/
def creditProc (irq : ℕ) (s : KState) (i : ℕ) : KState :=
  if s.live i = false ∨ capsHoldIrq (s.procs i).caps irq = false then s
  else
    let s := s.modProc i fun p => { p with irqPending := p.irqPending.put irq (satAdd (p.irqPending irq) 1) }
    if (s.procs i).state = .blockedIrq irq then
      (s.modProc i fun p => { p with irqPending := p.irqPending.put irq 0 }).wake A i ((s.procs i).irqPending irq)
    else s

/-- `credit_irq` -/
def creditIrq (irq : ℕ) (s : KState) : KState :=
  if irq ≥ MAX_IRQ_LINES then s else (List.range MAX_PROCS).foldl (creditProc A irq) s

/-! ## Loading -/

/-- the address-space half of `load_process`: root, kernel entries, image, stack; the token and the entry point -/
def buildSpace (r : RecordingAlloc) : Option (ℕ × ℕ) × RecordingAlloc :=
  match Vspace.create A.toMmu r with
  | (none, r) => (none, r)
  | (some root, r) =>
    let r : RecordingAlloc := { r with w := { r.w with mem := Vspace.shareKernel A.toMmu r.w.mem root C.ktoken } }
    match Loader.loadElf A C.userElf root r with
    | (.error _, r) => (none, r)
    | (.ok entry, r) =>
      match Loader.loadStack A root (List.range' 1 A.userStackPages) r with
      | (false, r) => (none, r)
      | (true, r) => (some (A.token root, entry), r)

/-- the same over any allocator: `load_process` takes a `&mut dyn FrameAllocator` -/
def buildIn {α : Type} [FrameAllocator α] (r : α) : Option (ℕ × ℕ) × α :=
  match Vspace.create A.toMmu r with
  | (none, r) => (none, r)
  | (some root, r) =>
    let r := FrameAllocator.setMem r (Vspace.shareKernel A.toMmu (FrameAllocator.mem r) root C.ktoken)
    match Loader.loadElf A C.userElf root r with
    | (.error _, r) => (none, r)
    | (.ok entry, r) =>
      match Loader.loadStack A root (List.range' 1 A.userStackPages) r with
      | (false, r) => (none, r)
      | (true, r) => (some (A.token root, entry), r)

theorem buildSpace_eq (r : RecordingAlloc) : buildSpace A C r = buildIn A C r := by
  rw [buildSpace, buildIn]
  rcases Vspace.create A.toMmu r with ⟨_ | root, r⟩
  · rfl
  simp only [FrameAllocator.setMem, FrameAllocator.mem]
  generalize @Loader.loadElf A RecordingAlloc _ C.userElf root _ = loaded
  rcases loaded with ⟨_ | entry, r⟩
  · rfl
  simp only
  generalize Loader.loadStack A root _ r = stacked
  rcases stacked with ⟨_ | _, r⟩ <;> rfl

/-- the fields of a freshly loaded process; the payload buffer and the deferred destination keep what they held -/
def freshProcess (old : Process) (token entry idArg : ℕ) (role : Role) (frames : List ℕ) : Process :=
  { old with
    caps := mintGrants A C role
    role := role
    id := idArg
    msgLen := 0
    irqPending := fun _ => 0
    shares := fun _ => 0
    dma := fun _ => (0, 0)
    pendingLen := 0
    token := token
    frame := A.frameInit entry A.userStackTop idArg
    frames := frames
    state := .ready }

/-- `load_process` -/
def loadProcess (slot idArg : ℕ) (role : Role) : K Bool := do
  if (grantsFor C role).any fun g => g.1 == .irq && !deliversIrq g.2.2 then ret false
  else
    let s ← get
    match buildSpace A C ⟨s.w, []⟩ with
    | (none, r) => do
      modify fun s => { s with w := r.w.freeFrames r.frames }
      ret false
    | (some (token, entry), r) =>
      -- the mint tripwire: a mint source names no extent
      if (grantsFor C role).any fun g => isMintSource g.1 && g.2.2 != 0 then halt .mintSourceExtent
      else do
        modify fun s =>
          ({ s with w := r.w }.modProc slot fun p => freshProcess A C p token entry idArg role r.frames).record
            (.loaded slot)
        ret true

/-! ## Revocation -/

/-- withdraw the DMA mapping of one record, unless `proc` still holds both capabilities for it -/
def withdrawUnheldSlot (proc slot : ℕ) (s : KState) : Bool × KState :=
  let (region, domain) := (s.procs proc).dma slot
  if region = 0 then (false, s)
  else if capsHoldRegion (s.procs proc).caps region CapRights.READ = true ∧
      capsHoldDomain (s.procs proc).caps domain CapRights.WRITE = true then (false, s)
  else withdrawDmaSlot C proc slot s

/-- withdraw every DMA mapping `proc` no longer holds both capabilities for; true if an entry was cleared -/
def withdrawUnheld (proc : ℕ) (s : KState) : Bool × KState := forAny (withdrawUnheldSlot C proc) (List.range SHARE_SLOTS) s

/-- drop the share windows `proc` no longer holds a readable capability for -/
def unmapUnheld (proc : ℕ) (s : KState) : KState :=
  (List.range SHARE_SLOTS).foldl (fun s slot =>
    let id := (s.procs proc).shares slot
    if id ≠ 0 ∧ capsHoldRegion (s.procs proc).caps id CapRights.READ = false then (unmapRegionFrom A proc id s).2
    else s) s

/-- forget the interrupt credits `proc` no longer holds a capability for -/
def dropCredits (proc : ℕ) (s : KState) : KState :=
  s.modProc proc fun p => { p with irqPending := fun line =>
    if line < MAX_IRQ_LINES ∧ capsHoldIrq p.caps line = false then 0 else p.irqPending line }

/-- `proc` is parked in a rendezvous or a wait it no longer has authority for -/
def stranded (s : KState) (proc : ℕ) : Bool :=
  match (s.procs proc).state with
  | .blockedSend ep _ _ => !capsHoldEndpoint (s.procs proc).caps ep CapRights.WRITE
  | .blockedRecv ep _ _ => !capsHoldEndpoint (s.procs proc).caps ep CapRights.READ
  | .blockedIrq line => !creditable s proc line
  | _ => false

/-- the effects of a revocation on one reached endpoint -/
def strip (d : Deleg.Endpoint) : K Unit := do
  let s ← get
  if s.live d.proc = true ∧ (s.procs d.proc).id = d.id then do
    modify fun s =>
      let s := s.modProc d.proc fun p => { p with caps := p.caps.revoke d.cap }
      let s := if capsHoldMmio (s.procs d.proc).caps then s else unmapDeviceWindow A d.proc s
      unmapUnheld A d.proc s
    onlyIf (A.iommu = true) do
      let any ← run (withdrawUnheld C d.proc)
      flushIf C any
    modify fun s =>
      let s := dropCredits d.proc s
      if stranded s d.proc then refuse A d.proc s else s
  else ret ()

/-- `revoke_delegations` -/
def revokeDelegations (rootProc rootCap : ℕ) : K Unit := do
  let s ← get
  let r := s.ledger.revokeFrom (s.endpointAt rootProc rootCap) MAX_DELEGATIONS
  modify fun s => { s with ledger := r.1 }
  forEach r.2 (strip A C)

/-! ## Teardown -/

/-- reclaim the frames of process `idx`, splice it out of the ledger and free its slot -/
def reap (idx : ℕ) (s : KState) : KState :=
  let s := { s with w := s.w.freeFrames (s.procs idx).frames }.modProc idx fun p => { p with frames := [] }
  let s := { s with ledger := s.ledger.spliceOut idx (s.procs idx).id }
  (s.modProc idx fun p => { p with state := .free }).dequeue idx

/-- the endpoint process `i` is parked on, and the right a peer must hold to answer it -/
def awaited (s : KState) (i : ℕ) : Option (ℕ × CapRights) :=
  match (s.procs i).state with
  | .blockedSend ep _ _ => some (ep, CapRights.READ)
  | .blockedRecv ep _ _ => some (ep, CapRights.WRITE)
  | _ => none

/-- one process of the loop that wakes peers nobody can answer -/
def refuseUnanswerable (s : KState) (i : ℕ) : KState :=
  match awaited s i with
  | none => s
  | some (ep, needed) =>
    if anyIdx MAX_PROCS fun j => j != i && s.live j && capsHoldEndpoint (s.procs j).caps ep needed then s
    else refuse A i s

/-- `teardown_process` -/
def teardownProcess (idx : ℕ) : K Unit := do
  let s ← get
  let dyingId := (s.procs idx).id
  onlyIf (A.iommu = true) (withdrawAllDmaOf C idx)
  destroyRegionsOwnedBy A C idx dyingId
  modify (reap idx)
  modify fun s => (List.range MAX_PROCS).foldl (refuseUnanswerable A) s

/-! ## Resuming -/

/-- the frame of a receiver whose buffer went bad -/
def faultFrame (f : UserFrame) : UserFrame := A.frameSetRet3 (A.frameSetRet f syserr.FAULT) 0

/-- the first `n` bytes of a payload buffer -/
def msgBytes (msg : Table Byte) (n : ℕ) : List Byte := (List.range n).map msg

/-- `resume_process`: deliver what arrived while `next` was parked, then return to user mode on its tables -/
def resumeProcess (next : ℕ) (s : KState) : KState :=
  let s :=
    if (s.procs next).pendingLen > 0 then
      let n := (s.procs next).pendingLen
      let dst := (s.procs next).pendingDst
      let s := (s.modProc next fun p => { p with pendingLen := 0 }).setCr3 (s.procs next).token
      match Vspace.copyToUser A s.w.mem s.cr3 dst (msgBytes (s.procs next).msg n) with
      | some m => s.setMem m
      | none => s.modProc next fun p => { p with frame := faultFrame A p.frame }
    else s
  (s.setCr3 (s.procs next).token).record .resumed

/-- `run_slots` -/
def runSlots (s : KState) : List Runstate.Slot :=
  (List.range MAX_PROCS).map fun i =>
    match (s.procs i).state with
    | .free => Runstate.Slot.FREE
    | .ready => ⟨true, .no⟩
    | .blockedSend ep _ _ => ⟨true, .send ep⟩
    | .blockedRecv ep _ _ => ⟨true, .recv ep⟩
    | .blockedIrq line => ⟨true, .irq line⟩

/-! ## Nothing to run -/

/-- a present entry of domain `di`'s table that no grant of its model covers -/
def staleIn (s : KState) (di : ℕ) : Bool :=
  (C.domainSlots di).l1 != 0 && (List.range 512).any fun slot =>
    iopte.present (s.leafAt C di slot) && ((s.domains di).granted (iopte.frame (s.leafAt C di slot))).isNone

/-- `pfn` is a frame of a live region -/
def liveFrame (s : KState) (pfn : ℕ) : Bool :=
  anyIdx MAX_REGIONS fun i => (s.regions i).live && (s.regions i).frames.any fun f => f / PAGE_SIZE == pfn

/-- what the shutdown checks report about one domain -/
def domainVerdict (s : KState) (di : ℕ) : Option Halt :=
  if (C.domainSlots di).id = 0 then none
  else if (s.domains di).liveGrants.any fun g => !liveFrame s g.frame then some .orphanGrant
  else if (s.domains di).contained = false then some .notContained
  else if (s.domains di).liveGrants.any fun g => !(s.domains di).reachable.any (·.frame == g.frame) then some .unusedGrant
  else none

/-- how a run in which every process is gone ends -/
def finalVerdict (s : KState) : Halt :=
  if A.iommu = true ∧ anyIdx MAX_DOMAINS (staleIn C s) = true then .staleMapping
  else
    match (List.range MAX_DOMAINS).findSome? (domainVerdict C s) with
    | some h => h
    | none =>
      if C.freeAtStart ≠ 0 ∧ s.w.fa.free ≠ C.freeAtStart then .leak
      else if A.iommu = true ∧ s.timeouts > 0 then .unacknowledged
      else .bootOk

/-- wake every interrupt waiter that can never be credited -/
def wakeUncreditable (s : KState) : KState :=
  (Runstate.uncreditable (runSlots s) (creditable s)).foldl (fun s i => s.wake A i syserr.NO_CAP) s

/-- `nothing_runnable` -/
def nothingRunnable : K Unit := do
  modify (wakeUncreditable A)
  let s ← get
  match s.sched.current with
  | some t => modify fun s => resumeProcess A t { s with current := t }
  | none =>
    match Runstate.classify (runSlots s) (creditable s) with
    | .park => modify fun s =>
      { s with parks := if s.idling then s.parks else (s.parks + 1) % U64, idling := true, current := NOBODY }
    | .deadlock => halt .deadlock
    | .allDone => halt (finalVerdict A C s)

/-- run whoever the queue names, or find out why it names nobody -/
def switchAway : K Bool := do
  let s ← get
  match s.sched.current with
  | some t => do
    modify fun s => { s with current := t }
    ret true
  | none => do
    nothingRunnable A C
    ret false

end Rustproof.Kernel
