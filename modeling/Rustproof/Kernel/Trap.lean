/-
The trap handlers: one system call, one timer tick, one device interrupt, one user fault.

Every system call is a function from the caller and its saved frame to `some f`, the frame the handler's tail persists
before it resumes whoever is current, or `none` where control has left the handler already. `syscallTrap` is the dispatch
and that tail.
-/
import Rustproof.Kernel.Process

namespace Rustproof.Kernel

open Lib Prog

variable (A : Arch) (C : Config)

/-- a saved frame: the words the stub pushed, over what `old` held -/
def snapshot (frame old : UserFrame) : UserFrame := fun i => if i < A.frameWords then frame i else old i

/-- the registers of a call that returns one word -/
def done (f : UserFrame) (v : ℕ) : K (Option UserFrame) := ret (some (A.frameSetRet f v))

/-! ## Scheduling -/

/-- `YIELD` -/
def sysYield (cur : ℕ) (f : UserFrame) : K (Option UserFrame) := do
  modify fun s => { s with current := s.sched.next.1.getD cur, sched := s.sched.next.2 }
  ret (some f)

/-- `EXIT` -/
def sysExit (cur : ℕ) (f : UserFrame) : K (Option UserFrame) := do
  teardownProcess A C cur
  let switched ← switchAway A C
  ret (if switched then some f else none)

/-- park `cur` in state `st` on frame `f`, and run somebody else -/
def block (cur : ℕ) (st : ProcState) (f : UserFrame) : K (Option UserFrame) := do
  modify fun s => (s.modProc cur fun p => { p with state := st, frame := f }).dequeue cur
  let switched ← switchAway A C
  ret (if switched then some f else none)

/-! ## Rendezvous -/

/-- a payload buffer with its first bytes replaced -/
def fillMsg (msg : Table Byte) (bytes : List Byte) : Table Byte := fun i => bytes.getD i (msg i)

/-- the buffer `msg` after `n` bytes were read into it from the caller's memory; `none` if the range is refused -/
def readPayload (s : KState) (uptr n : ℕ) (msg : Table Byte) : Option (Table Byte) :=
  if n = 0 then some msg else (Vspace.copyFromUser A s.w.mem s.cr3 uptr n).map (fillMsg msg)

/-- hand `word` and `n` payload bytes, already in its buffer, to the waiting receiver `r` -/
def deliver (r word dst n : ℕ) (msg : Table Byte) (s : KState) : KState :=
  (s.modProc r fun p =>
    { p with
      msg := msg
      pendingDst := dst
      pendingLen := n
      frame := A.frameSetRet3 (A.frameSetRet2 (A.frameSetRet p.frame syserr.OK) word) n
      state := .ready }).enqueue r

/-- `SEND` -/
def sysSend (cur : ℕ) (f : UserFrame) : K (Option UserFrame) := do
  let s ← get
  let word := A.frameArg f 1
  let uptr := A.frameArg f 2
  let len := A.frameArg f 3
  match capsEndpointObject (s.procs cur).caps (A.frameArg f 0) CapRights.WRITE with
  | none => done A f syserr.NO_CAP
  | some ep =>
    if len > MAX_MSG_BYTES then done A f syserr.FAULT
    else
      match Runstate.findRecv (runSlots s) ep with
      | some r =>
        let (dst, max) := match (s.procs r).state with
          | .blockedRecv _ dst max => (dst, max)
          | _ => (0, 0)
        let n := min len max
        match readPayload A s uptr n (s.procs r).msg with
        | none => done A f syserr.FAULT
        | some msg => do
          modify (deliver A r word dst n msg)
          done A f syserr.OK
      | none =>
        match readPayload A s uptr len (s.procs cur).msg with
        | none => done A f syserr.FAULT
        | some msg => do
          modify fun s => s.modProc cur fun p => { p with msg := msg, msgLen := len }
          block A C cur (.blockedSend ep word len) f

/-- the registers of a receive: status, word and byte count -/
def recvFrame (f : UserFrame) (status word n : ℕ) : UserFrame :=
  A.frameSetRet3 (A.frameSetRet2 (A.frameSetRet f status) word) n

/-- release the sender `i`, whose message was taken -/
def releaseSender (i : ℕ) (s : KState) : KState :=
  (s.modProc i fun p =>
    { p with frame := A.frameSetRet p.frame syserr.OK, msgLen := 0, state := .ready }).enqueue i

/-- `find_blocked_send` -/
def findBlockedSend (s : KState) (ep : ℕ) : Option (ℕ × ℕ × ℕ) :=
  match Runstate.findSend (runSlots s) ep with
  | none => none
  | some i =>
    match (s.procs i).state with
    | .blockedSend _ word len => some (i, word, len)
    | _ => none

/-- `RECV` -/
def sysRecv (cur : ℕ) (f : UserFrame) : K (Option UserFrame) := do
  let s ← get
  let dst := A.frameArg f 1
  let max := min (A.frameArg f 2) MAX_MSG_BYTES
  -- the buffer is vetted before anything is consumed
  if max > 0 ∧ Vspace.userRangeMapped A s.w.mem s.cr3 dst max true = false then ret (some (recvFrame A f syserr.FAULT 0 0))
  else
    match capsEndpointObject (s.procs cur).caps (A.frameArg f 0) CapRights.READ with
    | none => ret (some (recvFrame A f syserr.NO_CAP 0 0))
    | some ep =>
      match findBlockedSend s ep with
      | some (i, word, len) =>
        let n := min len max
        match if n = 0 then some s.w.mem else Vspace.copyToUser A s.w.mem s.cr3 dst (msgBytes (s.procs i).msg n) with
        | none => ret (some (recvFrame A f syserr.FAULT 0 0))
        | some m => do
          modify fun s => releaseSender A i (s.setMem m)
          ret (some (recvFrame A f syserr.OK word n))
      | none => block A C cur (.blockedRecv ep dst max) f

/-! ## Processes -/

/-- the capability `SPAWN` hands over: the caller's own, its rights cut down to those asked for -/
def delegated (caps : Caps) (arg requested : ℕ) : Option Capabilities.CapSlot :=
  (caps.lookup arg).map fun c => { c with rights := c.rights.intersect (CapRights.fromUser requested) }

/-- insert the delegated capability in the child's space and record the edge -/
def handOver (cur slot arg childId : ℕ) (c : Capabilities.CapSlot) (s : KState) : KState :=
  match (s.procs slot).caps.insert c.capType c.rights c.object with
  | none => s
  | some (childCap, caps) =>
    let s := s.modProc slot fun p => { p with caps := caps }
    { s with ledger := (s.ledger.record (s.endpointAt cur arg) ⟨slot, childId, childCap⟩).2 }.record
      (.delegated cur arg slot childCap)

/-- `SPAWN` -/
def sysSpawn (cur : ℕ) (f : UserFrame) : K (Option UserFrame) := do
  let s ← get
  let arg := A.frameArg f 1
  let cap := if arg = sysno.NO_DELEGATE then none else delegated (s.procs cur).caps arg (A.frameArg f 2)
  if (capsMint (s.procs cur).caps (A.frameArg f 0)).isNone then done A f spawnerr.NO_CAP
  else if arg ≠ sysno.NO_DELEGATE ∧ (cap.isNone ∨ s.ledger.len ≥ MAX_DELEGATIONS) then done A f spawnerr.NO_DELEGATE
  else
    match firstIdx MAX_PROCS fun i => !s.live i with
    | none => done A f spawnerr.NO_SLOT
    | some slot => do
      let childId := s.nextId
      modify fun s => { s with nextId := wadd s.nextId 1 }
      let loaded ← loadProcess A C slot childId .child
      if loaded = false then done A f spawnerr.NO_MEM
      else do
        modify fun s => (cap.elim s fun c => handOver cur slot arg childId c s).enqueue slot
        done A f childId

/-- `REVOKE` -/
def sysRevoke (cur : ℕ) (f : UserFrame) : K (Option UserFrame) := do
  let s ← get
  let cap := A.frameArg f 0
  if ((s.procs cur).caps.lookup cap).isSome then do
    revokeDelegations A C cur cap
    done A f syserr.OK
  else done A f syserr.NO_CAP

/-! ## Interrupts -/

/-- read and clear a pending count -/
def collectIrq (cur line : ℕ) (s : KState) : ℕ × KState :=
  ((s.procs cur).irqPending line, s.modProc cur fun p => { p with irqPending := p.irqPending.put line 0 })

/-- `WAIT_IRQ` -/
def sysWaitIrq (cur : ℕ) (f : UserFrame) : K (Option UserFrame) := do
  let s ← get
  match capsIrqLine (s.procs cur).caps (A.frameArg f 0) with
  | none => done A f syserr.NO_CAP
  | some line =>
    if deliversIrq line = false then done A f 0
    else if (s.procs cur).irqPending line > 0 then do
      let n ← run (collectIrq cur line)
      done A f n
    else do
      modify fun s => (s.modProc cur fun p => { p with state := .blockedIrq line, frame := f }).dequeue cur
      let switched ← switchAway A C
      onlyIf (switched = true) (modify fun s => resumeProcess A s.current s)
      ret none

/-- `POLL_IRQ` -/
def sysPollIrq (cur : ℕ) (f : UserFrame) : K (Option UserFrame) := do
  let s ← get
  match capsIrqLine (s.procs cur).caps (A.frameArg f 0) with
  | none => done A f syserr.NO_CAP
  | some line =>
    if line < MAX_IRQ_LINES then do
      let n ← run (collectIrq cur line)
      done A f n
    else done A f 0

/-! ## Regions -/

/-- `MAKE_REGION` -/
def sysMakeRegion (cur : ℕ) (f : UserFrame) : K (Option UserFrame) := do
  let s ← get
  let pages := A.frameArg f 1
  match capsMint (s.procs cur).caps (A.frameArg f 0) with
  | none => done A f syserr.NO_CAP
  | some u =>
    if 1 ≤ pages ∧ pages ≤ REGION_MAX_PAGES then do
      let v ← makeRegion cur pages u.rights
      done A f v
    else done A f syserr.NO_MEM

/-- `MAP_REGION`: the holder's own rights decide the permissions -/
def sysMapRegion (cur : ℕ) (f : UserFrame) : K (Option UserFrame) := do
  let s ← get
  match capsRegion (s.procs cur).caps (A.frameArg f 0) CapRights.READ with
  | none => done A f syserr.NO_CAP
  | some (object, rights) => do
    let v ← run (mapRegion A cur object rights)
    done A f v

/-- `UNMAP_REGION` -/
def sysUnmapRegion (cur : ℕ) (f : UserFrame) : K (Option UserFrame) := do
  let s ← get
  match (s.procs cur).caps.lookup (A.frameArg f 0) with
  | none => done A f syserr.NO_CAP
  | some slot =>
    if slot.capType ≠ .region then done A f syserr.NO_CAP
    else do
      let hit ← run (unmapRegionFrom A cur slot.object)
      done A f (if hit then syserr.OK else syserr.NO_CAP)

/-- `FREE_REGION`: WRITE, and ownership by identity -/
def sysFreeRegion (cur : ℕ) (f : UserFrame) : K (Option UserFrame) := do
  let s ← get
  match (capsRegion (s.procs cur).caps (A.frameArg f 0) CapRights.WRITE).bind fun r => s.regionSlot r.1 with
  | none => done A f syserr.NO_CAP
  | some idx =>
    if (s.regions idx).ownerId ≠ (s.procs cur).id then done A f syserr.NO_CAP
    else do
      destroyRegion A C idx
      done A f syserr.OK

/-! ## DMA -/

/-- the two capabilities `MAP_DMA` and `UNMAP_DMA` ask for: a domain, and a region with its rights -/
def dmaCaps (caps : Caps) (f : UserFrame) : Option (ℕ × ℕ × CapRights) :=
  (capsIommuDomain caps (A.frameArg f 0) CapRights.WRITE).bind fun domain =>
    (capsRegion caps (A.frameArg f 1) CapRights.READ).map fun r => (domain, r)

/-- `MAP_DMA`: the holder's rights decide what the device may do -/
def sysMapDma (cur : ℕ) (f : UserFrame) : K (Option UserFrame) := do
  let s ← get
  match dmaCaps A (s.procs cur).caps f with
  | none => done A f syserr.NO_CAP
  | some (domain, region, rights) =>
    if A.iommu = false then done A f syserr.NO_MEM
    else do
      let v ← run (mapDma C cur domain region rights)
      done A f v

/-- `UNMAP_DMA` -/
def sysUnmapDma (cur : ℕ) (f : UserFrame) : K (Option UserFrame) := do
  let s ← get
  match dmaCaps A (s.procs cur).caps f with
  | none => done A f syserr.NO_CAP
  | some (domain, region, _) =>
    if A.iommu = false then done A f syserr.NO_MEM
    else do
      let v ← unmapDma C cur domain region
      done A f v

/-! ## The host contract -/

def DEBUG_CHUNK : ℕ := 256
def DEBUG_MAX_TOTAL : ℕ := 64 * 1024

/-- the chunks `DEBUG_WRITE` reads: offset and length -/
def debugChunks (len : ℕ) : List (ℕ × ℕ) :=
  let total := min len DEBUG_MAX_TOTAL
  (List.range ((total + (DEBUG_CHUNK - 1)) / DEBUG_CHUNK)).map fun k =>
    (k * DEBUG_CHUNK, min (total - k * DEBUG_CHUNK) DEBUG_CHUNK)

/-- `DEBUG_WRITE`: the console output is not modelled, the refusals are -/
def debugWrite (uptr len : ℕ) (s : KState) : ℕ :=
  if (debugChunks len).all fun c => (Vspace.copyFromUser A s.w.mem s.cr3 (wadd uptr c.1) c.2).isSome then syserr.OK
  else syserr.FAULT

/-- the bytes of `GPU_INFO` -/
def GPU_INFO : List Byte := leBytes 2 0x1002 ++ leBytes 2 0x7551 ++ leBytes 4 0x1201 ++ leBytes 8 (16 * 2 ^ 30)

/-- `GET_INFO` -/
def getInfo (uptr : ℕ) (s : KState) : ℕ × KState :=
  match Vspace.copyToUser A s.w.mem s.cr3 uptr GPU_INFO with
  | some m => (syserr.OK, s.setMem m)
  | none => (syserr.FAULT, s)

/-- the bytes of a `MapBarResp` -/
def mapBarResp (userVa : ℕ) : List Byte := leBytes 8 userVa ++ leBytes 8 (DEVICE_PAGES * PAGE_SIZE)

/-- `MAP_BAR`: the capability names the window; all or nothing -/
def mapBar (cur cap resp : ℕ) (s : KState) : ℕ × KState :=
  match capNamed (s.procs cur).caps .mmio cap CapRights.READ with
  | none => (syserr.NO_CAP, s)
  | some c =>
    match mapDevice A C cur c.object DEVICE_PAGES (c.rights.contains CapRights.WRITE) s with
    | (none, s) => (syserr.NO_MEM, s)
    | (some va, s) =>
      match Vspace.copyToUser A s.w.mem s.cr3 resp (mapBarResp va) with
      | some m => (syserr.OK, s.setMem m)
      | none => (syserr.FAULT, unmapDeviceWindow A cur s)

/-- `hostcontract::dispatch` -/
def dispatch (num cur : ℕ) (f : UserFrame) (s : KState) : ℕ × KState :=
  if num = sysno.DEBUG_WRITE then (debugWrite A (A.frameArg f 0) (A.frameArg f 1) s, s)
  else if num = sysno.GET_INFO then getInfo A (A.frameArg f 0) s
  else if num = sysno.MAP_BAR then mapBar A C cur (A.frameArg f 0) (A.frameArg f 2) s
  else (syserr.BAD_SYSCALL, s)

def sysHost (num cur : ℕ) (f : UserFrame) : K (Option UserFrame) := do
  let v ← run (dispatch A C num cur f)
  done A f v

/-! ## The handlers -/

/-- service the call `f` asks for -/
def service (cur : ℕ) (f : UserFrame) : K (Option UserFrame) :=
  let num := A.frameNum f
  if num = sysno.YIELD then sysYield cur f
  else if num = sysno.EXIT then sysExit A C cur f
  else if num = sysno.SEND then sysSend A C cur f
  else if num = sysno.RECV then sysRecv A C cur f
  else if num = sysno.SPAWN then sysSpawn A C cur f
  else if num = sysno.WAIT_IRQ then sysWaitIrq A C cur f
  else if num = sysno.MAKE_REGION then sysMakeRegion A cur f
  else if num = sysno.MAP_REGION then sysMapRegion A cur f
  else if num = sysno.UNMAP_REGION then sysUnmapRegion A cur f
  else if num = sysno.MAP_DMA then sysMapDma A C cur f
  else if num = sysno.UNMAP_DMA then sysUnmapDma A C cur f
  else if num = sysno.FREE_REGION then sysFreeRegion A C cur f
  else if num = sysno.POLL_IRQ then sysPollIrq A cur f
  else if num = sysno.REVOKE then sysRevoke A C cur f
  else sysHost A C num cur f

/-- `syscall_trap` -/
def syscallTrap (frame : UserFrame) : K Unit := do
  let s ← get
  let out ← service A C s.current (snapshot A frame UserFrame.ZERO)
  match out with
  | none => ret ()
  | some f => modify fun t => resumeProcess A t.current (t.modProc s.current fun p => { p with frame := f })

/-- deliver `irq` to the parked kernel: run whoever it woke, or park again -/
def wakeIdle (irq : ℕ) (s : KState) : KState :=
  let s := creditIrq A irq s
  match s.sched.current with
  | none => s
  | some t =>
    let wakes := if irq = IRQ_CONSOLE then (s.deviceWakes + 1) % U64 else s.deviceWakes
    resumeProcess A t { s with idling := false, deviceWakes := wakes, current := t }

/-- round-robin to the next ready process -/
def reschedule (s : KState) : KState :=
  let t := s.sched.next.1.getD s.current
  resumeProcess A t { s with current := t, sched := s.sched.next.2 }

/-- save the interrupted process's registers -/
def saveFrame (frame : UserFrame) (s : KState) : KState :=
  s.modProc s.current fun p => { p with frame := snapshot A frame p.frame }

/-- `preempt_trap` -/
def preemptTrap (frame : UserFrame) (s : KState) : KState :=
  if s.idling = true then wakeIdle A IRQ_TIMER s else reschedule A (creditIrq A IRQ_TIMER (saveFrame A frame s))

/-- `device_trap`: keep running the interrupted process while it is runnable -/
def deviceTrap (frame : UserFrame) (s : KState) : KState :=
  if s.idling = true then wakeIdle A IRQ_CONSOLE s
  else
    let s := creditIrq A IRQ_CONSOLE (saveFrame A frame s)
    if s.sched.contains s.current then resumeProcess A s.current s else reschedule A s

/-- `fault_trap` -/
def faultTrap : K Unit := do
  let s ← get
  modify fun s => { s with killed := (s.killed + 1) % U64 }
  teardownProcess A C s.current
  let switched ← switchAway A C
  onlyIf (switched = true) (modify fun s => resumeProcess A s.current s)

end Rustproof.Kernel
