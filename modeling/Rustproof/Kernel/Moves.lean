/-
What the kernel can do, move by move.

A `Move` is one indivisible piece of what a handler does for the process `me` that trapped: a mapping, a DMA call, the end
of a region, a revocation, a process that comes or goes, a message that arrives, or a `Control` step, which touches
registers, rendezvous state and scheduling only. Every handler is a sequence of moves (`Kernel/Dispatch`), so an invariant
of the kernel is one that each move keeps.

The premises of a move are the checks the kernel has made by then: the capability it looked up, the slot it found free.
-/
import Rustproof.Kernel.Run

namespace Rustproof.Kernel

open Lib Prog

/-! ## Processes, seen from outside -/

namespace Process

/-- who a process is and what it may do -/
def authority (p : Process) : Bool × ℕ × Role × Caps := (p.live, p.id, p.role, p.caps)

/-- its memory: paging token, frames, share slots -/
def space (p : Process) : ℕ × List ℕ × Table ℕ := (p.token, p.frames, p.shares)

variable {p q : Process}

theorem live_eq (h : p.authority = q.authority) : p.live = q.live := congrArg (·.1) h
theorem id_eq (h : p.authority = q.authority) : p.id = q.id := congrArg (·.2.1) h
theorem caps_eq (h : p.authority = q.authority) : p.caps = q.caps := congrArg (·.2.2.2) h
theorem token_eq (h : p.space = q.space) : p.token = q.token := congrArg (·.1) h
theorem frames_eq (h : p.space = q.space) : p.frames = q.frames := congrArg (·.2.1) h
theorem shares_eq (h : p.space = q.space) : p.shares = q.shares := congrArg (·.2.2) h

end Process

/-- process slot `p` is occupied -/
def KState.Alive (s : KState) (p : ℕ) : Prop := p < MAX_PROCS ∧ s.live p = true

namespace ProcState

/-- the endpoint a process is parked sending on -/
def sends : ProcState → Option ℕ
  | .blockedSend ep _ _ => some ep
  | _ => none

/-- the endpoint a process is parked receiving on -/
def receives : ProcState → Option ℕ
  | .blockedRecv ep _ _ => some ep
  | _ => none

end ProcState

/-- nobody is parked sending, or receiving, on `ep` -/
def KState.NoSender (s : KState) (ep : ℕ) : Prop := ∀ i < MAX_PROCS, (s.procs i).state.sends ≠ some ep
def KState.NoReceiver (s : KState) (ep : ℕ) : Prop := ∀ i < MAX_PROCS, (s.procs i).state.receives ≠ some ep

/-- an event of scheduling -/
def Event.scheduling : Event → Bool
  | .resumed | .queued .. => true
  | _ => false

/-! ## Saved registers -/

/-- what a process's registers were last saved for -/
inductive Trap where
  /-- never: its first frame -/
  | fresh (f : UserFrame)
  | syscall (f : UserFrame)
  | interrupt (f : UserFrame)

/-- `f'` is the frame `f` of a call with its result registers set: three for `RECV`, none for `YIELD`, one for the others -/
def Returns (A : Arch) (f f' : UserFrame) : Prop :=
  if A.frameNum f = sysno.YIELD then f' = f
  else if A.frameNum f = sysno.RECV then ∃ status word n, f' = recvFrame A f status word n
  else ∃ v, f' = A.frameSetRet f v

/-- the saved frame of `p` is the one of its last trap, with the call's results if it is ready again; a message is pending
for a returned `RECV` only -/
def Kept (A : Arch) (k : Trap) (p : Process) : Prop :=
  (match p.state with
    | .free => True
    | .ready =>
      match k with
      | .syscall f => Returns A f p.frame
      | .interrupt f => p.frame = f
      | .fresh f => p.frame = f
    | .blockedSend .. => ∃ f, k = .syscall f ∧ A.frameNum f = sysno.SEND ∧ p.frame = f
    | .blockedRecv .. => ∃ f, k = .syscall f ∧ A.frameNum f = sysno.RECV ∧ p.frame = f
    | .blockedIrq _ => ∃ f, k = .syscall f ∧ A.frameNum f = sysno.WAIT_IRQ ∧ p.frame = f) ∧
  (0 < p.pendingLen → p.live = true → p.state = .ready ∧ ∃ f, k = .syscall f ∧ A.frameNum f = sysno.RECV)

/-! ## Steps that touch registers, rendezvous state and scheduling only -/

structure Quiet (s s' : KState) : Prop where
  authority : ∀ p, (s'.procs p).authority = (s.procs p).authority
  space : ∀ p, (s'.procs p).space = (s.procs p).space
  dma : ∀ p, (s'.procs p).dma = (s.procs p).dma
  /-- a line is credited to a process that holds a capability for it -/
  irq : ∀ p line, (s'.procs p).irqPending line ≠ 0 →
    (s.procs p).irqPending line ≠ 0 ∨ capsHoldIrq (s.procs p).caps line = true
  mem : s'.w.mem = s.w.mem
  fa : s'.w.fa = s.w.fa
  handouts : s'.w.handouts = s.w.handouts
  history : ∃ h, s'.w.history = s.w.history ++ h ∧ ∀ e ∈ h, Event.scheduling e = true
  regions : s'.regions = s.regions
  nextRegionId : s'.nextRegionId = s.nextRegionId
  ledger : s'.ledger = s.ledger
  domains : s'.domains = s.domains
  cmdTail : s'.cmdTail = s.cmdTail
  timeouts : s'.timeouts = s.timeouts

variable (A : Arch) (C : Config)

/-- what `me`, trapped as `k` says, must have and find to be parked in state `st` -/
def MayPark (me : ℕ) (k : Trap) (s : KState) : ProcState → Prop
  | .blockedSend ep _ len => capsHoldEndpoint (s.procs me).caps ep CapRights.WRITE = true ∧ s.NoReceiver ep ∧
      len ≤ MAX_MSG_BYTES ∧ ∃ f, k = .syscall f ∧ A.frameNum f = sysno.SEND
  | .blockedRecv ep dst max => capsHoldEndpoint (s.procs me).caps ep CapRights.READ = true ∧ s.NoSender ep ∧
      max ≤ MAX_MSG_BYTES ∧
      (0 < max → Vspace.userRangeMapped A s.w.mem (s.procs me).token dst max true = true) ∧
      ∃ f, k = .syscall f ∧ A.frameNum f = sysno.RECV
  | .blockedIrq line => creditable s me line = true ∧ ∃ f, k = .syscall f ∧ A.frameNum f = sysno.WAIT_IRQ
  | _ => False

/-- the registers a trap saved -/
def Trap.frame : Trap → UserFrame
  | .fresh f | .syscall f | .interrupt f => f

/-- interrupt counts move: the trap is an interrupt, or a call that collects them -/
def Trap.Credits : Trap → Prop
  | .fresh _ => False
  | .syscall f => A.frameNum f = sysno.WAIT_IRQ ∨ A.frameNum f = sysno.POLL_IRQ
  | .interrupt _ => True

/-- a step made for `me`, trapped as `k` says -/
inductive Control (me : ℕ) (k : Trap) : KState → KState → Prop where
  | count {s : KState} (nextId killed parks deviceWakes : ℕ) :
      Control me k s { s with nextId := nextId, killed := killed, parks := parks, deviceWakes := deviceWakes }
  /-- the CPU is given to somebody else of the queue, or to nobody -/
  | switch {s : KState} {sched : Sched.Scheduler MAX_PROCS} (current : ℕ) (idling : Bool) :
      sched.queue = s.sched.queue → (s.sched.Ok → sched.Ok) →
      Control me k s { s with sched := sched, current := current, idling := idling }
  | resumed {s : KState} (token : ℕ) : Control me k s ((s.setCr3 token).record .resumed)
  | credit {s : KState} {p : ℕ} {irqs : Table ℕ} : s.Alive p →
      (∀ line, irqs line ≠ 0 → (s.procs p).irqPending line ≠ 0 ∨ capsHoldIrq (s.procs p).caps line = true) →
      k.Credits A → Control me k s (s.modProc p fun q => { q with irqPending := irqs })
  /-- a waiter is given its count, or told that no count will come -/
  | wakeIrq {s : KState} {i line v : ℕ} : i < MAX_PROCS → (s.procs i).state = .blockedIrq line →
      k.Credits A ∨ creditable s i line = false → Control me k s (s.wake A i v)
  | deliver {s : KState} {r ep dst max word n : ℕ} {msg : Table Byte} : s.Alive me →
      capsHoldEndpoint (s.procs me).caps ep CapRights.WRITE = true → r < MAX_PROCS →
      (s.procs r).state = .blockedRecv ep dst max → n ≤ max → Control me k s (deliver A r word dst n msg s)
  | release {s : KState} {i ep word len : ℕ} : s.Alive me →
      capsHoldEndpoint (s.procs me).caps ep CapRights.READ = true → i < MAX_PROCS →
      (s.procs i).state = .blockedSend ep word len → Control me k s (releaseSender A i s)
  | message {s : KState} (msg : Table Byte) (len : ℕ) : (s.procs me).state = .ready →
      Control me k s (s.modProc me fun p => { p with msg := msg, msgLen := len })
  | block {s : KState} {st : ProcState} : s.Alive me → (s.procs me).state = .ready → MayPark A me k s st →
      (s.procs me).pendingLen = 0 →
      Control me k s ((s.modProc me fun p => { p with state := st, frame := k.frame }).dequeue me)
  | persist {s : KState} (f : UserFrame) : (s.live me = true → Kept A k { s.procs me with frame := f }) →
      Control me k s (s.modProc me fun p => { p with frame := f })

/-! ## Moves -/

/-- the first half of `resume_process`: what arrived while `t` was parked is copied out -/
def takeMessage (t : ℕ) (s : KState) : KState :=
  let n := (s.procs t).pendingLen
  let dst := (s.procs t).pendingDst
  let s := (s.modProc t fun p => { p with pendingLen := 0 }).setCr3 (s.procs t).token
  match Vspace.copyToUser A s.w.mem s.cr3 dst (msgBytes (s.procs t).msg n) with
  | some m => s.setMem m
  | none => s.modProc t fun p => { p with frame := faultFrame A p.frame }

/-- wake every peer the death of a process leaves without an answer -/
def refusePeers (s : KState) : KState := (List.range MAX_PROCS).foldl (refuseUnanswerable A) s

/-- what a run is restricted to: `MAP_DMA` by caller, domain, region and rights, `SPAWN` by the identity the child gets -/
structure Gate where
  mapDma : KState → ℕ → ℕ → ℕ → CapRights → Prop
  spawn : Table Process → ℕ → Prop

/-- no restriction -/
def Gate.all : Gate := ⟨fun _ _ _ _ _ => True, fun _ _ => True⟩

/-- a move made for `me`, trapped as `k` says, in a run restricted by `G` -/
inductive Move (G : Gate) (me : ℕ) (k : Trap) : KState → KState → Prop where
  | control {s s' : KState} : Control A me k s s' → Move G me k s s'
  | receive {s : KState} {t : ℕ} : s.Alive t → (s.procs t).state = .ready → 0 < (s.procs t).pendingLen →
      Move G me k s (takeMessage A t s)
  /-- the process stores one byte through a leaf of its own space -/
  | store {s : KState} {va : ℕ} {b : Byte} : s.Alive me → A.Own (va / PAGE_SIZE) →
      A.UserLeaf (A.leaf s.w.mem (A.root (s.procs me).token) (va / PAGE_SIZE)) →
      A.writable (A.leaf s.w.mem (A.root (s.procs me).token) (va / PAGE_SIZE)) = true →
      Move G me k s (s.setMem (Vspace.storeUser A (s.procs me).token s.w.mem va b))
  /-- the kernel copies into its memory -/
  | copy {s : KState} {dst : ℕ} {bytes : List Byte} {m : Mem} : s.Alive me →
      Vspace.copyToUser A s.w.mem (s.procs me).token dst bytes = some m → Move G me k s (s.setMem m)
  | mapRegion {s : KState} {cap id : ℕ} {rights : CapRights} : s.Alive me → s.cr3 = (s.procs me).token →
      capsRegion (s.procs me).caps cap CapRights.READ = some (id, rights) →
      Move G me k s (mapRegion A me id rights s).2
  | mapDevice {s : KState} {cap : ℕ} {c : Capabilities.CapSlot} : s.Alive me → me = s.current →
      s.cr3 = (s.procs me).token → capNamed (s.procs me).caps .mmio cap CapRights.READ = some c →
      Move G me k s (mapDevice A C me c.object DEVICE_PAGES (c.rights.contains CapRights.WRITE) s).2
  | unmapDevice {s : KState} : s.Alive me → Move G me k s (unmapDeviceWindow A me s)
  | unmapRegion {s : KState} {id : ℕ} : s.Alive me → Move G me k s (unmapRegionFrom A me id s).2
  /-- a plan unmaps a region from whoever shares it -/
  | unmapShare {s : KState} {p slot : ℕ} : s.Alive p → slot < SHARE_SLOTS → Move G me k s (unmapShareSlot A p slot s)
  | make {s s' : KState} {f : UserFrame} {pages v : ℕ} {u : Capabilities.CapSlot} : s.Alive me →
      s.cr3 = (s.procs me).token → pages ≤ REGION_MAX_PAGES → k = .syscall f ∧ A.frameNum f = sysno.MAKE_REGION →
      capsMint (s.procs me).caps (A.frameArg f 0) = some u → makeRegion me pages u.rights s = .ok (v, s') →
      Move G me k s s'
  | mapDma {s : KState} {domain region : ℕ} {rights : CapRights} {f : UserFrame} : s.Alive me → A.iommu = true →
      dmaCaps A (s.procs me).caps f = some (domain, region, rights) → G.mapDma s me domain region rights →
      Move G me k s (mapDma C me domain region rights s).2
  | unmapDma {s s' : KState} {domain region v : ℕ} : s.Alive me → A.iommu = true →
      unmapDma C me domain region s = .ok (v, s') → Move G me k s s'
  /-- a process about to die gives up the mappings it asked for -/
  | withdrawAll {s s' : KState} : s.Alive me → A.iommu = true → withdrawAllDmaOf C me s = .ok ((), s') →
      Move G me k s s'
  /-- a region nobody maps any more loses its capabilities, the device's reach and its frames -/
  | retire {s s' : KState} {region i : ℕ} : s.Alive me → s.regionSlot region = some i →
      (s.regions i).ownerId = (s.procs me).id →
      (∀ p, s.Alive p → ∀ slot < SHARE_SLOTS, (s.procs p).shares slot ≠ region) →
      releaseRegion A C region (forgetCaps region s) = .ok ((), s') → Move G me k s s'
  | revoke {s s' : KState} {cap : ℕ} : s.Alive me → (s.procs me).state = .ready →
      ((s.procs me).caps.lookup cap).isSome → revokeDelegations A C me cap s = .ok ((), s') → Move G me k s s'
  /-- a process that owns no region and has no DMA mapping left dies -/
  | reap {s : KState} : s.Alive me → (s.procs me).state = .ready →
      (∀ i < MAX_REGIONS, (s.regions i).live = true → (s.regions i).ownerId ≠ (s.procs me).id) →
      (A.iommu = true → ∀ k < SHARE_SLOTS, ((s.procs me).dma k).1 = 0) →
      Move G me k s (refusePeers A (reap me s))
  /-- a process that could not be loaded leaves nothing behind -/
  | loadFailed {s s' : KState} {slot id : ℕ} {role : Role} : (me = NOBODY ∨ s.Alive me ∧ s.cr3 = (s.procs me).token) →
      slot < MAX_PROCS → s.live slot = false → loadProcess A C slot id role s = .ok (false, s') → Move G me k s s'
  | boot {s s' : KState} {i : ℕ} : me = NOBODY → i < NUM_PROCS → s.live i = false →
      loadProcess A C i i (bootRole i) s = .ok (true, s') → Move G me k s (s'.enqueue i)
  | spawn {s s' : KState} {slot arg requested childId : ℕ} {cap : Option Capabilities.CapSlot} : s.Alive me →
      s.cr3 = (s.procs me).token → G.spawn s.procs childId → slot < MAX_PROCS → s.live slot = false →
      (cap = if arg = sysno.NO_DELEGATE then none else delegated (s.procs me).caps arg requested) →
      (arg = sysno.NO_DELEGATE ∨ cap.isSome ∧ s.ledger.len < MAX_DELEGATIONS) →
      loadProcess A C slot childId .child s = .ok (true, s') →
      Move G me k s ((cap.elim s' fun c => handOver me slot arg childId c s').enqueue slot)

/-- a sequence of moves -/
abbrev Moves (G : Gate) (me : ℕ) (k : Trap) : KState → KState → Prop :=
  Relation.ReflTransGen (Move A C G me k)

/-- what every move keeps, every sequence of moves keeps -/
theorem Moves.keep {A : Arch} {C : Config} {G : Gate} {me : ℕ} {k : Trap}
    {I : KState → Prop} (h : ∀ s s', Move A C G me k s s' → I s → I s') {s s' : KState}
    (hm : Moves A C G me k s s') (hs : I s) : I s' := by
  induction hm with
  | refl => exact hs
  | tail _ hstep ih => exact h _ _ hstep ih

theorem resumeProcess_eq (t : ℕ) (s : KState) :
    resumeProcess A t s = (let u := if 0 < (s.procs t).pendingLen then takeMessage A t s else s
      (u.setCr3 (u.procs t).token).record .resumed) := rfl

end Rustproof.Kernel
