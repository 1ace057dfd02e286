/-
Runs: the hand-off to userland, and everything that may happen afterwards.

`PreUserland` is what the boot leaves behind when `FREE_AT_START` is sampled. `bootUserland` loads the initial processes
and resumes the first. From there on an `Input` is one entry to the kernel, or one store the running process makes by
itself; `Reachable` is the states any number of them lead to.

The base of the bounded device's registers, `DEVICE_BAR`, is whatever `pci::bar0` read from the device, and the boot does not
compare it with memory. That it names none is a premise of its own, `BarOutside` (for what devices reach, `BarApart`); the
results that rest on it say so.
-/
import Rustproof.Hal.Riscv
import Rustproof.Hal.X86
import Rustproof.Kernel.Trap

namespace Rustproof.Kernel

open Lib Prog Mm

variable (A : Arch) (C : Config)

/-! ## Handing off -/

/-- load initial process `i` and put it on the run queue -/
def bootProcess (i : ℕ) : K Unit := do
  let ok ← loadProcess A C i i (bootRole i)
  if ok = false then halt .loadFailed else modify fun s => s.enqueue i

/-- the end of `run`: the initial processes, then the first of them in user mode -/
def bootUserland : K Unit := do
  forEach (List.range NUM_PROCS) (bootProcess A C)
  let s ← get
  match s.sched.current with
  | none => halt .loadFailed
  | some first => modify fun s => resumeProcess A first { s with current := first }

/-- the pages the kernel took for itself: I/O tables, the command ring, the completion word and the stand-in device window -/
def kernelPages : List ℕ := [(C.domainSlots 0).l1, (C.domainSlots 1).l1, C.cmdBuf, C.cmdStore, C.devicePhys]

/-- the domain slots the boot published: slot `i` is domain `i + 1` with a table of its own, or empty -/
structure DomainsOk : Prop where
  named : ∀ i < MAX_DOMAINS, C.domainSlots i = DomainSlot.EMPTY ∨ (C.domainSlots i).id = i + 1 ∧ (C.domainSlots i).l1 ≠ 0
  apart : ∀ i < MAX_DOMAINS, ∀ j < MAX_DOMAINS, i ≠ j → (C.domainSlots i).l1 ≠ 0 →
    (C.domainSlots i).l1 ≠ (C.domainSlots j).l1
  /-- no table is the ring, the completion word or the stand-in window -/
  others : ∀ i < MAX_DOMAINS, (C.domainSlots i).l1 ≠ 0 → (C.domainSlots i).l1 ≠ C.cmdBuf ∧
    (C.domainSlots i).l1 ≠ C.cmdStore ∧ (C.domainSlots i).l1 ≠ C.devicePhys

/-- the pages of the kernel's own page tables -/
def kernelTables (m : Mem) : Set ℕ :=
  RadixTree.tables A.fmt A.depth (fun i => i < A.kernelEntries) m (A.root C.ktoken)

/-- the state in which `FREE_AT_START` is sampled -/
structure PreUserland (s : KState) : Prop where
  account : Account (freeAddrs s.w.fa) s.w.fa 0
  sampled : C.freeAtStart = s.w.fa.free
  domainsOk : DomainsOk C
  /-- what the kernel keeps was taken before, and addresses fit a page-table entry -/
  taken : ∀ p ∈ kernelPages C, p ∉ freeAddrs s.w.fa
  aligned : ∀ p ∈ kernelPages C, p % PAGE_SIZE = 0 ∧ p < 2 ^ 52
  /-- the kernel's own page tables are nothing it gives out or lets a device or a process write -/
  tables : ∀ p ∈ kernelTables A C s.w.mem, p ∉ freeAddrs s.w.fa ∧ p ∉ kernelPages C
  /-- `pci::bar0` returns one dword -/
  bar : C.deviceBar < 2 ^ 32
  noProcs : ∀ i, s.procs i = Process.EMPTY
  noRegions : ∀ i, s.regions i = Region.EMPTY
  noEdges : s.ledger = Deleg.Ledger.new
  idle : s.sched = Sched.Scheduler.new
  awake : s.idling = false
  ids : s.nextId = NUM_PROCS ∧ s.nextRegionId = 1
  noGrants : ∀ i, (∀ g, ((s.domains i).grants g).live = false) ∧ ∀ k, ((s.domains i).maps k).live = false
  /-- the windows of `MAP_DMA` are empty, and nothing below them names a frame that is free -/
  window : ∀ i < MAX_DOMAINS, (C.domainSlots i).l1 ≠ 0 →
    ∀ slot < 512, iopte.present (s.leafAt C i slot) = true →
      slot < DMA_IOVA_FIRST_SLOT ∧ ∀ p ∈ freeAddrs s.w.fa, p / PAGE_SIZE ≠ iopte.frame (s.leafAt C i slot)
  ring : s.cmdTail < PAGE_SIZE ∧ s.cmdTail % 16 = 0
  unstarted : s.w.history = []

/-- the page `DEVICE_BAR` names is no frame the allocator has and no page table of the kernel; one that is not aligned is never
mapped -/
structure BarOutside (s : KState) : Prop where
  free : ∀ p, isDevice A C p = true → p % PAGE_SIZE = 0 → p ∉ freeAddrs s.w.fa
  tables : ∀ p, isDevice A C p = true → p % PAGE_SIZE = 0 → p ∉ kernelTables A C s.w.mem

/-- nor is it a level-1 table of a domain -/
structure BarApart (s : KState) : Prop extends BarOutside A C s where
  io : ∀ i < MAX_DOMAINS, (C.domainSlots i).l1 ≠ 0 → isDevice A C (C.domainSlots i).l1 = false

/-- no device was found -/
theorem barApart_zero {A : Arch} {C : Config} (h : C.deviceBar = 0) (s : KState) : BarApart A C s := by
  have hno : ∀ p, isDevice A C p = false := fun p => by simp [isDevice, h]
  exact ⟨⟨fun p hp => absurd (hno p ▸ hp) (by decide), fun p hp => absurd (hno p ▸ hp) (by decide)⟩, fun i _ _ => hno _⟩

/-! ## One step -/

/-- an entry to the kernel, or a store the running process makes to its own memory -/
inductive Input where
  | syscall (frame : UserFrame)
  | timer (frame : UserFrame)
  | device (frame : UserFrame)
  | fault
  | store (va : ℕ) (b : Byte)

/-- the machine is in user mode for what the process itself does; its stores go through user-writable leaves -/
def Enabled (s : KState) : Input → Prop
  | .syscall _ => s.idling = false
  | .timer _ => True
  | .device _ => True
  | .fault => s.idling = false
  | .store va _ => s.idling = false ∧ A.Own (va / PAGE_SIZE) ∧
      A.UserLeaf (A.leaf s.w.mem (A.root s.cr3) (va / PAGE_SIZE)) ∧
      A.writable (A.leaf s.w.mem (A.root s.cr3) (va / PAGE_SIZE)) = true

def handle : Input → K Unit
  | .syscall frame => syscallTrap A C frame
  | .timer frame => modify (preemptTrap A frame)
  | .device frame => modify (deviceTrap A frame)
  | .fault => faultTrap A C
  | .store va b => modify fun s => s.setMem (Vspace.storeUser A s.cr3 s.w.mem va b)

/-- one step of a run that goes on -/
def Step (s : KState) (i : Input) (s' : KState) : Prop := Enabled A s i ∧ handle A C i s = .ok ((), s')

/-- the states of every run from `s₀` -/
inductive Reachable (s₀ : KState) : KState → Prop where
  | boot {s : KState} : bootUserland A C s₀ = .ok ((), s) → Reachable s₀ s
  | step {s s' : KState} {i : Input} : Reachable s₀ s → Step A C s i s' → Reachable s₀ s'

/-- the same with what came before: the inputs, each with the state it found -/
inductive Trace (s₀ : KState) : List (KState × Input) → KState → Prop where
  | boot {s : KState} : bootUserland A C s₀ = .ok ((), s) → Trace s₀ [] s
  | step {past : List (KState × Input)} {s s' : KState} {i : Input} : Trace s₀ past s → Step A C s i s' →
      Trace s₀ (past ++ [(s, i)]) s'

theorem Trace.reachable {A : Arch} {C : Config} {s₀ s : KState} {past : List (KState × Input)} (h : Trace A C s₀ past s) :
    Reachable A C s₀ s := by
  induction h with
  | boot h => exact .boot h
  | step _ hstep ih => exact .step ih hstep

theorem Reachable.trace {A : Arch} {C : Config} {s₀ s : KState} (h : Reachable A C s₀ s) : ∃ past, Trace A C s₀ past s := by
  induction h with
  | boot h => exact ⟨_, .boot h⟩
  | step _ hstep ih =>
    obtain ⟨past, hp⟩ := ih
    exact ⟨_, .step hp hstep⟩

/-! ## A small machine -/

/-- an rv64 image without segments -/
def emptyImage : List Byte :=
  leBytes 4 0x464C457F ++ leBytes 12 2 ++ leBytes 2 2 ++ leBytes 2 0xF3 ++ leBytes 4 0 ++ leBytes 8 0x100000000 ++
    leBytes 8 64 ++ leBytes 14 0 ++ leBytes 2 56 ++ leBytes 2 0 ++ leBytes 6 0

/-- 64 pages, the first reserved, those below `dmaTop` for devices -/
def smallPool (dmaTop : ℕ) : BitmapAllocator := BitmapAllocator.new [⟨0, 64 * PAGE_SIZE, .usable⟩] 1 PAGE_SIZE dmaTop

/-- the kernel's root page is page 64; no device was found -/
def smallConfig (elf : List Byte) (grants : Role → List (CapType × CapRights × ℕ)) (dmaTop : ℕ) : Config where
  userElf := elf
  ktoken := 2 ^ 63 + 64
  devicePhys := 0
  deviceBar := 0
  amdviBase := 0
  cmdBuf := 0
  cmdStore := 0
  domainSlots := fun _ => DomainSlot.EMPTY
  freeAtStart := (smallPool dmaTop).free
  grants := grants
  completes := fun _ => true

def smallState (dmaTop : ℕ) : KState where
  w := ⟨fun _ _ => 0, smallPool dmaTop, 2 ^ 63 + 64, [], []⟩
  procs := fun _ => Process.EMPTY
  sched := Sched.Scheduler.new
  current := 0
  idling := false
  regions := fun _ => Region.EMPTY
  nextRegionId := 1
  nextId := NUM_PROCS
  ledger := Deleg.Ledger.new
  domains := fun _ => Iommu.Domain.new
  cmdTail := 0
  timeouts := 0
  killed := 0
  parks := 0
  deviceWakes := 0
  dmaWithdrawnAtExit := 0

theorem smallPool_total (dmaTop : ℕ) : (smallPool dmaTop).total ≤ 64 := (trackedFrames_le [⟨0, 64 * PAGE_SIZE, .usable⟩] 1).2

/-- page 0 is reserved -/
theorem smallPool_free {dmaTop p : ℕ} (hp : p ∈ freeAddrs (smallPool dmaTop)) : 0 < p ∧ p < 64 * PAGE_SIZE := by
  obtain ⟨f, hf, rfl⟩ := mem_freeAddrs.1 hp
  have hlt := lt_of_lt_of_le (BitmapAllocator.mem_freeFrames.1 hf).1 (smallPool_total dmaTop)
  have hres := ((mem_freeFrames_new _ 1 PAGE_SIZE dmaTop f).1 hf).2.2.2
  rw [BitmapAllocator.frameAddr_of_lt (by omega)]
  simp only [PAGE_SIZE] at *
  omega

/-- memory is all zero, so the kernel's tree is its root -/
theorem smallState_tables {C : Config} (hk : C.ktoken = 2 ^ 63 + 64) {dmaTop p : ℕ}
    (hp : p ∈ kernelTables Riscv C (smallState dmaTop).w.mem) : p = 64 * PAGE_SIZE := by
  obtain ⟨path, -, hpath⟩ := hp
  cases path with
  | nil =>
    have h64 : Riscv.root (2 ^ 63 + 64) = 64 * PAGE_SIZE := by decide
    rw [hk] at hpath
    exact (Option.some.inj hpath).symm.trans h64
  | cons i path =>
    obtain ⟨t, -, h⟩ := Option.bind_eq_some_iff.1 hpath
    have hnone : RadixTree.follow Riscv.fmt 0 = none := by decide
    exact absurd (hnone.symm.trans h) (by simp)

/-- an rv64 machine of 64 pages is ready for userland, whatever its image and its grants -/
theorem smallState_ready (elf : List Byte) (grants : Role → List (CapType × CapRights × ℕ)) (dmaTop : ℕ) :
    PreUserland Riscv (smallConfig elf grants dmaTop) (smallState dmaTop) := by
  have hkeep : ∀ p ∈ kernelPages (smallConfig elf grants dmaTop), p = 0 := by
    intro p hp
    simpa [kernelPages, smallConfig, DomainSlot.EMPTY] using hp
  exact
    { account := Account.opened _ _ _ _ ((smallPool_total dmaTop).trans (by decide))
      sampled := rfl
      domainsOk := ⟨fun i _ => Or.inl rfl, fun i _ j _ _ h => absurd rfl h, fun i _ h => absurd rfl h⟩
      taken := fun p hp hf => by
        rw [hkeep p hp] at hf; exact absurd (smallPool_free hf).1 (lt_irrefl 0)
      aligned := fun p hp => by rw [hkeep p hp]; decide
      bar := Nat.two_pow_pos 32
      tables := fun p hp => by
        rw [smallState_tables rfl hp]
        exact ⟨fun hf => absurd (smallPool_free hf).2 (lt_irrefl _), fun hk => absurd (hkeep _ hk) (by decide)⟩
      noProcs := fun _ => rfl
      noRegions := fun _ => rfl
      noEdges := rfl
      idle := rfl
      awake := rfl
      ids := ⟨rfl, rfl⟩
      noGrants := fun _ => ⟨fun _ => rfl, fun _ => rfl⟩
      window := fun i _ h => absurd rfl h
      ring := ⟨Nat.succ_pos _, rfl⟩
      unstarted := rfl }

/-- the same machine with a stand-in device window in page 65 -/
def windowConfig : Config := { smallConfig emptyImage ROLE_GRANTS 0 with devicePhys := 65 * PAGE_SIZE }

theorem windowConfig_ready : PreUserland Riscv windowConfig (smallState 0) := by
  have h := smallState_ready emptyImage ROLE_GRANTS 0
  have hkeep : ∀ p ∈ kernelPages windowConfig, p = 0 ∨ p = 65 * PAGE_SIZE := by
    intro p hp
    simp only [kernelPages, windowConfig, smallConfig, DomainSlot.EMPTY, List.mem_cons, List.not_mem_nil, or_false] at hp
    tauto
  exact
    { h with
      domainsOk := ⟨fun i _ => Or.inl rfl, fun i _ j _ _ h => absurd rfl h, fun i _ h => absurd rfl h⟩
      taken := fun p hp hf => by
        rcases hkeep p hp with rfl | rfl
        · exact absurd (smallPool_free hf).1 (lt_irrefl 0)
        · exact absurd (smallPool_free hf).2 (by decide)
      aligned := fun p hp => by
        rcases hkeep p hp with rfl | rfl
        · decide
        · decide
      tables := fun p hp => by
        rw [smallState_tables rfl hp]
        refine ⟨fun hf => absurd (smallPool_free hf).2 (lt_irrefl _), fun hk => ?_⟩
        rcases hkeep _ hk with h0 | h65
        · exact absurd h0 (by decide)
        · exact absurd h65 (by decide)
      window := fun i _ h => absurd rfl h }

theorem windowConfig_apart : BarApart Riscv windowConfig (smallState 0) := barApart_zero rfl _

/-- the state a program left behind -/
def outcome (r : Except Halt (Unit × KState)) (s : KState) : KState :=
  match r with
  | .ok (_, t) => t
  | .error _ => s

theorem outcome_eq {r : Except Halt (Unit × KState)} {s : KState} (h : r.toBool = true) : r = .ok ((), outcome r s) := by
  cases r with
  | ok a => rfl
  | error e => cases h

/-- a step of a run, computed -/
theorem Reachable.outcome {A : Arch} {C : Config} {s₀ s : KState} (h : Reachable A C s₀ s) {i : Input} (hen : Enabled A s i)
    (hok : (handle A C i s).toBool = true) : Reachable A C s₀ (outcome (handle A C i s) s) :=
  .step h ⟨hen, outcome_eq hok⟩

/-- the small machine in user mode: three processes, the first of them running -/
def smallRun : KState := outcome (bootUserland Riscv (smallConfig emptyImage ROLE_GRANTS 0) (smallState 0)) (smallState 0)

theorem smallRun_boots : bootUserland Riscv (smallConfig emptyImage ROLE_GRANTS 0) (smallState 0) = .ok ((), smallRun) :=
  outcome_eq (by decide +kernel)

/-- the registers of `SEND` on the first capability, without a payload -/
def sendFrame : UserFrame := Riscv.setReg UserFrame.ZERO 17 sysno.SEND

/-- the small machine, its producer parked in `SEND` -/
def smallSend : KState :=
  outcome (handle Riscv (smallConfig emptyImage ROLE_GRANTS 0) (.syscall sendFrame) smallRun) smallRun

/-- and a tick later -/
def smallTick : KState :=
  outcome (handle Riscv (smallConfig emptyImage ROLE_GRANTS 0) (.timer UserFrame.ZERO) smallSend) smallSend

theorem smallSend_reachable : Reachable Riscv (smallConfig emptyImage ROLE_GRANTS 0) (smallState 0) smallSend := by
  have hawake : smallRun.idling = false := by decide +kernel
  exact (Reachable.boot smallRun_boots).outcome (i := .syscall sendFrame) hawake (by decide +kernel)

/-! ## A machine with a unit -/

/-- an x86-64 image without segments -/
def emptyX86 : List Byte :=
  leBytes 4 0x464C457F ++ leBytes 12 2 ++ leBytes 2 2 ++ leBytes 2 0x3E ++ leBytes 4 0 ++ leBytes 8 0x8000000000 ++
    leBytes 8 64 ++ leBytes 14 0 ++ leBytes 2 56 ++ leBytes 2 0 ++ leBytes 6 0

/-- one device behind the unit, at 00:05.0: its table is page 66, the ring page 67, the completion word on page 68 -/
def oneUnitConfig : Config :=
  { smallConfig emptyX86 ROLE_GRANTS (4 * PAGE_SIZE) with
    ktoken := 64 * PAGE_SIZE
    amdviBase := 0xFEB80000
    cmdBuf := 67 * PAGE_SIZE
    cmdStore := 68 * PAGE_SIZE
    domainSlots := fun i => if i = 0 then ⟨1, 40, 66 * PAGE_SIZE⟩ else DomainSlot.EMPTY }

def oneUnitState : KState :=
  { smallState (4 * PAGE_SIZE) with w := { (smallState (4 * PAGE_SIZE)).w with cr3 := 64 * PAGE_SIZE } }

/-- memory is all zero, so the kernel's tree is its root -/
theorem oneUnitState_tables {p : ℕ} (hp : p ∈ kernelTables X86 oneUnitConfig oneUnitState.w.mem) : p = 64 * PAGE_SIZE := by
  obtain ⟨path, -, hpath⟩ := hp
  cases path with
  | nil =>
    have h64 : X86.root (64 * PAGE_SIZE) = 64 * PAGE_SIZE := by decide
    exact (Option.some.inj hpath).symm.trans h64
  | cons i path =>
    obtain ⟨t, -, h⟩ := Option.bind_eq_some_iff.1 hpath
    have hnone : RadixTree.follow X86.fmt 0 = none := by decide
    exact absurd (hnone.symm.trans h) (by simp)

theorem oneUnitConfig_ready : PreUserland X86 oneUnitConfig oneUnitState := by
  have h := smallState_ready emptyX86 ROLE_GRANTS (4 * PAGE_SIZE)
  have hslot : ∀ i, (oneUnitConfig.domainSlots i).l1 ≠ 0 → i = 0 := by
    intro i hi
    by_contra hne
    exact hi (by simp [oneUnitConfig, hne, DomainSlot.EMPTY])
  have hkeep : ∀ p ∈ kernelPages oneUnitConfig, p = 0 ∨ 66 * PAGE_SIZE ≤ p := by decide
  have hpages : ∀ p ∈ kernelPages oneUnitConfig, p % PAGE_SIZE = 0 ∧ p < 2 ^ 52 := by decide
  exact
    { h with
      domainsOk :=
        { named := fun i hi => by
            by_cases h0 : i = 0
            · subst h0
              exact Or.inr ⟨rfl, by decide⟩
            · exact Or.inl (if_neg h0)
          apart := fun i _ j _ hne hi => by
            obtain rfl := hslot i hi
            intro he
            exact hne (hslot j (he ▸ hi)).symm
          others := fun i _ hi => by
            obtain rfl := hslot i hi
            decide }
      taken := fun p hp hf => by
        obtain ⟨hpos, hlt⟩ := smallPool_free hf
        rcases hkeep p hp with h0 | h66
        · exact absurd h0 hpos.ne'
        · exact absurd (lt_of_le_of_lt h66 hlt) (by decide)
      aligned := hpages
      tables := fun p hp => by
        rw [oneUnitState_tables hp]
        refine ⟨fun hf => absurd (smallPool_free hf).2 (lt_irrefl _), fun hk => ?_⟩
        rcases hkeep _ hk with h0 | h66
        · exact absurd h0 (by decide)
        · exact absurd h66 (by decide)
      window := fun i _ _ slot _ hp => absurd (hp.symm.trans iopte.not_present_zero) (by decide) }

theorem oneUnitConfig_apart : BarApart X86 oneUnitConfig oneUnitState := barApart_zero rfl _

/-- the roles are granted no region at boot -/
theorem roleGrants_apart {C : Config} (hC : C.grants = ROLE_GRANTS) (role : Role) : ∀ g ∈ grantsFor C role, g.1 ≠ .region := by
  cases role with
  | child => exact List.forall_mem_nil _
  | producer | consumer | worker =>
    show ∀ g ∈ C.grants _, g.1 ≠ .region
    rw [hC]
    decide

/-- the registers of a call of two arguments -/
def callFrame (num a0 a1 : ℕ) : UserFrame :=
  ((UserFrame.ZERO.put 14 (BitVec.ofNat 64 num)).put 9 (BitVec.ofNat 64 a0)).put 10 (BitVec.ofNat 64 a1)

def exitFrame : UserFrame := callFrame sysno.EXIT 0 0

/-- `SPAWN` with the capability in slot `cap` handed on in full -/
def lendFrame (mint cap : ℕ) : UserFrame := (callFrame sysno.SPAWN mint cap).put 11 (BitVec.ofNat 64 7)

def unitBoot : KState := outcome (bootUserland X86 oneUnitConfig oneUnitState) oneUnitState

def unitConsumer : KState := outcome (handle X86 oneUnitConfig (.timer UserFrame.ZERO) unitBoot) unitBoot

def unitWorker : KState := outcome (handle X86 oneUnitConfig (.timer UserFrame.ZERO) unitConsumer) unitConsumer

/-- the state after one input -/
def fedTo (C : Config) (s : KState) (i : Input) : KState := outcome (handle X86 C i s) s

/-- the producer exits -/
def producerGone : KState := fedTo oneUnitConfig unitBoot (.syscall exitFrame)

/-- the consumer exits as well, and the worker is left alone -/
def workerAlone : KState := fedTo oneUnitConfig producerGone (.syscall exitFrame)

/-- it hands its memory capability to a child, which gets the first slot again -/
def workerLent : KState := fedTo oneUnitConfig workerAlone (.syscall (lendFrame 2 2))

theorem fedTo_step {C : Config} {s : KState} {i : Input} (hen : Enabled X86 s i) (hok : (handle X86 C i s).toBool = true) :
    Step X86 C s i (fedTo C s i) := ⟨hen, outcome_eq hok⟩

theorem Reachable.fedTo {C : Config} {s₀ s : KState} (h : Reachable X86 C s₀ s) {i : Input} (hen : Enabled X86 s i)
    (hok : (handle X86 C i s).toBool = true) : Reachable X86 C s₀ (fedTo C s i) := .step h (fedTo_step hen hok)

/-- the running process stores to a page of its own -/
theorem Reachable.stores {C : Config} {s₀ s : KState} (h : Reachable X86 C s₀ s) {va : ℕ} {b : Byte}
    (hown : X86.Own (va / PAGE_SIZE))
    (hleaf : s.idling = false ∧ X86.UserLeaf (X86.leaf s.w.mem (X86.root s.cr3) (va / PAGE_SIZE)) ∧
      X86.writable (X86.leaf s.w.mem (X86.root s.cr3) (va / PAGE_SIZE)) = true) :
    Reachable X86 C s₀ (Kernel.fedTo C s (.store va b)) :=
  h.fedTo (i := .store va b) ⟨hleaf.1, hown, hleaf.2⟩ rfl

/-- the running process makes a call, which returns -/
theorem Reachable.called {C : Config} {s₀ s : KState} (h : Reachable X86 C s₀ s) {f : UserFrame}
    (hrun : s.idling = false ∧ (handle X86 C (.syscall f) s).toBool = true) :
    Reachable X86 C s₀ (Kernel.fedTo C s (.syscall f)) :=
  h.fedTo (i := .syscall f) hrun.1 hrun.2

theorem unitBoot_reachable : Reachable X86 oneUnitConfig oneUnitState unitBoot := .boot (outcome_eq (by decide +kernel))

theorem unitWorker_reachable : Reachable X86 oneUnitConfig oneUnitState unitWorker := by
  have h₁ : Reachable X86 oneUnitConfig oneUnitState unitConsumer :=
    unitBoot_reachable.outcome (i := .timer UserFrame.ZERO) trivial (by decide +kernel)
  exact h₁.outcome (i := .timer UserFrame.ZERO) trivial (by decide +kernel)

theorem workerAlone_reachable : Reachable X86 oneUnitConfig oneUnitState workerAlone := by
  have hgone : Reachable X86 oneUnitConfig oneUnitState producerGone := unitBoot_reachable.called (by decide +kernel)
  exact hgone.called (by decide +kernel)

theorem workerLent_reachable : Reachable X86 oneUnitConfig oneUnitState workerLent :=
  workerAlone_reachable.called (by decide +kernel)

end Rustproof.Kernel
