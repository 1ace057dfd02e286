/-
The IOMMU's device table as the boot programs it (`program_dte`), and whether the device it bounds is the device whose
registers the boot hands out.

The functions are enumerated once. The first `MAX_DOMAINS` that can be bound, `edu` first, get a table and a device-table entry
each; every other function gets an entry under an empty table; every entry is read back, and the domains are published once the
unit translates. The device whose registers are handed out is found by a scan of its own (`Pci.findDmaDevice`).

- `programDte_checked`: a boot that goes on with a domain in slot 0 has the entry of the first selected function in place.
- `selected_eq`: the first selected function, as a search of the numbers of bus 0.
- `handedOut_bounded`: slot 0 is the handed-out device's exactly if the two scans agree (`ScansAgree`).
-/
import Rustproof.Boot.Pci
import Rustproof.Hal.X86
import Rustproof.Kernel.Run

namespace Rustproof.Kernel.DeviceTable

open Lib Mm Boot.Pci

/-! ## Device-table entries -/

def V : Word := 0x1
def TV : Word := 0x2
def MODE_3_LEVEL : Word := 3 <<< 9
def IR : Word := 1 <<< 61
def IW : Word := 1 <<< 62
def PR : Word := 0x1
def NEXT_LEVEL_2 : Word := 2 <<< 9
def NEXT_LEVEL_1 : Word := 1 <<< 9

/-- word 0 of an entry over a three-level table -/
def dteWord (root : ℕ) : Word := V ||| TV ||| MODE_3_LEVEL ||| (BitVec.ofNat 64 root &&& X86.ADDR_MASK) ||| IR ||| IW

/-- an entry of an I/O page table over a lower table -/
def levelWord (next : ℕ) (level : Word) : Word := (BitVec.ofNat 64 next &&& X86.ADDR_MASK) ||| PR ||| IR ||| IW ||| level

/-- words 0 and 1 of a device-table entry; the other two are always zero -/
structure Dte where
  w0 : Word
  /-- the DomainID -/
  w1 : Word
deriving DecidableEq, Repr

/-- a domain as the boot stages it: with the entry it is read back against -/
structure Staged extends DomainSlot where
  w0 : Word
deriving DecidableEq, Repr

def Staged.EMPTY : Staged := ⟨DomainSlot.EMPTY, 0⟩

/-- how the machine answers the stores of `program_dte` -/
structure Answers where
  /-- the entry of a domain takes at this BDF -/
  binds : ℕ → Bool
  /-- the entry of the deny sweep takes at this BDF -/
  denies : ℕ → Bool
  /-- the event log base takes -/
  log : Bool
  /-- the command buffer base takes -/
  ring : Bool
  /-- the unit is enabled -/
  enables : Bool
  /-- `prove_containment` finds no transfer that got through -/
  contains : Bool

/-- the state `program_dte` works on; entries of the device table are named by BDF -/
structure Boot where
  fa : BitmapAllocator
  mem : Mem
  dt : ℕ → Dte
  staged : Table Staged
  live : ℕ
  eventLog : ℕ
  cmdBuf : ℕ
  cmdStore : ℕ
  /-- `DOMAIN_SLOTS` -/
  slots : Table Staged

variable (cs : ConfigSpace) (hw : Answers)

/-- `alloc_frame().map(zero_frame)` -/
def Boot.newFrame (b : Boot) : Option ℕ × Boot :=
  match b.fa.allocFrame with
  | (none, fa) => (none, { b with fa := fa })
  | (some p, fa) => (some p, { b with fa := fa, mem := b.mem.fill p 0 })

/-- store an entry of the device table, if the store takes -/
def Boot.storeDte (b : Boot) (takes : ℕ → Bool) (bdf : ℕ) (e : Dte) : Boot :=
  if takes bdf then { b with dt := Function.update b.dt bdf e } else b

/-! ## Binding -/

/-- the two lower levels, linked under `root`, an entry for `f`, and the domain staged if the entry reads back -/
def bindTo (i : ℕ) (f : Boot.Pci.Function) (root l2 l1 : ℕ) (b : Boot) : Boot :=
  let b := { b with mem := (b.mem.put root 0 (levelWord l2 NEXT_LEVEL_2)).put l2 0 (levelWord l1 NEXT_LEVEL_1) }
  let b := b.storeDte hw.binds f.bdf ⟨dteWord root, BitVec.ofNat 64 i⟩
  if (b.dt f.bdf).w0 ≠ dteWord root then b
  else { b with staged := b.staged.put i ⟨⟨i + 1, f.bdf, l1⟩, dteWord root⟩, live := b.live + 1 }

/-- the loop over the selected functions, from index `i` on; it ends where frames run out -/
def bindDevices : ℕ → List Boot.Pci.Function → Boot → Boot
  | _, [], b => b
  | i, f :: fs, b =>
    match b.newFrame with
    | (none, b) => b
    | (some root, b) =>
      let (l2, b) := b.newFrame
      let (l1, b) := b.newFrame
      match l2, l1 with
      | some l2, some l1 => bindDevices (i + 1) fs (bindTo hw i f root l2 l1 b)
      | _, _ => b

/-! ## The deny sweep -/

/-- the domain staged for a BDF -/
def Boot.stagedAt (b : Boot) (bdf : ℕ) : Option ℕ :=
  firstIdx MAX_DOMAINS fun i => (b.staged i).id != 0 && (b.staged i).bdf == bdf

/-- an entry under the empty table `deny` for a function no domain is staged for -/
def denyOne (deny : ℕ) (b : Boot) (f : Boot.Pci.Function) : Boot :=
  if anyIdx MAX_DOMAINS (fun i => (b.staged i).id != 0 && (b.staged i).bdf == f.bdf) then b
  else b.storeDte hw.denies f.bdf ⟨dteWord deny, BitVec.ofNat 64 MAX_DOMAINS⟩

/-- the entry a function should have -/
def Boot.wanted (b : Boot) (deny bdf : ℕ) : Dte :=
  match b.stagedAt bdf with
  | some i => ⟨(b.staged i).w0, BitVec.ofNat 64 i⟩
  | none => ⟨dteWord deny, BitVec.ofNat 64 MAX_DOMAINS⟩

/-- functions whose entry reads back as something else -/
def Boot.passthrough (b : Boot) (deny : ℕ) (all : List Boot.Pci.Function) : ℕ :=
  (all.filter fun f => b.dt f.bdf != b.wanted deny f.bdf).length

/-! ## The unit -/

/-- arm the event log -/
def armLog (b : Boot) : Boot :=
  match b.newFrame with
  | (none, b) => b
  | (some log, b) => if hw.log then { b with eventLog := log } else b

/-- arm the command buffer, with a frame for the completion word -/
def armRing (b : Boot) : Boot :=
  match b.newFrame with
  | (none, b) => b
  | (some cmd, b) =>
    if hw.ring then
      let (store, b) := { b with cmdBuf := cmd }.newFrame
      { b with cmdStore := store.getD b.cmdStore }
    else b

/-- publish the staged domains if the unit is enabled; `none` if the boot ends there -/
def enable (b : Boot) : Option Boot :=
  if hw.enables = false then some b
  else if anyIdx MAX_DOMAINS (fun i => (b.staged i).id != 0 && decide (0x100 ≤ (b.staged i).bdf)) then none
  else if hw.contains = false then none
  else some { b with slots := fun i => if i < MAX_DOMAINS then b.staged i else b.slots i }

/-! ## `program_dte` -/

/-- room for functions in the enumeration -/
def MAX_FUNCTIONS : ℕ := 32

/-- a domain can be bound to it: a bus master whose requester id is its BDF -/
def bindable (f : Boot.Pci.Function) : Bool := f.bus == 0 && isDmaCapable cs f

/-- the functions to bind: `edu` first -/
def selected (all : List Boot.Pci.Function) : List Boot.Pci.Function :=
  (all.filter (fun f => isEdu f && bindable cs f) ++ all.filter fun f => bindable cs f && !isEdu f).take MAX_DOMAINS

/-- `program_dte`, on a machine whose unit has a device table; `none` if the boot ends there -/
def programDte (b : Boot) : Option Boot :=
  if findDmaDevice cs = none then some b
  else
    let walk := enumerate cs MAX_FUNCTIONS
    if walk.truncated then some b
    else if walk.out.length = 0 then some b
    else
      let b := bindDevices hw 0 (selected cs walk.out) b
      if b.live = 0 then some b
      else
        match b.newFrame with
        | (none, b) => some b
        | (some deny, b) =>
          let b := walk.out.foldl (denyOne hw deny) b
          if 0 < b.passthrough deny walk.out then none
          else enable hw (armRing hw (armLog hw b))

/-- the state before `program_dte`: nothing staged, no domain published -/
def start (fa : BitmapAllocator) (mem : Mem) (dt : ℕ → Dte) : Boot :=
  ⟨fa, mem, dt, fun _ => Staged.EMPTY, 0, 0, 0, 0, fun _ => Staged.EMPTY⟩

/-! ## What is in place when the boot goes on -/

@[simp] theorem newFrame_staged (b : Boot) : b.newFrame.2.staged = b.staged := by
  unfold Boot.newFrame; split <;> rfl

@[simp] theorem newFrame_slots (b : Boot) : b.newFrame.2.slots = b.slots := by
  unfold Boot.newFrame; split <;> rfl

@[simp] theorem newFrame_dt (b : Boot) : b.newFrame.2.dt = b.dt := by
  unfold Boot.newFrame; split <;> rfl

@[simp] theorem storeDte_staged (b : Boot) (takes : ℕ → Bool) (bdf : ℕ) (e : Dte) :
    (b.storeDte takes bdf e).staged = b.staged := by
  unfold Boot.storeDte; split <;> rfl

@[simp] theorem storeDte_slots (b : Boot) (takes : ℕ → Bool) (bdf : ℕ) (e : Dte) :
    (b.storeDte takes bdf e).slots = b.slots := by
  unfold Boot.storeDte; split <;> rfl

/-- the event log and the command buffer take frames, and change neither the table nor the domains -/
theorem armLog_frame (b : Boot) : (armLog hw b).dt = b.dt ∧ (armLog hw b).staged = b.staged ∧ (armLog hw b).slots = b.slots := by
  have h1 := newFrame_dt b
  have h2 := newFrame_staged b
  have h3 := newFrame_slots b
  unfold armLog
  split
  · next heq => rw [heq] at h1 h2 h3; exact ⟨h1, h2, h3⟩
  · next heq =>
    rw [heq] at h1 h2 h3
    split
    · exact ⟨h1, h2, h3⟩
    · exact ⟨h1, h2, h3⟩

theorem armRing_frame (b : Boot) :
    (armRing hw b).dt = b.dt ∧ (armRing hw b).staged = b.staged ∧ (armRing hw b).slots = b.slots := by
  have h1 := newFrame_dt b
  have h2 := newFrame_staged b
  have h3 := newFrame_slots b
  unfold armRing
  split
  · next heq => rw [heq] at h1 h2 h3; exact ⟨h1, h2, h3⟩
  · next cmd b' heq =>
    rw [heq] at h1 h2 h3
    split
    · exact ⟨(newFrame_dt { b' with cmdBuf := cmd }).trans h1, (newFrame_staged { b' with cmdBuf := cmd }).trans h2,
        (newFrame_slots { b' with cmdBuf := cmd }).trans h3⟩
    · exact ⟨h1, h2, h3⟩

theorem denyAll_staged (deny : ℕ) (all : List Boot.Pci.Function) (b : Boot) :
    (all.foldl (denyOne hw deny) b).staged = b.staged ∧ (all.foldl (denyOne hw deny) b).slots = b.slots := by
  induction all generalizing b with
  | nil => exact ⟨rfl, rfl⟩
  | cons f all ih =>
    have hone : (denyOne hw deny b f).staged = b.staged ∧ (denyOne hw deny b f).slots = b.slots := by
      unfold denyOne
      split
      · exact ⟨rfl, rfl⟩
      · exact ⟨storeDte_staged _ _ _ _, storeDte_slots _ _ _ _⟩
    rw [List.foldl_cons]
    exact ⟨(ih _).1.trans hone.1, (ih _).2.trans hone.2⟩

/-- every staged domain is that of the selected function of its index, with an entry over some root -/
def StagedFrom (devs : List Boot.Pci.Function) (b : Boot) : Prop :=
  ∀ i, (b.staged i).id ≠ 0 →
    ∃ f, devs[i]? = some f ∧ (b.staged i).bdf = f.bdf ∧ ∃ root, (b.staged i).w0 = dteWord root

theorem bindTo_staged {devs : List Boot.Pci.Function} {i : ℕ} {f : Boot.Pci.Function} (hf : devs[i]? = some f)
    (root l2 l1 : ℕ) {b : Boot} (h : StagedFrom devs b) : StagedFrom devs (bindTo hw i f root l2 l1 b) := by
  unfold bindTo
  dsimp only
  split_ifs
  · intro j hj
    simp only [storeDte_staged] at hj ⊢
    exact h j hj
  · intro j hj
    by_cases hji : j = i
    · subst hji
      exact ⟨f, hf, by simp, root, by simp⟩
    · simp only [storeDte_staged, Table.put_of_ne _ hji] at hj ⊢
      exact h j hj

theorem bindTo_slots (i : ℕ) (f : Boot.Pci.Function) (root l2 l1 : ℕ) (b : Boot) :
    (bindTo hw i f root l2 l1 b).slots = b.slots := by
  unfold bindTo
  dsimp only
  split_ifs
  · exact storeDte_slots _ _ _ _
  · exact storeDte_slots _ _ _ _

theorem bindDevices_staged (devs : List Boot.Pci.Function) :
    ∀ (fs : List Boot.Pci.Function) (i : ℕ) (b : Boot), devs.drop i = fs → StagedFrom devs b →
      StagedFrom devs (bindDevices hw i fs b) ∧ (bindDevices hw i fs b).slots = b.slots := by
  intro fs
  induction fs with
  | nil => exact fun i b _ h => ⟨h, rfl⟩
  | cons f fs ih =>
    intro i b hdrop h
    have hf : devs[i]? = some f := by
      have := congrArg List.head? hdrop
      rwa [List.head?_drop] at this
    have hfs : devs.drop (i + 1) = fs := by
      have := congrArg List.tail hdrop
      rwa [List.tail_drop] at this
    -- an allocation keeps what is staged
    have hframe : ∀ b : Boot, StagedFrom devs b → StagedFrom devs b.newFrame.2 := by
      intro b h j hj
      rw [newFrame_staged] at hj ⊢
      exact h j hj
    rw [bindDevices]
    have h1 := hframe b h
    have hs1 := newFrame_slots b
    split
    · next heq => rw [heq] at h1 hs1; exact ⟨h1, hs1⟩
    · next root b1 heq =>
      rw [heq] at h1 hs1
      have h3 := hframe _ (hframe b1 h1)
      have hs3 : b1.newFrame.2.newFrame.2.slots = b.slots := by simpa using hs1
      dsimp only
      split
      · next l2 l1 _ _ =>
        obtain ⟨hst, hsl⟩ := ih (i + 1) _ hfs (bindTo_staged hw hf root l2 l1 h3)
        exact ⟨hst, (hsl.trans (bindTo_slots hw i f root l2 l1 _)).trans hs3⟩
      · exact ⟨h3, hs3⟩

/-- a published slot is a staged one; publishing changes nothing else -/
theorem enable_some {b b' : Boot} (h : enable hw b = some b') (hempty : ∀ i, (b.slots i).id = 0) {i : ℕ}
    (hid : (b'.slots i).id ≠ 0) : b'.slots i = b.staged i ∧ b'.dt = b.dt := by
  unfold enable at h
  split_ifs at h
  · cases h
    exact absurd (hempty i) hid
  · cases h
    dsimp only at hid ⊢
    split_ifs at hid ⊢
    · exact ⟨rfl, rfl⟩
    · exact absurd (hempty i) hid

/-- every entry read back as wanted -/
theorem dt_of_passthrough {b : Boot} {deny : ℕ} {all : List Boot.Pci.Function} (h : ¬0 < b.passthrough deny all)
    {f : Boot.Pci.Function} (hf : f ∈ all) : b.dt f.bdf = b.wanted deny f.bdf := by
  by_contra hne
  refine h (List.length_pos_of_mem (a := f) (List.mem_filter.2 ⟨hf, ?_⟩))
  exact bne_iff_ne.2 hne

/-- **A boot that goes on** with a domain in slot 0 kept every function it enumerated, and has the entry of the first selected one
in place. -/
theorem programDte_checked {fa : BitmapAllocator} {mem : Mem} {dt : ℕ → Dte} {b : Boot}
    (h : programDte cs hw (start fa mem dt) = some b) (hid : (b.slots 0).id ≠ 0) :
    (enumerate cs MAX_FUNCTIONS).truncated = false ∧
      ∃ f, (selected cs (enumerate cs MAX_FUNCTIONS).out)[0]? = some f ∧ (b.slots 0).bdf = f.bdf ∧
        b.dt f.bdf = ⟨(b.slots 0).w0, 0⟩ ∧ ∃ root, (b.slots 0).w0 = dteWord root := by
  have hnone : ∀ b' : Boot, b'.slots = (start fa mem dt).slots → some b' = some b → False := by
    rintro b' hb' ⟨⟩
    rw [hb'] at hid
    exact hid rfl
  have hbind := bindDevices_staged hw (selected cs (enumerate cs MAX_FUNCTIONS).out) _ 0 (start fa mem dt) List.drop_zero
    fun i hi => absurd rfl hi
  unfold programDte at h
  dsimp only at h
  split_ifs at h with h1 h2 h3 h4
  · exact (hnone _ rfl h).elim
  · exact (hnone _ rfl h).elim
  · exact (hnone _ rfl h).elim
  · exact (hnone _ hbind.2 h).elim
  · refine ⟨Bool.eq_false_iff.2 h2, ?_⟩
    generalize bindDevices hw 0 (selected cs (enumerate cs MAX_FUNCTIONS).out) (start fa mem dt) = b1 at h hbind
    obtain ⟨hstaged, hslots⟩ := hbind
    have hf2 := newFrame_staged b1
    have hs2 := newFrame_slots b1
    split at h
    · next b2 heq => rw [heq] at hs2; exact (hnone b2 (hs2.trans hslots) h).elim
    · next deny b2 heq =>
      rw [heq] at hf2 hs2
      obtain ⟨hf3, hs3⟩ := denyAll_staged hw deny (enumerate cs MAX_FUNCTIONS).out b2
      generalize (enumerate cs MAX_FUNCTIONS).out.foldl (denyOne hw deny) b2 = b3 at h hf3 hs3
      split_ifs at h with h5
      obtain ⟨hdt4, hf4, hs4⟩ := armLog_frame hw b3
      obtain ⟨hdt5, hf5, hs5⟩ := armRing_frame hw (armLog hw b3)
      have hempty : ∀ i, ((armRing hw (armLog hw b3)).slots i).id = 0 := by
        intro i
        rw [hs5, hs4, hs3, hs2, hslots]
        rfl
      obtain ⟨hslot, hdt⟩ := enable_some hw h hempty hid
      -- the staged slot is untouched since the loop that filled it
      have hkeep : b.slots 0 = b1.staged 0 := by
        rw [hslot, hf5, hf4, hf3, hf2]
      rw [hkeep] at hid
      obtain ⟨f, hf, hbdf, root, hw0⟩ := hstaged 0 hid
      have hmem : f ∈ (enumerate cs MAX_FUNCTIONS).out := by
        have hsel := List.mem_of_mem_take (List.mem_of_getElem? hf)
        rcases List.mem_append.1 hsel with hsel | hsel
        · exact List.mem_of_mem_filter hsel
        · exact List.mem_of_mem_filter hsel
      refine ⟨f, hf, by rw [hkeep, hbdf], ?_, root, by rw [hkeep, hw0]⟩
      have hat : b3.stagedAt f.bdf = some 0 := by
        have hz : ((b3.staged 0).id != 0 && (b3.staged 0).bdf == f.bdf) = true := by
          rw [hf3, hf2]
          simpa using ⟨hid, hbdf⟩
        unfold Boot.stagedAt firstIdx
        rw [List.range_succ_eq_map, List.find?_cons, hz]
      rw [hdt, hdt5, hdt4, dt_of_passthrough h5 hmem, Boot.wanted, hat, hkeep]
      dsimp only
      rw [hf3, hf2]
      rfl

/-! ## What the boot selects -/

theorem isEdu_rootFunction (n : ℕ) : isEdu (rootFunction cs n) = true ↔ Edu cs n := by
  simp [isEdu, rootFunction, functionAt, Edu]

theorem isDmaCapable_rootFunction (n : ℕ) : isDmaCapable cs (rootFunction cs n) = true ↔
    Edu cs n ∨ classCode cs 0 (n / 8) (n % 8) = CLASS_ETHERNET := by
  have hclass : ∀ x : BitVec 32, x >>> 16 = 0x0200 ↔ (x >>> 16).setWidth 16 = CLASS_ETHERNET := by
    intro x
    have hlt : (x >>> 16).toNat < 2 ^ 16 := by
      rw [BitVec.toNat_ushiftRight, Nat.shiftRight_eq_div_pow]
      have := x.isLt
      omega
    rw [← BitVec.toNat_inj, ← BitVec.toNat_inj, BitVec.toNat_setWidth, Nat.mod_eq_of_lt hlt]
    rfl
  unfold isDmaCapable
  rw [Bool.or_eq_true, isEdu_rootFunction, beq_iff_eq, hclass]
  rfl

/-- the functions of bus 0 in the enumeration, by number -/
theorem find?_enumerate {cap : ℕ} (h : (enumerate cs cap).truncated = false) (p : Boot.Pci.Function → Bool)
    (hp : ∀ f, p f = true → f.bus = 0) :
    (enumerate cs cap).out.find? p =
      (firstIdx 256 fun n => decide (Present cs n ∧ Seen cs n) && p (rootFunction cs n)).map (rootFunction cs) := by
  obtain ⟨rest, hout, hrest⟩ := enumerate_out cs cap h
  have hnone : rest.find? p = none := List.find?_eq_none.2 fun f hf hpf => hrest f hf (hp f hpf)
  rw [hout, List.find?_append, hnone, Option.or_none, busFunctions_root, List.find?_map, List.find?_filter]
  simp only [Bool.decide_and, Bool.decide_eq_true, Function.comp_apply, firstIdx]

/-- the first `edu` the enumeration asks for -/
def seenEdu : Option ℕ := firstIdx 256 fun n => decide (Edu cs n ∧ Seen cs n)

/-- the first Ethernet function, other than an `edu`, that the enumeration asks for -/
def seenEthernet : Option ℕ := firstIdx 256 fun n => decide ((Ethernet cs n ∧ Seen cs n) ∧ ¬Edu cs n)

/-- **The function slot 0 is for**, as a search of the numbers. -/
theorem selected_eq {cap : ℕ} (h : (enumerate cs cap).truncated = false) :
    (selected cs (enumerate cs cap).out)[0]? = ((seenEdu cs).or (seenEthernet cs)).map (rootFunction cs) := by
  have hbus : ∀ n, (rootFunction cs n).bus = 0 := fun _ => rfl
  have hedu : ((enumerate cs cap).out.filter fun f => isEdu f && bindable cs f).head? = (seenEdu cs).map (rootFunction cs) := by
    rw [List.head?_filter, find?_enumerate cs h _ fun f hf => by
      simp only [bindable, Bool.and_eq_true, beq_iff_eq] at hf; exact hf.2.1]
    refine congrArg _ (firstIdx_congr fun n _ => ?_)
    rw [Bool.eq_iff_iff]
    simp only [Bool.and_eq_true, decide_eq_true_eq, bindable, beq_iff_eq, isEdu_rootFunction, isDmaCapable_rootFunction, hbus]
    constructor
    · rintro ⟨⟨_, hseen⟩, hedu, _⟩
      exact ⟨hedu, hseen⟩
    · rintro ⟨hedu, hseen⟩
      exact ⟨⟨Edu.present cs hedu, hseen⟩, hedu, trivial, Or.inl hedu⟩
  have heth : ((enumerate cs cap).out.filter fun f => bindable cs f && !isEdu f).head? =
      (seenEthernet cs).map (rootFunction cs) := by
    rw [List.head?_filter, find?_enumerate cs h _ fun f hf => by
      simp only [bindable, Bool.and_eq_true, beq_iff_eq] at hf; exact hf.1.1]
    refine congrArg _ (firstIdx_congr fun n _ => ?_)
    rw [Bool.eq_iff_iff]
    simp only [Bool.and_eq_true, decide_eq_true_eq, bindable, beq_iff_eq, isDmaCapable_rootFunction, hbus,
      Bool.not_eq_true', ← Bool.not_eq_true, isEdu_rootFunction]
    constructor
    · rintro ⟨⟨hp, hseen⟩, ⟨-, hcls⟩, hne⟩
      exact ⟨⟨⟨hp, hcls.resolve_left hne⟩, hseen⟩, hne⟩
    · rintro ⟨⟨⟨hp, hcls⟩, hseen⟩, hne⟩
      exact ⟨⟨hp, hseen⟩, ⟨trivial, Or.inr hcls⟩, hne⟩
  unfold selected
  rw [← List.head?_eq_getElem?, List.head?_take, if_neg (by decide), List.head?_append, hedu, heth]
  cases seenEdu cs <;> rfl

/-! ## The device handed out -/

/-- the two scans of bus 0 take the same function: it is not hidden behind the function 0 of a single-function device, and, if it
is there for want of an `edu`, no Ethernet function comes before it in a device without function 0 -/
structure ScansAgree : Prop where
  edu : ∀ n, First 256 (Edu cs) n → Seen cs n
  ethernet : (∀ n < 256, ¬Edu cs n) → ∀ n, First 256 (fun n => Ethernet cs n ∧ HasZero cs n) n →
    Seen cs n ∧ ∀ m < n, ¬Ethernet cs m

theorem firstIdx_none_iff {P : ℕ → Prop} [DecidablePred P] {bound : ℕ} :
    firstIdx bound (fun n => decide (P n)) = none ↔ ∀ n < bound, ¬P n := by
  constructor
  · intro h n hn
    exact of_decide_eq_false (firstIdx_none h n hn)
  · intro h
    exact List.find?_eq_none.2 fun n hn => by simpa using h n (List.mem_range.1 hn)

/-- a device without function 0 has nothing in front of its other functions -/
theorem seen_of_not_hasZero {n : ℕ} (h : ¬HasZero cs n) : Seen cs n := Or.inr fun hz => h hz.1

/-- the scans agree exactly if they find the same number -/
theorem scansAgree_iff {n : ℕ} (h : (firstEdu cs).or (firstEthernet cs) = some n) :
    ScansAgree cs ↔ (seenEdu cs).or (seenEthernet cs) = some n := by
  cases hedu : firstEdu cs with
  | some k =>
    obtain rfl : k = n := by simpa [hedu] using h
    have hfirst := firstIdx_first hedu
    constructor
    · intro hs
      have hseen : First 256 (fun n => Edu cs n ∧ Seen cs n) k :=
        ⟨hfirst.1, ⟨hfirst.2.1, hs.edu k hfirst⟩, fun m hm hem => hfirst.2.2 m hm hem.1⟩
      rw [seenEdu, hseen.firstIdx]
      rfl
    · intro hs
      have hk : seenEdu cs = some k := by
        cases hse : seenEdu cs with
        | some m => simpa [hse] using hs
        | none =>
          have heth : seenEthernet cs = some k := by simpa [hse] using hs
          exact absurd hfirst.2.1 (firstIdx_first heth).2.1.2
      refine ⟨fun m hm => ?_, fun hno => absurd hfirst.2.1 (hno k hfirst.1)⟩
      rw [hm.unique hfirst]
      exact (firstIdx_first hk).2.1.2
  | none =>
    have hno := firstIdx_none_iff.1 hedu
    have heth : firstEthernet cs = some n := by simpa [hedu] using h
    have hfirst := firstIdx_first heth
    have hse : seenEdu cs = none := firstIdx_none_iff.2 fun m hm hem => hno m hm hem.1
    rw [hse, Option.none_or]
    constructor
    · intro hs
      obtain ⟨hseen, hbefore⟩ := hs.ethernet hno n hfirst
      have hsn : First 256 (fun n => (Ethernet cs n ∧ Seen cs n) ∧ ¬Edu cs n) n :=
        ⟨hfirst.1, ⟨⟨hfirst.2.1.1, hseen⟩, hno n hfirst.1⟩, fun m hm hem => hbefore m hm hem.1.1⟩
      exact hsn.firstIdx
    · intro hs
      have hsn := firstIdx_first hs
      refine ⟨fun m hm => absurd hm.2.1 (hno m hm.1), fun _ m hm => ?_⟩
      rw [hm.unique hfirst]
      refine ⟨hsn.2.1.1.2, fun j hj hej => ?_⟩
      -- before `n` an Ethernet function has no function 0 by its side, so it is asked for
      have hzero : ¬HasZero cs j := fun hz => hfirst.2.2 j hj ⟨hej, hz⟩
      exact hsn.2.2 j hj ⟨⟨hej, seen_of_not_hasZero cs hzero⟩, hno j (hj.trans hfirst.1)⟩

/-- what the boot leaves of the device table, the command buffer and the two scans -/
def Boot.published (b : Boot) (C : Config) : Config :=
  { C with
    deviceBar := deviceBar cs
    cmdBuf := b.cmdBuf
    cmdStore := b.cmdStore
    domainSlots := fun i => (b.slots i).toDomainSlot }

/-- `d` is the device bound to domain slot 0: the slot names it, and its own entry is the slot's, valid and of domain 0 -/
structure Bounded (b : Boot) (d : Boot.Pci.Function) : Prop where
  named : (b.slots 0).bdf = d.bdf
  entry : b.dt d.bdf = ⟨(b.slots 0).w0, 0⟩
  valid : (b.slots 0).w0 &&& (V ||| TV) = V ||| TV

theorem dteWord_valid (root : ℕ) : dteWord root &&& (V ||| TV) = V ||| TV := by
  have hroot : BitVec.ofNat 64 root &&& X86.ADDR_MASK &&& (V ||| TV) = 0#64 := by
    rw [BitVec.and_assoc, show X86.ADDR_MASK &&& (V ||| TV) = 0#64 from rfl, BitVec.and_zero]
  unfold dteWord
  simp only [BitVec.and_or_distrib_right, hroot]
  rfl

/-- the slot is granted only if it is published and the device has registers -/
theorem granted {C : Config} (h : resolveMmio X86 C MMIO_DEVICE_BAR ≠ 0) : (C.domainSlots 0).id ≠ 0 ∧ C.deviceBar ≠ 0 := by
  unfold resolveMmio at h
  rw [if_pos ⟨rfl, rfl⟩] at h
  split_ifs at h with hid
  · exact ⟨hid, h⟩
  · exact absurd rfl h

/-- **The device whose registers are handed out is the bounded one exactly if the scans agree.** -/
theorem handedOut_bounded {fa : BitmapAllocator} {mem : Mem} {dt : ℕ → Dte} {b : Boot} (C : Config)
    (h : programDte cs hw (start fa mem dt) = some b) (hgrant : resolveMmio X86 (b.published cs C) MMIO_DEVICE_BAR ≠ 0) :
    (∃ d, findDmaDevice cs = some d ∧ bar0 cs d = some (resolveMmio X86 (b.published cs C) MMIO_DEVICE_BAR) ∧ Bounded b d) ↔
      ScansAgree cs := by
  obtain ⟨hid, hbar⟩ := granted hgrant
  have hres : resolveMmio X86 (b.published cs C) MMIO_DEVICE_BAR = deviceBar cs := by
    unfold resolveMmio
    rw [if_pos ⟨rfl, rfl⟩, if_pos hid]
    rfl
  obtain ⟨d, hd, hbar⟩ := deviceBar_ne_zero cs hbar
  obtain ⟨htrunc, f, hf, hbdf, hentry, root, hw0⟩ := programDte_checked cs hw h hid
  have hfind := findDmaDevice_eq cs
  rw [hd] at hfind
  obtain ⟨n, hn, hdn⟩ := Option.map_eq_some_iff.1 hfind.symm
  rw [selected_eq cs htrunc] at hf
  obtain ⟨k, hk, hfk⟩ := Option.map_eq_some_iff.1 hf
  have hdbdf : d.bdf = n := by rw [← hdn]; exact bdf_rootFunction cs
  have hfbdf : f.bdf = k := by rw [← hfk]; exact bdf_rootFunction cs
  rw [scansAgree_iff cs hn, hk, Option.some.injEq]
  constructor
  · rintro ⟨d', hd', -, hb⟩
    obtain rfl : d = d' := Option.some.inj (hd.symm.trans hd')
    rw [← hfbdf, ← hdbdf, ← hbdf, hb.named]
  · rintro rfl
    refine ⟨d, hd, by rw [hres, hbar], ?_, ?_, ?_⟩
    · rw [hbdf, hfbdf, hdbdf]
    · rw [hdbdf, ← hfbdf, hentry]
    · rw [hw0]; exact dteWord_valid root

/-- every store takes -/
def allTake : Answers := ⟨fun _ => true, fun _ => true, true, true, true, true⟩

/-- a host bridge, and an Ethernet card as 00:05.0 -/
def oneCard : ConfigSpace :=
  cardsAt [(0, [(0x00, 0x29C08086), (0x08, 0x06000000)]), (40, [(0x00, 0x10D38086), (0x08, 0x02000000), (0x10, 0xFEB80000)])]

/-- the same with an Ethernet card as 00:03.1, in a device without function 0 -/
def twoCards : ConfigSpace :=
  cardsAt [(0, [(0x00, 0x29C08086), (0x08, 0x06000000)]), (25, [(0x00, 0x10D38086), (0x08, 0x02000000), (0x10, 0xFEB40000)]),
    (40, [(0x00, 0x10D38086), (0x08, 0x02000000), (0x10, 0xFEB80000)])]

/-- the boot of a small machine whose stores take -/
def smallBoot (cs : ConfigSpace) : Option Boot :=
  programDte cs allTake (start (smallPool PAGE_SIZE) (fun _ _ => 0) fun _ => ⟨0, 0⟩)

/-- a machine with one card: both scans take it -/
theorem oneCard_bounded : ∃ b : Boot, smallBoot oneCard = some b ∧ ((∃ d, findDmaDevice oneCard = some d ∧
    bar0 oneCard d = some (resolveMmio X86 (b.published oneCard (smallConfig [] ROLE_GRANTS 0)) MMIO_DEVICE_BAR) ∧ Bounded b d) ↔
      ScansAgree oneCard) := by
  have h : (smallBoot oneCard).map (fun b =>
        resolveMmio X86 (b.published oneCard (smallConfig [] ROLE_GRANTS 0)) MMIO_DEVICE_BAR) =
      some 0xFEB80000 := by decide +kernel
  obtain ⟨b, hb, hres⟩ := Option.map_eq_some_iff.1 h
  exact ⟨b, hb, handedOut_bounded oneCard allTake _ hb (by rw [hres]; decide)⟩

/-- with two, the registers handed out are those of 00:05.0 and the domain is that of 00:03.1 -/
theorem twoCards_diverge : ∃ b : Boot, smallBoot twoCards = some b ∧
    resolveMmio X86 (b.published twoCards (smallConfig [] ROLE_GRANTS 0)) MMIO_DEVICE_BAR = 0xFEB80000 ∧
    ¬∃ d, findDmaDevice twoCards = some d ∧ (b.slots 0).bdf = d.bdf := by
  have h : (smallBoot twoCards).map (fun b =>
      (resolveMmio X86 (b.published twoCards (smallConfig [] ROLE_GRANTS 0)) MMIO_DEVICE_BAR, (b.slots 0).bdf)) =
      some (0xFEB80000, 25) := by decide +kernel
  have hd : findDmaDevice twoCards = some ⟨0, 5, 0, 0x8086, 0x10D3⟩ := by decide +kernel
  obtain ⟨b, hb, hres⟩ := Option.map_eq_some_iff.1 h
  obtain ⟨hres, hbdf⟩ := Prod.mk.inj hres
  refine ⟨b, hb, hres, ?_⟩
  rintro ⟨d, hd', hsame⟩
  rw [hd] at hd'
  cases hd'
  rw [hbdf] at hsame
  exact absurd hsame (by decide)

end Rustproof.Kernel.DeviceTable
