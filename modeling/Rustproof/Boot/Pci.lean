/-
PCI configuration space as the nucleus reads it (`crates/kernel/src/pci.rs`): the scans that find the device to bound, every
function present, and the base of a function's registers.

A function of bus 0 is named by its number `8 * dev + func`, which is also its BDF; both scans of the bus go through the numbers
in order. `findDmaDevice_eq`, `busFunctions_root`: what the two scans find, as searches over those numbers. They differ in which
functions they take an answer from (`Seen`, `HasZero`).
-/
import Rustproof.Lib.Table

namespace Rustproof.Boot.Pci

open Lib

/-- `read32`: bus, device, function, register offset -/
abbrev ConfigSpace := ℕ → ℕ → ℕ → ℕ → BitVec 32

def CLASS_ETHERNET : BitVec 16 := 0x0200

def EDU_VENDOR : BitVec 16 := 0x1234

def EDU_DEVICE : BitVec 16 := 0x11e8

/-- a located function -/
structure Function where
  bus : ℕ
  dev : ℕ
  func : ℕ
  vendor : BitVec 16
  device : BitVec 16
deriving DecidableEq, Repr

/-- the index of the AMD-Vi device table -/
def Function.bdf (f : Function) : ℕ := f.bus <<< 8 ||| f.dev <<< 3 ||| f.func

variable (cs : ConfigSpace)

/-! ## Registers -/

def vendor (bus dev func : ℕ) : BitVec 16 := (cs bus dev func 0x00).setWidth 16

def device (bus dev func : ℕ) : BitVec 16 := (cs bus dev func 0x00 >>> 16).setWidth 16

def classCode (bus dev func : ℕ) : BitVec 16 := (cs bus dev func 0x08 >>> 16).setWidth 16

def header (bus dev func : ℕ) : BitVec 8 := (cs bus dev func 0x0C >>> 16).setWidth 8

/-- the bus behind a bridge -/
def secondary (bus dev func : ℕ) : ℕ := ((cs bus dev func 0x18 >>> 8).setWidth 8).toNat

/-- some function answers -/
def present (bus dev func : ℕ) : Bool := vendor cs bus dev func != 0xFFFF

/-- the device has no functions but function 0 -/
def singleFunction (bus dev : ℕ) : Bool := header cs bus dev 0 &&& 0x80 == 0

def functionAt (bus dev func : ℕ) : Function := ⟨bus, dev, func, vendor cs bus dev func, device cs bus dev func⟩

/-! ## The scans -/

/-- the functions `func ∈ fs` of device `dev` in `find_class`; a missing function 0 ends the device -/
def findClassIn (cls : BitVec 16) (dev : ℕ) : List ℕ → Option Function
  | [] => none
  | func :: fs =>
    if present cs 0 dev func = false then
      if func = 0 then none else findClassIn cls dev fs
    else if classCode cs 0 dev func = cls then some (functionAt cs 0 dev func)
    else findClassIn cls dev fs

/-- `find_class`: the first function of a class on bus 0 -/
def findClass (cls : BitVec 16) : Option Function :=
  (List.range 32).findSome? fun dev => findClassIn cs cls dev (List.range 8)

/-- the functions `func ∈ fs` of device `dev` in `find_dma_device` -/
def findEduIn (dev : ℕ) : List ℕ → Option Function
  | [] => none
  | func :: fs =>
    if vendor cs 0 dev func = EDU_VENDOR ∧ device cs 0 dev func = EDU_DEVICE then
      some ⟨0, dev, func, EDU_VENDOR, EDU_DEVICE⟩
    else findEduIn dev fs

/-- `find_dma_device`: `edu` by its identity, or else any Ethernet function -/
def findDmaDevice : Option Function :=
  match (List.range 32).findSome? fun dev => findEduIn cs dev (List.range 8) with
  | some f => some f
  | none => findClass cs CLASS_ETHERNET

/-- what `enumerate` has so far -/
structure Walk where
  buses : List ℕ
  out : List Function
  truncated : Bool

/-- buses the worklist of `enumerate` holds -/
def MAX_BUSES : ℕ := 16

/-- queue the bus behind a bridge, once -/
def followBridge (bus dev func : ℕ) (w : Walk) : Walk :=
  if header cs bus dev func &&& 0x7F = 1 then
    if secondary cs bus dev func ≠ 0 ∧ secondary cs bus dev func ∉ w.buses then
      if w.buses.length < MAX_BUSES then { w with buses := w.buses ++ [secondary cs bus dev func] }
      else { w with truncated := true }
    else w
  else w

/-- write a function out, if there is room; `cap` is `out.len()` -/
def Walk.found (cap : ℕ) (f : Function) (w : Walk) : Walk :=
  if w.out.length < cap then { w with out := w.out ++ [f] } else { w with truncated := true }

/-- the functions `func ∈ fs` of device `dev` in `enumerate`; a single-function device ends after function 0 -/
def walkDevice (cap bus dev : ℕ) : List ℕ → Walk → Walk
  | [], w => w
  | func :: fs, w =>
    if present cs bus dev func = false then walkDevice cap bus dev fs w
    else
      let w := (followBridge cs bus dev func w).found cap (functionAt cs bus dev func)
      if func = 0 ∧ header cs bus dev func &&& 0x80 = 0 then w else walkDevice cap bus dev fs w

def walkBus (cap bus : ℕ) (w : Walk) : Walk :=
  (List.range 32).foldl (fun w dev => walkDevice cs cap bus dev (List.range 8) w) w

/-- the buses of the worklist from index `next` on; it holds `MAX_BUSES` at most, so as much fuel is enough -/
def walkBuses (cap : ℕ) : ℕ → ℕ → Walk → Walk
  | 0, _, w => w
  | fuel + 1, next, w =>
    match w.buses[next]? with
    | none => w
    | some bus => walkBuses cap fuel (next + 1) (walkBus cs cap bus w)

/-- `enumerate`: every function on every reachable bus, up to `cap` of them -/
def enumerate (cap : ℕ) : Walk := walkBuses cs cap MAX_BUSES 0 ⟨[0], [], false⟩

/-- `is_edu` -/
def isEdu (f : Function) : Bool := f.vendor == EDU_VENDOR && f.device == EDU_DEVICE

/-- `is_dma_capable` -/
def isDmaCapable (f : Function) : Bool := isEdu f || cs f.bus f.dev f.func 0x08 >>> 16 == 0x0200

/-- `bar0`: the physical base in the low dword of BAR0; all-ones and zero are unassigned, and bit 0 is I/O space -/
def bar0 (f : Function) : Option ℕ :=
  let raw := cs f.bus f.dev f.func 0x10
  if raw = 0xFFFFFFFF ∨ raw = 0 ∨ raw &&& 1 ≠ 0 then none else some (raw &&& 0xFFFFFFF0).toNat

/-- `DEVICE_BAR` after the scan of `run`: 0 if there is no device or it has no assigned BAR -/
def deviceBar : ℕ :=
  match findDmaDevice cs with
  | none => 0
  | some d => (bar0 cs d).getD 0

/-- functions on bus 0 at the numbers `8 * dev + func`, with the registers they do not read as zero; no other function answers -/
def cardsAt (cards : List (ℕ × List (ℕ × BitVec 32))) : ConfigSpace := fun bus dev func off =>
  match cards.lookup (8 * dev + func) with
  | some regs => if bus = 0 then (regs.lookup off).getD 0 else 0xFFFFFFFF
  | none => 0xFFFFFFFF

/-! ## Functions of bus 0 by their number -/

/-- function `n % 8` of device `n / 8` -/
def rootFunction (n : ℕ) : Function := functionAt cs 0 (n / 8) (n % 8)

def Present (n : ℕ) : Prop := present cs 0 (n / 8) (n % 8) = true

def Edu (n : ℕ) : Prop := vendor cs 0 (n / 8) (n % 8) = EDU_VENDOR ∧ device cs 0 (n / 8) (n % 8) = EDU_DEVICE

def Ethernet (n : ℕ) : Prop := Present cs n ∧ classCode cs 0 (n / 8) (n % 8) = CLASS_ETHERNET

/-- function 0 of its device answers -/
def HasZero (n : ℕ) : Prop := present cs 0 (n / 8) 0 = true

/-- `enumerate` asks for it: it is function 0, or function 0 of its device is absent or has the multifunction bit -/
def Seen (n : ℕ) : Prop := n % 8 = 0 ∨ ¬(present cs 0 (n / 8) 0 = true ∧ singleFunction cs 0 (n / 8) = true)

instance (n : ℕ) : Decidable (Present cs n) := inferInstanceAs (Decidable (_ = _))
instance (n : ℕ) : Decidable (Edu cs n) := inferInstanceAs (Decidable (_ ∧ _))
instance (n : ℕ) : Decidable (Ethernet cs n) := inferInstanceAs (Decidable (_ ∧ _))
instance (n : ℕ) : Decidable (HasZero cs n) := inferInstanceAs (Decidable (_ = _))
instance (n : ℕ) : Decidable (Seen cs n) := inferInstanceAs (Decidable (_ ∨ _))

/-- `n` is the first number below `bound` that satisfies `P` -/
def First (bound : ℕ) (P : ℕ → Prop) (n : ℕ) : Prop := n < bound ∧ P n ∧ ∀ m < n, ¬P m

theorem First.unique {bound : ℕ} {P : ℕ → Prop} {n m : ℕ} (hn : First bound P n) (hm : First bound P m) : n = m := by
  rcases Nat.lt_trichotomy n m with h | h | h
  · exact absurd hn.2.1 (hm.2.2 n h)
  · exact h
  · exact absurd hm.2.1 (hn.2.2 m h)

theorem firstIdx_first {bound : ℕ} {P : ℕ → Prop} [DecidablePred P] {n : ℕ}
    (h : firstIdx bound (fun n => decide (P n)) = some n) : First bound P n := by
  obtain ⟨hlt, hp, hmin⟩ := firstIdx_some h
  exact ⟨hlt, of_decide_eq_true hp, fun m hm => of_decide_eq_false (hmin m hm)⟩

theorem First.firstIdx {bound : ℕ} {P : ℕ → Prop} [DecidablePred P] {n : ℕ} (h : First bound P n) :
    firstIdx bound (fun n => decide (P n)) = some n := by
  obtain ⟨k, hk⟩ := firstIdx_isSome (p := fun n => decide (P n)) h.1 (decide_eq_true h.2.1)
  rw [hk, (firstIdx_first hk).unique h]

/-- the two loops over a bus go through the numbers in order -/
theorem numbers : (List.range 32).flatMap (fun dev => (List.range 8).map fun func => (dev, func)) =
    (List.range 256).map fun n => (n / 8, n % 8) := by decide +kernel

theorem findSome?_flatMap {α β γ : Type} (l : List α) (g : α → List β) (f : β → Option γ) :
    (l.flatMap g).findSome? f = l.findSome? fun x => (g x).findSome? f := by
  induction l with
  | nil => rfl
  | cons x l ih =>
    rw [List.flatMap_cons, List.findSome?_append, List.findSome?_cons, ih]
    cases (g x).findSome? f <;> rfl

/-- a search of every function of a bus is a search of the numbers -/
theorem findSome?_numbers {β : Type} (f : ℕ × ℕ → Option β) :
    ((List.range 32).findSome? fun dev => (List.range 8).findSome? fun func => f (dev, func)) =
      (List.range 256).findSome? fun n => f (n / 8, n % 8) := by
  have h := congrArg (List.findSome? f) numbers
  rw [findSome?_flatMap, List.findSome?_map] at h
  simp only [List.findSome?_map] at h
  exact h

/-- a search that gives `g n` at the first number satisfying `P` -/
theorem findSome?_range {β : Type} (bound : ℕ) (P : ℕ → Prop) [DecidablePred P] (g : ℕ → β) :
    ((List.range bound).findSome? fun n => if P n then some (g n) else none) =
      (firstIdx bound fun n => decide (P n)).map g := by
  unfold firstIdx
  induction List.range bound with
  | nil => rfl
  | cons n l ih =>
    rw [List.findSome?_cons, List.find?_cons]
    by_cases h : P n
    · simp [h]
    · simp [h, ih]

theorem findEduIn_eq (dev : ℕ) (fs : List ℕ) :
    findEduIn cs dev fs = fs.findSome? fun func =>
      if vendor cs 0 dev func = EDU_VENDOR ∧ device cs 0 dev func = EDU_DEVICE then some (functionAt cs 0 dev func)
      else none := by
  induction fs with
  | nil => rfl
  | cons func fs ih =>
    rw [findEduIn, List.findSome?_cons, ih]
    split_ifs with h
    · simp [functionAt, h.1, h.2]
    · rfl

theorem findClassIn_eq (cls : BitVec 16) (dev : ℕ) (fs : List ℕ) (h : ∀ func ∈ fs, func = 0 → present cs 0 dev 0 = true) :
    findClassIn cs cls dev fs = fs.findSome? fun func =>
      if present cs 0 dev func = true ∧ classCode cs 0 dev func = cls then some (functionAt cs 0 dev func) else none := by
  induction fs with
  | nil => rfl
  | cons func fs ih =>
    have ih := ih fun g hg => h g (List.mem_cons_of_mem _ hg)
    rw [findClassIn, List.findSome?_cons, ih]
    cases hp : present cs 0 dev func with
    | false =>
      have hne : func ≠ 0 := by
        rintro rfl
        rw [h 0 List.mem_cons_self rfl] at hp
        exact absurd hp (by decide)
      simp [hne]
    | true =>
      by_cases hc : classCode cs 0 dev func = cls
      · simp [hc]
      · simp [hc]

/-- the first `edu` on bus 0 -/
def firstEdu : Option ℕ := firstIdx 256 fun n => decide (Edu cs n)

/-- the first Ethernet function on bus 0 whose device has a function 0 -/
def firstEthernet : Option ℕ := firstIdx 256 fun n => decide (Ethernet cs n ∧ HasZero cs n)

/-- **What `find_dma_device` finds**, as a search of the numbers. -/
theorem findDmaDevice_eq : findDmaDevice cs = ((firstEdu cs).or (firstEthernet cs)).map (rootFunction cs) := by
  have hedu : ((List.range 32).findSome? fun dev => findEduIn cs dev (List.range 8)) =
      (firstEdu cs).map (rootFunction cs) := by
    simp only [findEduIn_eq]
    rw [findSome?_numbers fun x : ℕ × ℕ => if vendor cs 0 x.1 x.2 = EDU_VENDOR ∧ device cs 0 x.1 x.2 = EDU_DEVICE then
      some (functionAt cs 0 x.1 x.2) else none]
    exact findSome?_range 256 (Edu cs) (rootFunction cs)
  have hclass : findClass cs CLASS_ETHERNET = (firstEthernet cs).map (rootFunction cs) := by
    unfold findClass
    have hdev : ∀ dev, findClassIn cs CLASS_ETHERNET dev (List.range 8) = (List.range 8).findSome? fun func =>
        if (present cs 0 dev func = true ∧ classCode cs 0 dev func = CLASS_ETHERNET) ∧ present cs 0 dev 0 = true then
          some (functionAt cs 0 dev func) else none := by
      intro dev
      by_cases hz : present cs 0 dev 0 = true
      · rw [findClassIn_eq cs _ dev _ fun _ _ _ => hz]
        simp only [hz, and_true]
      · -- the scan leaves the device at once
        rw [Bool.not_eq_true] at hz
        have hrange : List.range 8 = 0 :: (List.range 7).map Nat.succ := rfl
        rw [hrange, findClassIn, if_pos hz, if_pos rfl, eq_comm, List.findSome?_eq_none_iff]
        intro func _
        simp [hz]
    simp only [hdev]
    rw [findSome?_numbers fun x : ℕ × ℕ => if (present cs 0 x.1 x.2 = true ∧ classCode cs 0 x.1 x.2 = CLASS_ETHERNET) ∧
      present cs 0 x.1 0 = true then some (functionAt cs 0 x.1 x.2) else none]
    exact findSome?_range 256 (fun n => Ethernet cs n ∧ HasZero cs n) (rootFunction cs)
  unfold findDmaDevice
  rw [hedu, hclass]
  cases firstEdu cs <;> rfl

theorem Edu.present {n : ℕ} (h : Edu cs n) : Present cs n := by
  unfold Present Pci.present
  rw [h.1]
  decide

theorem present_of_found {d : Function} (h : findDmaDevice cs = some d) : present cs d.bus d.dev d.func = true := by
  rw [findDmaDevice_eq] at h
  obtain ⟨n, hn, rfl⟩ := Option.map_eq_some_iff.1 h
  show Present cs n
  cases hedu : firstEdu cs with
  | some k =>
    obtain rfl : k = n := by simpa [hedu] using hn
    exact Edu.present cs (firstIdx_first hedu).2.1
  | none =>
    have heth : firstEthernet cs = some n := by simpa [hedu] using hn
    exact (firstIdx_first heth).2.1.1.1

theorem deviceBar_ne_zero (h : deviceBar cs ≠ 0) : ∃ d, findDmaDevice cs = some d ∧ bar0 cs d = some (deviceBar cs) := by
  cases hd : findDmaDevice cs with
  | none => exact absurd (by simp [deviceBar, hd]) h
  | some d =>
    cases hb : bar0 cs d with
    | none => exact absurd (by simp [deviceBar, hd, hb]) h
    | some bar => exact ⟨d, rfl, by simp [deviceBar, hd, hb]⟩

/-! ## Everything present -/

/-- the walk goes on from `w` to `w'` over the functions `fs`; it queues no bus 0, and loses nothing unless it says so -/
structure Grows (w w' : Walk) (fs : List Function) : Prop where
  out : w'.truncated = false → w.truncated = false ∧ w'.out = w.out ++ fs
  buses : ∃ new, w'.buses = w.buses ++ new ∧ ∀ b ∈ new, b ≠ 0
  bound : w.buses.length ≤ MAX_BUSES → w'.buses.length ≤ MAX_BUSES

theorem Grows.refl (w : Walk) : Grows w w [] :=
  ⟨fun h => ⟨h, (List.append_nil _).symm⟩, ⟨[], (List.append_nil _).symm, fun _ h => absurd h List.not_mem_nil⟩, fun h => h⟩

theorem Grows.trans {w w' w'' : Walk} {fs gs : List Function} (h : Grows w w' fs) (h' : Grows w' w'' gs) :
    Grows w w'' (fs ++ gs) := by
  refine ⟨fun ht => ?_, ?_, fun hb => h'.bound (h.bound hb)⟩
  · obtain ⟨ht', ho'⟩ := h'.out ht
    obtain ⟨ht, ho⟩ := h.out ht'
    exact ⟨ht, by rw [ho', ho, List.append_assoc]⟩
  · obtain ⟨new, hn, hz⟩ := h.buses
    obtain ⟨new', hn', hz'⟩ := h'.buses
    refine ⟨new ++ new', by rw [hn', hn, List.append_assoc], fun b hb => ?_⟩
    rcases List.mem_append.1 hb with hb | hb
    · exact hz b hb
    · exact hz' b hb

theorem grows_followBridge (bus dev func : ℕ) (w : Walk) : Grows w (followBridge cs bus dev func w) [] := by
  unfold followBridge
  split_ifs with h1 h2 h3
  · refine ⟨fun h => ⟨h, (List.append_nil _).symm⟩, ⟨[_], rfl, fun b hb => ?_⟩, fun _ => ?_⟩
    · rw [List.mem_singleton.1 hb]; exact h2.1
    · rw [List.length_append]; exact h3
  · exact ⟨fun h => absurd h (by simp), ⟨[], (List.append_nil _).symm, fun _ h => absurd h List.not_mem_nil⟩, fun h => h⟩
  · exact Grows.refl w
  · exact Grows.refl w

theorem grows_found (cap : ℕ) (f : Function) (w : Walk) : Grows w (w.found cap f) [f] := by
  unfold Walk.found
  split_ifs with h
  · exact ⟨fun h => ⟨h, rfl⟩, ⟨[], (List.append_nil _).symm, fun _ h => absurd h List.not_mem_nil⟩, fun h => h⟩
  · exact ⟨fun h => absurd h (by simp), ⟨[], (List.append_nil _).symm, fun _ h => absurd h List.not_mem_nil⟩, fun h => h⟩

/-- `enumerate` finds the function: it answers, and is not hidden by a single-function device -/
def answers (bus dev func : ℕ) : Bool :=
  present cs bus dev func && (func == 0 || !(present cs bus dev 0 && singleFunction cs bus dev))

/-- follow a function's bridge and write the function out -/
def visit (cap : ℕ) (w : Walk) (f : Function) : Walk := (followBridge cs f.bus f.dev f.func w).found cap f

theorem grows_visits (cap : ℕ) (fs : List Function) (w : Walk) : Grows w (fs.foldl (visit cs cap) w) fs := by
  induction fs generalizing w with
  | nil => exact Grows.refl w
  | cons f fs ih => exact ((grows_followBridge cs f.bus f.dev f.func w).trans (grows_found cap f _)).trans (ih _)

/-- past function 0 nothing ends the device -/
theorem walkRest_eq (cap bus dev : ℕ) (fs : List ℕ) (h : 0 ∉ fs) (w : Walk) :
    walkDevice cs cap bus dev fs w = ((fs.filter (present cs bus dev)).map (functionAt cs bus dev)).foldl (visit cs cap) w := by
  induction fs generalizing w with
  | nil => rfl
  | cons func fs ih =>
    have hne : func ≠ 0 := fun h0 => h (h0 ▸ List.mem_cons_self)
    have ih := ih fun hmem => h (List.mem_cons_of_mem _ hmem)
    rw [walkDevice]
    cases hp : present cs bus dev func with
    | false => simpa [hp] using ih w
    | true => simpa [hp, hne, visit, functionAt] using ih _

/-- **A device's functions** are visited in order. -/
theorem walkDevice_eq (cap bus dev : ℕ) (w : Walk) :
    walkDevice cs cap bus dev (List.range 8) w =
      (((List.range 8).filter (answers cs bus dev)).map (functionAt cs bus dev)).foldl (visit cs cap) w := by
  have hrange : List.range 8 = 0 :: (List.range 7).map Nat.succ := rfl
  have hrest : 0 ∉ (List.range 7).map Nat.succ := by decide
  -- the functions after function 0 are asked for together, or not at all
  have hanswers : ∀ func ∈ (List.range 7).map Nat.succ, answers cs bus dev func =
      (present cs bus dev func && !(present cs bus dev 0 && singleFunction cs bus dev)) := by
    intro func hf
    have hne : (func == 0) = false := beq_eq_false_iff_ne.2 fun h0 => hrest (h0 ▸ hf)
    rw [answers, hne, Bool.false_or]
  have hrestEq := walkRest_eq cs cap bus dev _ hrest
  rw [hrange, walkDevice, List.filter_cons, List.filter_congr hanswers]
  cases hp : present cs bus dev 0 with
  | false => simpa [answers, hp] using hrestEq w
  | true =>
    rw [if_neg (by decide), if_pos (show answers cs bus dev 0 = true by simp [answers, hp])]
    by_cases hs : header cs bus dev 0 &&& 0x80 = 0
    · have hs' : singleFunction cs bus dev = true := beq_iff_eq.2 hs
      rw [if_pos ⟨rfl, hs⟩]
      simp [hs', visit, functionAt]
    · have hs' : singleFunction cs bus dev = false := beq_eq_false_iff_ne.2 hs
      rw [if_neg fun h => hs h.2]
      simpa [hs', visit, functionAt] using hrestEq _

/-- the functions of a bus that `enumerate` finds -/
def busFunctions (bus : ℕ) : List Function :=
  (List.range 32).flatMap fun dev => ((List.range 8).filter (answers cs bus dev)).map (functionAt cs bus dev)

/-- **A bus's functions** are visited in order. -/
theorem walkBus_eq (cap bus : ℕ) (w : Walk) : walkBus cs cap bus w = (busFunctions cs bus).foldl (visit cs cap) w := by
  unfold walkBus busFunctions
  induction List.range 32 generalizing w with
  | nil => rfl
  | cons dev devs ih => rw [List.foldl_cons, List.flatMap_cons, List.foldl_append, walkDevice_eq, ih]

theorem grows_walkBus (cap bus : ℕ) (w : Walk) : Grows w (walkBus cs cap bus w) (busFunctions cs bus) := by
  rw [walkBus_eq]
  exact grows_visits cs cap _ w

theorem bus_of_mem_busFunctions {bus : ℕ} {f : Function} (h : f ∈ busFunctions cs bus) : f.bus = bus := by
  obtain ⟨dev, -, hf⟩ := List.mem_flatMap.1 h
  obtain ⟨func, -, rfl⟩ := List.mem_map.1 hf
  rfl

/-- after bus 0 the walk meets no function of bus 0 -/
theorem grows_walkBuses (cap fuel next : ℕ) (w : Walk) (hnext : next ≠ 0) (hw : ∃ bs, w.buses = 0 :: bs ∧ ∀ b ∈ bs, b ≠ 0) :
    ∃ fs, Grows w (walkBuses cs cap fuel next w) fs ∧ ∀ f ∈ fs, f.bus ≠ 0 := by
  induction fuel generalizing next w with
  | zero => exact ⟨[], Grows.refl w, fun _ h => absurd h List.not_mem_nil⟩
  | succ fuel ih =>
    rw [walkBuses]
    cases hb : w.buses[next]? with
    | none => exact ⟨[], Grows.refl w, fun _ h => absurd h List.not_mem_nil⟩
    | some bus =>
      obtain ⟨bs, hbs, hz⟩ := hw
      have hbus : bus ≠ 0 := by
        obtain ⟨k, rfl⟩ := Nat.exists_eq_succ_of_ne_zero hnext
        rw [hbs, List.getElem?_cons_succ] at hb
        exact hz bus (List.mem_of_getElem? hb)
      have hgrow := grows_walkBus cs cap bus w
      obtain ⟨new, hnew, hnz⟩ := hgrow.buses
      obtain ⟨fs, hfs, hfz⟩ := ih (next + 1) (walkBus cs cap bus w) (Nat.succ_ne_zero _) ⟨bs ++ new, by rw [hnew, hbs]; rfl, by
        intro b hb
        rcases List.mem_append.1 hb with hb | hb
        · exact hz b hb
        · exact hnz b hb⟩
      refine ⟨busFunctions cs bus ++ fs, hgrow.trans hfs, fun f hf => ?_⟩
      rcases List.mem_append.1 hf with hf | hf
      · rw [bus_of_mem_busFunctions cs hf]; exact hbus
      · exact hfz f hf

/-- **What `enumerate` finds**, if it drops nothing: the functions of bus 0 in order, then others. -/
theorem enumerate_out (cap : ℕ) (h : (enumerate cs cap).truncated = false) :
    ∃ rest, (enumerate cs cap).out = busFunctions cs 0 ++ rest ∧ ∀ f ∈ rest, f.bus ≠ 0 := by
  have hstart : enumerate cs cap = walkBuses cs cap 15 1 (walkBus cs cap 0 ⟨[0], [], false⟩) := rfl
  have hgrow := grows_walkBus cs cap 0 ⟨[0], [], false⟩
  obtain ⟨new, hnew, hnz⟩ := hgrow.buses
  obtain ⟨rest, hrest, hz⟩ := grows_walkBuses cs cap 15 1 _ one_ne_zero ⟨new, hnew, hnz⟩
  rw [hstart] at h ⊢
  obtain ⟨-, hout⟩ := (hgrow.trans hrest).out h
  exact ⟨rest, by rw [hout, List.nil_append], hz⟩

/-- the fuel of the walk is enough -/
theorem walkBuses_fuel (cap fuel next k : ℕ) (w : Walk) (hw : w.buses.length ≤ MAX_BUSES) (hf : MAX_BUSES ≤ next + fuel) :
    walkBuses cs cap (fuel + k) next w = walkBuses cs cap fuel next w := by
  induction fuel generalizing next w with
  | zero =>
    have hnone : w.buses[next]? = none := List.getElem?_eq_none (by omega)
    cases k with
    | zero => rfl
    | succ k => rw [Nat.zero_add]; simp only [walkBuses, hnone]
  | succ fuel ih =>
    rw [Nat.succ_add, walkBuses, walkBuses]
    cases w.buses[next]? with
    | none => rfl
    | some bus => exact ih _ _ ((grows_walkBus cs cap bus w).bound hw) (by omega)

/-- the functions of bus 0, by number -/
theorem busFunctions_root : busFunctions cs 0 =
    ((List.range 256).filter fun n => decide (Present cs n ∧ Seen cs n)).map (rootFunction cs) := by
  have h := congrArg (fun l => (l.filter fun x : ℕ × ℕ => answers cs 0 x.1 x.2).map fun x => functionAt cs 0 x.1 x.2) numbers
  simp only [List.filter_flatMap, List.map_flatMap, List.filter_map, List.map_map] at h
  unfold busFunctions
  refine Eq.trans ?_ (h.trans ?_)
  · rfl
  · congr 1
    refine List.filter_congr fun n _ => ?_
    rw [Bool.eq_iff_iff]
    simp [answers, Present, Seen]

/-- on bus 0 the BDF is the number -/
theorem bdf_rootFunction {n : ℕ} : (rootFunction cs n).bdf = n := by
  have h : (n / 8) <<< 3 ||| n % 8 = n := by
    rw [← Nat.shiftLeft_add_eq_or_of_lt (Nat.mod_lt n (by decide)), Nat.shiftLeft_eq]
    exact Nat.div_add_mod' n 8
  simpa [Function.bdf, rootFunction, functionAt] using h

end Rustproof.Boot.Pci
