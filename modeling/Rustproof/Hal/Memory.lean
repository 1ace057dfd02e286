/-
Physical memory, and the machine the kernel runs on.

Memory is a store of pages of 512 words, keyed by page address; a byte access reads or writes part of one word. A
`Machine` is the memory, the frame allocator, the paging base, and two records for statements about whole runs: `history`,
what the run did, in order, and `handouts`, the machine at each allocation. The model reads neither; the unit's answers
are numbered by the length of `history`.

`FrameAllocator` is the interface page-table code allocates through. `RecordingAlloc` is the kernel's wrapper behind it:
it scrubs every frame it hands out and lists it for the process it is charged to.
-/
import Rustproof.Abi
import Rustproof.Lib.RadixTree
import Rustproof.Mm.Account

namespace Rustproof

open Lib Mm

/-! ## Memory -/

/-- the words of every page -/
abbrev Mem := RadixTree.Store Word

abbrev Byte := BitVec 8

/-- byte `k` of a little-endian word -/
def byteOf (w : Word) (k : ℕ) : Byte := (w >>> (8 * k)).setWidth 8

/-- a word with byte `k` replaced -/
def withByte (w : Word) (k : ℕ) (b : Byte) : Word :=
  (w &&& ~~~ ((0xFF : Word) <<< (8 * k))) ||| (b.setWidth 64 <<< (8 * k))

/-- the address of the page `a` lies in -/
def pageAddr (a : ℕ) : ℕ := a / PAGE_SIZE * PAGE_SIZE

def readByte (m : Mem) (pa : ℕ) : Byte := byteOf (m (pageAddr pa) (pa % PAGE_SIZE / 8)) (pa % 8)

def writeByte (m : Mem) (pa : ℕ) (b : Byte) : Mem :=
  let i := pa % PAGE_SIZE / 8
  m.put (pageAddr pa) i (withByte (m (pageAddr pa) i) (pa % 8) b)

/-- `copy_nonoverlapping` into physical memory from `pa` on -/
def writeBytes (m : Mem) (pa : ℕ) : List Byte → Mem
  | [] => m
  | b :: bs => writeBytes (writeByte m pa b) (pa + 1) bs

/-- the little-endian bytes of an `n`-byte integer -/
def leBytes (n v : ℕ) : List Byte := (List.range n).map fun k => BitVec.ofNat 8 (v / 256 ^ k)

theorem writeByte_of_ne (m : Mem) {pa t : ℕ} (h : t ≠ pageAddr pa) (b : Byte) : writeByte m pa b t = m t :=
  RadixTree.Store.put_of_ne m h _ _

/-- a copy that stays inside one page changes that page only -/
theorem writeBytes_of_ne (m : Mem) {pa t : ℕ} (page : ℕ) (bs : List Byte) (hin : ∀ k < bs.length, pageAddr (pa + k) = page)
    (h : t ≠ page) : writeBytes m pa bs t = m t := by
  induction bs generalizing m pa with
  | nil => rfl
  | cons b bs ih =>
    rw [writeBytes, ih (writeByte m pa b) (fun k hk => ?_)]
    · exact writeByte_of_ne m (fun e => h (by rw [e, ← hin 0 (by simp)]; rfl)) b
    · rw [Nat.add_assoc, Nat.add_comm 1 k]; exact hin (k + 1) (by simpa using hk)

theorem getLsbD_withByte (w : Word) {k : ℕ} (hk : k < 8) (b : Byte) {n : ℕ} (hn : n < 64) :
    (withByte w k b).getLsbD n = if 8 * k ≤ n ∧ n < 8 * k + 8 then b.getLsbD (n - 8 * k) else w.getLsbD n := by
  have hones : ∀ i, (0xFF : Word).getLsbD i = decide (i < 8) := by
    intro i
    by_cases hi : i < 64
    · have h : ∀ i < 64, (0xFF : Word).getLsbD i = decide (i < 8) := by decide
      exact h i hi
    · rw [BitVec.getLsbD_of_ge _ _ (by omega)]
      symm; rw [decide_eq_false_iff_not]; omega
  rw [withByte, BitVec.getLsbD_or, BitVec.getLsbD_and, BitVec.getLsbD_not, BitVec.getLsbD_shiftLeft, BitVec.getLsbD_shiftLeft,
    BitVec.getLsbD_setWidth, hones]
  by_cases hlo : 8 * k ≤ n
  · have h1 : ¬ n < 8 * k := by omega
    have h2 : n - 8 * k < 64 := by omega
    by_cases hhi : n < 8 * k + 8
    · have h3 : n - 8 * k < 8 := by omega
      simp [hlo, hhi, hn, h1, h2, h3]
    · have h3 : ¬ n - 8 * k < 8 := by omega
      have h4 : b.getLsbD (n - 8 * k) = false := BitVec.getLsbD_of_ge _ _ (by omega)
      simp [hhi, hn, h1, h3, h4]
  · have h1 : n < 8 * k := by omega
    simp [hlo, hn, h1]

theorem byteOf_withByte (w : Word) {j k : ℕ} (hj : j < 8) (hk : k < 8) (b : Byte) :
    byteOf (withByte w k b) j = if j = k then b else byteOf w j := by
  refine BitVec.eq_of_getLsbD_eq fun i hi => ?_
  rw [byteOf, BitVec.getLsbD_setWidth, BitVec.getLsbD_ushiftRight, getLsbD_withByte w hk b (by omega)]
  by_cases h : j = k
  · subst h
    have h1 : 8 * j + i - 8 * j = i := by omega
    simp [hi, h1]
  · have h1 : ¬ (8 * k ≤ 8 * j + i ∧ 8 * j + i < 8 * k + 8) := by omega
    rw [if_neg h1, if_neg h, byteOf, BitVec.getLsbD_setWidth, BitVec.getLsbD_ushiftRight]

/-- reading after a store of one byte -/
theorem readByte_writeByte (m : Mem) (pa : ℕ) (b : Byte) (q : ℕ) :
    readByte (writeByte m pa b) q = if q = pa then b else readByte m q := by
  have hq : q % 8 < 8 := Nat.mod_lt _ (by decide)
  have hp : pa % 8 < 8 := Nat.mod_lt _ (by decide)
  unfold readByte writeByte
  rw [RadixTree.Store.put_apply]
  by_cases hw : pageAddr q = pageAddr pa ∧ q % PAGE_SIZE / 8 = pa % PAGE_SIZE / 8
  · rw [if_pos hw, byteOf_withByte _ hq hp, hw.1, hw.2]
    have hiff : q % 8 = pa % 8 ↔ q = pa := by
      obtain ⟨h1, h2⟩ := hw
      simp only [pageAddr, PAGE_SIZE] at h1 h2
      omega
    simp only [hiff]
  · rw [if_neg hw, if_neg]
    rintro rfl
    exact hw ⟨rfl, rfl⟩

/-- reading after a copy -/
theorem readByte_writeBytes (m : Mem) (pa : ℕ) (bs : List Byte) (q : ℕ) :
    readByte (writeBytes m pa bs) q = if pa ≤ q then (bs[q - pa]?).getD (readByte m q) else readByte m q := by
  induction bs generalizing m pa with
  | nil => simp [writeBytes]
  | cons b bs ih =>
    rw [writeBytes, ih, readByte_writeByte]
    by_cases heq : q = pa
    · subst heq
      simp
    · by_cases hlt : pa + 1 ≤ q
      · have h1 : q - pa = (q - (pa + 1)) + 1 := by omega
        rw [if_pos hlt, if_neg heq, if_pos (by omega), h1, List.getElem?_cons_succ]
      · rw [if_neg hlt, if_neg heq, if_neg (by omega)]

theorem readByte_fill (m : Mem) {t q : ℕ} (h : pageAddr q = t) : readByte (m.fill t 0) q = 0 := by
  unfold readByte
  rw [h, RadixTree.Store.fill_self]
  exact BitVec.eq_of_getLsbD_eq fun i _ => by simp [byteOf]

/-- a byte is in its page -/
theorem readByte_congr {m m' : Mem} {q : ℕ} (h : m' (pageAddr q) = m (pageAddr q)) : readByte m' q = readByte m q := by
  unfold readByte
  rw [h]

theorem pageAddr_aligned {a : ℕ} (h : a % PAGE_SIZE = 0) : pageAddr a = a := by
  simp only [pageAddr, PAGE_SIZE] at *
  omega

/-- the page of an address in the frame at `f` -/
theorem pageAddr_add {f o : ℕ} (hal : f % PAGE_SIZE = 0) (ho : o < PAGE_SIZE) : pageAddr (f + o) = f := by
  simp only [pageAddr, PAGE_SIZE] at *
  omega

/-! ## The machine -/

/-- what a run leaves in its history -/
inductive Event where
  /-- a store of `pte` to slot `slot` of domain `di`'s level-1 I/O table -/
  | leaf (di slot : ℕ) (pte : Word)
  /-- a store of `v` to the command tail register -/
  | tail (v : ℕ)
  /-- the unit acknowledged an invalidation of domain `di` -/
  | invalidated (di : ℕ)
  /-- `frame` was passed to `free_frame` -/
  | freed (frame : ℕ)
  /-- control returned to user mode -/
  | resumed
  /-- process `proc` was put on the run queue; `ok` is what `add` answered -/
  | queued (proc : ℕ) (ok : Bool)
  /-- process slot `proc` was given a fresh occupant, with its role's grants -/
  | loaded (proc : ℕ)
  /-- capability `childCap` of `child` was made from capability `parentCap` of `parent` -/
  | delegated (parent parentCap child childCap : ℕ)
  /-- capability `cap` of `proc` was minted for `region`, out of an `Untyped` with `rights` -/
  | minted (proc cap region : ℕ) (rights : CapRights)
deriving DecidableEq, Repr

/-- memory, allocator and paging base at one moment -/
structure Moment where
  mem : Mem
  fa : BitmapAllocator
  cr3 : ℕ

structure Machine where
  mem : Mem
  fa : BitmapAllocator
  /-- the paging base the CPU runs on -/
  cr3 : ℕ
  history : List Event
  /-- the moments at which the allocator handed out a frame -/
  handouts : List Moment

namespace Machine

/-- `zero_frame` -/
def zeroFrame (w : Machine) (frame : ℕ) : Machine := { w with mem := w.mem.fill frame 0 }

/-- note that the allocator hands out a frame now -/
def handOut (w : Machine) : Machine := { w with handouts := w.handouts ++ [⟨w.mem, w.fa, w.cr3⟩] }

def freeFrame (w : Machine) (frame : ℕ) : Machine :=
  { w with fa := w.fa.freeFrame frame, history := w.history ++ [.freed frame] }

/-- free the frames of a list, in order -/
def freeFrames (w : Machine) (frames : List ℕ) : Machine := frames.foldl freeFrame w

@[simp] theorem mem_freeFrames (w : Machine) (fs : List ℕ) : (w.freeFrames fs).mem = w.mem := by
  induction fs generalizing w with
  | nil => rfl
  | cons f fs ih => exact ih (w.freeFrame f)

theorem cr3_freeFrames (w : Machine) (fs : List ℕ) : (w.freeFrames fs).cr3 = w.cr3 := by
  induction fs generalizing w with
  | nil => rfl
  | cons f fs ih => exact ih (w.freeFrame f)

theorem handouts_freeFrames (w : Machine) (fs : List ℕ) : (w.freeFrames fs).handouts = w.handouts := by
  induction fs generalizing w with
  | nil => rfl
  | cons f fs ih => exact ih (w.freeFrame f)

theorem fa_freeFrames (w : Machine) (fs : List ℕ) :
    (w.freeFrames fs).fa = fs.foldl BitmapAllocator.freeFrame w.fa := by
  induction fs generalizing w with
  | nil => rfl
  | cons f fs ih => exact ih (w.freeFrame f)

theorem history_freeFrames (w : Machine) (fs : List ℕ) :
    (w.freeFrames fs).history = w.history ++ fs.map Event.freed := by
  induction fs generalizing w with
  | nil => simp [freeFrames]
  | cons f fs ih =>
    rw [freeFrames, List.foldl_cons, ← freeFrames, ih]
    simp [freeFrame]

end Machine

/-! ## Allocating -/

/-- `abi::FrameAllocator`, with the memory its frames lie in -/
class FrameAllocator (α : Type) where
  mem : α → Mem
  setMem : α → Mem → α
  allocFrame : α → Option ℕ × α
  mem_setMem : ∀ r m, mem (setMem r m) = m
  setMem_mem : ∀ r, setMem r (mem r) = r

/-! ## Allocation on a process's account -/

/-- how many address-space frames a process may hold -/
abbrev MAX_PROC_FRAMES : ℕ := 64

/-- the machine, and the frames handed out on one process's account -/
structure RecordingAlloc where
  w : Machine
  frames : List ℕ

namespace RecordingAlloc

/-- `alloc_frame`: scrubbed, recorded; handed back when the list is full -/
def allocFrame (r : RecordingAlloc) : Option ℕ × RecordingAlloc :=
  match r.w.fa.allocFrame with
  | (none, fa) => (none, { r with w := { r.w with fa := fa } })
  | (some p, fa) =>
    let w := { r.w.handOut with fa := fa }.zeroFrame p
    if r.frames.length ≥ MAX_PROC_FRAMES then (none, { r with w := w.freeFrame p })
    else (some p, ⟨w, r.frames ++ [p]⟩)

instance : FrameAllocator RecordingAlloc where
  mem r := r.w.mem
  setMem r m := { r with w := { r.w with mem := m } }
  allocFrame := allocFrame
  mem_setMem _ _ := rfl
  setMem_mem _ := rfl

/-- the frames of the account `F` outside this list are `rest` -/
def Ok (F rest : Multiset ℕ) (r : RecordingAlloc) : Prop := Account F r.w.fa (r.frames + rest)

variable {F rest : Multiset ℕ} {r : RecordingAlloc}

theorem allocFrame_some (h : r.Ok F rest) {p : ℕ} (hp : r.allocFrame.1 = some p) :
    p ∈ freeAddrs r.w.fa ∧ r.allocFrame.2.Ok F rest ∧ r.allocFrame.2.frames = r.frames ++ [p] ∧
      r.allocFrame.2.w.mem = r.w.mem.fill p 0 ∧ freeAddrs r.w.fa = p ::ₘ freeAddrs r.allocFrame.2.w.fa ∧
      r.allocFrame.2.w.history = r.w.history := by
  rw [allocFrame] at hp ⊢
  rcases ha : r.w.fa.allocFrame with ⟨_ | q, fa⟩
  · rw [ha] at hp; simp at hp
  rw [ha] at hp
  simp only at hp ⊢
  split_ifs at hp ⊢ with hfull
  obtain rfl := Option.some.inj hp
  have hq : r.w.fa.allocFrame.1 = some q := by rw [ha]
  obtain ⟨hmem, hacc⟩ := Account.allocFrame h hq
  rw [ha] at hacc
  exact ⟨hmem, hacc.enlist, rfl, rfl, Account.free_cons h hacc, rfl⟩

theorem allocFrame_none (h : r.Ok F rest) (hp : r.allocFrame.1 = none) :
    r.allocFrame.2.Ok F rest ∧ r.allocFrame.2.frames = r.frames ∧
      (∀ t, t ∉ freeAddrs r.w.fa → r.allocFrame.2.w.mem t = r.w.mem t) ∧
      freeAddrs r.allocFrame.2.w.fa = freeAddrs r.w.fa ∧
      ∃ fs : List ℕ, (∀ f ∈ fs, f ∈ freeAddrs r.w.fa) ∧
        r.allocFrame.2.w.history = r.w.history ++ fs.map Event.freed := by
  rw [allocFrame] at hp ⊢
  rcases ha : r.w.fa.allocFrame with ⟨_ | q, fa⟩
  · have hq : r.w.fa.allocFrame.1 = none := by rw [ha]
    have hfa : fa = r.w.fa := by
      have := (BitmapAllocator.allocFrame_none hq).1
      rwa [ha] at this
    subst hfa
    exact ⟨h, rfl, fun _ _ => rfl, rfl, [], by simp, by simp⟩
  rw [ha] at hp
  simp only at hp ⊢
  split_ifs at hp ⊢ with hfull
  have hq : r.w.fa.allocFrame.1 = some q := by rw [ha]
  obtain ⟨hmem, hacc⟩ := Account.allocFrame h hq
  rw [ha] at hacc
  have hback : Account F (fa.freeFrame q) (r.frames + rest) := hacc.freeFrame
  refine ⟨hback, rfl, fun t ht => RadixTree.Store.fill_of_ne _ (fun e => ht (by rw [e]; exact hmem)) 0, ?_, [q], ?_, rfl⟩
  · exact add_right_cancel (hback.balance.trans h.balance.symm)
  · simpa using hmem

end RecordingAlloc

end Rustproof
