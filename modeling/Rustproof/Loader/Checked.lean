/-
The loader with everything that could go wrong in it.

`load_elf` parses an image from outside the trusted base. Here it is written out a second time with each of its steps
checked: `none` stands for an index out of range, for an addition or a subtraction that leaves a `u64`, for a copy between
spans of different lengths, and for a page loop that is still running when its rounds are spent. The pages mapped are counted.
- `readHeaderIn_eq`, `readPhdrIn_eq`, `pageBytesIn_eq`: the parsing steps never trap, and compute what the loader computes.
- `loadElfIn_runs`: over any allocator the whole loader ends without a trap, gives the loader's result, and maps at most as
  many pages as it was supplied frames.
-/
import Rustproof.Loader.Elf
import Rustproof.Lib.LittleEndian

namespace Rustproof.Loader

open Lib RadixTree Vspace FrameAllocator

/-! ## Checked steps -/

/-- a computation that may fail as the source does, or trap -/
abbrev Checked (β : Type) := ExceptT LoadError Option β

def trap {β : Type} : Checked β := ExceptT.mk none

def fail {β : Type} (e : LoadError) : Checked β := ExceptT.mk (some (.error e))

/-- `bs[i]` -/
def index (bs : List Byte) (i : ℕ) : Checked Byte :=
  match bs[i]? with
  | some b => pure b
  | none => trap

/-- `a + b` on two `u64`s -/
def addU (a b : ℕ) : Checked ℕ := if a + b < U64 then pure (a + b) else trap

/-- `a - b` on two `u64`s -/
def subU (a b : ℕ) : Checked ℕ := if b ≤ a then pure (a - b) else trap

/-- the computation does not trap, and its result is `x` -/
def Gives {β : Type} (c : Checked β) (x : Except LoadError β) : Prop := c = ExceptT.mk (some x)

theorem Gives.bind {β γ : Type} {c : Checked β} {x : Except LoadError β} {f : β → Checked γ} {g : β → Except LoadError γ}
    (h : Gives c x) (hf : ∀ b, x = .ok b → Gives (f b) (g b)) : Gives (c >>= f) (x >>= g) := by
  rw [Gives] at h
  subst h
  cases x with
  | error e => rfl
  | ok b => exact hf b rfl

theorem gives_pure {β : Type} (b : β) : Gives (pure b) (.ok b) := rfl

theorem gives_fail {β : Type} (e : LoadError) : Gives (fail e : Checked β) (.error e) := rfl

/-- a check that holds is passed -/
theorem Gives.of_pure {β γ : Type} {c : Checked β} {b : β} {f : β → Checked γ} {x : Except LoadError γ}
    (h : c = pure b) (hf : Gives (f b) x) : Gives (c >>= f) x := by
  subst h
  exact hf

theorem index_eq {bs : List Byte} {i : ℕ} (h : i < bs.length) : index bs i = pure bs[i] := by
  rw [index, List.getElem?_eq_getElem h]

theorem addU_eq {a b : ℕ} (h : a + b < U64) : addU a b = pure (a + b) := if_pos h

theorem subU_eq {a b : ℕ} (h : b ≤ a) : subU a b = pure (a - b) := if_pos h

/-! ## Parsing -/

/-- `rd_u16`, `rd_u32`, `rd_u64`: the slice is taken with `get`, its bytes are indexed -/
def rdIn (elf : List Byte) (off n : ℕ) : Checked ℕ :=
  if off + n ≥ U64 then fail .truncated
  else if off + n > elf.length then fail .truncated
  else
    match LittleEndian.readAt ((elf.drop off).take n) 0 n with
    | some v => pure v
    | none => trap

def readHeaderIn (A : Arch) (elf : List Byte) : Checked Header :=
  if elf.length < EHDR_SIZE then fail .truncated
  else do
    let m0 ← index elf 0
    let m1 ← index elf 1
    let m2 ← index elf 2
    let m3 ← index elf 3
    if [m0, m1, m2, m3] ≠ [0x7F, 0x45, 0x4C, 0x46] then fail .badMagic
    else do
      let cls ← index elf 4
      if cls ≠ 2 then fail .not64
      else do
        let machine ← rdIn elf 18 2
        if machine ≠ A.machine then fail .badMachine
        else do
          let type ← rdIn elf 16 2
          if type ≠ ET_EXEC then fail .notExec
          else do
            let entry ← rdIn elf 24 8
            let phoff ← rdIn elf 32 8
            let phentsize ← rdIn elf 54 2
            let phnum ← rdIn elf 56 2
            pure ⟨entry, phoff, phentsize, phnum⟩

def readPhdrIn (elf : List Byte) (h : Header) (i : ℕ) : Checked (Option Segment) :=
  if i * h.phentsize ≥ U64 then fail .truncated
  else if h.phoff + i * h.phentsize ≥ U64 then fail .truncated
  else
    let off := h.phoff + i * h.phentsize
    if off + PHDR_SIZE ≥ U64 then fail .truncated
    else if off + PHDR_SIZE > elf.length then fail .truncated
    else do
      let typeOff ← addU off 0
      let type ← rdIn elf typeOff 4
      if type ≠ PT_LOAD then pure none
      else do
        let flagsOff ← addU off 4
        let flags ← rdIn elf flagsOff 4
        let offsetOff ← addU off 8
        let offset ← rdIn elf offsetOff 8
        let vaddrOff ← addU off 16
        let vaddr ← rdIn elf vaddrOff 8
        let fileszOff ← addU off 32
        let filesz ← rdIn elf fileszOff 8
        let memszOff ← addU off 40
        let memsz ← rdIn elf memszOff 8
        pure (some ⟨flags, offset, vaddr, filesz, memsz⟩)

/-- the file bytes for the page at `pageVa`, and where in the page they start -/
def pageBytesIn (elf : List Byte) (g : Segment) (pageVa : ℕ) : Checked (ℕ × List Byte) :=
  let copyEnd := min (g.vaddr + g.filesz) (g.vaddr + g.memsz)
  let start := max pageVa g.vaddr
  let stop := min (satAdd pageVa PAGE_SIZE) copyEnd
  if start < stop then do
    let intra ← subU start pageVa
    let len ← subU stop start
    let into ← subU start g.vaddr
    if g.offset + into ≥ U64 then fail .truncated
    else if g.offset + into + len ≥ U64 then fail .truncated
    else if g.offset + into + len > elf.length then fail .truncated
    else do
      let src := (elf.drop (g.offset + into)).take len
      let pageStop ← addU intra len
      -- `page[intra..intra + len].copy_from_slice(src)`
      if pageStop ≤ PAGE_SIZE ∧ src.length = len then pure (intra, src) else trap
  else pure (0, [])

theorem readAt_leValue (bs : List Byte) : LittleEndian.readAt bs 0 bs.length = some (leValue bs) := by
  induction bs with
  | nil => rfl
  | cons b bs ih =>
    have hrest : LittleEndian.readAt (b :: bs) 1 bs.length = LittleEndian.readAt bs 0 bs.length := by
      rw [← Nat.add_zero 1, ← LittleEndian.readAt_drop]
      rfl
    rw [List.length_cons, LittleEndian.readAt, hrest, ih]
    rfl

/-- as much of a list as a slice can hold: its length is a `usize` -/
def sliceOf (elf : List Byte) : List Byte := elf.take U64_MAX

theorem length_sliceOf (elf : List Byte) : (sliceOf elf).length = min U64_MAX elf.length := List.length_take ..

theorem sliceOf_eq {elf : List Byte} (h : elf.length < U64) : sliceOf elf = elf :=
  List.take_of_length_le (by simp only [U64, U64_MAX] at *; omega)

theorem take_drop_sliceOf (elf : List Byte) {i n : ℕ} (h : i + n < U64) :
    ((sliceOf elf).drop i).take n = (elf.drop i).take n := by
  rw [sliceOf, List.drop_take, List.take_take, Nat.min_eq_left (by simp only [U64, U64_MAX] at *; omega)]

theorem rdIn_eq (elf : List Byte) (off n : ℕ) : Gives (rdIn elf off n) (rd (sliceOf elf) off n) := by
  rw [rdIn, rd, length_sliceOf]
  by_cases hover : off + n ≥ U64
  · rw [if_pos hover, if_neg (by omega)]
    exact gives_fail _
  by_cases hlong : off + n > elf.length
  · rw [if_neg hover, if_pos hlong, if_neg (by omega)]
    exact gives_fail _
  · have hlen : ((elf.drop off).take n).length = n := by
      rw [List.length_take, List.length_drop]
      omega
    have hread := readAt_leValue ((elf.drop off).take n)
    rw [hlen] at hread
    rw [if_neg hover, if_neg hlong, if_pos ⟨by omega, by simp only [U64, U64_MAX] at *; omega⟩, hread,
      take_drop_sliceOf elf (by omega)]
    exact gives_pure _

theorem readHeaderIn_eq (A : Arch) (elf : List Byte) : Gives (readHeaderIn A elf) (readHeader A (sliceOf elf)) := by
  rw [readHeaderIn, readHeader, length_sliceOf]
  by_cases hshort : elf.length < EHDR_SIZE
  · rw [if_pos hshort, if_pos (by omega)]
    exact gives_fail _
  have hlong : ¬ min U64_MAX elf.length < EHDR_SIZE := by
    simp only [U64_MAX, EHDR_SIZE] at *
    omega
  rw [if_neg hshort, if_neg hlong]
  simp only [EHDR_SIZE] at hshort
  have htake : (sliceOf elf).take 4 = [elf[0], elf[1], elf[2], elf[3]] := by
    rw [sliceOf, List.take_take]
    refine List.ext_getElem (by simp [U64_MAX]; omega) fun i h1 h2 => ?_
    have hi : i < 4 := by simpa using h2
    interval_cases i <;> simp
  have hcls : (sliceOf elf)[4]? = some elf[4] := by
    rw [sliceOf, List.getElem?_take_of_lt (by decide), List.getElem?_eq_getElem (by omega)]
  -- the source stops at the first byte of the magic that differs; here all four are read
  refine Gives.of_pure (index_eq (by omega)) (Gives.of_pure (index_eq (by omega)) (Gives.of_pure (index_eq (by omega))
    (Gives.of_pure (index_eq (by omega)) ?_)))
  rw [htake, hcls]
  by_cases hmagic : [elf[0], elf[1], elf[2], elf[3]] ≠ [0x7F, 0x45, 0x4C, 0x46]
  · rw [if_pos hmagic, if_pos hmagic]
    exact gives_fail _
  rw [if_neg hmagic, if_neg hmagic]
  refine Gives.of_pure (index_eq (by omega)) ?_
  by_cases hclass : elf[4] ≠ 2
  · rw [if_pos hclass, if_pos (by simpa using hclass)]
    exact gives_fail _
  rw [if_neg hclass, if_neg (by simpa using hclass)]
  refine (rdIn_eq elf 18 2).bind fun machine _ => ?_
  by_cases hmachine : machine ≠ A.machine
  · rw [if_pos hmachine, if_pos hmachine]
    exact gives_fail _
  rw [if_neg hmachine, if_neg hmachine]
  refine (rdIn_eq elf 16 2).bind fun type _ => ?_
  by_cases htype : type ≠ ET_EXEC
  · rw [if_pos htype, if_pos htype]
    exact gives_fail _
  rw [if_neg htype, if_neg htype]
  refine (rdIn_eq elf 24 8).bind fun entry _ => (rdIn_eq elf 32 8).bind fun phoff _ => ?_
  exact (rdIn_eq elf 54 2).bind fun phentsize _ => (rdIn_eq elf 56 2).bind fun phnum _ => gives_pure _

theorem readPhdrIn_eq (elf : List Byte) (h : Header) (i : ℕ) : Gives (readPhdrIn elf h i) (readPhdr (sliceOf elf) h i) := by
  rw [readPhdrIn, readPhdr, length_sliceOf]
  by_cases hmul : i * h.phentsize ≥ U64
  · rw [if_pos hmul, if_pos (Or.inl hmul)]
    exact gives_fail _
  by_cases hadd : h.phoff + i * h.phentsize ≥ U64
  · rw [if_neg hmul, if_pos hadd, if_pos (Or.inr (Or.inl hadd))]
    exact gives_fail _
  rw [if_neg hmul, if_neg hadd]
  simp only
  by_cases hend : h.phoff + i * h.phentsize + PHDR_SIZE ≥ U64
  · rw [if_pos hend, if_pos (Or.inr (Or.inr hend))]
    exact gives_fail _
  have hoff : ¬ (i * h.phentsize ≥ U64 ∨ h.phoff + i * h.phentsize ≥ U64 ∨
      h.phoff + i * h.phentsize + PHDR_SIZE ≥ U64) := by tauto
  rw [if_neg hend, if_neg hoff]
  generalize h.phoff + i * h.phentsize = off at hend ⊢
  by_cases hlong : off + PHDR_SIZE > elf.length
  · rw [if_pos hlong, if_pos (by omega)]
    exact gives_fail _
  rw [if_neg hlong, if_neg (by simp only [U64, U64_MAX] at *; omega)]
  simp only [PHDR_SIZE] at hend
  -- the whole header was checked, so no field offset overflows
  have hfield : ∀ k ≤ 40, addU off k = pure (off + k) := fun k hk => addU_eq (by omega)
  refine Gives.of_pure (hfield 0 (by omega)) ((rdIn_eq elf off 4).bind fun type _ => ?_)
  by_cases htype : type ≠ PT_LOAD
  · rw [if_pos htype, if_pos htype]
    exact gives_pure _
  rw [if_neg htype, if_neg htype]
  refine Gives.of_pure (hfield 4 (by omega)) ((rdIn_eq elf _ 4).bind fun flags _ => ?_)
  refine Gives.of_pure (hfield 8 (by omega)) ((rdIn_eq elf _ 8).bind fun offset _ => ?_)
  refine Gives.of_pure (hfield 16 (by omega)) ((rdIn_eq elf _ 8).bind fun vaddr _ => ?_)
  refine Gives.of_pure (hfield 32 (by omega)) ((rdIn_eq elf _ 8).bind fun filesz _ => ?_)
  exact Gives.of_pure (hfield 40 (by omega)) ((rdIn_eq elf _ 8).bind fun memsz _ => gives_pure _)

/-- the copy of one page stays inside the page and inside the image, wherever the segment lies -/
theorem pageBytesIn_eq (elf : List Byte) {g : Segment} (hfile : g.vaddr + g.filesz < U64) (pageVa : ℕ) :
    Gives (pageBytesIn elf g pageVa) (pageBytes (sliceOf elf) g pageVa) := by
  have hsat : min (satAdd pageVa PAGE_SIZE) (min (g.vaddr + g.filesz) (g.vaddr + g.memsz)) =
      min (pageVa + PAGE_SIZE) (min (g.vaddr + g.filesz) (g.vaddr + g.memsz)) := by
    simp only [satAdd, U64, U64_MAX] at *
    omega
  rw [pageBytesIn, pageBytes, length_sliceOf]
  simp only [hsat]
  set start := max pageVa g.vaddr
  set stop := min (pageVa + PAGE_SIZE) (min (g.vaddr + g.filesz) (g.vaddr + g.memsz))
  by_cases hcopy : start < stop
  swap
  · rw [if_neg hcopy, if_neg hcopy]
    exact gives_pure _
  have hva : pageVa ≤ start := le_max_left _ _
  have hseg : g.vaddr ≤ start := le_max_right _ _
  have hpage : stop ≤ pageVa + PAGE_SIZE := min_le_left _ _
  rw [if_pos hcopy, if_pos hcopy]
  refine Gives.of_pure (subU_eq hva) (Gives.of_pure (subU_eq hcopy.le) (Gives.of_pure (subU_eq hseg) ?_))
  generalize g.offset + (start - g.vaddr) = fileStart
  by_cases hoff : fileStart ≥ U64
  · rw [if_pos hoff, if_pos (Or.inl hoff)]
    exact gives_fail _
  rw [if_neg hoff]
  by_cases hover : fileStart + (stop - start) ≥ U64
  · rw [if_pos hover, if_pos (Or.inr (by simp only [U64, U64_MAX] at *; omega))]
    exact gives_fail _
  rw [if_neg hover]
  by_cases hlong : fileStart + (stop - start) > elf.length
  · rw [if_pos hlong, if_pos (Or.inr (by omega))]
    exact gives_fail _
  have hsrc : ((elf.drop fileStart).take (stop - start)).length = stop - start := by
    rw [List.length_take, List.length_drop]
    omega
  rw [if_neg hlong, if_neg (by simp only [U64, U64_MAX] at *; omega), take_drop_sliceOf elf (by omega)]
  refine Gives.of_pure (addU_eq (by simp only [PAGE_SIZE] at hpage; omega)) ?_
  rw [if_pos ⟨by omega, hsrc⟩]
  exact gives_pure _

attribute [irreducible] pageBytesIn

/-! ## Loading -/

section Load

variable (A : Arch) {α : Type} [FrameAllocator α]

/-- `page_va.checked_add(PAGE_SIZE)`: a segment may run to the top of the address space -/
def nextPage (pageVa : ℕ) : Option ℕ := if pageVa + PAGE_SIZE < U64 then some (pageVa + PAGE_SIZE) else none

theorem nextPage_of_lt {va : ℕ} (h : va + PAGE_SIZE < U64) : nextPage va = some (va + PAGE_SIZE) := if_pos h

theorem nextPage_of_le {va : ℕ} (h : U64 ≤ va + PAGE_SIZE) : nextPage va = none := if_neg (Nat.not_lt.2 h)

attribute [irreducible] nextPage

/-- one round of the page loop of `load_segment` -/
def loadPageIn (elf : List Byte) (root : ℕ) (g : Segment) (pageVa : ℕ) (r : α) : Option (Except LoadError Unit × α) :=
  match allocFrame r with
  | (none, r) => some (.error .outOfFrames, r)
  | (some frame, r) =>
    let filled := (mem r).fill frame 0
    match (pageBytesIn elf g pageVa).run with
    | none => none
    | some (.error e) => some (.error e, setMem r filled)
    | some (.ok (intra, bytes)) =>
      let r := setMem r (writeBytes filled (frame + intra) bytes)
      match map A.toMmu root pageVa frame (A.elfFlags (g.flags / 2 % 2 == 1) (g.flags % 2 == 1)) r with
      | (.error _, r) => some (.error .mapFailed, r)
      | (.ok _, r) => some (.ok (), r)

/-- the page loop, from `pageVa` on, with the pages mapped so far; `none` is a trap, or a loop that is still running after
`fuel` rounds -/
def loadPagesIn (elf : List Byte) (root : ℕ) (g : Segment) : ℕ → ℕ → ℕ → α → Option (Except LoadError Unit × ℕ × α)
  | 0, _, _, _ => none
  | fuel + 1, pageVa, mapped, r =>
    if pageVa < g.vaddr + g.memsz then
      match loadPageIn A elf root g pageVa r with
      | none => none
      | some (.error e, r) => some (.error e, mapped, r)
      | some (.ok _, r) =>
        match nextPage pageVa with
        | some next => loadPagesIn elf root g fuel next (mapped + 1) r
        | none => some (.ok (), mapped + 1, r)
    else some (.ok (), mapped, r)

def loadSegmentIn (fuel : ℕ) (elf : List Byte) (root : ℕ) (g : Segment) (mapped : ℕ) (r : α) :
    Option (Except LoadError Unit × ℕ × α) :=
  if g.memsz = 0 then some (.ok (), mapped, r)
  else if g.vaddr + g.memsz ≥ U64 then some (.error .truncated, mapped, r)
  else if g.vaddr + g.filesz ≥ U64 then some (.error .truncated, mapped, r)
  else loadPagesIn A elf root g fuel (pageAddr g.vaddr) mapped r

def loadPhdrsIn (fuel : ℕ) (elf : List Byte) (root : ℕ) (h : Header) :
    List ℕ → ℕ → α → Option (Except LoadError Unit × ℕ × α)
  | [], mapped, r => some (.ok (), mapped, r)
  | i :: is, mapped, r =>
    match (readPhdrIn elf h i).run with
    | none => none
    | some (.error e) => some (.error e, mapped, r)
    | some (.ok none) => loadPhdrsIn fuel elf root h is mapped r
    | some (.ok (some g)) =>
      match loadSegmentIn A fuel elf root g mapped r with
      | none => none
      | some (.error e, mapped, r) => some (.error e, mapped, r)
      | some (.ok _, mapped, r) => loadPhdrsIn fuel elf root h is mapped r

/-- `load_elf`, checked: the result, the number of pages mapped, and what became of the allocator -/
def loadElfIn (fuel : ℕ) (elf : List Byte) (root : ℕ) (r : α) : Option (Except LoadError ℕ × ℕ × α) :=
  match (readHeaderIn A elf).run with
  | none => none
  | some (.error e) => some (.error e, 0, r)
  | some (.ok h) =>
    match loadPhdrsIn A fuel elf root h (List.range h.phnum) 0 r with
    | none => none
    | some (.error e, mapped, r) => some (.error e, mapped, r)
    | some (.ok _, mapped, r) => some (.ok h.entry, mapped, r)

end Load

/-! ## The loader ends, traps nowhere, and maps no more pages than it was supplied frames -/

/-- `left` counts the frames an allocator may still supply: it falls with every frame it hands out, whether or not it
refuses in between -/
structure Metered {α : Type} [FrameAllocator α] (left : α → ℕ) : Prop where
  supplied : ∀ r p r', allocFrame r = (some p, r') → left r' + 1 ≤ left r
  refused : ∀ r r', allocFrame r = (none, r') → left r' ≤ left r
  written : ∀ r m, left (setMem r m) = left r

section Runs

variable {A : Arch} {α : Type} [FrameAllocator α] {left : α → ℕ} {β : Type}

/-- the checked run `y`, begun with `k` pages mapped and the allocator `r`, ends with the result of the loader's run `x`;
an abandoned page may have been scrubbed -/
def Runs (left : α → ℕ) (k : ℕ) (r : α) (x : Except LoadError β × α) (y : Option (Except LoadError β × ℕ × α)) : Prop :=
  ∃ mapped r', y = some (x.1, mapped, r') ∧ (r' = x.2 ∨ (∃ e, x.1 = .error e) ∧ ∃ m, r' = setMem x.2 m) ∧
    mapped + left r' ≤ k + left r

theorem runs_stop (k : ℕ) (r : α) (x : Except LoadError β) : Runs left k r (x, r) (some (x, k, r)) :=
  ⟨k, r, rfl, Or.inl rfl, le_rfl⟩

/-- the pages from `va` up to `stop` -/
def pagesFrom (va stop : ℕ) : List ℕ := (List.range ((stop - va + (PAGE_SIZE - 1)) / PAGE_SIZE)).map fun k => va + k * PAGE_SIZE

theorem pagesFrom_of_le {va stop : ℕ} (h : stop ≤ va) : pagesFrom va stop = [] := by
  have hnone : (stop - va + (PAGE_SIZE - 1)) / PAGE_SIZE = 0 := by
    simp only [PAGE_SIZE]
    omega
  rw [pagesFrom, hnone]
  rfl

theorem pagesFrom_cons {va stop : ℕ} (h : va < stop) : pagesFrom va stop = va :: pagesFrom (va + PAGE_SIZE) stop := by
  have hcount : (stop - va + (PAGE_SIZE - 1)) / PAGE_SIZE =
      (stop - (va + PAGE_SIZE) + (PAGE_SIZE - 1)) / PAGE_SIZE + 1 := by
    simp only [PAGE_SIZE]
    omega
  rw [pagesFrom, hcount, List.range_succ_eq_map, List.map_cons, List.map_map, Nat.zero_mul, Nat.add_zero, pagesFrom]
  congr 1
  refine List.map_congr_left fun k _ => ?_
  rw [Function.comp_apply, Nat.succ_mul]
  omega

theorem segmentPages_eq (g : Segment) : segmentPages g = pagesFrom (pageAddr g.vaddr) (g.vaddr + g.memsz) := rfl

theorem Metered.map (hleft : Metered left) (root va pa : ℕ) (flags : Word) (r : α) :
    left (map A.toMmu root va pa flags r).2 ≤ left r :=
  map_keep (U := A.toMmu) (I := fun r' => left r' ≤ left r)
    (fun r' h => by
      rcases ha : allocFrame r' with ⟨_ | p, r''⟩
      · exact (hleft.refused r' r'' ha).trans h
      · have := hleft.supplied r' p r'' ha
        show left r'' ≤ left r
        omega)
    (fun r' m h => by rw [hleft.written]; exact h) root va pa flags le_rfl

/-- one page: its frame is counted as supplied before it can be counted as mapped -/
theorem loadPageIn_spec (hleft : Metered left) (elf : List Byte) (root : ℕ) {g : Segment}
    (hfile : g.vaddr + g.filesz < U64) (va : ℕ) (r : α) :
    ∃ r', loadPageIn A elf root g va r = some ((loadPage A (sliceOf elf) root g va r).1, r') ∧
      (((loadPage A (sliceOf elf) root g va r).1 = .ok () ∧ r' = (loadPage A (sliceOf elf) root g va r).2 ∧
          left r' + 1 ≤ left r) ∨
        ((∃ e, (loadPage A (sliceOf elf) root g va r).1 = .error e) ∧ left r' ≤ left r ∧
          (r' = (loadPage A (sliceOf elf) root g va r).2 ∨ ∃ m, r' = setMem (loadPage A (sliceOf elf) root g va r).2 m))) := by
  rw [loadPage, loadPageIn]
  rcases ha : allocFrame r with ⟨_ | frame, r₁⟩
  · exact ⟨r₁, rfl, Or.inr ⟨⟨_, rfl⟩, hleft.refused r r₁ ha, Or.inl rfl⟩⟩
  have hsupplied := hleft.supplied r frame r₁ ha
  have hbytes : (pageBytesIn elf g va).run = some (pageBytes (sliceOf elf) g va) := pageBytesIn_eq elf hfile va
  simp only [hbytes]
  cases pageBytes (sliceOf elf) g va with
  | error e =>
    have hfilled : left (setMem r₁ ((mem r₁).fill frame 0)) ≤ left r := by
      rw [hleft.written]
      exact (Nat.le_succ _).trans hsupplied
    exact ⟨_, rfl, Or.inr ⟨⟨e, rfl⟩, hfilled, Or.inr ⟨_, rfl⟩⟩⟩
  | ok ib =>
    have hmap := hleft.map (A := A) root va frame (A.elfFlags (g.flags / 2 % 2 == 1) (g.flags % 2 == 1))
      (setMem r₁ (writeBytes ((mem r₁).fill frame 0) (frame + ib.1) ib.2))
    rw [hleft.written] at hmap
    simp only
    rcases hm : map A.toMmu root va frame (A.elfFlags (g.flags / 2 % 2 == 1) (g.flags % 2 == 1))
      (setMem r₁ (writeBytes ((mem r₁).fill frame 0) (frame + ib.1) ib.2)) with ⟨_ | _, r₂⟩
    · rw [hm] at hmap
      exact ⟨r₂, rfl, Or.inr ⟨⟨_, rfl⟩, hmap.trans ((Nat.le_succ _).trans hsupplied), Or.inl rfl⟩⟩
    · rw [hm] at hmap
      exact ⟨r₂, rfl, Or.inl ⟨rfl, rfl, (Nat.add_le_add_right hmap 1).trans hsupplied⟩⟩

theorem loadPagesIn_runs (hleft : Metered left) (elf : List Byte) (root : ℕ) {g : Segment} (hseg : g.vaddr + g.memsz < U64)
    (hfile : g.vaddr + g.filesz < U64) (fuel va k : ℕ) (r : α) (hfuel : (pagesFrom va (g.vaddr + g.memsz)).length < fuel) :
    Runs left k r (loadPages A (sliceOf elf) root g (pagesFrom va (g.vaddr + g.memsz)) r)
      (loadPagesIn A elf root g fuel va k r) := by
  induction fuel generalizing va k r with
  | zero => exact absurd hfuel (Nat.not_lt_zero _)
  | succ fuel ih =>
    rw [loadPagesIn]
    by_cases hva : va < g.vaddr + g.memsz
    swap
    · rw [if_neg hva, pagesFrom_of_le (by omega)]
      exact runs_stop k r _
    rw [pagesFrom_cons hva, List.length_cons] at hfuel
    rw [if_pos hva, pagesFrom_cons hva, loadPages]
    obtain ⟨r₁, hpage, ⟨hok, hsame, hleft₁⟩ | ⟨⟨e, he⟩, hleft₁, hsame⟩⟩ :=
      loadPageIn_spec (A := A) hleft elf root hfile va r
    · rcases hx : loadPage A (sliceOf elf) root g va r with ⟨_ | _, r₂⟩
      · rw [hx] at hok
        simp at hok
      rw [hx] at hpage hsame
      obtain rfl : r₁ = r₂ := hsame
      simp only [hpage]
      by_cases htop : va + PAGE_SIZE < U64
      · rw [nextPage_of_lt htop]
        obtain ⟨mapped, r₃, hy, hsame', hcount⟩ := ih (va + PAGE_SIZE) (k + 1) r₁ (by omega)
        exact ⟨mapped, r₃, hy, hsame', by omega⟩
      · rw [nextPage_of_le (Nat.not_lt.1 htop), pagesFrom_of_le (by omega)]
        exact ⟨k + 1, r₁, rfl, Or.inl rfl, by omega⟩
    · rcases hx : loadPage A (sliceOf elf) root g va r with ⟨_ | _, r₂⟩
      · rw [hx] at hpage hsame
        simp only [hpage]
        exact ⟨k, r₁, rfl, hsame.imp id fun hm => ⟨⟨_, rfl⟩, hm⟩, Nat.add_le_add_left hleft₁ k⟩
      · rw [hx] at he
        simp at he

/-- a segment has at most `2 ^ 52` pages -/
theorem loadSegmentIn_runs (hleft : Metered left) {fuel : ℕ} (hfuel : 2 ^ 52 < fuel) (elf : List Byte) (root : ℕ)
    (g : Segment) (k : ℕ) (r : α) :
    Runs left k r (loadSegment A (sliceOf elf) root g r) (loadSegmentIn A fuel elf root g k r) := by
  rw [loadSegment, loadSegmentIn]
  by_cases hnil : g.memsz = 0
  · rw [if_pos hnil, if_pos hnil]
    exact runs_stop k r _
  by_cases hseg : g.vaddr + g.memsz ≥ U64
  · rw [if_neg hnil, if_neg hnil, if_pos hseg, if_pos (Or.inl hseg)]
    exact runs_stop k r _
  by_cases hfile : g.vaddr + g.filesz ≥ U64
  · rw [if_neg hnil, if_neg hnil, if_neg hseg, if_pos hfile, if_pos (Or.inr hfile)]
    exact runs_stop k r _
  · have hpages : (pagesFrom (pageAddr g.vaddr) (g.vaddr + g.memsz)).length < fuel := by
      rw [pagesFrom, List.length_map, List.length_range]
      simp only [U64, PAGE_SIZE] at *
      omega
    rw [if_neg hnil, if_neg hnil, if_neg hseg, if_neg hfile, if_neg (by tauto), segmentPages_eq]
    exact loadPagesIn_runs hleft elf root (by omega) (by omega) fuel _ k r hpages

theorem loadPhdrsIn_runs (hleft : Metered left) {fuel : ℕ} (hfuel : 2 ^ 52 < fuel) (elf : List Byte) (root : ℕ)
    (h : Header) (is : List ℕ) (k : ℕ) (r : α) :
    Runs left k r (loadPhdrs A (sliceOf elf) root h is r) (loadPhdrsIn A fuel elf root h is k r) := by
  induction is generalizing k r with
  | nil => exact runs_stop k r _
  | cons i is ih =>
    rw [loadPhdrs, loadPhdrsIn]
    have hread : (readPhdrIn elf h i).run = some (readPhdr (sliceOf elf) h i) := readPhdrIn_eq elf h i
    rw [hread]
    rcases readPhdr (sliceOf elf) h i with e | _ | g
    · exact runs_stop k r _
    · exact ih k r
    · obtain ⟨mapped, r₁, hy, hsame, hcount⟩ := loadSegmentIn_runs (A := A) hleft hfuel elf root g k r
      simp only [hy]
      rcases hx : loadSegment A (sliceOf elf) root g r with ⟨e | u, r₂⟩
      · rw [hx] at hsame
        exact ⟨mapped, r₁, rfl, hsame.imp id fun hout => ⟨⟨e, rfl⟩, hout.2⟩, hcount⟩
      · rw [hx] at hsame
        have hsuccess : ¬∃ e, (Except.ok u : Except LoadError Unit) = .error e := by simp
        obtain rfl : r₁ = r₂ := hsame.resolve_right fun hout => hsuccess hout.1
        obtain ⟨mapped', r₃, hy', hsame', hcount'⟩ := ih mapped r₁
        exact ⟨mapped', r₃, hy', hsame', hcount'.trans hcount⟩

/-- **The loader is safe on every image**, over every allocator. -/
theorem loadElfIn_runs (hleft : Metered left) {fuel : ℕ} (hfuel : 2 ^ 52 < fuel) (elf : List Byte) (root : ℕ) (r : α) :
    Runs left 0 r (loadElf A (sliceOf elf) root r) (loadElfIn A fuel elf root r) := by
  rw [loadElf, loadElfIn]
  have hread : (readHeaderIn A elf).run = some (readHeader A (sliceOf elf)) := readHeaderIn_eq A elf
  rw [hread]
  cases readHeader A (sliceOf elf) with
  | error e => exact runs_stop 0 r _
  | ok h =>
    obtain ⟨mapped, r₁, hy, hsame, hcount⟩ := loadPhdrsIn_runs (A := A) hleft hfuel elf root h (List.range h.phnum) 0 r
    simp only [hy]
    rcases hx : loadPhdrs A (sliceOf elf) root h (List.range h.phnum) r with ⟨e | u, r₂⟩
    · rw [hx] at hsame
      exact ⟨mapped, r₁, rfl, hsame.imp id fun hout => ⟨⟨e, rfl⟩, hout.2⟩, hcount⟩
    · rw [hx] at hsame
      refine ⟨mapped, r₁, rfl, hsame.imp id fun hout => ?_, hcount⟩
      obtain ⟨⟨e, he⟩, -⟩ := hout
      simp at he

end Runs

end Rustproof.Loader
