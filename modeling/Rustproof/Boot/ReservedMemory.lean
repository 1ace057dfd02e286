/-
Firmware-reserved memory and the frame allocator: when the nucleus can hand out a frame the boot map declares non-usable.

`run` builds the allocator over the regions a parser wrote into an array of 32. The allocator honours every region it is
given: a frame it leaves free meets no kept non-usable entry. What the array lost it cannot honour.
- `reserved_iff`: no run ever hands out a frame meeting a declared non-usable entry exactly when no dropped one meets a
  frame the kept entries offer.
- `reserved_never_allocated_iff`: the same for both boot protocols, over any memory contents.
- `full_array_loses_reserved`: thirty-two usable entries and one reserved one, and the reserved megabyte is allocated.
-/
import Rustproof.Boot.Multiboot
import Rustproof.Boot.Pvh
import Rustproof.Mm.Handout

namespace Rustproof.Boot

open Mm Mm.BitmapAllocator

/-! ## The allocator `run` builds -/

/-- words of the static bitmap -/
def BITMAP_WORDS : ℕ := 12288

/-- `run`: a map needing more words than the bitmap has is refused, and the nucleus does not boot -/
def bootAllocator (regions : List MemoryRegion) (reserveBelow dmaTop : ℕ) : Option BitmapAllocator :=
  let words := bitmapWordsNeeded regions
  if words > BITMAP_WORDS then none else some (BitmapAllocator.new regions words reserveBelow dmaTop)

/-- a bitmap of the words asked for tracks every frame some region frees -/
theorem lt_trackedFrames {regions : List MemoryRegion} {r : MemoryRegion} (hr : r ∈ regions) {f : ℕ}
    (hf : Frees r f) : f < trackedFrames regions (bitmapWordsNeeded regions) := by
  obtain ⟨k, hk, hle⟩ := le_highestUsableFrame hr hf
  have hbound := highestUsableFrame_lt regions hk
  simp only [trackedFrames, bitmapWordsNeeded, hk, Option.elim, BITS_PER_WORD, U64_MAX]
  omega

/-- the frames the kept entries offer: held whole by a usable one, met by no other, and above the reserve floor -/
def Offered (keptEntries : List DeclaredEntry) (reserveBelow f : ℕ) : Prop :=
  (∃ e ∈ keptEntries, e.region.kind = .usable ∧ HoldsWhole e.region f) ∧
    (∀ e ∈ keptEntries, e.region.kind ≠ .usable → ¬ MeetsBelow e.region f) ∧ reserveBelow ≤ f * PAGE_SIZE

/-- the allocator built over the written regions leaves free exactly the frames the kept entries offer -/
theorem mem_freeFrames_written (cap : ℕ) (declared : List DeclaredEntry) (reserveBelow dmaTop f : ℕ) :
    f ∈ (BitmapAllocator.new (written cap declared) (bitmapWordsNeeded (written cap declared)) reserveBelow
      dmaTop).freeFrames ↔ Offered (kept cap declared) reserveBelow f := by
  have hvis : ∀ e ∈ kept cap declared, e.visible = true := fun e he => (mem_of_mem_kept he).2
  have hmem : ∀ e ∈ kept cap declared, clip e.region ∈ written cap declared := fun e he => List.mem_map.2 ⟨e, he, rfl⟩
  rw [mem_freeFrames_new]
  constructor
  · rintro ⟨_, ⟨r, hr, hfree⟩, htake, hlow⟩
    obtain ⟨e, he, rfl⟩ := List.mem_map.1 hr
    exact ⟨⟨e, he, (frees_clip (hvis e he) f).1 hfree⟩,
      fun k hk hkind hmeet => htake _ (hmem k hk) ((takes_clip (hvis k hk) f).2 ⟨hkind, hmeet⟩), hlow⟩
  · rintro ⟨⟨e, he, hfree⟩, htake, hlow⟩
    have hfrees : Frees (clip e.region) f := (frees_clip (hvis e he) f).2 hfree
    refine ⟨lt_trackedFrames (hmem e he) hfrees, ⟨_, hmem e he, hfrees⟩, fun r hr htakes => ?_, hlow⟩
    obtain ⟨k, hk, rfl⟩ := List.mem_map.1 hr
    obtain ⟨hkind, hmeet⟩ := (takes_clip (hvis k hk) f).1 htakes
    exact htake k hk hkind hmeet

/-! ## Reserved memory -/

/-- no frame ever handed out, in any run that frees only held frames, meets the part below the limit of a declared
entry that is not usable -/
def ReservedNeverAllocated (declared : List DeclaredEntry) (regions : List MemoryRegion)
    (reserveBelow dmaTop : ℕ) : Prop :=
  ∀ a, bootAllocator regions reserveBelow dmaTop = some a → ∀ ops, FreesOnlyHeld ⟨a, []⟩ ops →
    ∀ f ∈ (run ⟨a, []⟩ ops).held, ∀ e ∈ declared, e.region.kind ≠ .usable → ¬ MeetsBelow e.region f

/-- no dropped non-usable entry meets a frame that the kept entries offer -/
def DropsNothingOffered (cap : ℕ) (declared : List DeclaredEntry) (reserveBelow : ℕ) : Prop :=
  ∀ e ∈ dropped cap declared, e.region.kind ≠ .usable →
    ∀ f, Offered (kept cap declared) reserveBelow f → ¬ MeetsBelow e.region f

theorem highestUsableFrame_written_lt (cap : ℕ) (declared : List DeclaredEntry) {k : ℕ}
    (hk : highestUsableFrame (written cap declared) = some k) : k < IDENTITY_LIMIT / PAGE_SIZE := by
  have key : ∀ (rs : List MemoryRegion) (hi : Option ℕ), (∀ r ∈ rs, r.stop ≤ IDENTITY_LIMIT) →
      (∀ k, hi = some k → k < IDENTITY_LIMIT / PAGE_SIZE) →
      ∀ k, rs.foldl raiseHighest hi = some k → k < IDENTITY_LIMIT / PAGE_SIZE := by
    intro rs
    induction rs with
    | nil => intro hi _ hhi; exact hhi
    | cons r rs ih =>
      intro hi hrs hhi
      refine ih _ (fun q hq => hrs q (List.mem_cons_of_mem _ hq)) fun k hk => ?_
      have hstop := hrs r List.mem_cons_self
      simp only [raiseHighest] at hk
      split_ifs at hk with _ h2
      · exact hhi k hk
      · exact hhi k hk
      · exact hhi k hk
      · have hfHi : r.stop / PAGE_SIZE - 1 < IDENTITY_LIMIT / PAGE_SIZE := by
          simp only [IDENTITY_LIMIT, PAGE_SIZE] at *; omega
        obtain rfl := Option.some.inj hk
        cases hi with
        | none => exact hfHi
        | some h => exact max_lt (hhi h rfl) hfHi
  refine key _ none (fun r hr => ?_) (fun k hk => by simp at hk) k hk
  obtain ⟨e, he, rfl⟩ := List.mem_map.1 hr
  have hvis := DeclaredEntry.visible_iff.1 (mem_of_mem_kept he).2
  have hno := clip_noOverflow (mem_of_mem_kept he).2
  rw [MemoryRegion.stop, wadd_of_lt (by simp only [MemoryRegion.NoOverflow, PAGE_SIZE] at hno; omega)]
  have hle : clippedEnd e.region ≤ IDENTITY_LIMIT := min_le_right _ _
  simp only [clip]; omega

/-- clipping keeps the map inside the static bitmap: no parsed map is refused -/
theorem bootAllocator_written (cap : ℕ) (declared : List DeclaredEntry) (reserveBelow dmaTop : ℕ) :
    bootAllocator (written cap declared) reserveBelow dmaTop =
      some (BitmapAllocator.new (written cap declared) (bitmapWordsNeeded (written cap declared)) reserveBelow
        dmaTop) := by
  refine if_neg (Nat.not_lt.2 ?_)
  rw [bitmapWordsNeeded]
  cases hk : highestUsableFrame (written cap declared) with
  | none => exact Nat.zero_le _
  | some k =>
    have := highestUsableFrame_written_lt cap declared hk
    simp only [IDENTITY_LIMIT, PAGE_SIZE, BITS_PER_WORD, BITMAP_WORDS] at *
    omega

theorem reserved_iff (cap : ℕ) (declared : List DeclaredEntry) (reserveBelow dmaTop : ℕ) :
    ReservedNeverAllocated declared (written cap declared) reserveBelow dmaTop ↔
      DropsNothingOffered cap declared reserveBelow := by
  have hboot := bootAllocator_written cap declared reserveBelow dmaTop
  have hfree := mem_freeFrames_written cap declared reserveBelow dmaTop
  constructor
  · intro hres e he hkind f hf hmeet
    obtain ⟨ops, hops, hheld⟩ := exists_run_holding _ _ _ _ ((hfree f).2 hf)
    exact hres _ hboot ops hops f hheld e (mem_of_mem_dropped he) hkind hmeet
  · intro hdrop a ha ops hops f hf e he hkind hmeet
    rw [hboot] at ha
    obtain rfl := Option.some.inj ha
    have hstart : f ∈ (BitmapAllocator.new (written cap declared) (bitmapWordsNeeded (written cap declared))
        reserveBelow dmaTop).freeFrames :=
      (run_held (new_rep _ _ _ _) ⟨fun g hg => by simp at hg, Finset.Subset.refl _⟩ hops).1 f hf
    have hoff := (hfree f).1 hstart
    rcases mem_declared cap he with hk | hd | hv
    · exact hoff.2.1 e hk hkind hmeet
    · exact hdrop e hd hkind f hoff hmeet
    · exact not_meetsBelow_of_hidden hv f hmeet

/-! ## The two boot protocols -/

/-- the protocol the image was built for -/
inductive BootProtocol where
  | pvh
  | multiboot
deriving DecidableEq, Repr

/-- `Arch::memory_map` with an output array of `cap` slots -/
def memoryMap (p : BootProtocol) (m : Bytes) (info cap : ℕ) : List MemoryRegion :=
  match p with
  | .pvh => Pvh.memoryMap m info cap
  | .multiboot => Multiboot.memoryMap m info cap

/-- the map the boot information at `info` declares, of whatever length -/
def declaredMap (p : BootProtocol) (m : Bytes) (info : ℕ) : List DeclaredEntry :=
  match p with
  | .pvh => Pvh.declaredMap m info
  | .multiboot => Multiboot.declaredMap m info

theorem memoryMap_eq_written (p : BootProtocol) (m : Bytes) (info cap : ℕ) :
    memoryMap p m info cap = written cap (declaredMap p m info) := by
  cases p with
  | pvh => exact Pvh.memory_map_eq m info cap
  | multiboot => exact Multiboot.memory_map_eq m info cap

/-- **When reserved memory is never allocated.** For both protocols, every memory, reserve floor and DMA ceiling. -/
theorem reserved_never_allocated_iff (p : BootProtocol) (m : Bytes) (info reserveBelow dmaTop : ℕ) :
    ReservedNeverAllocated (declaredMap p m info) (memoryMap p m info REGION_SLOTS) reserveBelow dmaTop ↔
      DropsNothingOffered REGION_SLOTS (declaredMap p m info) reserveBelow := by
  rw [memoryMap_eq_written]
  exact reserved_iff REGION_SLOTS _ reserveBelow dmaTop

/-! ## A full output array -/

/-- the `n` little-endian bytes of `v`, one at a time -/
def byteOf (v i : ℕ) : BitVec 8 := BitVec.ofNat 8 (v / 256 ^ i)

/-- a start-info structure at 4096 naming a table of 33 entries at 8192: thirty-two times 16..32 MiB usable, then
16..17 MiB reserved -/
def crowdedMap : Bytes := fun a =>
  if a < 4100 then byteOf Pvh.PVH_MAGIC (a - 4096)
  else if a < 4104 then byteOf 1 (a - 4100)
  else if 4136 ≤ a ∧ a < 4144 then byteOf 8192 (a - 4136)
  else if 4144 ≤ a ∧ a < 4148 then byteOf 33 (a - 4144)
  else if 8192 ≤ a ∧ a < 8192 + 33 * 24 then
    let entry := (a - 8192) / 24
    let i := (a - 8192) % 24
    if i < 8 then byteOf 0x1000000 i
    else if i < 16 then byteOf (if entry < 32 then 0x1000000 else 0x100000) (i - 8)
    else byteOf (if entry < 32 then 1 else 2) (i - 16)
  else 0

/-- **A full array loses the reserved entry.** With x86's 8 MiB reserve floor and 16 MiB DMA ceiling some run allocates a
frame of the reserved megabyte. -/
theorem full_array_loses_reserved :
    ¬ ReservedNeverAllocated (declaredMap .pvh crowdedMap 4096) (memoryMap .pvh crowdedMap 4096 REGION_SLOTS)
      0x800000 0x1000000 := by
  have hdrop : ⟨8960, ⟨0x1000000, 0x100000, .reserved⟩⟩ ∈ dropped REGION_SLOTS (declaredMap .pvh crowdedMap 4096) := by
    decide +kernel
  have hkept : ∀ e ∈ kept REGION_SLOTS (declaredMap .pvh crowdedMap 4096),
      e.region = ⟨0x1000000, 0x1000000, .usable⟩ := by decide +kernel
  have hsome : ⟨8192, ⟨0x1000000, 0x1000000, .usable⟩⟩ ∈ kept REGION_SLOTS (declaredMap .pvh crowdedMap 4096) := by
    decide +kernel
  rw [memoryMap_eq_written, reserved_iff]
  intro h
  refine h _ hdrop (by decide) 4096 ⟨⟨_, hsome, rfl, by unfold HoldsWhole; decide⟩, fun e he hkind => ?_, by decide⟩ ?_
  · rw [hkept e he] at hkind; exact absurd rfl hkind
  · rw [meetsBelow_iff]; decide

end Rustproof.Boot
