/-
The boot memory map as the firmware declares it, and what either parser keeps of it.

Both boot protocols hand the nucleus a table of entries in physical memory. A parser reads at most `MAX_MAP_ENTRIES` of
them, stops at the edge of the identity-mapped window, skips what has nothing below `IDENTITY_LIMIT`, clips the rest and
writes it into an output array of fixed capacity. `kept` is that selection over the declared list, `dropped` is what the
selection loses, and `mem_declared` says that an entry is either kept, or lost, or has no part below the limit.
-/
import Rustproof.Mm.Construction

namespace Rustproof.Boot

/-! ## Physical memory at boot -/

/-- physical memory, read a byte at a time -/
abbrev Bytes := ℕ → BitVec 8

/-- `n` little-endian bytes from `a`: `for i in (0..n).rev() { v = (v << 8) | m[a + i] }` -/
def readLE (m : Bytes) (a n : ℕ) : ℕ := (List.range n).foldr (fun i v => v * 256 + (m (a + i)).toNat) 0

def readU32 (m : Bytes) (a : ℕ) : ℕ := readLE m a 4

def readU64 (m : Bytes) (a : ℕ) : ℕ := readLE m a 8

/-- the boot trampoline identity-maps the low 1 GiB -/
def IDENTITY_LIMIT : ℕ := 0x40000000

/-- largest memory map either parser walks, whatever is declared -/
def MAX_MAP_ENTRIES : ℕ := 256

/-- bytes a parser reads of one entry -/
def ENTRY_SIZE : ℕ := 24

/-- the length of `run`'s `regions` array -/
def REGION_SLOTS : ℕ := 32

/-! ## Declared entries -/

/-- one entry of a declared map and the address it stands at -/
structure DeclaredEntry where
  addr : ℕ
  region : MemoryRegion
deriving DecidableEq, Repr

/-- `start.saturating_add(len).min(IDENTITY_LIMIT)` -/
def clippedEnd (r : MemoryRegion) : ℕ := min (satAdd r.start r.len) IDENTITY_LIMIT

/-- the region as written to the output array -/
def clip (r : MemoryRegion) : MemoryRegion := { r with len := clippedEnd r - r.start }

/-- the entry has a part below the limit: the parser does not skip it -/
def DeclaredEntry.visible (e : DeclaredEntry) : Bool := e.region.start < clippedEnd e.region

/-- the entry lies wholly inside the identity-mapped window -/
def DeclaredEntry.inWindow (e : DeclaredEntry) : Bool := e.addr + ENTRY_SIZE ≤ IDENTITY_LIMIT

theorem DeclaredEntry.visible_iff {e : DeclaredEntry} : e.visible = true ↔ e.region.start < clippedEnd e.region :=
  decide_eq_true_iff

theorem DeclaredEntry.inWindow_iff {e : DeclaredEntry} : e.inWindow = true ↔ e.addr + ENTRY_SIZE ≤ IDENTITY_LIMIT :=
  decide_eq_true_iff

/-- the entries a parser dereferences, were the output array unbounded -/
def readable (declared : List DeclaredEntry) : List DeclaredEntry :=
  (declared.take MAX_MAP_ENTRIES).takeWhile DeclaredEntry.inWindow

/-- the entries whose clipped regions reach an output array of `cap` slots -/
def kept (cap : ℕ) (declared : List DeclaredEntry) : List DeclaredEntry :=
  ((readable declared).filter DeclaredEntry.visible).take cap

/-- the entries lost to the capacity of the output, the entry limit or the window -/
def dropped (cap : ℕ) (declared : List DeclaredEntry) : List DeclaredEntry :=
  ((readable declared).filter DeclaredEntry.visible).drop cap ++ declared.drop (readable declared).length

/-- what the output array holds after the parse -/
def written (cap : ℕ) (declared : List DeclaredEntry) : List MemoryRegion :=
  (kept cap declared).map fun e => clip e.region

@[simp] theorem written_nil (cap : ℕ) : written cap [] = [] := by simp [written, kept, readable]

theorem readable_isPrefix (declared : List DeclaredEntry) : readable declared <+: declared :=
  (List.takeWhile_prefix _).trans (List.take_prefix _ _)

/-- nothing is written of a table outside the window -/
theorem written_eq_nil {declared : List DeclaredEntry} (cap : ℕ) (h : ∀ e ∈ declared, IDENTITY_LIMIT ≤ e.addr) :
    written cap declared = [] := by
  suffices hnil : readable declared = [] by simp [written, kept, hnil]
  rw [readable]
  cases hd : declared.take MAX_MAP_ENTRIES with
  | nil => rfl
  | cons e es =>
    have he : e ∈ declared := List.mem_of_mem_take (by rw [hd]; exact List.mem_cons_self)
    refine List.takeWhile_cons_of_neg fun hin => ?_
    have h1 := DeclaredEntry.inWindow_iff.1 hin
    have h2 := h e he
    simp only [ENTRY_SIZE] at h1
    omega

theorem mem_declared (cap : ℕ) {declared : List DeclaredEntry} {e : DeclaredEntry} (he : e ∈ declared) :
    e ∈ kept cap declared ∨ e ∈ dropped cap declared ∨ e.visible = false := by
  obtain ⟨rest, hrest⟩ := readable_isPrefix declared
  have hdrop : declared.drop (readable declared).length = rest := by
    rw [← congrArg (List.drop (readable declared).length) hrest, List.drop_left]
  rw [← hrest, List.mem_append] at he
  rcases he with he | he
  · cases hv : e.visible with
    | false => exact Or.inr (Or.inr rfl)
    | true =>
      have hmem : e ∈ (readable declared).filter DeclaredEntry.visible := List.mem_filter.2 ⟨he, hv⟩
      rw [← List.take_append_drop cap ((readable declared).filter DeclaredEntry.visible), List.mem_append] at hmem
      rcases hmem with h | h
      · exact Or.inl h
      · exact Or.inr (Or.inl (List.mem_append_left _ h))
  · refine Or.inr (Or.inl (List.mem_append_right _ ?_))
    rw [hdrop]; exact he

theorem mem_of_mem_kept {cap : ℕ} {declared : List DeclaredEntry} {e : DeclaredEntry} (he : e ∈ kept cap declared) :
    e ∈ declared ∧ e.visible = true := by
  have h := List.mem_filter.1 (List.mem_of_mem_take he)
  exact ⟨(readable_isPrefix declared).subset h.1, h.2⟩

theorem mem_of_mem_dropped {cap : ℕ} {declared : List DeclaredEntry} {e : DeclaredEntry}
    (he : e ∈ dropped cap declared) : e ∈ declared := by
  rcases List.mem_append.1 he with h | h
  · exact (readable_isPrefix declared).subset (List.mem_filter.1 (List.mem_of_mem_drop h)).1
  · exact List.mem_of_mem_drop h

/-! ## Frames and declared regions -/

/-- some byte of frame `f` below the limit belongs to the region -/
def MeetsBelow (r : MemoryRegion) (f : ℕ) : Prop :=
  ∃ a, a / PAGE_SIZE = f ∧ r.start ≤ a ∧ a < r.start + r.len ∧ a < IDENTITY_LIMIT

/-- every byte of frame `f` is below the limit and belongs to the region -/
def HoldsWhole (r : MemoryRegion) (f : ℕ) : Prop :=
  r.start ≤ f * PAGE_SIZE ∧ (f + 1) * PAGE_SIZE ≤ r.start + r.len ∧ (f + 1) * PAGE_SIZE ≤ IDENTITY_LIMIT

theorem min_satAdd (a b : ℕ) : min (satAdd a b) IDENTITY_LIMIT = min (a + b) IDENTITY_LIMIT := by
  simp only [satAdd, U64_MAX, IDENTITY_LIMIT]; omega

theorem meetsBelow_iff (r : MemoryRegion) (f : ℕ) :
    MeetsBelow r f ↔ r.start < (f + 1) * PAGE_SIZE ∧ f * PAGE_SIZE < clippedEnd r ∧ r.start < clippedEnd r := by
  rw [clippedEnd, min_satAdd]
  simp only [MeetsBelow, PAGE_SIZE]
  constructor
  · rintro ⟨a, rfl, h1, h2, h3⟩; refine ⟨by omega, lt_min ?_ ?_, lt_min ?_ ?_⟩ <;> omega
  · rintro ⟨h1, h2, h3⟩
    obtain ⟨h4, h5⟩ := lt_min_iff.1 h2
    obtain ⟨h6, h7⟩ := lt_min_iff.1 h3
    exact ⟨max r.start (f * 4096), by omega, by omega, by omega, by omega⟩

/-- an entry with no part below the limit meets no frame there -/
theorem not_meetsBelow_of_hidden {e : DeclaredEntry} (h : e.visible = false) (f : ℕ) : ¬ MeetsBelow e.region f := by
  rw [meetsBelow_iff]
  rintro ⟨_, _, h3⟩
  rw [DeclaredEntry.visible_iff.2 h3] at h
  exact absurd h (by decide)

/-- a clipped region never overflows an address -/
theorem clip_noOverflow {e : DeclaredEntry} (h : e.visible = true) : Mm.MemoryRegion.NoOverflow (clip e.region) := by
  rw [DeclaredEntry.visible_iff] at h
  have : clippedEnd e.region ≤ IDENTITY_LIMIT := min_le_right _ _
  simp only [Mm.MemoryRegion.NoOverflow, clip, IDENTITY_LIMIT, PAGE_SIZE, U64] at *
  omega

/-- the allocator's first pass frees, for a clipped usable region, the frames the declared one holds whole -/
theorem frees_clip {e : DeclaredEntry} (h : e.visible = true) (f : ℕ) :
    Mm.Frees (clip e.region) f ↔ e.region.kind = .usable ∧ HoldsWhole e.region f := by
  rw [Mm.frees_iff (clip_noOverflow h)]
  rw [DeclaredEntry.visible_iff] at h
  have hend : (clip e.region).start + (clip e.region).len = clippedEnd e.region := by simp only [clip]; omega
  rw [hend, clippedEnd, min_satAdd, le_min_iff]
  rfl

/-- the allocator's second pass takes, for a clipped non-usable region, the frames the declared one meets -/
theorem takes_clip {e : DeclaredEntry} (h : e.visible = true) (f : ℕ) :
    Mm.Takes (clip e.region) f ↔ e.region.kind ≠ .usable ∧ MeetsBelow e.region f := by
  rw [Mm.takes_iff (clip_noOverflow h), meetsBelow_iff]
  rw [DeclaredEntry.visible_iff] at h
  have hend : (clip e.region).start + (clip e.region).len = clippedEnd e.region := by simp only [clip]; omega
  have hlen : (clip e.region).len ≠ 0 := by simp only [clip]; omega
  rw [hend]
  exact ⟨fun ⟨h1, _, h3, h4⟩ => ⟨h1, h3, h4, h⟩, fun ⟨h1, h3, h4, _⟩ => ⟨h1, hlen, h3, h4⟩⟩

end Rustproof.Boot
