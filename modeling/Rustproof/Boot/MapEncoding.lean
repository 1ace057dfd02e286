/-
The multiboot memory map as a loader writes it, and the parser as its inverse.

`encodeMap` lays entries out one after another, each with its size field, its three numbers and any padding after the type.
- `declaredFrom_encodeMap`: over memory that holds such a table, the declared entries are the encoded ones.
- `walkIn_eq`: the parser's loop over a slice, with every index checked, ends within the entry limit and never indexes out
  of the slice, whatever the bytes are.
- `memory_map_decodes`: `memory_map` returns the part of each entry below the limit, in order; and the loop is safe.
-/
import Rustproof.Boot.Multiboot
import Rustproof.Lib.LittleEndian

namespace Rustproof.Boot.Multiboot

open Lib.LittleEndian

/-! ## Numbers in memory -/

theorem readLE_succ (m : Bytes) (a n : ℕ) : readLE m a (n + 1) = (m a).toNat + 256 * readLE m (a + 1) n := by
  have hshift : (fun (i v : ℕ) => v * 256 + (m (a + Nat.succ i)).toNat) = fun i v => v * 256 + (m (a + 1 + i)).toNat := by
    funext i v
    rw [Nat.add_assoc, Nat.add_comm 1 i]
  rw [readLE, readLE, List.range_succ_eq_map, List.foldr_cons, List.foldr_map, Nat.add_zero, hshift]
  ring

theorem readLE_of_holds {m : Bytes} {a n v : ℕ} (h : Holds m a (encode n v)) : readLE m a n = v % 256 ^ n := by
  induction n generalizing a v with
  | zero => rw [pow_zero, Nat.mod_one]; rfl
  | succ n ih =>
    obtain ⟨hlow, hrest⟩ : Holds m a [BitVec.ofNat 8 v] ∧ Holds m (a + 1) (encode n (v / 256)) := holds_append h
    have hbyte : m a = BitVec.ofNat 8 v := by simpa [Holds, slice] using hlow
    rw [readLE_succ, ih hrest, hbyte, mod_pow_succ, BitVec.toNat_ofNat]

theorem readAt_slice (m : Bytes) (a : ℕ) {len i n : ℕ} (h : i + n ≤ len) :
    readAt (slice m a len) i n = some (readLE m (a + i) n) := by
  induction n generalizing i with
  | zero => rfl
  | succ n ih =>
    rw [readAt, getElem?_slice m a (by omega), readLE_succ, ih (by omega)]
    rfl

/-! ## The encoding -/

/-- one entry of a memory map; `padding` is what follows the type -/
structure MapEntry where
  base : BitVec 64
  len : BitVec 64
  typ : BitVec 32
  padding : List (BitVec 8)
deriving DecidableEq, Repr

namespace MapEntry

/-- the size field, which does not count itself -/
def size (e : MapEntry) : ℕ := 20 + e.padding.length

def encode (e : MapEntry) : List (BitVec 8) :=
  Lib.LittleEndian.encode 4 e.size ++ (Lib.LittleEndian.encode 8 e.base.toNat ++
    (Lib.LittleEndian.encode 8 e.len.toNat ++ (Lib.LittleEndian.encode 4 e.typ.toNat ++ e.padding)))

def region (e : MapEntry) : MemoryRegion := ⟨e.base.toNat, e.len.toNat, kindOf e.typ.toNat⟩

/-- the part of the entry in `[0, IDENTITY_LIMIT)`, if there is any -/
def decoded (e : MapEntry) : Option MemoryRegion :=
  let stop := min (e.base.toNat + e.len.toNat) IDENTITY_LIMIT
  if e.base.toNat < stop then some ⟨e.base.toNat, stop - e.base.toNat, kindOf e.typ.toNat⟩ else none

@[simp] theorem length_encode (e : MapEntry) : e.encode.length = e.size + 4 := by
  simp only [encode, size, List.length_append, Lib.LittleEndian.length_encode]
  omega

/-- the parser's clipping is the intersection with the window -/
theorem decoded_eq (e : MapEntry) (a : ℕ) :
    e.decoded = if (⟨a, e.region⟩ : DeclaredEntry).visible then some (clip e.region) else none := by
  have hstop : clippedEnd e.region = min (e.base.toNat + e.len.toNat) IDENTITY_LIMIT := by
    rw [clippedEnd, min_satAdd]
    rfl
  simp only [decoded, DeclaredEntry.visible, clip, hstop, decide_eq_true_eq]
  rfl

end MapEntry

/-- the table: the entries one after another -/
def encodeMap (es : List MapEntry) : List (BitVec 8) := es.flatMap MapEntry.encode

/-- the entries with the addresses they get in a table at `a` -/
def placed : ℕ → List MapEntry → List DeclaredEntry
  | _, [] => []
  | a, e :: es => ⟨a, e.region⟩ :: placed (a + (e.size + 4)) es

/-- the four fields of an entry, read back -/
theorem entry_of_holds {m : Bytes} {a : ℕ} {e : MapEntry} (h : Holds m a e.encode) (hsize : e.size < 2 ^ 32) :
    readU32 m a = e.size ∧ entryAt m a = e.region := by
  obtain ⟨h1, h⟩ := holds_append h
  obtain ⟨h2, h⟩ := holds_append h
  obtain ⟨h3, h⟩ := holds_append h
  obtain ⟨h4, _⟩ := holds_append h
  simp only [length_encode, Nat.add_assoc, Nat.reduceAdd] at h2 h3 h4
  have hbase := e.base.isLt
  have hlen := e.len.isLt
  have htyp := e.typ.isLt
  refine ⟨?_, ?_⟩
  · rw [readU32, readLE_of_holds h1, Nat.mod_eq_of_lt (by simpa using hsize)]
  · rw [entryAt, readU64, readU64, readU32, readLE_of_holds h2, readLE_of_holds h3, readLE_of_holds h4,
      Nat.mod_eq_of_lt (by simpa using hbase), Nat.mod_eq_of_lt (by simpa using hlen),
      Nat.mod_eq_of_lt (by simpa using htyp)]
    rfl

/-- the declared entries of a memory that holds the table are the encoded ones -/
theorem declaredFrom_encodeMap {m : Bytes} {mmapAddr len : ℕ} (hlen : len < 2 ^ 32) (es : List MapEntry) :
    ∀ fuel off, Holds m (mmapAddr + off) (encodeMap es) → off + (encodeMap es).length = len → len ≤ off + fuel →
      declaredFrom m mmapAddr len fuel off = placed (mmapAddr + off) es := by
  induction es with
  | nil =>
    intro fuel off _ hoff hfuel
    cases fuel with
    | zero => rfl
    | succ fuel =>
      rw [declaredFrom, if_neg]
      · rfl
      · simp only [encodeMap, List.flatMap_nil, List.length_nil, ENTRY_SIZE] at *
        omega
  | cons e es ih =>
    intro fuel off hholds hoff hfuel
    rw [encodeMap, List.flatMap_cons] at hholds hoff
    obtain ⟨hentry, hrest⟩ := holds_append hholds
    rw [List.length_append, MapEntry.length_encode] at hoff
    rw [MapEntry.length_encode, Nat.add_assoc] at hrest
    have hsize : 20 ≤ e.size := Nat.le_add_right ..
    obtain ⟨hread, hat⟩ := entry_of_holds hentry (by omega)
    obtain ⟨fuel, rfl⟩ : ∃ n, fuel = n + 1 := ⟨fuel - 1, by omega⟩
    rw [declaredFrom, hread, if_pos ⟨by simp only [ENTRY_SIZE]; omega, hsize⟩, hat, placed, Nat.add_assoc]
    rw [ih fuel (off + (e.size + 4)) hrest (by rw [encodeMap]; omega) (by omega)]

theorem mem_placed_inWindow {es : List MapEntry} {a : ℕ} (h : a + (encodeMap es).length ≤ IDENTITY_LIMIT) :
    ∀ d ∈ placed a es, d.inWindow = true := by
  induction es generalizing a with
  | nil => simp [placed]
  | cons e es ih =>
    rw [encodeMap, List.flatMap_cons, List.length_append, MapEntry.length_encode] at h
    intro d hd
    rcases List.mem_cons.1 hd with rfl | hd
    · have hsize : 20 ≤ e.size := Nat.le_add_right ..
      apply DeclaredEntry.inWindow_iff.2
      simp only [ENTRY_SIZE]
      omega
    · exact ih (by rw [encodeMap]; omega) d hd

theorem take_placed (es : List MapEntry) (a n : ℕ) : (placed a es).take n = placed a (es.take n) := by
  induction es generalizing a n with
  | nil => simp [placed]
  | cons e es ih =>
    cases n with
    | zero => rfl
    | succ n => rw [placed, List.take_succ_cons, ih, List.take_succ_cons, placed]

theorem readable_placed {es : List MapEntry} {a : ℕ} (h : a + (encodeMap es).length ≤ IDENTITY_LIMIT) :
    readable (placed a es) = placed a (es.take MAX_MAP_ENTRIES) := by
  have hin : ∀ d ∈ placed a (es.take MAX_MAP_ENTRIES), d.inWindow := by
    rw [← take_placed]
    exact fun d hd => mem_placed_inWindow h d (List.mem_of_mem_take hd)
  calc readable (placed a es) = (placed a (es.take MAX_MAP_ENTRIES) ++ []).takeWhile DeclaredEntry.inWindow := by
        rw [readable, take_placed, List.append_nil]
    _ = placed a (es.take MAX_MAP_ENTRIES) := by
        rw [List.takeWhile_append_of_pos hin, List.takeWhile_nil, List.append_nil]

theorem visible_placed (es : List MapEntry) (a : ℕ) :
    ((placed a es).filter DeclaredEntry.visible).map (fun d => clip d.region) = es.filterMap MapEntry.decoded := by
  induction es generalizing a with
  | nil => rfl
  | cons e es ih =>
    rw [placed, List.filterMap_cons, MapEntry.decoded_eq e a]
    by_cases hv : (⟨a, e.region⟩ : DeclaredEntry).visible = true
    · rw [List.filter_cons_of_pos hv, List.map_cons, ih, if_pos hv]
    · rw [List.filter_cons_of_neg hv, ih, if_neg hv]

/-! ## The loop over a slice, every index checked -/

/-- `parse_entry` on a slice; the outer `none` is an index out of range -/
def parseEntryIn (buf : List (BitVec 8)) : Option (Option (MemoryRegion × ℕ)) :=
  if buf.length < 24 then some none
  else do
    let size ← readAt buf 0 4
    if size < 20 then some none
    else
      let base ← readAt buf 4 8
      let len ← readAt buf 12 8
      let typ ← readAt buf 20 4
      some (some (⟨base, len, kindOf typ⟩, size + 4))

/-- the loop of `memory_map` on the slice `map`; `none` when it is still running after `fuel` rounds, cuts the slice past
its end or indexes out of it -/
def walkIn (map : List (BitVec 8)) (cap : ℕ) : ℕ → ℕ → ℕ → List MemoryRegion → Option (List MemoryRegion)
  | 0, _, _, _ => none
  | fuel + 1, off, seen, out =>
    if off < map.length ∧ out.length < cap ∧ seen < MAX_MAP_ENTRIES then
      if off ≤ map.length then
        match parseEntryIn (map.drop off) with
        | none => none
        | some none => some out
        | some (some (r, step)) =>
          if clippedEnd r ≤ r.start then walkIn map cap fuel (off + step) (seen + 1) out
          else walkIn map cap fuel (off + step) (seen + 1) (out ++ [clip r])
      else none
    else some out

theorem parseEntryIn_slice (m : Bytes) (a len : ℕ) : parseEntryIn (slice m a len) = some (parseEntry m a len) := by
  rw [parseEntryIn, parseEntry, length_slice]
  by_cases hshort : len < 24
  · rw [if_pos hshort, if_pos hshort]
  · rw [if_neg hshort, if_neg hshort, readAt_slice m a (by omega : 0 + 4 ≤ len)]
    simp only [Nat.add_zero, Option.bind_eq_bind, Option.bind_some]
    by_cases hsize : readLE m a 4 < 20
    · rw [if_pos hsize, readU32, if_pos hsize]
    · rw [if_neg hsize, readU32, if_neg hsize, readAt_slice m a (by omega : 4 + 8 ≤ len),
        readAt_slice m a (by omega : 12 + 8 ≤ len), readAt_slice m a (by omega : 20 + 4 ≤ len)]
      rfl

/-- the loop ends by the entry limit and stays inside the slice -/
theorem walkIn_eq (m : Bytes) (mmapAddr bytes cap n fuel off seen : ℕ) (out : List MemoryRegion) (hn : fuel < n)
    (hseen : MAX_MAP_ENTRIES ≤ seen + fuel) :
    walkIn (slice m mmapAddr bytes) cap n off seen out = some (walk m mmapAddr bytes cap fuel off seen out) := by
  induction n generalizing fuel off seen out with
  | zero => omega
  | succ n ih =>
    rw [walkIn, length_slice]
    cases fuel with
    | zero => rw [if_neg (by omega), walk]
    | succ fuel =>
      rw [walk]
      by_cases hgo : off < bytes ∧ out.length < cap ∧ seen < MAX_MAP_ENTRIES
      · obtain ⟨rest, rfl⟩ : ∃ k, bytes = off + k := ⟨bytes - off, by omega⟩
        rw [if_pos hgo, if_pos hgo, if_pos (by omega), drop_slice, parseEntryIn_slice, Nat.add_sub_cancel_left]
        cases parseEntry m (mmapAddr + off) rest with
        | none => rfl
        | some rs =>
          simp only
          split_ifs
          · exact ih fuel (off + rs.2) (seen + 1) out (by omega) (by omega)
          · exact ih fuel (off + rs.2) (seen + 1) _ (by omega) (by omega)
      · rw [if_neg hgo, if_neg hgo]

/-- the slice lies inside the declared extent and inside the identity-mapped window -/
theorem walkableBytes_le (mmapAddr mmapLength : ℕ) :
    walkableBytes mmapAddr mmapLength ≤ mmapLength ∧
      (walkableBytes mmapAddr mmapLength ≠ 0 → mmapAddr + walkableBytes mmapAddr mmapLength ≤ IDENTITY_LIMIT) := by
  rw [walkableBytes]
  by_cases h : mmapAddr = 0 ∨ mmapAddr ≥ IDENTITY_LIMIT
  · rw [if_pos h]
    exact ⟨Nat.zero_le _, fun h0 => absurd rfl h0⟩
  · rw [if_neg h]
    omega

/-- the information structure at `info` announces a table of `len` bytes at `mmapAddr`, with the map-valid flag set -/
structure Announces (m : Bytes) (info mmapAddr len : ℕ) : Prop where
  nonzero : info ≠ 0
  inWindow : info < IDENTITY_LIMIT
  valid : (readU32 m info).testBit 6 = true
  length : readU32 m (info + 44) = len
  address : readU32 m (info + 48) = mmapAddr

/-- **The parser decodes what was encoded, and is safe on what was not.** -/
theorem memory_map_decodes (m : Bytes) (cap : ℕ) :
    (∀ info mmapAddr es, Announces m info mmapAddr (encodeMap es).length → mmapAddr ≠ 0 →
      mmapAddr + (encodeMap es).length ≤ IDENTITY_LIMIT → Holds m mmapAddr (encodeMap es) →
        memoryMap m info cap = ((es.take MAX_MAP_ENTRIES).filterMap MapEntry.decoded).take cap) ∧
    ∀ mmapAddr mmapLength,
      let bytes := walkableBytes mmapAddr mmapLength
      (∀ fuel, MAX_MAP_ENTRIES < fuel → walkIn (slice m mmapAddr bytes) cap fuel 0 0 [] =
        some (walk m mmapAddr bytes cap MAX_MAP_ENTRIES 0 0 [])) ∧
      bytes ≤ mmapLength ∧ (bytes ≠ 0 → mmapAddr + bytes ≤ IDENTITY_LIMIT) := by
  refine ⟨fun info mmapAddr es hinfo haddr hwindow hholds => ?_, fun mmapAddr mmapLength => ⟨fun fuel hfuel => ?_, ?_⟩⟩
  · have hdeclared : declaredMap m info = placed mmapAddr es := by
      have hvalid : (readU32 m info).testBit 6 ≠ false := by simp [hinfo.valid]
      have hlow := hinfo.inWindow
      rw [declaredMap, hinfo.address, hinfo.length, if_neg (by have := hinfo.nonzero; simp [this, hvalid, haddr, hlow])]
      exact declaredFrom_encodeMap (by simp only [IDENTITY_LIMIT] at hwindow; omega) es _ 0 hholds (by omega) (by omega)
    calc memoryMap m info cap = written cap (placed mmapAddr es) := by rw [memory_map_eq, hdeclared]
      _ = (((placed mmapAddr (es.take MAX_MAP_ENTRIES)).filter DeclaredEntry.visible).map
            (fun d => clip d.region)).take cap := by rw [written, kept, readable_placed hwindow, List.map_take]
      _ = ((es.take MAX_MAP_ENTRIES).filterMap MapEntry.decoded).take cap := by rw [visible_placed]
  · exact walkIn_eq m mmapAddr _ cap fuel MAX_MAP_ENTRIES 0 0 [] hfuel (by omega)
  · exact walkableBytes_le mmapAddr mmapLength

/-- low memory, memory across the window's edge with padding after the type, a hole above the window, an empty entry -/
def sampleEntries : List MapEntry :=
  [⟨0, 0x9FC00, 1, []⟩, ⟨0x3FF00000, 0x200000, 1, [7, 7, 7, 7]⟩, ⟨0xFEFFC000, 0x4000, 2, []⟩, ⟨0x100000, 0, 3, [1]⟩]

/-- an information structure at 16 and the table at 128 -/
def sampleMemory : Bytes := fun a =>
  if a < 128 then (encode 4 64 ++ List.replicate 40 0 ++ encode 4 (encodeMap sampleEntries).length ++ encode 4 128).getD
    (a - 16) 0
  else (encodeMap sampleEntries).getD (a - 128) 0

theorem memory_map_decodes_sample :
    memoryMap sampleMemory 16 32 = [⟨0, 0x9FC00, .usable⟩, ⟨0x3FF00000, 0x100000, .usable⟩] :=
  ((memory_map_decodes sampleMemory 32).1 16 128 sampleEntries
    ⟨by decide, by decide, by decide +kernel, by decide +kernel, by decide +kernel⟩ (by decide) (by decide +kernel)
    (by unfold Holds; decide +kernel)).trans (by decide +kernel)

end Rustproof.Boot.Multiboot
