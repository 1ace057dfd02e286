/-
The PVH boot protocol (`crates/kernel/src/pvh.rs`): the `hvm_start_info` structure, its memory map, and the parser.

`memory_map_eq`: whatever the memory holds, the parser writes exactly `written` of the declared entries.
-/
import Rustproof.Boot.MemoryMap

namespace Rustproof.Boot.Pvh

def PVH_MAGIC : ℕ := 0x336ec578

/-- the fields of `HvmStartInfo` the parser reads -/
structure HvmStartInfo where
  magic : ℕ
  version : ℕ
  memmapPaddr : ℕ
  memmapEntries : ℕ

def startInfoAt (m : Bytes) (a : ℕ) : HvmStartInfo :=
  ⟨readU32 m a, readU32 m (a + 4), readU64 m (a + 40), readU32 m (a + 48)⟩

def kindOf (typ : ℕ) : MemoryKind :=
  match typ with
  | 1 => .usable
  | 2 => .reserved
  | 3 => .acpiReclaimable
  | 4 => .acpiNvs
  | _ => .unusable

/-- one `HvmMemmapEntry`: `addr: u64, size: u64, typ: u32, reserved: u32` -/
def entryAt (m : Bytes) (a : ℕ) : MemoryRegion := ⟨readU64 m a, readU64 m (a + 8), kindOf (readU32 m (a + 16))⟩

/-- how many entries it is safe to dereference -/
def walkableEntries (memmapPaddr declared : ℕ) : ℕ :=
  if memmapPaddr = 0 ∨ memmapPaddr ≥ IDENTITY_LIMIT then 0
  else min (min declared MAX_MAP_ENTRIES) ((IDENTITY_LIMIT - memmapPaddr) / ENTRY_SIZE)

/-- the loop of `memory_map`: `n` entries left, from the `i`-th on -/
def walk (m : Bytes) (table cap : ℕ) : ℕ → ℕ → List MemoryRegion → List MemoryRegion
  | 0, _, out => out
  | n + 1, i, out =>
    if out.length ≥ cap then out
    else
      let e := entryAt m (table + i * ENTRY_SIZE)
      if clippedEnd e ≤ e.start then walk m table cap n (i + 1) out
      else walk m table cap n (i + 1) (out ++ [clip e])

/-- `memory_map`: the first `count` entries of `out`, whose length is `cap` -/
def memoryMap (m : Bytes) (startInfo cap : ℕ) : List MemoryRegion :=
  if startInfo = 0 then []
  else
    let si := startInfoAt m startInfo
    if si.magic ≠ PVH_MAGIC ∨ si.version < 1 ∨ si.memmapPaddr = 0 then []
    else walk m si.memmapPaddr cap (walkableEntries si.memmapPaddr si.memmapEntries) 0 []

/-! ## The declared map -/

/-- entries `i..i+n` of the table -/
def declaredFrom (m : Bytes) (table i n : ℕ) : List DeclaredEntry :=
  (List.range' i n).map fun k => ⟨table + k * ENTRY_SIZE, entryAt m (table + k * ENTRY_SIZE)⟩

/-- the map a well-formed start-info structure declares: all `memmap_entries` of them -/
def declaredMap (m : Bytes) (startInfo : ℕ) : List DeclaredEntry :=
  let si := startInfoAt m startInfo
  if startInfo = 0 ∨ si.magic ≠ PVH_MAGIC ∨ si.version < 1 ∨ si.memmapPaddr = 0 then []
  else declaredFrom m si.memmapPaddr 0 si.memmapEntries

theorem declaredFrom_succ (m : Bytes) (table i n : ℕ) :
    declaredFrom m table i (n + 1) =
      ⟨table + i * ENTRY_SIZE, entryAt m (table + i * ENTRY_SIZE)⟩ :: declaredFrom m table (i + 1) n := by
  simp [declaredFrom, List.range'_succ]

theorem walk_eq (m : Bytes) (table cap n i : ℕ) (out : List MemoryRegion) (hout : out.length ≤ cap) :
    walk m table cap n i out =
      out ++ (((declaredFrom m table i n).filter DeclaredEntry.visible).take (cap - out.length)).map
        fun e => clip e.region := by
  induction n generalizing i out with
  | zero => simp [walk, declaredFrom]
  | succ n ih =>
    rw [walk]
    by_cases hcap : out.length ≥ cap
    · rw [if_pos hcap]
      have : cap - out.length = 0 := by omega
      simp [this]
    rw [if_neg hcap]
    rw [declaredFrom_succ]
    by_cases hskip : clippedEnd (entryAt m (table + i * ENTRY_SIZE)) ≤ (entryAt m (table + i * ENTRY_SIZE)).start
    · rw [if_pos hskip, ih _ _ hout, List.filter_cons_of_neg]
      simpa [DeclaredEntry.visible] using hskip
    · rw [if_neg hskip, ih _ _ (by simp; omega), List.filter_cons_of_pos (by
        simpa [DeclaredEntry.visible] using hskip)]
      obtain ⟨k, hk⟩ : ∃ k, cap - out.length = k + 1 := ⟨cap - out.length - 1, by omega⟩
      have hk' : cap - (out ++ [clip (entryAt m (table + i * ENTRY_SIZE))]).length = k := by simp; omega
      rw [hk, hk', List.take_succ_cons, List.map_cons, List.append_assoc]
      rfl

theorem take_declaredFrom (m : Bytes) (table i n c : ℕ) :
    (declaredFrom m table i n).take c = declaredFrom m table i (min n c) := by
  induction c generalizing i n with
  | zero => simp [declaredFrom]
  | succ c ih =>
    cases n with
    | zero => simp [declaredFrom]
    | succ n => rw [declaredFrom_succ, List.take_succ_cons, ih, Nat.succ_min_succ, declaredFrom_succ]

/-- the window cuts the table after the last entry that lies wholly inside it -/
theorem takeWhile_declaredFrom (m : Bytes) {table : ℕ} (hlow : table < IDENTITY_LIMIT) (i n : ℕ) :
    (declaredFrom m table i n).takeWhile DeclaredEntry.inWindow =
      declaredFrom m table i (min n ((IDENTITY_LIMIT - table) / ENTRY_SIZE - i)) := by
  induction n generalizing i with
  | zero => simp [declaredFrom]
  | succ n ih =>
    have hin : table + i * ENTRY_SIZE + ENTRY_SIZE ≤ IDENTITY_LIMIT ↔ i < (IDENTITY_LIMIT - table) / ENTRY_SIZE := by
      simp only [ENTRY_SIZE]; omega
    rw [declaredFrom_succ]
    by_cases hi : i < (IDENTITY_LIMIT - table) / ENTRY_SIZE
    · rw [List.takeWhile_cons_of_pos (DeclaredEntry.inWindow_iff.2 (hin.2 hi)), ih (i + 1), ← declaredFrom_succ]
      congr 1; omega
    · rw [List.takeWhile_cons_of_neg fun h => hi (hin.1 (DeclaredEntry.inWindow_iff.1 h))]
      have : min (n + 1) ((IDENTITY_LIMIT - table) / ENTRY_SIZE - i) = 0 := by omega
      rw [this]; rfl

/-- **The PVH parser writes the kept part of the declared map.** -/
theorem memory_map_eq (m : Bytes) (startInfo cap : ℕ) :
    memoryMap m startInfo cap = written cap (declaredMap m startInfo) := by
  simp only [memoryMap, declaredMap]
  by_cases h0 : startInfo = 0
  · rw [if_pos h0, if_pos (Or.inl h0), written_nil]
  rw [if_neg h0]
  set si := startInfoAt m startInfo
  by_cases hbad : si.magic ≠ PVH_MAGIC ∨ si.version < 1 ∨ si.memmapPaddr = 0
  · rw [if_pos hbad, if_pos (Or.inr hbad), written_nil]
  rw [if_neg hbad, if_neg (fun h => h.elim h0 hbad), walkableEntries]
  push Not at hbad
  by_cases hlow : si.memmapPaddr < IDENTITY_LIMIT
  · rw [if_neg (fun h => h.elim hbad.2.2 (Nat.not_le.2 hlow)), walk_eq _ _ _ _ _ _ (Nat.zero_le _),
      List.nil_append, List.length_nil, Nat.sub_zero, written, kept, readable, take_declaredFrom,
      takeWhile_declaredFrom m hlow, Nat.sub_zero]
  · rw [if_pos (Or.inr (Nat.le_of_not_lt hlow)), walk, written_eq_nil]
    intro e he
    obtain ⟨k, _, rfl⟩ := List.mem_map.1 he
    exact le_trans (Nat.le_of_not_lt hlow) (Nat.le_add_right _ _)

end Rustproof.Boot.Pvh
