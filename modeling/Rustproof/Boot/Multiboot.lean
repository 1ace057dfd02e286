/-
The Multiboot 1 boot protocol (`crates/kernel/src/multiboot.rs`): the information structure, its memory map of
variable-length entries, and the parser.

`memory_map_eq`: whatever the memory holds, the parser writes exactly `written` of the declared entries.
-/
import Rustproof.Boot.MemoryMap

namespace Rustproof.Boot.Multiboot

def kindOf (typ : ℕ) : MemoryKind :=
  match typ with
  | 1 => .usable
  | 3 => .acpiReclaimable
  | 4 => .acpiNvs
  | 5 => .unusable
  | _ => .reserved

/-- how many bytes of the map it is safe to walk -/
def walkableBytes (mmapAddr mmapLength : ℕ) : ℕ :=
  if mmapAddr = 0 ∨ mmapAddr ≥ IDENTITY_LIMIT then 0 else min mmapLength (IDENTITY_LIMIT - mmapAddr)

/-- `size(u32) base(u64) len(u64) type(u32)`: the region of the entry at `a` -/
def entryAt (m : Bytes) (a : ℕ) : MemoryRegion :=
  ⟨readU64 m (a + 4), readU64 m (a + 12), kindOf (readU32 m (a + 20))⟩

/-- `parse_entry` on the `len` bytes at `a`: the region, and how far the walk advances -/
def parseEntry (m : Bytes) (a len : ℕ) : Option (MemoryRegion × ℕ) :=
  if len < 24 then none
  else
    let size := readU32 m a
    if size < 20 then none else some (entryAt m a, size + 4)

/-- the loop of `memory_map`; it runs `MAX_MAP_ENTRIES` times at most -/
def walk (m : Bytes) (mmapAddr bytes cap : ℕ) : ℕ → ℕ → ℕ → List MemoryRegion → List MemoryRegion
  | 0, _, _, out => out
  | fuel + 1, off, seen, out =>
    if off < bytes ∧ out.length < cap ∧ seen < MAX_MAP_ENTRIES then
      match parseEntry m (mmapAddr + off) (bytes - off) with
      | none => out
      | some (r, step) =>
        if clippedEnd r ≤ r.start then walk m mmapAddr bytes cap fuel (off + step) (seen + 1) out
        else walk m mmapAddr bytes cap fuel (off + step) (seen + 1) (out ++ [clip r])
    else out

/-- `memory_map`: the first `count` entries of `out`, whose length is `cap` -/
def memoryMap (m : Bytes) (info cap : ℕ) : List MemoryRegion :=
  if info = 0 ∨ info ≥ IDENTITY_LIMIT then []
  else if (readU32 m info).testBit 6 = false then []
  else
    let mmapLength := readU32 m (info + 44)
    let mmapAddr := readU32 m (info + 48)
    let bytes := walkableBytes mmapAddr mmapLength
    if bytes = 0 then [] else walk m mmapAddr bytes cap MAX_MAP_ENTRIES 0 0 []

/-! ## The declared map -/

/-- the entries from offset `off` of a map of `len` bytes, each at the end of the one before; `fuel` bounds their
number and never runs out first (`declaredFrom_fuel`) -/
def declaredFrom (m : Bytes) (mmapAddr len : ℕ) : ℕ → ℕ → List DeclaredEntry
  | 0, _ => []
  | fuel + 1, off =>
    if off + ENTRY_SIZE ≤ len ∧ 20 ≤ readU32 m (mmapAddr + off) then
      ⟨mmapAddr + off, entryAt m (mmapAddr + off)⟩ ::
        declaredFrom m mmapAddr len fuel (off + (readU32 m (mmapAddr + off) + 4))
    else []

/-- the map a multiboot information structure inside the window declares -/
def declaredMap (m : Bytes) (info : ℕ) : List DeclaredEntry :=
  if info = 0 ∨ info ≥ IDENTITY_LIMIT ∨ (readU32 m info).testBit 6 = false ∨ readU32 m (info + 48) = 0 then []
  else declaredFrom m (readU32 m (info + 48)) (readU32 m (info + 44)) (readU32 m (info + 44)) 0

/-- every entry takes at least 24 bytes, so `len - off` entries are more than enough -/
theorem declaredFrom_fuel (m : Bytes) (mmapAddr len fuel fuel' off : ℕ) (h : len ≤ off + fuel)
    (h' : len ≤ off + fuel') : declaredFrom m mmapAddr len fuel off = declaredFrom m mmapAddr len fuel' off := by
  induction fuel generalizing fuel' off with
  | zero =>
    cases fuel' with
    | zero => rfl
    | succ fuel' => rw [declaredFrom, declaredFrom, if_neg]; simp only [ENTRY_SIZE]; omega
  | succ fuel ih =>
    cases fuel' with
    | zero => rw [declaredFrom, declaredFrom, if_neg]; simp only [ENTRY_SIZE]; omega
    | succ fuel' =>
      rw [declaredFrom, declaredFrom]
      split_ifs
      · rw [ih fuel' _ (by omega) (by omega)]
      · rfl

theorem le_addr_of_mem_declaredFrom {m : Bytes} {mmapAddr len fuel off : ℕ} {e : DeclaredEntry}
    (he : e ∈ declaredFrom m mmapAddr len fuel off) : mmapAddr ≤ e.addr := by
  induction fuel generalizing off with
  | zero => simp [declaredFrom] at he
  | succ fuel ih =>
    rw [declaredFrom] at he
    split_ifs at he
    · rcases List.mem_cons.1 he with rfl | he
      · exact Nat.le_add_right _ _
      · exact ih he
    · simp at he

/-- the walk, entry by entry: the window and the two limits cut the declared list short -/
theorem walk_eq (m : Bytes) {mmapAddr : ℕ} (len : ℕ) (hlow : mmapAddr < IDENTITY_LIMIT) (cap fuel off : ℕ)
    (out : List MemoryRegion) (hfuel : fuel ≤ MAX_MAP_ENTRIES) (hout : out.length ≤ cap) (dfuel : ℕ)
    (hd : len ≤ off + dfuel) :
    walk m mmapAddr (min len (IDENTITY_LIMIT - mmapAddr)) cap fuel off (MAX_MAP_ENTRIES - fuel) out =
      out ++ (((((declaredFrom m mmapAddr len dfuel off).take fuel).takeWhile DeclaredEntry.inWindow).filter
        DeclaredEntry.visible).take (cap - out.length)).map fun e => clip e.region := by
  induction fuel generalizing off out dfuel with
  | zero => simp [walk]
  | succ fuel ih =>
    rw [walk]
    by_cases hfits : off + ENTRY_SIZE ≤ len ∧ 20 ≤ readU32 m (mmapAddr + off)
    · obtain ⟨dfuel, rfl⟩ : ∃ d, dfuel = d + 1 := ⟨dfuel - 1, by simp only [ENTRY_SIZE] at hfits; omega⟩
      rw [declaredFrom, if_pos hfits, List.take_succ_cons]
      by_cases hwin : mmapAddr + off + ENTRY_SIZE ≤ IDENTITY_LIMIT
      · rw [List.takeWhile_cons_of_pos (DeclaredEntry.inWindow_iff.2 hwin)]
        by_cases hcap : out.length < cap
        · have hparse : parseEntry m (mmapAddr + off) (min len (IDENTITY_LIMIT - mmapAddr) - off) =
              some (entryAt m (mmapAddr + off), readU32 m (mmapAddr + off) + 4) := by
            rw [parseEntry, if_neg (by simp only [ENTRY_SIZE] at *; omega)]
            exact if_neg (by omega)
          rw [if_pos ⟨by simp only [ENTRY_SIZE] at *; omega, hcap, by omega⟩, hparse]
          simp only
          have hseen : MAX_MAP_ENTRIES - (fuel + 1) + 1 = MAX_MAP_ENTRIES - fuel := by omega
          rw [hseen]
          by_cases hskip : clippedEnd (entryAt m (mmapAddr + off)) ≤ (entryAt m (mmapAddr + off)).start
          · rw [if_pos hskip, ih _ _ (by omega) hout dfuel (by omega), List.filter_cons_of_neg]
            simpa [DeclaredEntry.visible] using hskip
          · rw [if_neg hskip, ih _ _ (by omega) (by simp; omega) dfuel (by omega), List.filter_cons_of_pos (by
              simpa [DeclaredEntry.visible] using hskip)]
            obtain ⟨k, hk⟩ : ∃ k, cap - out.length = k + 1 := ⟨cap - out.length - 1, by omega⟩
            have hk' : cap - (out ++ [clip (entryAt m (mmapAddr + off))]).length = k := by simp; omega
            rw [hk, hk', List.take_succ_cons, List.map_cons, List.append_assoc]
            rfl
        · rw [if_neg (fun h => hcap h.2.1)]
          have : cap - out.length = 0 := by omega
          simp [this]
      · rw [List.takeWhile_cons_of_neg (fun h => hwin (DeclaredEntry.inWindow_iff.1 h))]
        -- the entry straddles the edge of the window, or starts past it
        have hparse : parseEntry m (mmapAddr + off) (min len (IDENTITY_LIMIT - mmapAddr) - off) = none := by
          rw [parseEntry, if_pos (by simp only [ENTRY_SIZE] at *; omega)]
        rw [hparse]
        simp
    · have hnil : declaredFrom m mmapAddr len dfuel off = [] := by
        cases dfuel with
        | zero => rfl
        | succ dfuel => rw [declaredFrom, if_neg hfits]
      have hparse : parseEntry m (mmapAddr + off) (min len (IDENTITY_LIMIT - mmapAddr) - off) = none := by
        rw [parseEntry]
        simp only [ENTRY_SIZE] at hfits
        by_cases hshort : min len (IDENTITY_LIMIT - mmapAddr) - off < 24
        · exact if_pos hshort
        · rw [if_neg hshort]
          exact if_pos (by by_contra hsize; exact hfits ⟨by omega, by omega⟩)
      rw [hnil, hparse]
      simp

/-- **The multiboot parser writes the kept part of the declared map.** -/
theorem memory_map_eq (m : Bytes) (info cap : ℕ) :
    memoryMap m info cap = written cap (declaredMap m info) := by
  simp only [memoryMap, declaredMap]
  by_cases h0 : info = 0 ∨ info ≥ IDENTITY_LIMIT
  · rw [if_pos h0, if_pos (h0.elim Or.inl fun h => Or.inr (Or.inl h)), written_nil]
  rw [if_neg h0]
  by_cases hflag : (readU32 m info).testBit 6 = false
  · rw [if_pos hflag, if_pos (Or.inr (Or.inr (Or.inl hflag))), written_nil]
  rw [if_neg hflag]
  set mmapAddr := readU32 m (info + 48)
  set len := readU32 m (info + 44)
  by_cases haddr : mmapAddr = 0
  · rw [if_pos (Or.inr (Or.inr (Or.inr haddr))), walkableBytes, if_pos (Or.inl haddr), if_pos rfl, written_nil]
  have hdeclared : ¬ (info = 0 ∨ info ≥ IDENTITY_LIMIT ∨ (readU32 m info).testBit 6 = false ∨ mmapAddr = 0) := by
    tauto
  rw [if_neg hdeclared]
  by_cases hlow : mmapAddr < IDENTITY_LIMIT
  · have hbytes : walkableBytes mmapAddr len = min len (IDENTITY_LIMIT - mmapAddr) :=
      if_neg fun h => h.elim haddr (Nat.not_le.2 hlow)
    have hwalk := walk_eq m len hlow cap MAX_MAP_ENTRIES 0 [] le_rfl (Nat.zero_le _) len (by omega)
    rw [Nat.sub_self, List.nil_append, List.length_nil, Nat.sub_zero] at hwalk
    rw [hbytes]
    by_cases hnil : min len (IDENTITY_LIMIT - mmapAddr) = 0
    · have hlen : len = 0 := by omega
      rw [if_pos hnil, hlen, declaredFrom, written_nil]
    · rw [if_neg hnil, hwalk]; rfl
  · have hbytes : walkableBytes mmapAddr len = 0 := if_pos (Or.inr (Nat.le_of_not_lt hlow))
    rw [hbytes, if_pos rfl, written_eq_nil]
    exact fun e he => le_trans (Nat.le_of_not_lt hlow) (le_addr_of_mem_declaredFrom he)

end Rustproof.Boot.Multiboot
