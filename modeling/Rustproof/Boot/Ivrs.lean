/-
The IVRS table (`crates/kernel/src/acpi.rs`): the ACPI table that names the IOMMUs, and the walk that looks for the register
base of the first one.

After the 48 bytes of header come blocks of variable length: IVHD blocks, one for each IOMMU, and IVMD blocks, which describe
memory and have no register base. The walk does not look at the type of a block: it counts them all, and takes bytes 8 to 16
of the first one, whatever it is.
- `ivrs_walk_safe`: on every byte string the walk ends, indexes inside the string, and looks at the declared bytes only.
- `ivrs_first_base_iff`: it finds what it claims to find exactly on the tables all of whose blocks are IVHDs.
- `ivmd_taken_for_iommu`: a table with an IVMD block first, whose reserved bytes are returned as the register base.
-/
import Rustproof.Abi
import Rustproof.Lib.LittleEndian

namespace Rustproof.Boot.Ivrs

open Lib.LittleEndian

/-! ## The code -/

inductive RsdpErr where
  | badSignature
  | badChecksum
  | badExtendedChecksum
  | truncated
deriving DecidableEq, Repr

structure TableHeader where
  signature : List (BitVec 8)
  /-- total length, the header included -/
  length : ℕ
  revision : BitVec 8
deriving DecidableEq, Repr

/-- `parse_table`: the header of a table whose declared bytes sum to zero -/
def parseTable (buf : List (BitVec 8)) : Except RsdpErr TableHeader :=
  if buf.length < 36 then .error .truncated
  else
    let length := (readAt buf 4 4).getD 0
    if length < 36 ∨ buf.length < length then .error .truncated
    else if (buf.take length).foldl (· + ·) 0 ≠ 0 then .error .badChecksum
    else .ok ⟨buf.take 4, length, buf.getD 8 0⟩

/-- `b"IVRS"` -/
def IVRS : List (BitVec 8) := [0x49, 0x56, 0x52, 0x53]

/-- the loop of `ivrs_first_base`; `none` when it is still running after `fuel` rounds or indexes out of `buf` -/
def walk (buf : List (BitVec 8)) (total : ℕ) : ℕ → ℕ → Option ℕ → ℕ → Option (Option ℕ × ℕ)
  | 0, _, _, _ => none
  | fuel + 1, off, first, count =>
    if off + 24 ≤ total then
      match readAt buf (off + 2) 2 with
      | none => none
      | some len =>
        if len < 24 ∨ off + len > total then some (first, count)
        else
          match first with
          | some b => walk buf total fuel (off + len) (some b) (count + 1)
          | none =>
            match readAt buf (off + 8) 8 with
            | none => none
            | some b => walk buf total fuel (off + len) (some b) (count + 1)
    else some (first, count)

/-- `ivrs_first_base`, with the loop given `fuel` rounds -/
def ivrsFirstBase (fuel : ℕ) (buf : List (BitVec 8)) : Option (Option (ℕ × ℕ)) :=
  if buf.length < 48 ∨ buf.take 4 ≠ IVRS then some none
  else
    match readAt buf 4 4 with
    | none => none
    | some total =>
      if total > buf.length then some none
      else (walk buf total fuel 48 none 0).map fun (first, count) => first.map fun b => (b, count)

/-! ## The blocks -/

/-- what a block says of itself; `base` is its bytes 8 to 16 -/
structure Block where
  typ : ℕ
  len : ℕ
  base : ℕ
deriving DecidableEq, Repr

/-- the block describes an IOMMU -/
def Block.isIvhd (b : Block) : Bool := b.typ = 0x10 ∨ b.typ = 0x11 ∨ b.typ = 0x40

/-- the block at `off`, if it is well formed: it has a whole header, counts it, and ends inside the table -/
def blockAt (table : List (BitVec 8)) (off : ℕ) : Option Block :=
  let b : Block := ⟨(readAt table off 1).getD 0, (readAt table (off + 2) 2).getD 0, (readAt table (off + 8) 8).getD 0⟩
  if off + 24 ≤ table.length ∧ 24 ≤ b.len ∧ off + b.len ≤ table.length then some b else none

/-- the well-formed blocks from `off` on, each at the end of the one before, up to the first place that has none -/
def blocksFrom (table : List (BitVec 8)) : ℕ → ℕ → List Block
  | 0, _ => []
  | fuel + 1, off =>
    match blockAt table off with
    | none => []
    | some b => b :: blocksFrom table fuel (off + b.len)

/-- the blocks of an IVRS table: the longest well-formed prefix of what its declared bytes hold -/
def blocks (buf : List (BitVec 8)) : List Block :=
  let total := (readAt buf 4 4).getD 0
  if buf.length < 48 ∨ buf.take 4 ≠ IVRS ∨ total > buf.length then []
  else blocksFrom (buf.take total) total 48

/-- a block takes at least 24 bytes, so a round for every byte is more than enough -/
theorem blocksFrom_fuel (table : List (BitVec 8)) (fuel fuel' off : ℕ) (h : table.length ≤ off + fuel)
    (h' : table.length ≤ off + fuel') : blocksFrom table fuel off = blocksFrom table fuel' off := by
  have hend : ∀ k, table.length ≤ k → blockAt table k = none := fun k hk => by
    rw [blockAt, if_neg]
    omega
  induction fuel generalizing fuel' off with
  | zero =>
    cases fuel' with
    | zero => rfl
    | succ fuel' => rw [blocksFrom, blocksFrom, hend off h]
  | succ fuel ih =>
    cases fuel' with
    | zero => rw [blocksFrom, blocksFrom, hend off h']
    | succ fuel' =>
      rw [blocksFrom, blocksFrom]
      cases hb : blockAt table off with
      | none => rfl
      | some b =>
        have hlen : 24 ≤ b.len := by
          simp only [blockAt] at hb
          split_ifs at hb with hc
          obtain rfl := Option.some.inj hb
          exact hc.2.1
        simp only
        rw [ih fuel' _ (by omega) (by omega)]

/-- a place with room for a header, read off the whole buffer -/
theorem blockAt_take {buf : List (BitVec 8)} {total off : ℕ} (htotal : total ≤ buf.length) (hroom : off + 24 ≤ total) :
    ∃ b : Block, readAt buf (off + 2) 2 = some b.len ∧ readAt buf (off + 8) 8 = some b.base ∧
      blockAt (buf.take total) off = if 24 ≤ b.len ∧ off + b.len ≤ total then some b else none := by
  have hlen : (buf.take total).length = total := by rw [List.length_take]; omega
  obtain ⟨len, hl⟩ : ∃ len, readAt buf (off + 2) 2 = some len := readAt_isSome (by omega)
  obtain ⟨base, hb⟩ : ∃ base, readAt buf (off + 8) 8 = some base := readAt_isSome (by omega)
  refine ⟨⟨(readAt buf off 1).getD 0, len, base⟩, hl, hb, ?_⟩
  rw [blockAt, hlen, readAt_take (by omega), readAt_take (by omega), readAt_take (by omega), hl, hb]
  simp only [Option.getD_some, hroom, true_and]

/-- the walk counts every well-formed block, and takes its base from the first of them -/
theorem walk_eq {buf : List (BitVec 8)} {total : ℕ} (htotal : total ≤ buf.length) (n fuel off : ℕ) (first : Option ℕ)
    (count : ℕ) (hn : total - off < n) (hfuel : total ≤ off + fuel) :
    walk buf total n off first count =
      some (first.or ((blocksFrom (buf.take total) fuel off).head?.map Block.base),
        count + (blocksFrom (buf.take total) fuel off).length) := by
  have hlen : (buf.take total).length = total := by rw [List.length_take]; omega
  induction n generalizing fuel off first count with
  | zero => omega
  | succ n ih =>
    -- where the walk stops there is no block
    have hstop : blockAt (buf.take total) off = none → blocksFrom (buf.take total) fuel off = [] := by
      intro hb
      cases fuel with
      | zero => rfl
      | succ fuel => rw [blocksFrom, hb]
    rw [walk]
    by_cases hroom : off + 24 ≤ total
    · obtain ⟨b, hl, hbase, hb⟩ := blockAt_take htotal hroom
      rw [if_pos hroom, hl]
      simp only
      by_cases hgood : 24 ≤ b.len ∧ off + b.len ≤ total
      · rw [if_pos hgood] at hb
        obtain ⟨fuel, rfl⟩ : ∃ k, fuel = k + 1 := ⟨fuel - 1, by omega⟩
        have ih := fun first => ih fuel (off + b.len) first (count + 1) (by omega) (by omega)
        rw [if_neg (by omega), blocksFrom, hb]
        cases first with
        | some f =>
          simp only [ih, Option.some_or, List.length_cons]
          rw [Nat.add_assoc, Nat.add_comm 1]
        | none =>
          simp only [hbase, ih, Option.some_or, Option.none_or, List.length_cons, List.head?_cons, Option.map_some]
          rw [Nat.add_assoc, Nat.add_comm 1]
      · rw [if_neg hgood] at hb
        rw [if_pos (by omega), hstop hb]
        simp
    · have hb : blockAt (buf.take total) off = none := by
        rw [blockAt, if_neg]
        omega
      rw [if_neg hroom, hstop hb]
      simp

/-- what `ivrs_first_base` returns -/
theorem ivrsFirstBase_eq (buf : List (BitVec 8)) (fuel : ℕ) (hfuel : buf.length < fuel) :
    ivrsFirstBase fuel buf = some ((blocks buf).head?.map fun b => (b.base, (blocks buf).length)) := by
  rw [ivrsFirstBase, blocks]
  by_cases hhead : buf.length < 48 ∨ buf.take 4 ≠ IVRS
  · rw [if_pos hhead, if_pos (by tauto)]
    rfl
  · obtain ⟨total, ht⟩ : ∃ total, readAt buf 4 4 = some total := readAt_isSome (by omega)
    rw [if_neg hhead, ht]
    simp only [Option.getD_some]
    by_cases hlong : total > buf.length
    · rw [if_pos hlong, if_pos (by tauto)]
      rfl
    · rw [if_neg hlong, if_neg (by tauto), walk_eq (by omega) fuel total 48 none 0 (by omega) (by omega)]
      simp only [Option.none_or, Option.map_some, Nat.zero_add, Option.map_map]
      rfl

/-- the declared bytes alone have the same blocks -/
theorem blocks_take {buf : List (BitVec 8)} {total : ℕ} (ht : readAt buf 4 4 = some total) (hle : total ≤ buf.length) :
    blocks (buf.take total) = blocks buf := by
  have hlen : (buf.take total).length = total := by rw [List.length_take]; omega
  by_cases hshort : total < 48
  · -- no block fits below the end of the header
    have hnone : blockAt (buf.take total) 48 = none := by
      rw [blockAt, if_neg]
      omega
    have hnil : blocksFrom (buf.take total) total 48 = [] := by
      cases total with
      | zero => rfl
      | succ n => rw [blocksFrom, hnone]
    rw [blocks, blocks, if_pos (Or.inl (by omega)), ht]
    simp only [Option.getD_some]
    split_ifs
    · rfl
    · exact hnil.symm
  · rw [blocks, blocks, readAt_take (by omega : 4 + 4 ≤ total), ht, hlen, List.take_take, List.take_take]
    simp only [Option.getD_some, Nat.min_self]
    rw [Nat.min_eq_left (by omega : 4 ≤ total)]
    by_cases hsig : buf.take 4 = IVRS
    · rw [if_neg (by simp [hsig]; omega), if_neg (by simp [hsig]; omega)]
    · rw [if_pos (Or.inr (Or.inl hsig)), if_pos (Or.inr (Or.inl hsig))]

/-- **The walk is safe on every byte string**: it ends, every index is inside the buffer, and the declared bytes alone give
the same result. -/
theorem ivrs_walk_safe (buf : List (BitVec 8)) :
    (∃ r, ∀ fuel, buf.length < fuel → ivrsFirstBase fuel buf = some r) ∧
    ∀ total, readAt buf 4 4 = some total → total ≤ buf.length → ∀ fuel, buf.length < fuel →
      ivrsFirstBase fuel (buf.take total) = ivrsFirstBase fuel buf := by
  refine ⟨⟨_, ivrsFirstBase_eq buf⟩, fun total ht hle fuel hfuel => ?_⟩
  have hlen : (buf.take total).length < fuel := by rw [List.length_take]; omega
  rw [ivrsFirstBase_eq buf fuel hfuel, ivrsFirstBase_eq _ fuel hlen, blocks_take ht hle]

/-! ## What the walk claims -/

/-- the walk is safe, and what it returns is the base of the first IVHD and the number of IVHDs -/
structure FindsIommu (buf : List (BitVec 8)) : Prop where
  /-- it ends, and every index is inside the buffer -/
  ends : ∃ r, ∀ fuel, buf.length < fuel → ivrsFirstBase fuel buf = some r
  /-- it looks at the declared bytes only -/
  declared : ∀ total, readAt buf 4 4 = some total → total ≤ buf.length → ∀ fuel, buf.length < fuel →
    ivrsFirstBase fuel (buf.take total) = ivrsFirstBase fuel buf
  first : ∀ base count fuel, buf.length < fuel → ivrsFirstBase fuel buf = some (some (base, count)) →
    ((blocks buf).filter Block.isIvhd).head?.map Block.base = some base ∧
      count = ((blocks buf).filter Block.isIvhd).length

/-- **When the walk finds what it claims to find**: on the tables whose blocks are all IVHDs, and on no others. -/
theorem ivrs_first_base_iff (buf : List (BitVec 8)) : FindsIommu buf ↔ ∀ b ∈ blocks buf, b.isIvhd = true := by
  constructor
  · intro h
    cases hb : blocks buf with
    | nil => simp
    | cons b bs =>
      have hret := ivrsFirstBase_eq buf (buf.length + 1) (by omega)
      rw [hb] at hret
      obtain ⟨_, hcount⟩ := h.first _ _ _ (by omega) hret
      rw [hb] at hcount
      exact List.length_filter_eq_length_iff.1 hcount.symm
  · intro hall
    obtain ⟨hends, hdeclared⟩ := ivrs_walk_safe buf
    refine ⟨hends, hdeclared, fun base count fuel hfuel hret => ?_⟩
    rw [ivrsFirstBase_eq buf fuel hfuel] at hret
    rw [List.filter_eq_self.2 hall]
    cases hb : blocks buf with
    | nil => simp [hb] at hret
    | cons b bs =>
      rw [hb] at hret
      obtain ⟨hbase, hcount⟩ : b.base = base ∧ (b :: bs).length = count := by simpa using hret
      exact ⟨congrArg some hbase, hcount.symm⟩

/-- an IVMD block of 32 bytes, and then the IVHD block of an IOMMU at `0xFED80000`; the bytes sum to zero -/
def ivmdFirst : List (BitVec 8) :=
  IVRS ++ encode 4 104 ++ [2, 0xFC] ++ List.replicate 38 0 ++
    ([0x21, 0x08] ++ encode 2 32 ++ encode 2 0x40 ++ encode 2 0 ++ encode 8 0 ++ encode 8 0x7F000000 ++ encode 8 0x1000) ++
    ([0x10, 0] ++ encode 2 24 ++ encode 2 0 ++ encode 2 0x40 ++ encode 8 0xFED80000 ++ encode 8 0)

/-- the table passes its checksum, two IOMMUs are reported, and the first is said to be at address zero -/
theorem ivmd_taken_for_iommu :
    parseTable ivmdFirst = .ok ⟨IVRS, 104, 2⟩ ∧ ivrsFirstBase 105 ivmdFirst = some (some (0, 2)) ∧
      (blocks ivmdFirst).filter Block.isIvhd = [⟨0x10, 24, 0xFED80000⟩] ∧ ¬ FindsIommu ivmdFirst := by
  have hret : ivrsFirstBase 105 ivmdFirst = some (some (0, 2)) := by decide +kernel
  have hivhd : (blocks ivmdFirst).filter Block.isIvhd = [⟨0x10, 24, 0xFED80000⟩] := by decide +kernel
  refine ⟨by decide +kernel, hret, hivhd, fun h => ?_⟩
  obtain ⟨_, hcount⟩ := h.first 0 2 105 (by decide +kernel) hret
  rw [hivhd] at hcount
  exact absurd hcount (by decide)

end Rustproof.Boot.Ivrs
