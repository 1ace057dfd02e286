/-
ACPI tables as firmware writes them, and the search for the IOMMU over them.

`rsdpBytes`, `tableBytes` and `IvrsBlock.bytes` lay the tables out, each with the byte that closes its checksum.
- `discover_placed`: over a memory that holds such tables the search finds the base of the first block of the first IVRS listed.
- `discover_corrupt`: a single wrong byte, outside the lengths and the signatures of the tables and the bytes by which the RSDP is
  found, ends the search without a base if a checksum covers it, and leaves the base as it was if none does.
-/
import Mathlib.Data.BitVec
import Rustproof.Boot.Acpi

namespace Rustproof.Boot.Acpi

open Lib Lib.LittleEndian Lib.Checksum Boot.Ivrs

/-! ## The tables -/

/-- the first 20 bytes of an RSDP -/
def rsdpFirst (oem : List (BitVec 8)) (revision : BitVec 8) (rsdt : ℕ) : List (BitVec 8) :=
  closed RSD_PTR (oem ++ revision :: encode 4 rsdt)

/-- an RSDP; the second part counts from revision 2 on -/
def rsdpBytes (oem : List (BitVec 8)) (revision : BitVec 8) (rsdt xsdt : ℕ) : List (BitVec 8) :=
  closed (rsdpFirst oem revision rsdt ++ (encode 4 36 ++ encode 8 xsdt)) (List.replicate 3 0)

/-- a table: the header of 36 bytes, and the body -/
def tableBytes (signature : List (BitVec 8)) (revision : BitVec 8) (body : List (BitVec 8)) : List (BitVec 8) :=
  closed (signature ++ (encode 4 (36 + body.length) ++ [revision])) (List.replicate 26 0 ++ body)

/-- a block of an IVRS table; `rest` is what follows its base -/
structure IvrsBlock where
  typ : BitVec 8
  flags : BitVec 8
  device : BitVec 16
  capability : BitVec 16
  base : BitVec 64
  rest : List (BitVec 8)
  room : 8 ≤ rest.length
  fits : 16 + rest.length < 2 ^ 16

namespace IvrsBlock

variable (b : IvrsBlock)

def bytes : List (BitVec 8) :=
  b.typ :: b.flags :: (encode 2 (16 + b.rest.length) ++ (encode 2 b.device.toNat ++
    (encode 2 b.capability.toNat ++ (encode 8 b.base.toNat ++ b.rest))))

def block : Block := ⟨b.typ.toNat, 16 + b.rest.length, b.base.toNat⟩

@[simp] theorem length_bytes : b.bytes.length = 16 + b.rest.length := by
  simp only [bytes, List.length_cons, List.length_append, length_encode]
  omega

end IvrsBlock

/-- an RSDT that lists `ps` -/
def rsdtBytes (signature : List (BitVec 8)) (revision : BitVec 8) (ps : List ℕ) : List (BitVec 8) :=
  tableBytes signature revision (ps.flatMap (encode 4))

/-- an IVRS table: after the header twelve bytes of its own, then the blocks -/
def ivrsBytes (revision : BitVec 8) (info : List (BitVec 8)) (bs : List IvrsBlock) : List (BitVec 8) :=
  tableBytes IVRS revision (info ++ bs.flatMap IvrsBlock.bytes)

/-! ## Read back -/

/-- a number after what precedes it -/
theorem readAt_after {front : List (BitVec 8)} {i : ℕ} (hi : i = front.length) (n v : ℕ) (rest : List (BitVec 8)) :
    readAt (front ++ (encode n v ++ rest)) i n = some (v % 256 ^ n) := by
  have hdrop := readAt_drop (front ++ (encode n v ++ rest)) front.length 0 n
  rw [List.drop_left, readAt_encode, Nat.add_zero] at hdrop
  rw [hi, hdrop]

theorem length_tableBytes {signature : List (BitVec 8)} (hsig : signature.length = 4) (revision : BitVec 8)
    (body : List (BitVec 8)) : (tableBytes signature revision body).length = 36 + body.length := by
  rw [tableBytes, length_closed]
  simp only [List.length_append, length_encode, List.length_singleton, List.length_replicate, hsig]
  omega

theorem isRsdp_rsdpBytes {oem : List (BitVec 8)} (hoem : oem.length = 6) (revision : BitVec 8) {rsdt xsdt : ℕ}
    (hrsdt : rsdt < 2 ^ 32) (hxsdt : xsdt < 2 ^ 64) :
    (rsdpBytes oem revision rsdt xsdt).length = 36 ∧
      IsRsdp (rsdpBytes oem revision rsdt xsdt) ⟨revision, rsdt, if revision < 2 ∨ xsdt = 0 then none else some xsdt⟩ := by
  have hfirst : (rsdpFirst oem revision rsdt).length = 20 := by
    simp only [rsdpFirst, length_closed, RSD_PTR, List.length_append, List.length_cons, length_encode, hoem, List.length_nil]
  have hlen : (rsdpBytes oem revision rsdt xsdt).length = 36 := by
    rw [rsdpBytes, length_closed]
    simp only [List.length_append, length_encode, List.length_replicate]
    omega
  have hsplit : rsdpBytes oem revision rsdt xsdt = rsdpFirst oem revision rsdt ++ (encode 4 36 ++ (encode 8 xsdt ++
      (-(rsdpFirst oem revision rsdt ++ (encode 4 36 ++ encode 8 xsdt) ++ List.replicate 3 0).sum :: List.replicate 3 0))) := by
    simp only [rsdpBytes, closed, List.append_assoc]
  have htake : (rsdpBytes oem revision rsdt xsdt).take 20 = rsdpFirst oem revision rsdt := by
    rw [hsplit, List.take_left' hfirst]
  -- the revision is byte 15, the RSDT pointer follows
  set front := RSD_PTR ++ -(RSD_PTR ++ (oem ++ revision :: encode 4 rsdt)).sum :: oem with hfront
  have hfifteen : front.length = 15 := by
    simp only [hfront, RSD_PTR, List.length_append, List.length_cons, List.length_nil, hoem]
  have hfields : rsdpFirst oem revision rsdt = front ++ revision :: encode 4 rsdt := by
    simp only [hfront, rsdpFirst, closed, List.append_assoc, List.cons_append]
  have hrevision : (rsdpBytes oem revision rsdt xsdt).getD 15 0 = revision := by
    rw [hsplit, hfields, List.append_assoc, List.getD_eq_getElem?_getD, List.getElem?_append_right (by omega), hfifteen]
    rfl
  have hrsdt' : readAt (rsdpBytes oem revision rsdt xsdt) 16 4 = some rsdt := by
    rw [hsplit, hfields, List.append_assoc, List.cons_append, ← List.singleton_append, ← List.append_assoc front,
      readAt_after (by rw [List.length_append, hfifteen]; rfl), Nat.mod_eq_of_lt (by simpa using hrsdt)]
  have hxsdt' : readAt (rsdpBytes oem revision rsdt xsdt) 24 8 = some xsdt := by
    rw [hsplit, ← List.append_assoc, readAt_after (by rw [List.length_append, hfirst, length_encode]),
      Nat.mod_eq_of_lt (by simpa using hxsdt)]
  refine ⟨hlen, by omega, ?_, by rw [htake]; exact sum_closed _ _, ?_, by rw [hrsdt']; rfl, fun _ => ⟨by omega, ?_⟩, ?_⟩
  · calc (rsdpBytes oem revision rsdt xsdt).take 8 = ((rsdpBytes oem revision rsdt xsdt).take 20).take 8 := by
          rw [List.take_take]
          rfl
      _ = RSD_PTR := by rw [htake, rsdpFirst, closed, List.take_left' (show RSD_PTR.length = 8 from rfl)]
  · exact hrevision.symm
  · rw [List.take_of_length_le (by omega)]
    exact sum_closed _ _
  · rw [hxsdt']
    rfl

/-- a table in memory, its signature, and what its body holds -/
theorem table_of_holds {m : Bytes} {p : ℕ} {signature : List (BitVec 8)} (hsig : signature.length = 4) {revision : BitVec 8}
    {body : List (BitVec 8)} (h : Holds m p (tableBytes signature revision body)) (hp : p ≠ 0)
    (hin : p + (36 + body.length) < IDENTITY_LIMIT) :
    Table m p (36 + body.length) ∧ slice m p 4 = signature ∧ Holds m (p + 36) body := by
  have hslice : slice m p (36 + body.length) = tableBytes signature revision body := by
    have := h
    rwa [Holds, length_tableBytes hsig] at this
  have hsplit : tableBytes signature revision body = signature ++ (encode 4 (36 + body.length) ++ (revision ::
      -(signature ++ (encode 4 (36 + body.length) ++ [revision]) ++ (List.replicate 26 0 ++ body)).sum ::
        List.replicate 26 0 ++ body)) := by
    simp only [tableBytes, closed, List.append_assoc, List.cons_append, List.nil_append]
  rw [hsplit] at h
  obtain ⟨hsignature, h⟩ := holds_append h
  obtain ⟨hlength, h⟩ := holds_append h
  obtain ⟨-, hbody⟩ := holds_append h
  rw [Holds, hsig] at hsignature
  rw [hsig] at hlength
  refine ⟨⟨⟨hp, by omega, hin⟩, ?_, ?_⟩, hsignature, ?_⟩
  · rw [readU32, Multiboot.readLE_of_holds hlength, Nat.mod_eq_of_lt]
    simp only [IDENTITY_LIMIT] at hin
    omega
  · rw [hslice]
    exact sum_closed _ _
  · simpa [hsig, Nat.add_assoc] using hbody

theorem pointers_of_holds {m : Bytes} {a : ℕ} {ps : List ℕ} (h : Holds m a (ps.flatMap (encode 4)))
    (hps : ∀ p ∈ ps, p < 2 ^ 32) : (List.range ps.length).map (fun i => readU32 m (a + i * 4)) = ps := by
  induction ps generalizing a with
  | nil => rfl
  | cons p ps ih =>
    rw [List.flatMap_cons] at h
    obtain ⟨hp, hrest⟩ := holds_append h
    rw [length_encode] at hrest
    have hhead : readU32 m (a + 0 * 4) = p := by
      rw [Nat.zero_mul, Nat.add_zero, readU32, Multiboot.readLE_of_holds hp, Nat.mod_eq_of_lt]
      exact hps p (List.mem_cons_self ..)
    have htail := ih hrest fun q hq => hps q (List.mem_cons_of_mem p hq)
    rw [List.length_cons, List.range_succ_eq_map, List.map_cons, List.map_map, hhead]
    refine congrArg (p :: ·) (Eq.trans (List.map_congr_left fun i _ => ?_) htail)
    rw [Function.comp_apply, Nat.succ_mul]
    congr 1
    omega

/-! ## The blocks -/

theorem blockAt_bytes (front : List (BitVec 8)) (b : IvrsBlock) (rest : List (BitVec 8)) :
    blockAt (front ++ (b.bytes ++ rest)) front.length = some b.block := by
  have hroom := b.room
  have hbase := b.base.isLt
  have htyp : readAt (front ++ (b.bytes ++ rest)) front.length 1 = some b.typ.toNat := by
    rw [← Nat.add_zero front.length, ← readAt_drop, List.drop_left]
    simp [IvrsBlock.bytes, readAt]
  have hlen : readAt (front ++ (b.bytes ++ rest)) (front.length + 2) 2 = some (16 + b.rest.length) := by
    have hi : front.length + 2 = (front ++ [b.typ, b.flags]).length := by simp
    have h := readAt_after hi 2 (16 + b.rest.length) (encode 2 b.device.toNat ++
      (encode 2 b.capability.toNat ++ (encode 8 b.base.toNat ++ b.rest)) ++ rest)
    rw [Nat.mod_eq_of_lt (by simpa using b.fits)] at h
    simpa [IvrsBlock.bytes] using h
  have hread : readAt (front ++ (b.bytes ++ rest)) (front.length + 8) 8 = some b.base.toNat := by
    have hi : front.length + 8 = (front ++ ([b.typ, b.flags] ++ (encode 2 (16 + b.rest.length) ++
        (encode 2 b.device.toNat ++ encode 2 b.capability.toNat)))).length := by simp
    have h := readAt_after hi 8 b.base.toNat (b.rest ++ rest)
    rw [Nat.mod_eq_of_lt (by simpa using hbase)] at h
    simpa [IvrsBlock.bytes] using h
  rw [blockAt, htyp, hlen, hread]
  simp only [Option.getD_some]
  rw [if_pos]
  · rfl
  · simp only [List.length_append, IvrsBlock.length_bytes]
    omega

theorem blocksFrom_bytes (front : List (BitVec 8)) (bs : List IvrsBlock) (fuel : ℕ)
    (hfuel : (bs.flatMap IvrsBlock.bytes).length ≤ fuel) :
    blocksFrom (front ++ bs.flatMap IvrsBlock.bytes) fuel front.length = bs.map IvrsBlock.block := by
  induction bs generalizing front fuel with
  | nil =>
    cases fuel with
    | zero => rfl
    | succ fuel =>
      rw [blocksFrom, blockAt, if_neg]
      · rfl
      · simp only [List.flatMap_nil, List.append_nil]
        omega
  | cons b bs ih =>
    rw [List.flatMap_cons, List.length_append, b.length_bytes] at hfuel
    obtain ⟨fuel, rfl⟩ : ∃ k, fuel = k + 1 := ⟨fuel - 1, by omega⟩
    have hnext := ih (front ++ b.bytes) fuel (by omega)
    rw [List.length_append, b.length_bytes, List.append_assoc] at hnext
    rw [blocksFrom, List.flatMap_cons, blockAt_bytes]
    exact congrArg (b.block :: ·) hnext

theorem blocks_ivrsBytes (revision : BitVec 8) {info : List (BitVec 8)} (hinfo : info.length = 12) {bs : List IvrsBlock}
    (hlen : (ivrsBytes revision info bs).length < 2 ^ 32) :
    blocks (ivrsBytes revision info bs) = bs.map IvrsBlock.block := by
  set front := IVRS ++ (encode 4 (36 + (info ++ bs.flatMap IvrsBlock.bytes).length) ++ [revision]) ++
    -(IVRS ++ (encode 4 (36 + (info ++ bs.flatMap IvrsBlock.bytes).length) ++ [revision]) ++
      (List.replicate 26 0 ++ (info ++ bs.flatMap IvrsBlock.bytes))).sum :: (List.replicate 26 0 ++ info) with hfront
  have hflen : front.length = 48 := by
    simp [hfront, IVRS, hinfo]
  have hsplit : ivrsBytes revision info bs = front ++ bs.flatMap IvrsBlock.bytes := by
    simp only [hfront, ivrsBytes, tableBytes, closed, List.append_assoc, List.cons_append, List.nil_append]
  have hlength := length_tableBytes (show IVRS.length = 4 from rfl) revision (info ++ bs.flatMap IvrsBlock.bytes)
  have htotal : readAt (ivrsBytes revision info bs) 4 4 = some (ivrsBytes revision info bs).length := by
    have hread : readAt (ivrsBytes revision info bs) 4 4 =
        some ((36 + (info ++ bs.flatMap IvrsBlock.bytes).length) % 256 ^ 4) := by
      rw [ivrsBytes, tableBytes, closed, List.append_assoc, List.append_assoc]
      exact readAt_after rfl 4 _ _
    rw [ivrsBytes, hlength] at hlen
    rw [hread, ivrsBytes, hlength, Nat.mod_eq_of_lt (by simpa using hlen)]
  rw [blocks, htotal]
  simp only [Option.getD_some]
  rw [if_neg, List.take_length, hsplit, ← hflen]
  · exact blocksFrom_bytes front bs _ (by rw [List.length_append]; omega)
  · rintro (hshort | hsig | hlong)
    · rw [hsplit, List.length_append] at hshort
      omega
    · exact hsig rfl
    · exact lt_irrefl _ hlong

/-! ## The search over tables in place -/

/-- the tables the search goes through: the RSDP, an RSDT of `len` bytes, and an IVRS of `l` bytes at `p` -/
structure Chain (m : Bytes) (p0 : ℕ) (r : Rsdp) (len p l : ℕ) : Prop where
  rsdp : IsRsdp (slice m p0 36) r
  rsdt : Table m r.rsdt len
  first : (pointers m r.rsdt len).find? (fun q => decide (Signed m q)) = some p
  ivrs : Table m p l

theorem base_iff_chain {m : Bytes} {fuel : ℕ} (hfuel : IDENTITY_LIMIT ≤ fuel) (p0 b n : ℕ) :
    (followRsdp m fuel p0).map Search.outcome = some (.base b n) ↔ ∃ r len p l, Chain m p0 r len p l ∧
      (blocks (slice m p l)).head?.map Block.base = some b ∧ (blocks (slice m p l)).length = n := by
  obtain ⟨s, hs, hbase, -⟩ := followRsdp_eq m hfuel p0
  rw [hs, Option.map_some, Option.some.injEq, hbase]
  constructor
  · rintro ⟨r, hr, len, p, hrsdt, hfind, l, hivrs, hb, hn⟩
    exact ⟨r, len, p, l, ⟨hr, hrsdt, hfind, hivrs⟩, hb, hn⟩
  · rintro ⟨r, len, p, l, c, hb, hn⟩
    exact ⟨r, c.rsdp, len, p, c.rsdt, c.first, l, c.ivrs, hb, hn⟩

theorem Points.unique {m : Bytes} {firmware : Bool} {a0 p q : ℕ} (hp : Points m firmware a0 p) (hq : Points m firmware a0 q) :
    p = q := by
  obtain ⟨x, -, hpoints⟩ := findRsdp_eq m firmware (le_refl IDENTITY_LIMIT) a0
  exact Option.some.inj (((hpoints p).2 hp).symm.trans ((hpoints q).2 hq))

/-- the search finds a base if and only if the RSDP leads to it -/
theorem discover_base {m : Bytes} {firmware : Bool} {fuel a0 b n : ℕ} (hfuel : IDENTITY_LIMIT ≤ fuel) :
    (discover m firmware fuel a0).map Search.outcome = some (.base b n) ↔
      ∃ p, Points m firmware a0 p ∧ (followRsdp m fuel p).map Search.outcome = some (.base b n) := by
  obtain ⟨x, hx, hpoints⟩ := findRsdp_eq m firmware hfuel a0
  rw [discover, hx]
  constructor
  · intro h
    cases x with
    | none => simp at h
    | some p => exact ⟨p, (hpoints p).1 rfl, h⟩
  · rintro ⟨p, hp, h⟩
    obtain rfl := (hpoints p).2 hp
    exact h

/-- the tables of a machine with an IOMMU: an RSDP at `p0`, the RSDT it points to, and among the tables listed there, before any
other that is signed so, an IVRS table of the blocks `bs` -/
structure Placed (m : Bytes) (p0 : ℕ) (bs : List IvrsBlock) where
  oem : List (BitVec 8)
  oemLen : oem.length = 6
  revision : BitVec 8
  rsdt : ℕ
  xsdt : ℕ
  xsdtLt : xsdt < 2 ^ 64
  rsdp : Holds m p0 (rsdpBytes oem revision rsdt xsdt)
  rsdtSig : List (BitVec 8)
  rsdtSigLen : rsdtSig.length = 4
  rsdtRev : BitVec 8
  before : List ℕ
  ivrs : ℕ
  later : List ℕ
  listed : ∀ q ∈ before ++ ivrs :: later, q < 2 ^ 32
  unsigned : ∀ q ∈ before, ¬ Signed m q
  rsdtPos : rsdt ≠ 0
  rsdtIn : rsdt + (rsdtBytes rsdtSig rsdtRev (before ++ ivrs :: later)).length < IDENTITY_LIMIT
  lists : Holds m rsdt (rsdtBytes rsdtSig rsdtRev (before ++ ivrs :: later))
  ivrsRev : BitVec 8
  info : List (BitVec 8)
  infoLen : info.length = 12
  ivrsPos : ivrs ≠ 0
  ivrsIn : ivrs + (ivrsBytes ivrsRev info bs).length < IDENTITY_LIMIT
  holds : Holds m ivrs (ivrsBytes ivrsRev info bs)

namespace Placed

variable {m : Bytes} {p0 : ℕ} {bs : List IvrsBlock} (t : Placed m p0 bs)

theorem isRsdp : IsRsdp (slice m p0 36) ⟨t.revision, t.rsdt, if t.revision < 2 ∨ t.xsdt = 0 then none else some t.xsdt⟩ := by
  have hin := t.rsdtIn
  simp only [IDENTITY_LIMIT] at hin
  obtain ⟨hlen, hr⟩ := isRsdp_rsdpBytes t.oemLen t.revision (show t.rsdt < 2 ^ 32 by omega) t.xsdtLt
  have hholds := t.rsdp
  rw [Holds, hlen] at hholds
  rwa [hholds]

theorem chain : Chain m p0 ⟨t.revision, t.rsdt, if t.revision < 2 ∨ t.xsdt = 0 then none else some t.xsdt⟩
    (rsdtBytes t.rsdtSig t.rsdtRev (t.before ++ t.ivrs :: t.later)).length t.ivrs (ivrsBytes t.ivrsRev t.info bs).length := by
  have hrsdtIn := t.rsdtIn
  have hivrsIn := t.ivrsIn
  have hsig : IVRS.length = 4 := rfl
  rw [rsdtBytes, length_tableBytes t.rsdtSigLen] at hrsdtIn
  rw [ivrsBytes, length_tableBytes hsig] at hivrsIn
  obtain ⟨hrsdt, -, hbody⟩ := table_of_holds t.rsdtSigLen t.lists t.rsdtPos hrsdtIn
  obtain ⟨hivrs, hsigned, -⟩ := table_of_holds hsig t.holds t.ivrsPos hivrsIn
  rw [rsdtBytes, ivrsBytes, length_tableBytes t.rsdtSigLen, length_tableBytes hsig]
  have hptrs : pointers m t.rsdt (36 + ((t.before ++ t.ivrs :: t.later).flatMap (encode 4)).length) =
      t.before ++ t.ivrs :: t.later := by
    have hcount : ((t.before ++ t.ivrs :: t.later).flatMap (encode 4)).length = (t.before ++ t.ivrs :: t.later).length * 4 := by
      simp [List.length_flatMap]
      omega
    rw [pointers, hcount, Nat.add_sub_cancel_left, Nat.mul_div_cancel _ (by omega)]
    simp only [← Nat.add_assoc]
    exact pointers_of_holds hbody t.listed
  refine ⟨t.isRsdp, hrsdt, ?_, hivrs⟩
  have hreach : reachable t.ivrs 36 := ⟨t.ivrsPos, le_refl _, by omega⟩
  rw [hptrs, List.find?_append, List.find?_eq_none.2 (by simpa using t.unsigned), Option.none_or,
    List.find?_cons_of_pos (by simpa using ⟨hreach, hsigned⟩)]

theorem blocks_eq : blocks (slice m t.ivrs (ivrsBytes t.ivrsRev t.info bs).length) = bs.map IvrsBlock.block := by
  have hin := t.ivrsIn
  simp only [IDENTITY_LIMIT] at hin
  rw [t.holds, blocks_ivrsBytes t.ivrsRev t.infoLen (by omega)]

end Placed

/-! ## A machine with two units -/

/-- the blocks of two IOMMUs, the second with an entry of its own -/
def twoUnits : List IvrsBlock :=
  [⟨0x10, 0, 0, 0x40, 0xFED80000, List.replicate 8 0, by decide, by decide⟩,
    ⟨0x11, 0xB0, 0x10, 0x40, 0xFED90000, List.replicate 12 7, by decide, by decide⟩]

/-- a start-info structure at `0x100`, the RSDP at `0x200`, the RSDT at `0x300`, an IVRS table at `0x400`, and another table at
`0x500`, which is listed first -/
def twoUnitMemory : Bytes := fun a =>
  if a < 0x200 then (encode 4 Pvh.PVH_MAGIC ++ encode 4 1 ++ List.replicate 24 0 ++ encode 8 0x200).getD (a - 0x100) 0
  else if a < 0x300 then (rsdpBytes (List.replicate 6 0x42) 2 0x300 0).getD (a - 0x200) 0
  else if a < 0x400 then (rsdtBytes [0x52, 0x53, 0x44, 0x54] 1 [0x500, 0x400]).getD (a - 0x300) 0
  else if a < 0x500 then (ivrsBytes 2 (List.replicate 12 0) twoUnits).getD (a - 0x400) 0
  else (tableBytes [0x41, 0x50, 0x49, 0x43] 4 [1, 2, 3]).getD (a - 0x500) 0

def twoUnitPlaced : Placed twoUnitMemory 0x200 twoUnits where
  oem := List.replicate 6 0x42
  oemLen := by decide
  revision := 2
  rsdt := 0x300
  xsdt := 0
  xsdtLt := by decide
  rsdp := by unfold Holds; decide +kernel
  rsdtSig := [0x52, 0x53, 0x44, 0x54]
  rsdtSigLen := by decide
  rsdtRev := 1
  before := [0x500]
  ivrs := 0x400
  later := []
  listed := by decide
  unsigned := by decide +kernel
  rsdtPos := by decide
  rsdtIn := by decide +kernel
  lists := by unfold Holds; decide +kernel
  ivrsRev := 2
  info := List.replicate 12 0
  infoLen := by decide
  ivrsPos := by decide
  ivrsIn := by decide +kernel
  holds := by unfold Holds; decide +kernel

theorem twoUnit_points : Points twoUnitMemory false 0x100 0x200 := by
  rw [Points, if_neg (by decide)]
  decide +kernel

/-- the search goes through the tables of this memory and no others -/
theorem twoUnit_exact : ∃ s, discover twoUnitMemory false IDENTITY_LIMIT 0x100 = some s ∧ s.outcome = .base 0xFED80000 2 ∧
    ∀ rd ∈ s.reads, rd.1 < IDENTITY_LIMIT := by
  obtain ⟨s, hs, hbase, hreads⟩ := discover_exact twoUnitMemory false IDENTITY_LIMIT 0x100 (le_refl _)
  have c := twoUnitPlaced.chain
  have hblocks := twoUnitPlaced.blocks_eq
  refine ⟨s, hs, (hbase _ _).2 ⟨0x200, _, twoUnit_points, c.rsdp, _, _, c.rsdt, c.first, _, c.ivrs, ?_, ?_⟩, fun rd hrd =>
    (hreads rd hrd).2.1⟩
  · rw [hblocks]
    rfl
  · rw [hblocks]
    rfl

/-- **The search reads what firmware wrote**: the base of the first block, and the number of blocks. -/
theorem discover_placed (m : Bytes) (firmware : Bool) (fuel a0 p0 : ℕ) (bs : List IvrsBlock) (hfuel : IDENTITY_LIMIT ≤ fuel)
    (hp0 : Points m firmware a0 p0) (t : Placed m p0 bs) (hbs : bs ≠ []) :
    (discover m firmware fuel a0).map Search.outcome = some (.base (bs.head hbs).base.toNat bs.length) := by
  refine (discover_base hfuel).2 ⟨p0, hp0, (base_iff_chain hfuel p0 _ _).2 ⟨_, _, _, _, t.chain, ?_, ?_⟩⟩
  · rw [t.blocks_eq]
    cases bs with
    | nil => exact absurd rfl hbs
    | cons b bs => rfl
  · rw [t.blocks_eq, List.length_map]

theorem twoUnit_placed : (discover twoUnitMemory false IDENTITY_LIMIT 0x100).map Search.outcome = some (.base 0xFED80000 2) :=
  discover_placed twoUnitMemory false IDENTITY_LIMIT 0x100 0x200 twoUnits (le_refl _) twoUnit_points twoUnitPlaced
    (by simp [twoUnits])

/-! ## One wrong byte -/

theorem readLE_congr {m m' : Bytes} {a n : ℕ} (h : slice m' a n = slice m a n) : readLE m' a n = readLE m a n := by
  have hread := Multiboot.readAt_slice m' a (show 0 + n ≤ n by omega)
  rw [h, Multiboot.readAt_slice m a (by omega)] at hread
  simpa using (Option.some.inj hread).symm

/-- a wrong byte among bytes that sum to zero shows -/
theorem sum_update_ne {m : Bytes} {p len a : ℕ} {v : BitVec 8} (hsum : (slice m p len).sum = 0) (hv : v ≠ m a)
    (hlow : p ≤ a) (hhigh : a < p + len) : (slice (Function.update m a v) p len).sum ≠ 0 := by
  have hi : a - p < (slice m p len).length := by rw [length_slice]; omega
  rw [slice_update_of_mem hlow]
  intro hzero
  have hval := (sum_set_eq_zero hsum hi v).1 hzero
  have hat : (slice m p len)[a - p] = m (p + (a - p)) :=
    Option.some.inj ((List.getElem?_eq_getElem hi).symm.trans (getElem?_slice m p (by omega)))
  rw [hat, Nat.add_sub_cancel' hlow] at hval
  exact hv hval

/-- `a` is among the bytes of such tables that a checksum covers -/
def Covers (p0 : ℕ) (r : Rsdp) (len p l a : ℕ) : Prop :=
  (p0 ≤ a ∧ a < p0 + 20) ∨ (2 ≤ r.revision ∧ p0 ≤ a ∧ a < p0 + 36) ∨ (r.rsdt ≤ a ∧ a < r.rsdt + len) ∨
    (p ≤ a ∧ a < p + l)

/-- `a` is a byte by which the RSDP is found: of the magic, the version or the RSDP pointer of the start-info structure, or of the
window that is scanned under firmware -/
def Locates (firmware : Bool) (a0 a : ℕ) : Prop :=
  if firmware then BIOS_SCAN_START ≤ a ∧ a < BIOS_SCAN_END
  else (a0 ≤ a ∧ a < a0 + 8) ∨ (a0 + 32 ≤ a ∧ a < a0 + 40)

/-- `a` is a byte of the length of the RSDT, or of the signature or the length of a table listed there -/
def Frames (m : Bytes) (r : Rsdp) (len a : ℕ) : Prop :=
  (r.rsdt + 4 ≤ a ∧ a < r.rsdt + 8) ∨ ∃ q ∈ pointers m r.rsdt len, q ≤ a ∧ a < q + 8

section Corrupt

variable {m : Bytes} {p0 len p l a : ℕ} {r : Rsdp} {v : BitVec 8}

theorem readLE_update {q n : ℕ} (h : a < q ∨ q + n ≤ a) : readLE (Function.update m a v) q n = readLE m q n :=
  readLE_congr (slice_update_of_notMem h v)

theorem Table.update {q k : ℕ} (h : Table m q k) (ha : a < q ∨ q + k ≤ a) : Table (Function.update m a v) q k := by
  have := h.room
  refine ⟨h.reach, ?_, by rw [slice_update_of_notMem ha, h.sum]⟩
  rw [readU32, readLE_update (by omega)]
  exact h.declared

theorem pointers_update {q k : ℕ} (hroom : 36 ≤ k) (ha : a < q ∨ q + k ≤ a) :
    pointers (Function.update m a v) q k = pointers m q k := by
  refine List.map_congr_left fun i hi => ?_
  have := List.mem_range.1 hi
  rw [readU32, readLE_update (by omega), ← readU32]

theorem signed_update {q : ℕ} (ha : ¬ (q ≤ a ∧ a < q + 8)) : Signed (Function.update m a v) q ↔ Signed m q := by
  rw [Signed, Signed, slice_update_of_notMem (by omega)]

/-- what follows from an RSDP in either memory when the wrong byte is outside its first part -/
theorem IsRsdp.fields_update {r' : Rsdp} (h : IsRsdp (slice m p0 36) r) (h' : IsRsdp (slice (Function.update m a v) p0 36) r')
    (ha : a < p0 ∨ p0 + 20 ≤ a) : r'.revision = r.revision ∧ r'.rsdt = r.rsdt := by
  refine ⟨?_, ?_⟩
  · rw [h.revision, h'.revision, List.getD_eq_getElem?_getD, List.getD_eq_getElem?_getD, getElem?_slice _ _ (by omega),
      getElem?_slice _ _ (by omega), Function.update_of_ne (by omega)]
  · rw [h.rsdt, h'.rsdt, Multiboot.readAt_slice _ _ (by omega), Multiboot.readAt_slice _ _ (by omega), readLE_update (by omega)]

theorem IsRsdp.update (h : IsRsdp (slice m p0 36) r) (ha : a < p0 ∨ p0 + 20 ≤ a)
    (hext : 2 ≤ r.revision → a < p0 ∨ p0 + 36 ≤ a) : IsRsdp (slice (Function.update m a v) p0 36) r := by
  by_cases hout : a < p0 ∨ p0 + 36 ≤ a
  · rwa [slice_update_of_notMem hout]
  · have hlow : r.revision < 2 := BitVec.not_le.1 fun h2 => hout (hext h2)
    have htake : ∀ k, k ≤ 20 → (slice (Function.update m a v) p0 36).take k = (slice m p0 36).take k := fun k hk => by
      have hspan : 36 = k + (36 - k) := by omega
      rw [hspan, take_slice, take_slice, slice_update_of_notMem (by omega)]
    refine ⟨by rw [length_slice]; omega, by rw [htake 8 (by omega), h.signature], by rw [htake 20 (le_refl _), h.sum], ?_, ?_,
      fun h2 => absurd hlow (BitVec.not_lt.2 h2), by rw [h.xsdt, if_pos (Or.inl hlow), if_pos (Or.inl hlow)]⟩
    · rw [h.revision, List.getD_eq_getElem?_getD, List.getD_eq_getElem?_getD, getElem?_slice _ _ (by omega),
        getElem?_slice _ _ (by omega), Function.update_of_ne (by omega)]
    · rw [h.rsdt, Multiboot.readAt_slice _ _ (by omega), Multiboot.readAt_slice _ _ (by omega), readLE_update (by omega)]

theorem find_update {q k : ℕ} (hframe : ¬ ∃ q' ∈ pointers m q k, q' ≤ a ∧ a < q' + 8) :
    (pointers m q k).find? (fun q => decide (Signed (Function.update m a v) q)) =
      (pointers m q k).find? (fun q => decide (Signed m q)) :=
  List.find?_congr fun q' hq' => decide_eq_decide.2 (signed_update fun h => hframe ⟨q', hq', h⟩)

theorem Chain.unique {r' : Rsdp} {len' p' l' : ℕ} (c : Chain m p0 r len p l) (c' : Chain m p0 r' len' p' l') :
    p' = p ∧ l' = l := by
  obtain rfl : r' = r := Except.ok.inj ((parseRsdp_iff.2 c'.rsdp).symm.trans (parseRsdp_iff.2 c.rsdp))
  obtain rfl : len' = len := c'.rsdt.declared.symm.trans c.rsdt.declared
  obtain rfl : p' = p := Option.some.inj (c'.first.symm.trans c.first)
  exact ⟨rfl, c'.ivrs.declared.symm.trans c.ivrs.declared⟩

/-- a wrong byte that no checksum covers -/
theorem Chain.update (c : Chain m p0 r len p l) (hframe : ¬ Frames m r len a) (hcover : ¬ Covers p0 r len p l a) :
    Chain (Function.update m a v) p0 r len p l := by
  simp only [Covers, not_or] at hcover
  obtain ⟨hfirst, hext, hrsdt, hivrs⟩ := hcover
  refine ⟨c.rsdp.update (by omega) fun h2 => ?_, c.rsdt.update (by omega), ?_, c.ivrs.update (by omega)⟩
  · by_contra hin
    exact hext ⟨h2, by omega, by omega⟩
  · rw [pointers_update c.rsdt.room (by omega), find_update fun h => hframe (Or.inr h), c.first]

/-- a search that goes through in spite of a wrong byte goes through the same tables, and no checksum covers the byte -/
theorem Chain.of_update {r' : Rsdp} {len' p' l' : ℕ} (c : Chain m p0 r len p l)
    (c' : Chain (Function.update m a v) p0 r' len' p' l') (hv : v ≠ m a) (hframe : ¬ Frames m r len a) :
    ¬ Covers p0 r len p l a ∧ p' = p ∧ l' = l := by
  have htake : ∀ m' : Bytes, (slice m' p0 36).take 20 = slice m' p0 20 := fun m' => take_slice m' p0 20 16
  have hfirst : a < p0 ∨ p0 + 20 ≤ a := by
    by_contra hin
    have hsum := c'.rsdp.sum
    rw [htake] at hsum
    exact sum_update_ne (by rw [← htake, c.rsdp.sum]) hv (by omega) (by omega) hsum
  obtain ⟨hrev, hptr⟩ := c.rsdp.fields_update c'.rsdp hfirst
  have hext : 2 ≤ r.revision → a < p0 ∨ p0 + 36 ≤ a := fun h2 => by
    by_contra hin
    have hsum := (c.rsdp.extended h2).2
    have hsum' := (c'.rsdp.extended (hrev ▸ h2)).2
    rw [List.take_of_length_le (by rw [length_slice])] at hsum hsum'
    exact sum_update_ne hsum hv (by omega) (by omega) hsum'
  -- the RSDT
  have hrsdtLen : len' = len := by
    rw [← c'.rsdt.declared, ← c.rsdt.declared, hptr, readU32, readLE_update, ← readU32]
    by_contra hin
    exact hframe (Or.inl (by omega))
  have htable := c'.rsdt
  rw [hptr, hrsdtLen] at htable
  have hrsdt : a < r.rsdt ∨ r.rsdt + len ≤ a := by
    by_contra hin
    exact sum_update_ne c.rsdt.sum hv (by omega) (by omega) htable.sum
  have hfind := c'.first
  rw [hptr, hrsdtLen, pointers_update c.rsdt.room hrsdt, find_update fun h => hframe (Or.inr h), c.first] at hfind
  obtain rfl := Option.some.inj hfind
  -- the IVRS
  have hmem : p ∈ pointers m r.rsdt len := List.mem_of_find?_eq_some c.first
  have hivrsLen : l' = l := by
    rw [← c'.ivrs.declared, ← c.ivrs.declared, readU32, readLE_update, ← readU32]
    by_contra hin
    exact hframe (Or.inr ⟨p, hmem, by omega⟩)
  subst hivrsLen
  have hivrs : a < p ∨ p + l' ≤ a := by
    by_contra hin
    exact sum_update_ne c.ivrs.sum hv (by omega) (by omega) c'.ivrs.sum
  refine ⟨?_, rfl, rfl⟩
  rintro (h | ⟨h2, h⟩ | h | h)
  · omega
  · have := hext h2
    omega
  · omega
  · omega

/-- from the RSDP at `p0` on, a wrong byte ends the search without a base if a checksum covers it, and otherwise leaves the base
as it was -/
theorem follow_update (c : Chain m p0 r len p l) {fuel b n : ℕ} (hfuel : IDENTITY_LIMIT ≤ fuel)
    (hbase : (followRsdp m fuel p0).map Search.outcome = some (.base b n)) (hv : v ≠ m a) (hframe : ¬ Frames m r len a)
    (b' n' : ℕ) :
    (followRsdp (Function.update m a v) fuel p0).map Search.outcome = some (.base b' n') ↔
      b' = b ∧ n' = n ∧ ¬ Covers p0 r len p l a := by
  obtain ⟨r₁, len₁, p₁, l₁, c₁, hb, hn⟩ := (base_iff_chain hfuel p0 b n).1 hbase
  obtain ⟨rfl, rfl⟩ := c.unique c₁
  have hslice : ¬ Covers p0 r len p₁ l₁ a → slice (Function.update m a v) p₁ l₁ = slice m p₁ l₁ := fun hcover => by
    simp only [Covers, not_or] at hcover
    exact slice_update_of_notMem (by omega) v
  rw [base_iff_chain hfuel]
  constructor
  · rintro ⟨r', len', p', l', c', hb', hn'⟩
    obtain ⟨hcover, rfl, rfl⟩ := c.of_update c' hv hframe
    rw [hslice hcover] at hb' hn'
    exact ⟨Option.some.inj (hb'.symm.trans hb), hn'.symm.trans hn, hcover⟩
  · rintro ⟨rfl, rfl, hcover⟩
    exact ⟨r, len, p₁, l₁, c.update hframe hcover, by rwa [hslice hcover], by rw [hslice hcover, hn]⟩

variable {firmware : Bool} {a0 : ℕ}

/-- outside the bytes by which the RSDP is found, a wrong byte leaves it where it is -/
theorem points_update (ha : ¬ Locates firmware a0 a) (q : ℕ) :
    Points (Function.update m a v) firmware a0 q ↔ Points m firmware a0 q := by
  cases firmware with
  | true =>
    have hout : a < BIOS_SCAN_START ∨ BIOS_SCAN_START + (BIOS_SCAN_END - BIOS_SCAN_START) ≤ a := by
      simp only [Locates, if_true, BIOS_SCAN_START, BIOS_SCAN_END] at ha ⊢
      omega
    rw [Points, Points, if_pos rfl, if_pos rfl, biosWindow, slice_update_of_notMem hout, biosWindow]
  | false =>
    simp only [Locates, Bool.false_eq_true, if_false, not_or] at ha
    have hmagic : (Pvh.startInfoAt (Function.update m a v) a0).magic = (Pvh.startInfoAt m a0).magic := readLE_update (by omega)
    have hversion : (Pvh.startInfoAt (Function.update m a v) a0).version = (Pvh.startInfoAt m a0).version :=
      readLE_update (by omega)
    have hpointer : readU64 (Function.update m a v) (a0 + 32) = readU64 m (a0 + 32) := readLE_update (by omega)
    have hsame : pvhRsdp (Function.update m a v) a0 = pvhRsdp m a0 := by
      rw [pvhRsdp, pvhRsdp, hmagic, hversion, hpointer]
    rw [Points, Points, if_neg Bool.false_ne_true, if_neg Bool.false_ne_true, hsame]

/-- **One wrong byte.** Outside the bytes that say how long a table is and how it is signed, a wrong byte that does not lead the
search to another RSDP leads it to no other base: the base is as it was if the RSDP is still found and no checksum covers the
byte, and else there is none. -/
theorem discover_corrupt (hp0 : Points m firmware a0 p0) (c : Chain m p0 r len p l) {fuel b n : ℕ} (hfuel : IDENTITY_LIMIT ≤ fuel)
    (hbase : (discover m firmware fuel a0).map Search.outcome = some (.base b n)) (hv : v ≠ m a) (hframe : ¬ Frames m r len a)
    (hfound : ∀ q, Points (Function.update m a v) firmware a0 q → q = p0) (b' n' : ℕ) :
    (discover (Function.update m a v) firmware fuel a0).map Search.outcome = some (.base b' n') ↔
      b' = b ∧ n' = n ∧ Points (Function.update m a v) firmware a0 p0 ∧ ¬ Covers p0 r len p l a := by
  rw [discover_base hfuel] at hbase ⊢
  obtain ⟨q, hq, hbase⟩ := hbase
  obtain rfl := hq.unique hp0
  have hfollow := follow_update c hfuel hbase hv hframe b' n'
  constructor
  · rintro ⟨q', hq', hbase'⟩
    obtain rfl := hfound q' hq'
    obtain ⟨hb, hn, hcover⟩ := hfollow.1 hbase'
    exact ⟨hb, hn, hq', hcover⟩
  · rintro ⟨hb, hn, hq', hcover⟩
    exact ⟨q, hq', hfollow.2 ⟨hb, hn, hcover⟩⟩

end Corrupt

/-- one bit of the first unit's base turned over: no base, where the table without its checksum names `0xFED80001`; and a byte
behind the tables changes nothing -/
theorem twoUnit_corrupt :
    (∀ b n, (discover (Function.update twoUnitMemory 0x438 1) false IDENTITY_LIMIT 0x100).map Search.outcome ≠ some (.base b n)) ∧
    (discover (Function.update twoUnitMemory 0x600 1) false IDENTITY_LIMIT 0x100).map Search.outcome =
      some (.base 0xFED80000 2) := by
  have c := twoUnitPlaced.chain
  have hbase : (discover twoUnitMemory false IDENTITY_LIMIT 0x100).map Search.outcome = some (.base 0xFED80000 2) :=
    (discover_base (le_refl _)).2 ⟨0x200, twoUnit_points, (base_iff_chain (le_refl _) _ _ _).2 ⟨_, _, _, _, c, by
      rw [twoUnitPlaced.blocks_eq]; rfl, by rw [twoUnitPlaced.blocks_eq]; rfl⟩⟩
  have hsame : ∀ a ∈ [0x438, 0x600], ∀ q, Points (Function.update twoUnitMemory a 1) false 0x100 q ↔ q = 0x200 := by
    intro a ha q
    have hout : ¬ Locates false 0x100 a := by
      unfold Locates
      revert a
      decide
    rw [points_update hout]
    exact ⟨fun hq => hq.unique twoUnit_points, fun hq => hq ▸ twoUnit_points⟩
  refine ⟨fun b n hfound => ?_, ?_⟩
  · refine ((discover_corrupt twoUnit_points c (le_refl _) hbase (a := 0x438) (v := 1) (by decide +kernel) ?_ (fun q =>
      (hsame 0x438 (by simp) q).1) _ _).1 hfound).2.2.2 ?_
    · unfold Frames
      decide +kernel
    · unfold Covers
      decide +kernel
  · refine (discover_corrupt twoUnit_points c (le_refl _) hbase (a := 0x600) (v := 1) (by decide +kernel) ?_ (fun q =>
      (hsame 0x600 (by simp) q).1) _ _).2 ⟨rfl, rfl, (hsame 0x600 (by simp) _).2 rfl, ?_⟩
    · unfold Frames
      decide +kernel
    · unfold Covers
      decide +kernel

end Rustproof.Boot.Acpi
