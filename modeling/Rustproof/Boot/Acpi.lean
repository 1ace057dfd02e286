/-
The search for the IOMMU's registers at boot: the RSDP, the RSDT it points to, and the IVRS table among the tables listed there
(`crates/kernel/src/acpi.rs`, `report_ivrs` and the part of `run` around it).

Under firmware the RSDP is looked for in the last 128 KiB below 1 MiB; on a PVH boot the start-info structure holds its address.
Everything behind it is a pointer somebody else wrote, so each table is bounded to the identity-mapped window before it is read,
read again at its declared length, and believed if its bytes sum to zero.
- `scanForRsdp_eq`: the scan ends, and finds the lowest RSDP there is.
- `discover_exact`: the search ends; it finds a base exactly where intact tables lead to one; and its reads lie inside the window,
  but for the RSDP of a PVH boot, of which only the first byte is bounded.
-/
import Mathlib.Data.BitVec
import Rustproof.Boot.Ivrs
import Rustproof.Boot.MapEncoding
import Rustproof.Boot.Pvh
import Rustproof.Lib.Checksum

namespace Rustproof.Boot.Acpi

open Lib Lib.LittleEndian Boot.Ivrs

/-! ## The code -/

structure Rsdp where
  revision : BitVec 8
  rsdt : ℕ
  /-- `none` on a revision that has none -/
  xsdt : Option ℕ
deriving DecidableEq, Repr

/-- `b"RSD PTR "` -/
def RSD_PTR : List (BitVec 8) := [0x52, 0x53, 0x44, 0x20, 0x50, 0x54, 0x52, 0x20]

/-- `parse_rsdp` -/
def parseRsdp (buf : List (BitVec 8)) : Except RsdpErr Rsdp :=
  if buf.length < 20 then .error .truncated
  else if buf.take 8 ≠ RSD_PTR then .error .badSignature
  else if (buf.take 20).foldl (· + ·) 0 ≠ 0 then .error .badChecksum
  else
    let revision := buf.getD 15 0
    let rsdt := (readAt buf 16 4).getD 0
    if revision < 2 then .ok ⟨revision, rsdt, none⟩
    else if buf.length < 36 then .error .truncated
    else if (buf.take 36).foldl (· + ·) 0 ≠ 0 then .error .badExtendedChecksum
    else
      let x := (readAt buf 24 8).getD 0
      .ok ⟨revision, rsdt, if x = 0 then none else some x⟩

/-- `rsdt_entries` -/
def rsdtEntries (buf : List (BitVec 8)) : List ℕ :=
  (List.range ((buf.length - 36) / 4)).map fun i => (readAt buf (36 + i * 4) 4).getD 0

/-- the loop of `scan_for_rsdp`; `none` when it is still running after `fuel` rounds -/
def scanFrom (buf : List (BitVec 8)) : ℕ → ℕ → Option (Option ℕ)
  | 0, _ => none
  | fuel + 1, off =>
    if off + 20 ≤ buf.length then
      if (buf.drop off).take 8 = RSD_PTR ∧ (parseRsdp (buf.drop off)).toBool = true then some (some off)
      else scanFrom buf fuel (off + 16)
    else some none

/-- `scan_for_rsdp`, with the loop given `fuel` rounds -/
def scanForRsdp (fuel : ℕ) (buf : List (BitVec 8)) : Option (Option ℕ) := scanFrom buf fuel 0

def BIOS_SCAN_START : ℕ := 0xE0000

def BIOS_SCAN_END : ℕ := 0x100000

/-- how the search ended: the last line it reports -/
inductive Outcome where
  | noRsdp
  | rsdpRefused (e : RsdpErr)
  | rsdtOutside
  | rsdtTooLong (len : ℕ)
  | rsdtChecksum
  | noIvrs (tables : ℕ)
  | ivrsTooLong (p len : ℕ)
  | ivrsChecksum (p : ℕ)
  | noIvhd (p : ℕ)
  | base (b n : ℕ)
deriving DecidableEq, Repr

/-- `AMDVI_BASE` after the search -/
def Outcome.amdviBase : Outcome → ℕ
  | .base b _ => b
  | _ => 0

/-- how the search ended, and each slice of memory it took: its address and its length -/
structure Search where
  outcome : Outcome
  reads : List (ℕ × ℕ)
deriving DecidableEq, Repr

def Search.after (r : ℕ × ℕ) (s : Search) : Search := { s with reads := r :: s.reads }

/-- `reachable`: a table of `len` bytes at `p` lies inside the identity-mapped window -/
def reachable (p len : ℕ) : Prop := p ≠ 0 ∧ 36 ≤ len ∧ p + len < IDENTITY_LIMIT

instance (p len : ℕ) : Decidable (reachable p len) := by unfold reachable; infer_instance

variable (m : Bytes)

/-- the IVRS table at `p`, whose header is in reach -/
def readIvrs (fuel p : ℕ) : Option Search :=
  let l := (readAt (slice m p 36) 4 4).getD 0
  if ¬ reachable p l then some ⟨.ivrsTooLong p l, []⟩
  else
    match parseTable (slice m p l) with
    | .error _ => some ⟨.ivrsChecksum p, [(p, l)]⟩
    | .ok _ =>
      match ivrsFirstBase fuel (slice m p l) with
      | none => none
      | some none => some ⟨.noIvhd p, [(p, l)]⟩
      | some (some (b, n)) => some ⟨.base b n, [(p, l)]⟩

/-- the loop of `report_ivrs` over the pointers of the RSDT -/
def followEntries (fuel : ℕ) : ℕ → List ℕ → Option Search
  | tables, [] => some ⟨.noIvrs tables, []⟩
  | tables, p :: ps =>
    if ¬ reachable p 36 then followEntries fuel (tables + 1) ps
    else if (slice m p 36).take 4 ≠ IVRS then (followEntries fuel (tables + 1) ps).map (Search.after (p, 36))
    else (readIvrs m fuel p).map (Search.after (p, 36))

/-- `report_ivrs` -/
def reportIvrs (fuel rsdt : ℕ) : Option Search :=
  if ¬ reachable rsdt 36 then some ⟨.rsdtOutside, []⟩
  else
    let len := (readAt (slice m rsdt 36) 4 4).getD 0
    if ¬ reachable rsdt len then some ⟨.rsdtTooLong len, [(rsdt, 36)]⟩
    else
      match parseTable (slice m rsdt len) with
      | .error _ => some ⟨.rsdtChecksum, [(rsdt, 36), (rsdt, len)]⟩
      | .ok _ =>
        (followEntries m fuel 0 (rsdtEntries (slice m rsdt len))).map fun s => (s.after (rsdt, len)).after (rsdt, 36)

/-- `pvh::rsdp` -/
def pvhRsdp (startInfo : ℕ) : Option ℕ :=
  if startInfo = 0 then none
  else if (Pvh.startInfoAt m startInfo).magic ≠ Pvh.PVH_MAGIC ∨ (Pvh.startInfoAt m startInfo).version < 1 then none
  else
    let p := readU64 m (startInfo + 32)
    if p = 0 then none else if p ≥ IDENTITY_LIMIT then none else some p

/-- the bytes `run` scans under firmware -/
def biosWindow : List (BitVec 8) := slice m BIOS_SCAN_START (BIOS_SCAN_END - BIOS_SCAN_START)

/-- `found` in `run`; `firmware` is the feature `firmware-boot` -/
def findRsdp (firmware : Bool) (fuel a0 : ℕ) : Option (Option ℕ) :=
  if firmware then (scanForRsdp fuel (biosWindow m)).map (Option.map (BIOS_SCAN_START + ·)) else some (pvhRsdp m a0)

/-- what `run` does with the RSDP at `p` -/
def followRsdp (fuel p : ℕ) : Option Search :=
  match parseRsdp (slice m p 36) with
  | .error e => some ⟨.rsdpRefused e, [(p, 36)]⟩
  | .ok r => (reportIvrs m fuel r.rsdt).map (Search.after (p, 36))

/-- the search of `run` for the register base -/
def discover (firmware : Bool) (fuel a0 : ℕ) : Option Search :=
  match findRsdp m firmware fuel a0 with
  | none => none
  | some none => some ⟨.noRsdp, []⟩
  | some (some p) => followRsdp m fuel p

/-! ## What stands in memory -/

/-- a table of `len` bytes at `p`: the window holds it, it declares its length, and its bytes sum to zero -/
structure Table (p len : ℕ) : Prop where
  reach : reachable p len
  declared : readU32 m (p + 4) = len
  sum : (slice m p len).sum = 0

/-- the pointers of an RSDT of `len` bytes -/
def pointers (rsdt len : ℕ) : List ℕ := (List.range ((len - 36) / 4)).map fun i => readU32 m (rsdt + (36 + i * 4))

/-- a header in reach, with the signature of an IVRS table -/
def Signed (p : ℕ) : Prop := reachable p 36 ∧ slice m p 4 = IVRS

instance (p : ℕ) : Decidable (Signed m p) := by unfold Signed; infer_instance

/-- the table at `p` gives the base `b`, of the first of its `n` blocks -/
def GivesBase (p b n : ℕ) : Prop :=
  ∃ l, Table m p l ∧ (blocks (slice m p l)).head?.map Block.base = some b ∧ (blocks (slice m p l)).length = n

/-- the tables listed at `rsdt` give the base `b`: the first one signed IVRS does -/
def Leads (rsdt b n : ℕ) : Prop :=
  ∃ len p, Table m rsdt len ∧ (pointers m rsdt len).find? (fun p => decide (Signed m p)) = some p ∧ GivesBase m p b n

/-- `buf` starts with the RSDP `r`: its checksums hold, the extended one from revision 2 on -/
structure IsRsdp (buf : List (BitVec 8)) (r : Rsdp) : Prop where
  room : 20 ≤ buf.length
  signature : buf.take 8 = RSD_PTR
  sum : (buf.take 20).sum = 0
  revision : r.revision = buf.getD 15 0
  rsdt : r.rsdt = (readAt buf 16 4).getD 0
  extended : 2 ≤ r.revision → 36 ≤ buf.length ∧ (buf.take 36).sum = 0
  xsdt : r.xsdt = if r.revision < 2 ∨ (readAt buf 24 8).getD 0 = 0 then none else some ((readAt buf 24 8).getD 0)

/-- an RSDP stands at offset `off` of `buf`, where the scan can find it -/
def StandsAt (buf : List (BitVec 8)) (off : ℕ) : Prop :=
  16 ∣ off ∧ off + 20 ≤ buf.length ∧ ∃ r, IsRsdp (buf.drop off) r

/-- the RSDP of this boot -/
def Points (firmware : Bool) (a0 p : ℕ) : Prop :=
  if firmware then BIOS_SCAN_START ≤ p ∧ IsLeast {off | StandsAt (biosWindow m) off} (p - BIOS_SCAN_START)
  else pvhRsdp m a0 = some p

/-! ## Tables -/

theorem Table.room {m : Bytes} {p len : ℕ} (h : Table m p len) : 36 ≤ len := h.reach.2.1

/-- a table read at its declared length passes exactly if it sums to zero -/
theorem parseTable_slice {p len : ℕ} (hroom : 36 ≤ len) (hdeclared : readU32 m (p + 4) = len) :
    (∃ h, parseTable (slice m p len) = .ok h) ↔ (slice m p len).sum = 0 := by
  have hread : readAt (slice m p len) 4 4 = some len := by
    rw [Multiboot.readAt_slice m p (by omega)]
    exact congrArg some hdeclared
  rw [parseTable, if_neg (by rw [length_slice]; omega), hread]
  simp only [Option.getD_some]
  rw [if_neg (by rw [length_slice]; omega), List.take_of_length_le (by rw [length_slice]), ← List.sum_eq_foldl]
  split_ifs with hsum
  · exact ⟨fun ⟨h, hok⟩ => absurd hok (by simp), fun h => absurd h hsum⟩
  · exact ⟨fun _ => not_not.1 hsum, fun _ => ⟨_, rfl⟩⟩

theorem signed_iff {p : ℕ} (hreach : reachable p 36) : (slice m p 36).take 4 = IVRS ↔ Signed m p := by
  rw [Signed, take_slice m p 4 32, and_iff_right hreach]

theorem declared_slice (p : ℕ) : (readAt (slice m p 36) 4 4).getD 0 = readU32 m (p + 4) := by
  rw [Multiboot.readAt_slice m p (by omega)]
  rfl

theorem rsdtEntries_slice (rsdt len : ℕ) : rsdtEntries (slice m rsdt len) = pointers m rsdt len := by
  rw [rsdtEntries, pointers, length_slice]
  refine List.map_congr_left fun i hi => ?_
  have := List.mem_range.1 hi
  rw [Multiboot.readAt_slice m rsdt (by omega)]
  rfl

/-! ## The walk -/

/-- a search that ended where the tables say, on reads inside the window -/
structure Ends (s : Option Search) (gives : ℕ → ℕ → Prop) : Prop where
  ends : s.isSome
  base : ∀ b n, s.map Search.outcome = some (.base b n) ↔ gives b n
  inside : ∀ s' ∈ s, ∀ r ∈ s'.reads, 0 < r.1 ∧ r.1 + r.2 < IDENTITY_LIMIT

theorem Ends.after {s : Option Search} {gives : ℕ → ℕ → Prop} (h : Ends s gives) {p len : ℕ} (hreach : reachable p len) :
    Ends (s.map (Search.after (p, len))) gives := by
  obtain ⟨s, rfl⟩ := Option.isSome_iff_exists.1 h.ends
  refine ⟨rfl, h.base, fun s' hs' r hr => ?_⟩
  obtain rfl : Search.after (p, len) s = s' := by simpa using hs'
  rcases List.mem_cons.1 hr with rfl | hr
  · exact ⟨Nat.pos_of_ne_zero hreach.1, hreach.2.2⟩
  · exact h.inside s rfl r hr

/-- a search that stops without a base -/
theorem Ends.stop {o : Outcome} {reads : List (ℕ × ℕ)} {gives : ℕ → ℕ → Prop} (ho : ∀ b n, o ≠ .base b n)
    (hgives : ∀ b n, ¬ gives b n) (hreads : ∀ r ∈ reads, reachable r.1 r.2) : Ends (some ⟨o, reads⟩) gives := by
  refine ⟨rfl, fun b n => ?_, fun s' hs' r hr => ?_⟩
  · exact ⟨fun h => absurd (Option.some.inj h) (ho b n), fun h => absurd h (hgives b n)⟩
  · obtain rfl := Option.some.inj hs'
    exact ⟨Nat.pos_of_ne_zero (hreads r hr).1, (hreads r hr).2.2⟩

theorem readIvrs_ends {fuel p : ℕ} (hfuel : IDENTITY_LIMIT ≤ fuel) : Ends (readIvrs m fuel p) (GivesBase m p) := by
  rw [readIvrs, declared_slice]
  by_cases hreach : reachable p (readU32 m (p + 4))
  · rw [if_neg (not_not.2 hreach)]
    have hparse := parseTable_slice m hreach.2.1 rfl
    cases hp : parseTable (slice m p (readU32 m (p + 4))) with
    | error e =>
      refine Ends.stop (by simp) (fun b n => ?_) (by simpa using hreach)
      rintro ⟨l, ht, -⟩
      obtain rfl := ht.declared
      obtain ⟨h, hok⟩ := hparse.2 ht.sum
      rw [hp] at hok
      cases hok
    | ok h =>
      have hsum := hparse.1 ⟨h, hp⟩
      have hlen : (slice m p (readU32 m (p + 4))).length < fuel := by
        rw [length_slice]
        have := hreach.2.2
        omega
      have hbase := ivrsFirstBase_eq _ fuel hlen
      have hgives : ∀ b n, GivesBase m p b n ↔ (blocks (slice m p (readU32 m (p + 4)))).head?.map
          (fun x => (x.base, (blocks (slice m p (readU32 m (p + 4)))).length)) = some (b, n) := by
        intro b n
        constructor
        · rintro ⟨l, ht, hb, hn⟩
          obtain rfl := ht.declared
          cases hh : (blocks (slice m p (readU32 m (p + 4)))).head? <;> simp_all
        · intro h
          refine ⟨_, ⟨hreach, rfl, hsum⟩, ?_⟩
          cases hh : (blocks (slice m p (readU32 m (p + 4)))).head? <;> simp_all
      simp only
      rw [hbase]
      cases hf : (blocks (slice m p (readU32 m (p + 4)))).head? with
      | none =>
        refine Ends.stop (by simp) (fun b n h => ?_) (by simpa using hreach)
        rw [hgives, hf] at h
        cases h
      | some x =>
        refine ⟨rfl, fun b n => ?_, fun s' hs' r hr => ?_⟩
        · rw [hgives, hf]
          simp
        · obtain rfl := Option.some.inj hs'
          obtain rfl := List.mem_singleton.1 hr
          exact ⟨Nat.pos_of_ne_zero hreach.1, hreach.2.2⟩
  · rw [if_pos hreach]
    refine Ends.stop (by simp) (fun b n => ?_) (by simp)
    rintro ⟨l, ht, -⟩
    obtain rfl := ht.declared
    exact hreach ht.reach

theorem followEntries_ends {fuel : ℕ} (hfuel : IDENTITY_LIMIT ≤ fuel) (tables : ℕ) (ps : List ℕ) :
    Ends (followEntries m fuel tables ps)
      fun b n => ∃ p, ps.find? (fun p => decide (Signed m p)) = some p ∧ GivesBase m p b n := by
  induction ps generalizing tables with
  | nil => exact Ends.stop (by simp) (by simp) (by simp)
  | cons p ps ih =>
    rw [followEntries]
    by_cases hreach : reachable p 36
    · rw [if_neg (not_not.2 hreach)]
      by_cases hsigned : Signed m p
      · rw [if_neg (not_not.2 ((signed_iff m hreach).2 hsigned))]
        simp only [List.find?_cons_of_pos (p := fun p => decide (Signed m p)) (decide_eq_true hsigned),
          Option.some.injEq, exists_eq_left']
        exact (readIvrs_ends m hfuel).after hreach
      · rw [if_pos (fun h => hsigned ((signed_iff m hreach).1 h))]
        simp only [List.find?_cons_of_neg (p := fun p => decide (Signed m p)) (by simpa using hsigned)]
        exact (ih (tables + 1)).after hreach
    · -- what is out of reach is not signed
      rw [if_pos hreach]
      simp only [List.find?_cons_of_neg (p := fun p => decide (Signed m p)) (by simpa using fun h => hreach h.1)]
      exact ih (tables + 1)

theorem reportIvrs_ends {fuel : ℕ} (hfuel : IDENTITY_LIMIT ≤ fuel) (rsdt : ℕ) :
    Ends (reportIvrs m fuel rsdt) (Leads m rsdt) := by
  have hhead : ∀ {len}, reachable rsdt len → reachable rsdt 36 := fun {len} h => ⟨h.1, le_refl _, by
    have := h.2.1
    have := h.2.2
    omega⟩
  rw [reportIvrs, declared_slice]
  simp only
  by_cases hreach : reachable rsdt (readU32 m (rsdt + 4))
  · rw [if_neg (not_not.2 (hhead hreach)), if_neg (not_not.2 hreach)]
    have hparse := parseTable_slice m hreach.2.1 rfl
    cases hp : parseTable (slice m rsdt (readU32 m (rsdt + 4))) with
    | error e =>
      refine Ends.stop (by simp) (fun b n => ?_) (by simpa using ⟨hhead hreach, hreach⟩)
      rintro ⟨len, p, ht, -⟩
      obtain rfl := ht.declared
      obtain ⟨h, hok⟩ := hparse.2 ht.sum
      rw [hp] at hok
      cases hok
    | ok h =>
      have hends := ((followEntries_ends m hfuel 0 (pointers m rsdt (readU32 m (rsdt + 4)))).after hreach).after (hhead hreach)
      rw [rsdtEntries_slice]
      rw [Option.map_map] at hends
      refine ⟨hends.ends, fun b n => (hends.base b n).trans ?_, hends.inside⟩
      constructor
      · rintro ⟨p, hfind, hgives⟩
        exact ⟨_, p, ⟨hreach, rfl, hparse.1 ⟨h, hp⟩⟩, hfind, hgives⟩
      · rintro ⟨len, p, ht, hfind, hgives⟩
        obtain rfl := ht.declared
        exact ⟨p, hfind, hgives⟩
  · have hnone : ∀ b n, ¬ Leads m rsdt b n := by
      rintro b n ⟨len, p, ht, -⟩
      obtain rfl := ht.declared
      exact hreach ht.reach
    split_ifs with hr
    · exact Ends.stop (by simp) hnone (by simpa using hr)
    · exact Ends.stop (by simp) hnone (by simp)

/-! ## The RSDP -/

theorem parseRsdp_iff {buf : List (BitVec 8)} {r : Rsdp} : parseRsdp buf = .ok r ↔ IsRsdp buf r := by
  rw [parseRsdp]
  simp only [← List.sum_eq_foldl]
  constructor
  · intro h
    split_ifs at h with hroom hsig hsum hrev hlong hext
    · obtain rfl := Except.ok.inj h
      refine ⟨by omega, not_not.1 hsig, not_not.1 hsum, rfl, rfl, fun h => absurd hrev (BitVec.not_lt.2 h), ?_⟩
      exact (if_pos (Or.inl hrev)).symm
    all_goals
      obtain rfl := Except.ok.inj h
      refine ⟨by omega, not_not.1 hsig, not_not.1 hsum, rfl, rfl, fun _ => ⟨by omega, not_not.1 hext⟩, ?_⟩
      simp_all
  · intro h
    obtain ⟨revision, rsdt, xsdt⟩ := r
    obtain rfl : revision = buf.getD 15 0 := h.revision
    obtain rfl : rsdt = (readAt buf 16 4).getD 0 := h.rsdt
    have hroom := h.room
    rw [if_neg (by omega), if_neg (not_not.2 h.signature), if_neg (not_not.2 h.sum)]
    by_cases hrev : buf.getD 15 0 < 2
    · rw [if_pos hrev]
      exact congrArg (fun x => Except.ok (Rsdp.mk _ _ x)) (h.xsdt.trans (if_pos (Or.inl hrev))).symm
    · obtain ⟨hlong, hsum⟩ := h.extended (BitVec.not_lt.1 hrev)
      rw [if_neg hrev, if_neg (by omega), if_neg (not_not.2 hsum)]
      refine congrArg (fun x => Except.ok (Rsdp.mk _ _ x)) (Eq.trans ?_ h.xsdt.symm)
      simp only [hrev, false_or]

/-- the first 36 bytes decide -/
theorem IsRsdp.of_prefix {xs ys : List (BitVec 8)} {r : Rsdp} (h : IsRsdp xs r)
    (heq : ∀ k, k ≤ 36 → k ≤ xs.length → ys.take k = xs.take k)
    (hlen : ∀ k, k ≤ 36 → k ≤ xs.length → k ≤ ys.length) : IsRsdp ys r := by
  have hroom := h.room
  have hread : ∀ i n, i + n ≤ 36 → i + n ≤ xs.length → readAt ys i n = readAt xs i n := fun i n h36 hxs => by
    rw [← readAt_take (le_refl (i + n)), heq _ h36 hxs, readAt_take (le_refl (i + n))]
  have hrev : ys.getD 15 0 = xs.getD 15 0 := by
    have := congrArg (fun l => l[15]?) (heq 16 (by omega) (by omega))
    simp only [List.getElem?_take_of_lt (show 15 < 16 by omega)] at this
    rw [List.getD_eq_getElem?_getD, List.getD_eq_getElem?_getD, this]
  refine ⟨hlen 20 (by omega) hroom, by rw [heq 8 (by omega) (by omega), h.signature],
    by rw [heq 20 (by omega) hroom, h.sum], by rw [hrev, h.revision], by rw [hread 16 4 (by omega) hroom, h.rsdt],
    fun h2 => ?_, ?_⟩
  · obtain ⟨hlong, hsum⟩ := h.extended h2
    exact ⟨hlen 36 (le_refl _) hlong, by rw [heq 36 (le_refl _) hlong, hsum]⟩
  · rw [h.xsdt]
    by_cases hlow : r.revision < 2
    · rw [if_pos (Or.inl hlow), if_pos (Or.inl hlow)]
    · rw [hread 24 8 (by omega) (by have := (h.extended (BitVec.not_lt.1 hlow)).1; omega)]

theorem scanFrom_eq (buf : List (BitVec 8)) (fuel off : ℕ) (hoff : 16 ∣ off) (hpos : 0 < fuel)
    (hfuel : buf.length < off + 16 * fuel) :
    ∃ x, scanFrom buf fuel off = some x ∧ (∀ k, x = some k ↔ IsLeast {k | StandsAt buf k ∧ off ≤ k} k) := by
  induction fuel generalizing off with
  | zero => omega
  | succ fuel ih =>
    rw [scanFrom]
    by_cases hroom : off + 20 ≤ buf.length
    · rw [if_pos hroom]
      by_cases hhere : StandsAt buf off
      · obtain ⟨-, -, r, hr⟩ := id hhere
        have hparse := parseRsdp_iff.2 hr
        rw [if_pos ⟨hr.signature, by rw [hparse]; rfl⟩]
        have hleast : IsLeast {k | StandsAt buf k ∧ off ≤ k} off := ⟨⟨hhere, le_refl _⟩, fun k hk => hk.2⟩
        refine ⟨some off, rfl, fun k => ⟨fun h => ?_, fun h => congrArg some (hleast.unique h)⟩⟩
        obtain rfl := Option.some.inj h
        exact hleast
      · -- nothing here, and nothing up to the next boundary
        rw [if_neg]
        · obtain ⟨x, hx, hleast⟩ := ih (off + 16) (hoff.add (dvd_refl 16)) (by omega) (by omega)
          refine ⟨x, hx, fun k => (hleast k).trans ?_⟩
          have hset : {k | StandsAt buf k ∧ off + 16 ≤ k} = {k | StandsAt buf k ∧ off ≤ k} := by
            ext k
            refine ⟨fun ⟨hk, hle⟩ => ⟨hk, by omega⟩, fun ⟨hk, hle⟩ => ⟨hk, ?_⟩⟩
            have hne : k ≠ off := fun h => hhere (h ▸ hk)
            have := hk.1
            omega
          rw [hset]
        · rintro ⟨-, hok⟩
          cases hp : parseRsdp (buf.drop off) with
          | error e => rw [hp] at hok; cases hok
          | ok r => exact hhere ⟨hoff, hroom, r, parseRsdp_iff.1 hp⟩
    · rw [if_neg hroom]
      refine ⟨none, rfl, fun k => ⟨fun h => (by cases h), fun h => ?_⟩⟩
      have := h.1.1.2.1
      have := h.1.2
      omega

/-- **What the scan finds**: the lowest RSDP on a 16-byte boundary. -/
theorem scanForRsdp_eq (buf : List (BitVec 8)) {fuel : ℕ} (hfuel : buf.length < 16 * fuel) :
    ∃ x, scanForRsdp fuel buf = some x ∧ ∀ k, x = some k ↔ IsLeast {k | StandsAt buf k} k := by
  obtain ⟨x, hx, hleast⟩ := scanFrom_eq buf fuel 0 (dvd_zero 16) (by omega) (by omega)
  refine ⟨x, hx, fun k => ?_⟩
  simpa using hleast k

/-! ## The search -/

theorem length_biosWindow : (biosWindow m).length = 0x20000 := length_slice _ _ _

theorem findRsdp_eq (firmware : Bool) {fuel : ℕ} (hfuel : IDENTITY_LIMIT ≤ fuel) (a0 : ℕ) :
    ∃ x, findRsdp m firmware fuel a0 = some x ∧ ∀ p, x = some p ↔ Points m firmware a0 p := by
  cases firmware with
  | false => exact ⟨_, rfl, fun p => Iff.rfl⟩
  | true =>
    have hlong : (biosWindow m).length < 16 * fuel := by
      rw [length_biosWindow]
      simp only [IDENTITY_LIMIT] at hfuel
      omega
    obtain ⟨x, hx, hleast⟩ := scanForRsdp_eq (biosWindow m) hlong
    refine ⟨x.map (BIOS_SCAN_START + ·), by rw [findRsdp, if_pos rfl, hx]; rfl, fun p => ?_⟩
    rw [Points, if_pos rfl, ← hleast]
    cases x with
    | none => simp
    | some off =>
      simp only [Option.map_some, Option.some.injEq]
      omega

/-- the scan reads an RSDP to the end of its window, `run` reads 36 bytes: both read the same RSDP -/
theorem Points.isRsdp {m : Bytes} {a0 p : ℕ} (h : Points m true a0 p) :
    p + 20 ≤ BIOS_SCAN_END ∧ ∃ r, IsRsdp (slice m p 36) r := by
  obtain ⟨hlow, ⟨-, hroom, r, hr⟩, -⟩ := h
  rw [length_biosWindow] at hroom
  have hend : p + 20 ≤ BIOS_SCAN_END := by
    simp only [BIOS_SCAN_START, BIOS_SCAN_END] at hlow hroom ⊢
    omega
  have hspan : BIOS_SCAN_END - BIOS_SCAN_START = p - BIOS_SCAN_START + (BIOS_SCAN_END - p) := by omega
  have hdrop : (biosWindow m).drop (p - BIOS_SCAN_START) = slice m p (BIOS_SCAN_END - p) := by
    rw [biosWindow, hspan, drop_slice, Nat.add_sub_cancel' hlow]
  rw [hdrop] at hr
  have htake : ∀ k n, k ≤ n → (slice m p n).take k = slice m p k := fun k n hkn => by
    rw [show n = k + (n - k) by omega, take_slice]
  refine ⟨hend, r, hr.of_prefix (fun k h36 hk => ?_) (fun k h36 _ => ?_)⟩
  · rw [htake k 36 h36, htake k _ (by rwa [length_slice] at hk)]
  · rwa [length_slice]

theorem Points.low {m : Bytes} {firmware : Bool} {a0 p : ℕ} (h : Points m firmware a0 p) : 0 < p ∧ p < IDENTITY_LIMIT := by
  cases firmware with
  | true =>
    have hend := h.isRsdp.1
    have hstart : BIOS_SCAN_START ≤ p := h.1
    simp only [BIOS_SCAN_START, BIOS_SCAN_END, IDENTITY_LIMIT] at hend hstart ⊢
    omega
  | false =>
    rw [Points, if_neg (by simp), pvhRsdp] at h
    simp only at h
    split_ifs at h
    obtain rfl := Option.some.inj h
    omega

/-- what `run` makes of the RSDP at `p` -/
theorem followRsdp_eq {fuel : ℕ} (hfuel : IDENTITY_LIMIT ≤ fuel) (p : ℕ) :
    ∃ s, followRsdp m fuel p = some s ∧
      (∀ b n, s.outcome = .base b n ↔ ∃ r, IsRsdp (slice m p 36) r ∧ Leads m r.rsdt b n) ∧
      ∀ rd ∈ s.reads, rd = (p, 36) ∨ 0 < rd.1 ∧ rd.1 + rd.2 < IDENTITY_LIMIT := by
  rw [followRsdp]
  cases hparse : parseRsdp (slice m p 36) with
  | error e =>
    refine ⟨_, rfl, fun b n => ⟨fun h => by simp at h, ?_⟩, fun rd hrd => Or.inl (List.mem_singleton.1 hrd)⟩
    rintro ⟨r, hr, -⟩
    rw [parseRsdp_iff.2 hr] at hparse
    cases hparse
  | ok r =>
    have hends := reportIvrs_ends m hfuel r.rsdt
    obtain ⟨s, hs⟩ := Option.isSome_iff_exists.1 hends.ends
    rw [hs] at hends
    simp only [hs, Option.map_some]
    refine ⟨_, rfl, fun b n => ⟨fun h => ?_, ?_⟩, fun rd hrd => ?_⟩
    · exact ⟨r, parseRsdp_iff.1 hparse, (hends.base b n).1 (congrArg some h)⟩
    · rintro ⟨r', hr', hleads⟩
      obtain rfl := Except.ok.inj (hparse.symm.trans (parseRsdp_iff.2 hr'))
      exact Option.some.inj ((hends.base b n).2 hleads)
    · rcases List.mem_cons.1 hrd with rfl | hrd
      · exact Or.inl rfl
      · exact Or.inr (hends.inside s rfl rd hrd)

/-- **The search for the register base.** It always ends. It finds a base exactly if the RSDP of this boot, an RSDT and the
first reachable IVRS table listed there are all intact and name it; and what it reads lies inside the window, the end of the
RSDP on a PVH boot excepted. -/
theorem discover_exact (firmware : Bool) (fuel a0 : ℕ) (hfuel : IDENTITY_LIMIT ≤ fuel) :
    ∃ s, discover m firmware fuel a0 = some s ∧
      (∀ b n, s.outcome = .base b n ↔ ∃ p r, Points m firmware a0 p ∧ IsRsdp (slice m p 36) r ∧ Leads m r.rsdt b n) ∧
      ∀ rd ∈ s.reads, 0 < rd.1 ∧ rd.1 < IDENTITY_LIMIT ∧
        (rd.1 + rd.2 < IDENTITY_LIMIT ∨ firmware = false ∧ Points m firmware a0 rd.1 ∧ rd.2 = 36) := by
  obtain ⟨x, hx, hpoints⟩ := findRsdp_eq m firmware hfuel a0
  rw [discover, hx]
  cases x with
  | none =>
    refine ⟨_, rfl, fun b n => ⟨fun h => by simp at h, ?_⟩, by simp⟩
    rintro ⟨p, r, hp, -⟩
    exact absurd ((hpoints p).2 hp) (by simp)
  | some p =>
    have hp := (hpoints p).1 rfl
    obtain ⟨s, hs, hbase, hreads⟩ := followRsdp_eq m hfuel p
    refine ⟨s, hs, fun b n => (hbase b n).trans ⟨?_, ?_⟩, fun rd hrd => ?_⟩
    · rintro ⟨r, hr, hleads⟩
      exact ⟨p, r, hp, hr, hleads⟩
    · rintro ⟨p', r, hp', hr, hleads⟩
      obtain rfl := Option.some.inj ((hpoints p').2 hp')
      exact ⟨r, hr, hleads⟩
    · rcases hreads rd hrd with rfl | ⟨hpos, hin⟩
      · refine ⟨hp.low.1, hp.low.2, ?_⟩
        cases firmware with
        | false => exact Or.inr ⟨rfl, hp, rfl⟩
        | true =>
          have hend := hp.isRsdp.1
          simp only [BIOS_SCAN_END] at hend
          simp only [IDENTITY_LIMIT]
          omega
      · exact ⟨hpos, by omega, Or.inl hin⟩

end Rustproof.Boot.Acpi
