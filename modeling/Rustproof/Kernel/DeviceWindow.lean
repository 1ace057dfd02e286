/-
The window of the bounded device's registers, and system memory.

The boot takes the base of the window from the low dword of BAR0 (`Pci.bar0`), and `map_device` maps that page for whoever holds
the capability. BAR0 of the 64-bit type has its upper half in the next dword (`decodeBar0`), which is not read.

- `window_apart`: a page that holds part of a BAR0 range is no frame of usable memory, so the allocator never has it.
- `window_apart_iff`: the window is such a page exactly if BAR0 of the device found has nothing in an upper half.
- `upper_half_lost`: a device above 4 GiB, and the frame that is mapped in its place.
-/
import Rustproof.Boot.Pci
import Rustproof.Boot.ReservedMemory
import Rustproof.Kernel.Mapping
import Rustproof.Vspace.UserAccess

namespace Rustproof.Kernel.DeviceWindow

open Lib Mm Vspace Boot Boot.Pci

variable (cs : ConfigSpace)

/-! ## BAR0 -/

/-- BAR0 is a memory BAR of the 64-bit type -/
def wideBar0 (f : Boot.Pci.Function) : Bool := cs f.bus f.dev f.func 0x10 &&& 0x6 == 0x4

/-- the base of BAR0 as the PCI specification decodes it; `none` for I/O space -/
def decodeBar0 (f : Boot.Pci.Function) : Option ℕ :=
  let raw := cs f.bus f.dev f.func 0x10
  let low := (raw &&& 0xFFFFFFF0).toNat
  if raw &&& 1 ≠ 0 then none
  else some (if wideBar0 cs f then (cs f.bus f.dev f.func 0x14).toNat * 2 ^ 32 + low else low)

/-- the assigned BAR0 range of every function present, `size` bytes long, meets no usable memory of the map -/
def BarsApart (size : Boot.Pci.Function → ℕ) (declared : List DeclaredEntry) : Prop :=
  ∀ f base, present cs f.bus f.dev f.func = true → decodeBar0 cs f = some base → base ≠ 0 →
    ∀ e ∈ declared, e.region.kind = .usable → ∀ a, base ≤ a → a < base + size f →
      ¬(e.region.start ≤ a ∧ a < e.region.start + e.region.len)

/-- BAR0 of the device found has nothing in an upper half -/
def UpperHalfZero : Prop :=
  ∀ d, findDmaDevice cs = some d → wideBar0 cs d = true → cs d.bus d.dev d.func 0x14 = 0

/-- an assigned base is the low half of the decoded one -/
theorem decodeBar0_of_bar0 {f : Boot.Pci.Function} {bar : ℕ} (h : bar0 cs f = some bar) :
    decodeBar0 cs f = some (if wideBar0 cs f then (cs f.bus f.dev f.func 0x14).toNat * 2 ^ 32 + bar else bar) := by
  unfold bar0 at h
  dsimp only at h
  split_ifs at h with hno
  obtain rfl := Option.some.inj h
  exact if_neg fun hc => hno (Or.inr (Or.inr hc))

theorem bar0_lt {f : Boot.Pci.Function} {bar : ℕ} (h : bar0 cs f = some bar) : bar < 2 ^ 32 := by
  unfold bar0 at h
  dsimp only at h
  split_ifs at h
  obtain rfl := Option.some.inj h
  exact BitVec.isLt _

/-- the address handed out is the device's exactly if there is nothing in an upper half -/
theorem deviceBar_decoded_iff (h : deviceBar cs ≠ 0) :
    (∃ d, findDmaDevice cs = some d ∧ decodeBar0 cs d = some (deviceBar cs)) ↔ UpperHalfZero cs := by
  obtain ⟨d, hd, hbar⟩ := deviceBar_ne_zero cs h
  have hdec := decodeBar0_of_bar0 cs hbar
  constructor
  · rintro ⟨d', hd', hbase⟩ d'' hd'' hwide
    obtain rfl : d = d' := Option.some.inj (hd.symm.trans hd')
    obtain rfl : d = d'' := Option.some.inj (hd.symm.trans hd'')
    rw [hdec, if_pos hwide, Option.some.injEq] at hbase
    refine BitVec.eq_of_toNat_eq ?_
    show _ = 0
    omega
  · intro hz
    refine ⟨d, hd, hdec.trans (congrArg some ?_)⟩
    split_ifs with hwide
    · rw [hz d hd hwide]; simp
    · rfl

/-! ## Frames -/

/-- the frame of the entry that maps `pa` -/
theorem entry_frame {pa : ℕ} (hpa : pa < 2 ^ 52) (fl : Word) :
    X86.fmt.addr (X86.mmu.entry pa fl) / PAGE_SIZE = pa / PAGE_SIZE := by
  refine Nat.eq_of_testBit_eq fun i => ?_
  rw [show PAGE_SIZE = 2 ^ 12 from rfl, Nat.testBit_div_two_pow, Nat.testBit_div_two_pow]
  show (X86.newEntry pa (fl ||| X86.PRESENT) &&& X86.ADDR_MASK).toNat.testBit (i + 12) = pa.testBit (i + 12)
  rw [BitVec.testBit_toNat, BitVec.getLsbD_and, X86.getLsbD_ADDR_MASK]
  by_cases hi : i + 12 < 52
  · rw [X86.getLsbD_newEntry _ _ (by omega), if_pos ⟨by omega, hi⟩]
    simp [hi]
  · have hlow : pa.testBit (i + 12) = false :=
      Nat.testBit_lt_two_pow (lt_of_lt_of_le hpa (Nat.pow_le_pow_right (by decide) (by omega)))
    simp [hi, hlow]

/-- frame `f` is no system memory: no usable entry of the map holds it whole, the allocator is not given it, and no run of the
allocator hands it out -/
structure NotMemory (p : BootProtocol) (m : Bytes) (info f : ℕ) : Prop where
  unheld : ∀ e ∈ declaredMap p m info, e.region.kind = .usable → ¬HoldsWhole e.region f
  ungiven : ∀ r ∈ memoryMap p m info REGION_SLOTS, ¬Frees r f
  unallocated : ∀ reserveBelow dmaTop a, bootAllocator (memoryMap p m info REGION_SLOTS) reserveBelow dmaTop = some a →
    ∀ ops, FreesOnlyHeld ⟨a, []⟩ ops → f ∉ (run ⟨a, []⟩ ops).held

theorem notMemory_of_unheld {p : BootProtocol} {m : Bytes} {info f : ℕ}
    (h : ∀ e ∈ declaredMap p m info, e.region.kind = .usable → ¬HoldsWhole e.region f) : NotMemory p m info f := by
  refine ⟨h, fun r hr hfree => ?_, fun reserveBelow dmaTop a ha ops hops hheld => ?_⟩
  · rw [memoryMap_eq_written] at hr
    obtain ⟨e, he, rfl⟩ := List.mem_map.1 hr
    obtain ⟨hmem, hvis⟩ := mem_of_mem_kept he
    obtain ⟨hkind, hholds⟩ := (frees_clip hvis f).1 hfree
    exact h e hmem hkind hholds
  · rw [memoryMap_eq_written, bootAllocator_written] at ha
    obtain rfl := Option.some.inj ha
    -- what a run holds was free at the start, so some kept usable entry holds it whole
    have hstart := (run_held (new_rep _ _ _ _) ⟨fun g hg => by simp at hg, Finset.Subset.refl _⟩ hops).1 f hheld
    obtain ⟨⟨e, he, hkind, hholds⟩, -, -⟩ := (mem_freeFrames_written _ _ _ _ _).1 hstart
    exact h e (mem_of_mem_kept he).1 hkind hholds

/-- a page with part of an assigned BAR0 range in it is no system memory -/
theorem window_apart {p : BootProtocol} {m : Bytes} {info : ℕ} {size : Boot.Pci.Function → ℕ}
    (happ : BarsApart cs size (declaredMap p m info)) {d : Boot.Pci.Function} {base : ℕ}
    (hp : present cs d.bus d.dev d.func = true) (hdec : decodeBar0 cs d = some base) (hbase : base ≠ 0) (hsize : 0 < size d) :
    NotMemory p m info (base / PAGE_SIZE) := by
  refine notMemory_of_unheld fun e he hkind hholds => ?_
  refine happ d base hp hdec hbase e he hkind base le_rfl (by omega) ?_
  have hlo := Nat.div_mul_le_self base PAGE_SIZE
  have hhi : base < (base / PAGE_SIZE + 1) * PAGE_SIZE := by
    simp only [PAGE_SIZE]; omega
  exact ⟨hholds.1.trans hlo, lt_of_lt_of_le hhi hholds.2.1⟩

/-! ## The window -/

/-- what the window of the bounded device is meant to be: the address handed out is the base of the decoded BAR0 range of the
device found; no page mapped because it was asked for is system memory; and in the space of the caller, built of tables that are
no free frames, every byte of the window is translated to such a page -/
structure WindowApart (p : BootProtocol) (m : Bytes) (info : ℕ) : Prop where
  base : ∃ d, findDmaDevice cs = some d ∧ decodeBar0 cs d = some (deviceBar cs)
  entries : ∀ C : Config, C.deviceBar = deviceBar cs → ∀ proc pages w s va s',
    mapDevice X86 C proc C.deviceBar pages w s = (some va, s') → ∀ i < pages, ∀ fl,
      NotMemory p m info (X86.fmt.addr (X86.entry (C.deviceBar + i * PAGE_SIZE) fl) / PAGE_SIZE)
  pages : ∀ C : Config, C.deviceBar = deviceBar cs → ∀ F rest proc pages w s va s',
    Built (supply X86 F rest) (X86.root (s.procs proc).token) (s.allocFor proc) →
    mapDevice X86 C proc C.deviceBar pages w s = (some va, s') → ∀ k < pages * PAGE_SIZE, ∃ pa,
      translate X86.toMmu s'.w.mem (X86.root (s'.procs proc).token) (va + k) = some pa ∧ NotMemory p m info (pa / PAGE_SIZE)

/-- `map_device` maps one page at most -/
theorem mapDevice_pages {C : Config} {proc phys pages : ℕ} {w : Bool} {s s' : KState} {va : ℕ}
    (h : mapDevice X86 C proc phys pages w s = (some va, s')) : pages ≤ 1 := by
  unfold mapDevice at h
  split_ifs at h with hno
  · exact absurd (Prod.mk.inj h).1 (by simp)
  · exact Nat.not_lt.1 fun hc => hno (Or.inr hc)

/-- with the window mapped, every byte of it is translated to the byte of the device's page -/
theorem window_translates {C : Config} {F rest : Multiset ℕ} {proc : ℕ} {w : Bool} {s s' : KState} {va k : ℕ}
    (h : Built (supply X86 F rest) (X86.root (s.procs proc).token) (s.allocFor proc)) (hbar : C.deviceBar ≠ 0)
    (hlt : C.deviceBar < 2 ^ 52) (hmap : mapDevice X86 C proc C.deviceBar DEVICE_PAGES w s = (some va, s')) (hk : k < PAGE_SIZE) :
    C.deviceBar % PAGE_SIZE = 0 ∧
      translate X86.toMmu s'.w.mem (X86.root (s'.procs proc).token) (va + k) = some (C.deviceBar + k) := by
  have hadm : Admitted X86 C C.deviceBar := Or.inr (by simp [isDevice, hbar]; rfl)
  obtain ⟨ho, hout⟩ := mapDevice_outcome (Or.inl rfl) h (w := w) hadm
  rw [hmap] at ho hout
  obtain ⟨rfl, hal, -, fl, hfl, hleaf⟩ := hout
  obtain ⟨hok, -⟩ := X86.encode_spec _ _ hfl
  have hva : (X86.userMmioBase + k) / PAGE_SIZE = devicePage X86 ∧ (X86.userMmioBase + k) % PAGE_SIZE = k := by
    have := X86.mmio_aligned
    simp only [devicePage, PAGE_SIZE] at *
    omega
  rw [KState.leaf, ho.token] at hleaf
  refine ⟨hal, ?_⟩
  rw [ho.token, translate_of_leaf ho.tree (by rw [hva.1]; exact devicePage_own X86)
    (by rw [hva.1, hleaf]; exact X86.entry_present _ _ hok), hva.1, hva.2, hleaf,
    X86.entry_addr _ fl hal (hlt.trans_le X86.physLimit_le), pageAddr_aligned hal]

/-- **The device window is no system memory exactly if BAR0 of the device found has nothing in an upper half.** -/
theorem window_apart_iff {p : BootProtocol} {m : Bytes} {info : ℕ} {size : Boot.Pci.Function → ℕ} (hsize : ∀ f, 0 < size f)
    (happ : BarsApart cs size (declaredMap p m info)) (hbar : deviceBar cs ≠ 0) : WindowApart cs p m info ↔ UpperHalfZero cs := by
  rw [← deviceBar_decoded_iff cs hbar]
  constructor
  · exact fun h => h.base
  · intro hbase
    have hbase' := hbase
    obtain ⟨d, hd, hdec⟩ := hbase'
    obtain ⟨d', hd', hlow⟩ := deviceBar_ne_zero cs hbar
    have hlt : deviceBar cs < 2 ^ 52 := (bar0_lt cs hlow).trans (by decide)
    have hnot : NotMemory p m info (deviceBar cs / PAGE_SIZE) :=
      window_apart cs happ (present_of_found cs hd) hdec hbar (hsize d)
    refine ⟨hbase, fun C hC proc pages w s va s' hmap i hi fl => ?_, fun C hC F rest proc pages w s va s' hb hmap k hk => ?_⟩
    · obtain rfl : i = 0 := by have := mapDevice_pages hmap; omega
      rw [hC, Nat.zero_mul, Nat.add_zero]
      show NotMemory p m info (X86.fmt.addr (X86.mmu.entry (deviceBar cs) fl) / PAGE_SIZE)
      rw [entry_frame hlt fl]
      exact hnot
    · obtain rfl : pages = DEVICE_PAGES := by
        have := mapDevice_pages hmap
        have : pages ≠ 0 := fun h0 => by rw [h0, Nat.zero_mul] at hk; exact Nat.not_lt_zero k hk
        show pages = 1
        omega
      have hread := window_translates hb (hC ▸ hbar) (hC ▸ hlt) hmap (by simpa using hk)
      rw [hC] at hread
      refine ⟨deviceBar cs + k, hread.2, ?_⟩
      have hsame : (deviceBar cs + k) / PAGE_SIZE = deviceBar cs / PAGE_SIZE := by
        have hal := hread.1
        simp only [PAGE_SIZE, one_mul] at *
        omega
      rw [hsame]
      exact hnot

/-! ## Above 4 GiB -/

/-- an Ethernet card as 00:05.0 with the given BAR0 and the dword after it -/
def cardWith (low high : BitVec 32) : ConfigSpace :=
  cardsAt [(40, [(0x00, 0x10D38086), (0x08, 0x02000000), (0x10, low), (0x14, high)])]

/-- a start-info structure at 4096 naming a table of one entry at 8192: 16..32 MiB usable -/
def roomyMap : Bytes := fun a =>
  if a < 4100 then byteOf Pvh.PVH_MAGIC (a - 4096)
  else if a < 4104 then byteOf 1 (a - 4100)
  else if 4136 ≤ a ∧ a < 4144 then byteOf 8192 (a - 4136)
  else if 4144 ≤ a ∧ a < 4148 then byteOf 1 (a - 4144)
  else if 8192 ≤ a ∧ a < 8216 then
    if a < 8200 then byteOf 0x1000000 (a - 8192)
    else if a < 8208 then byteOf 0x1000000 (a - 8200)
    else byteOf 1 (a - 8208)
  else 0

theorem declaredMap_roomyMap : declaredMap .pvh roomyMap 4096 = [⟨8192, ⟨0x1000000, 0x1000000, .usable⟩⟩] := by decide +kernel

/-- the card's is the only BAR0 of its machine -/
theorem cardWith_apart {low high : BitVec 32} {base : ℕ} {declared : List DeclaredEntry}
    (h : decodeBar0 (cardWith low high) ⟨0, 5, 0, 0x8086, 0x10D3⟩ = some base)
    (hbase : ∀ e ∈ declared, e.region.start + e.region.len ≤ base) :
    BarsApart (cardWith low high) (fun _ => PAGE_SIZE) declared := by
  intro f base' hp hdec _ e he _ a ha _ hin
  have hreg : ∀ off, cardWith low high f.bus f.dev f.func off = cardWith low high 0 5 0 off := by
    intro off
    by_cases hn : 8 * f.dev + f.func = 40 ∧ f.bus = 0
    · unfold cardWith cardsAt
      rw [hn.1, hn.2]
    · -- nothing answers elsewhere
      have hff : cardWith low high f.bus f.dev f.func 0 = 0xFFFFFFFF := by
        unfold cardWith cardsAt
        by_cases h40 : 8 * f.dev + f.func = 40
        · simp only [h40, List.lookup_cons_self, if_neg fun hb => hn ⟨h40, hb⟩]
        · simp only [List.lookup_cons, beq_eq_false_iff_ne.2 h40, List.lookup_nil]
      unfold present vendor at hp
      rw [hff] at hp
      exact absurd hp (by decide)
  have hsame : decodeBar0 (cardWith low high) f = decodeBar0 (cardWith low high) ⟨0, 5, 0, 0x8086, 0x10D3⟩ := by
    unfold decodeBar0 wideBar0
    dsimp only
    rw [hreg 0x10, hreg 0x14]
  rw [hsame, h] at hdec
  obtain rfl := Option.some.inj hdec
  have := hbase e he
  omega

/-- a card below 4 GiB, and the window is its registers -/
theorem lowCard_apart : WindowApart (cardWith 0xFEB80004 0) .pvh roomyMap 4096 ↔ UpperHalfZero (cardWith 0xFEB80004 0) :=
  window_apart_iff (cardWith 0xFEB80004 0) (fun _ => by decide) (cardWith_apart (rfl : _ = some 0xFEB80000)
    (by rw [declaredMap_roomyMap]; decide))
    (by decide +kernel)

/-- **The upper half is lost.** The card is at 4 GiB + 16 MiB; the window is at 16 MiB, in a frame some run of the allocator hands
out. -/
theorem upper_half_lost :
    BarsApart (cardWith 0x01000004 1) (fun _ => PAGE_SIZE) (declaredMap .pvh roomyMap 4096) ∧
      deviceBar (cardWith 0x01000004 1) = 0x1000000 ∧ ¬WindowApart (cardWith 0x01000004 1) .pvh roomyMap 4096 ∧
      ∃ a ops, bootAllocator (memoryMap .pvh roomyMap 4096 REGION_SLOTS) 0x800000 0x1000000 = some a ∧
        FreesOnlyHeld ⟨a, []⟩ ops ∧ 0x1000000 / PAGE_SIZE ∈ (run ⟨a, []⟩ ops).held := by
  have happ : BarsApart (cardWith 0x01000004 1) (fun _ => PAGE_SIZE) (declaredMap .pvh roomyMap 4096) :=
    cardWith_apart (rfl : _ = some 0x101000000) (by rw [declaredMap_roomyMap]; decide)
  have hbar : deviceBar (cardWith 0x01000004 1) = 0x1000000 := by decide +kernel
  have hfound : findDmaDevice (cardWith 0x01000004 1) = some ⟨0, 5, 0, 0x8086, 0x10D3⟩ := by decide +kernel
  have hkept : kept REGION_SLOTS (declaredMap .pvh roomyMap 4096) = [⟨8192, ⟨0x1000000, 0x1000000, .usable⟩⟩] := by
    rw [declaredMap_roomyMap]; decide +kernel
  refine ⟨happ, hbar, fun hw => ?_, ?_⟩
  · obtain ⟨d, hd, hdec⟩ := hw.base
    obtain rfl : _ = d := Option.some.inj (hfound.symm.trans hd)
    rw [hbar] at hdec
    exact absurd hdec (by decide)
  · have hoff : Offered (kept REGION_SLOTS (declaredMap .pvh roomyMap 4096)) 0x800000 (0x1000000 / PAGE_SIZE) := by
      rw [hkept]
      refine ⟨⟨_, List.mem_singleton_self _, rfl, by unfold HoldsWhole; decide⟩, fun e he hkind => ?_, by decide⟩
      rw [List.mem_singleton.1 he] at hkind
      exact absurd rfl hkind
    obtain ⟨ops, hops, hheld⟩ := exists_run_holding _ _ _ _ ((mem_freeFrames_written _ _ _ 0x1000000 _).2 hoff)
    refine ⟨_, ops, ?_, hops, hheld⟩
    rw [memoryMap_eq_written, bootAllocator_written]

end Rustproof.Kernel.DeviceWindow
