/-
The frame account: every frame that was free when the account was opened is free now, or held exactly once.

`freeAddrs a` is the free frames by address, as a multiset. `Account F a H` is the equation `freeAddrs a + H = F` between
multisets, with the facts about `a` that keep it: an equation that rules out leaks, double listings and double frees at
once. `alloc_frame` and `alloc_dma_frame` move one address from the free side to the held side, `free_frame` moves a held
one back.
- `Account.allocFrame`, `Account.allocDmaFrame`, `Account.freeFrame`: one operation.
- `Account.count`: the free count plus the number of held frames is the number of frames the account opened with.
-/
import Rustproof.Mm.GeneralPool

namespace Rustproof.Mm

open BitmapAllocator

/-- `BITMAP_WORDS * 64`: the boot refuses a memory map that needs more -/
abbrev MAX_FRAMES : ℕ := 12288 * 64

/-- the free frames, by address -/
def freeAddrs (a : BitmapAllocator) : Multiset ℕ := a.freeFrames.val.map frameAddr

/-- the address of a tracked frame that `free_frame` accepts -/
def Tracked (a : BitmapAllocator) (p : ℕ) : Prop := ∃ f < a.total, p = frameAddr f ∧ a.reserveBelow ≤ p

/-- frames `F`, of which `H` are held and the others free -/
structure Account (F : Multiset ℕ) (a : BitmapAllocator) (H : Multiset ℕ) : Prop where
  rep : Rep a
  small : a.total ≤ MAX_FRAMES
  tracked : ∀ p ∈ F, Tracked a p
  nodup : F.Nodup
  balance : freeAddrs a + H = F

theorem freeAddrs_of_erase {a b : BitmapAllocator} {f : ℕ} (hf : f ∈ a.freeFrames)
    (h : b.freeFrames = a.freeFrames.erase f) : freeAddrs a = frameAddr f ::ₘ freeAddrs b := by
  rw [freeAddrs, freeAddrs, h, Finset.erase_val, ← Multiset.map_cons, Multiset.cons_erase (Finset.mem_def.1 hf)]

theorem Tracked.congr {a b : BitmapAllocator} {p : ℕ} (h : Tracked a p) (ht : b.total = a.total)
    (hr : b.reserveBelow = a.reserveBelow) : Tracked b p := by
  rw [Tracked, ht, hr]; exact h

theorem mem_freeAddrs {a : BitmapAllocator} {p : ℕ} : p ∈ freeAddrs a ↔ ∃ f ∈ a.freeFrames, frameAddr f = p := by
  simp [freeAddrs]

namespace Account

variable {F : Multiset ℕ} {a : BitmapAllocator} {H : Multiset ℕ}

theorem count (h : Account F a H) : a.free + H.card = F.card := by
  rw [← h.balance, Multiset.card_add, freeAddrs, Multiset.card_map, Finset.card_val, h.rep.count]

theorem held_mem (h : Account F a H) {p : ℕ} (hp : p ∈ H) : p ∈ F := by
  rw [← h.balance]; exact Multiset.mem_add.2 (Or.inr hp)

theorem free_mem (h : Account F a H) {p : ℕ} (hp : p ∈ freeAddrs a) : p ∈ F := by
  rw [← h.balance]; exact Multiset.mem_add.2 (Or.inl hp)

theorem held_nodup (h : Account F a H) : H.Nodup := by
  have := h.nodup
  rw [← h.balance, Multiset.nodup_add] at this
  exact this.2.1

/-- no held frame is free -/
theorem not_free (h : Account F a H) {p : ℕ} (hp : p ∈ H) : p ∉ freeAddrs a := by
  have := h.nodup
  rw [← h.balance, Multiset.nodup_add] at this
  exact fun hf => Multiset.disjoint_left.1 this.2.2 hf hp

theorem tracked_lt (h : Account F a H) {p : ℕ} (hp : p ∈ F) : p % PAGE_SIZE = 0 ∧ p < 2 ^ 52 := by
  obtain ⟨f, hf, rfl, -⟩ := h.tracked p hp
  have hs := h.small
  rw [frameAddr_of_lt (h.rep.lt_bound hf)]
  simp only [PAGE_SIZE, MAX_FRAMES] at *
  omega

/-- the allocator the boot builds opens an account of its free frames -/
theorem opened (regions : List MemoryRegion) (words reserveBelow dmaTop : ℕ)
    (hsmall : (BitmapAllocator.new regions words reserveBelow dmaTop).total ≤ MAX_FRAMES) :
    Account (freeAddrs (BitmapAllocator.new regions words reserveBelow dmaTop))
      (BitmapAllocator.new regions words reserveBelow dmaTop) 0 := by
  have hrep := new_rep regions words reserveBelow dmaTop
  refine ⟨hrep, hsmall, fun p hp => ?_, ?_, by rw [add_zero]⟩
  · obtain ⟨f, hf, rfl⟩ := mem_freeAddrs.1 hp
    have hlt := (mem_freeFrames.1 hf).1
    refine ⟨f, hlt, rfl, ?_⟩
    rw [frameAddr_of_lt (hrep.lt_bound hlt)]
    exact ((mem_freeFrames_new regions words reserveBelow dmaTop f).1 hf).2.2.2
  · refine (Finset.nodup _).map_on fun f hf g hg h => ?_
    have hf' := hrep.lt_bound (mem_freeFrames.1 (Finset.mem_def.2 hf)).1
    have hg' := hrep.lt_bound (mem_freeFrames.1 (Finset.mem_def.2 hg)).1
    rw [← frameAddr_div hf', h, frameAddr_div hg']

/-- the order held frames are listed in does not matter -/
theorem congr (h : Account F a H) {H' : Multiset ℕ} (hH : H' = H) : Account F a H' := hH ▸ h

/-- an allocation that takes frame `f` off the free side puts its address on the held side -/
theorem take (h : Account F a H) {b : BitmapAllocator} {f : ℕ} (hf : f ∈ a.freeFrames) (hrep : Rep b)
    (hfree : b.freeFrames = a.freeFrames.erase f) (ht : b.total = a.total) (hr : b.reserveBelow = a.reserveBelow) :
    Account F b (frameAddr f ::ₘ H) := by
  refine ⟨hrep, by rw [ht]; exact h.small, fun p hp => (h.tracked p hp).congr ht hr, h.nodup, ?_⟩
  rw [Multiset.add_cons, ← Multiset.cons_add, ← freeAddrs_of_erase hf hfree, h.balance]

theorem allocFrame (h : Account F a H) {p : ℕ} (hp : a.allocFrame.1 = some p) :
    p ∈ freeAddrs a ∧ Account F a.allocFrame.2 (p ::ₘ H) := by
  obtain ⟨f, hf, rfl, -, -, -, heq, hrep, hfree⟩ := allocFrame_some h.rep hp
  exact ⟨mem_freeAddrs.2 ⟨f, hf, rfl⟩, h.take hf hrep hfree (by rw [heq]; rfl) (by rw [heq]; rfl)⟩

theorem allocDmaFrame (h : Account F a H) {p : ℕ} (hp : a.allocDmaFrame.1 = some p) :
    p ∈ freeAddrs a ∧ Account F a.allocDmaFrame.2 (p ::ₘ H) := by
  obtain ⟨f, hf, rfl, -, -, -, heq, hrep, hfree⟩ := allocDmaFrame_some h.rep hp
  exact ⟨mem_freeAddrs.2 ⟨f, hf, rfl⟩, h.take hf hrep hfree (by rw [heq]; rfl) (by rw [heq]; rfl)⟩

theorem allocDmaFrame_none (h : Account F a H) (hp : a.allocDmaFrame.1 = none) : Account F a.allocDmaFrame.2 H := by
  rw [(BitmapAllocator.allocDmaFrame_none h.rep hp).1]; exact h

/-- a frame that was taken is the one that is no longer free -/
theorem free_cons (h : Account F a H) {b : BitmapAllocator} {p : ℕ} (hb : Account F b (p ::ₘ H)) :
    freeAddrs a = p ::ₘ freeAddrs b := by
  have hsum : freeAddrs a + H = (p ::ₘ freeAddrs b) + H := by
    rw [h.balance, ← hb.balance, Multiset.add_cons, Multiset.cons_add]
  exact add_right_cancel hsum

theorem free_taken (h : Account F a H) {b : BitmapAllocator} {p q : ℕ} (hb : Account F b (p ::ₘ H)) (hq : q ∈ freeAddrs b) :
    q ∈ freeAddrs a := by
  rw [h.free_cons hb]
  exact Multiset.mem_cons_of_mem hq

/-- a frame put at the end of a list of held ones -/
theorem enlist {p : ℕ} {got : List ℕ} (h : Account F a (p ::ₘ (got + H))) : Account F a ((got ++ [p] : List ℕ) + H) := by
  refine h.congr ?_
  rw [← Multiset.coe_add, add_comm (got : Multiset ℕ), add_assoc]
  rfl

/-- freeing a held frame moves it back to the free side -/
theorem freeFrame {p : ℕ} (h : Account F a (p ::ₘ H)) : Account F (a.freeFrame p) H := by
  have hp : p ∈ p ::ₘ H := Multiset.mem_cons_self p H
  obtain ⟨f, hlt, heq, hres⟩ := h.tracked p (h.held_mem hp)
  have hdiv : p / PAGE_SIZE = f := by rw [heq]; exact frameAddr_div (h.rep.lt_bound hlt)
  have hnot : f ∉ a.freeFrames := fun hf => h.not_free hp (mem_freeAddrs.2 ⟨f, hf, heq.symm⟩)
  obtain ⟨htot, -, -, hresv⟩ := freeFrame_fields a p
  refine ⟨rep_freeFrame h.rep p, by rw [htot]; exact h.small, fun q hq => (h.tracked q hq).congr htot hresv,
    h.nodup, ?_⟩
  rcases freeFrame_spec h.rep p with ⟨-, hbad⟩ | ⟨-, -, -, -, hset⟩
  · rw [hdiv] at hbad
    exact absurd hbad (by push Not; exact ⟨hres, hlt, hnot⟩)
  · rw [hdiv] at hset
    rw [freeAddrs, hset, Finset.insert_val_of_notMem hnot, Multiset.map_cons, ← heq, Multiset.cons_add,
      ← Multiset.add_cons]
    exact h.balance

/-- freeing a list of held frames, one after the other -/
theorem freeAll {ps : List ℕ} (h : Account F a (ps + H)) : Account F (ps.foldl BitmapAllocator.freeFrame a) H := by
  induction ps generalizing a with
  | nil => simpa using h
  | cons p ps ih =>
    refine ih (freeFrame (H := ps + H) ?_)
    rwa [← Multiset.cons_coe, Multiset.cons_add] at h

end Account

/-! ## The table when the frames are back -/

/-- the table of `b` is as long as the table of `a`, and tracks as many frames -/
structure SameSize (a b : BitmapAllocator) : Prop where
  total : b.total = a.total
  length : b.bitmap.length = a.bitmap.length

namespace SameSize

variable {a b c : BitmapAllocator}

theorem refl (a : BitmapAllocator) : SameSize a a := ⟨rfl, rfl⟩

theorem trans (h : SameSize a b) (h' : SameSize b c) : SameSize a c := ⟨h'.total.trans h.total, h'.length.trans h.length⟩

theorem allocFrame (a : BitmapAllocator) : SameSize a a.allocFrame.2 := by
  rw [BitmapAllocator.allocFrame]
  cases a.firstFree (max a.cursor a.generalFloor) with
  | none => exact refl a
  | some f => exact ⟨rfl, Lib.BitTable.length_mark _ _⟩

theorem allocDmaFrame (a : BitmapAllocator) : SameSize a a.allocDmaFrame.2 := by
  rw [BitmapAllocator.allocDmaFrame]
  cases a.dmaScan (a.total - a.reserveBelow / PAGE_SIZE) (a.reserveBelow / PAGE_SIZE) with
  | none => exact refl a
  | some f => exact ⟨rfl, Lib.BitTable.length_mark _ _⟩

theorem freeFrame (a : BitmapAllocator) (addr : ℕ) : SameSize a (a.freeFrame addr) := by
  simp only [BitmapAllocator.freeFrame]
  split_ifs
  · exact refl a
  · exact refl a
  · exact ⟨rfl, Lib.BitTable.length_clear _ _⟩
  · exact ⟨rfl, Lib.BitTable.length_clear _ _⟩

end SameSize

/-- with the same frames held, the table and the count are what they were -/
theorem Account.restored {F H : Multiset ℕ} {a b : BitmapAllocator} (h : Account F a H) (h' : Account F b H)
    (hsize : SameSize a b) : b.bitmap = a.bitmap ∧ b.free = a.free := by
  have hcount : a.free + H.card = b.free + H.card := h.count.trans h'.count.symm
  have haddrs : freeAddrs b = freeAddrs a := add_right_cancel (h'.balance.trans h.balance.symm)
  have hfree : ∀ f < a.total, f ∈ a.freeFrames ↔ f ∈ b.freeFrames := by
    have hmem : ∀ {c d : BitmapAllocator} {f : ℕ}, Rep c → Rep d → freeAddrs c = freeAddrs d → f ∈ c.freeFrames →
        f ∈ d.freeFrames := by
      intro c d f hc hd he hf
      have hin : frameAddr f ∈ freeAddrs d := he ▸ mem_freeAddrs.2 ⟨f, hf, rfl⟩
      obtain ⟨g, hg, hgf⟩ := mem_freeAddrs.1 hin
      have hgf' : g = f := by
        rw [← frameAddr_div (hd.lt_bound (mem_freeFrames.1 hg).1), hgf, frameAddr_div (hc.lt_bound (mem_freeFrames.1 hf).1)]
      exact hgf' ▸ hg
    exact fun f _ => ⟨hmem h.rep h'.rep haddrs.symm, hmem h'.rep h.rep haddrs⟩
  refine ⟨Lib.BitTable.eq_of_test hsize.length fun f hf => ?_, by omega⟩
  by_cases hlt : f < a.total
  · have hiff := hfree f hlt
    rw [mem_freeFrames, mem_freeFrames, hsize.total] at hiff
    have hused : b.isUsed f = false ↔ a.isUsed f = false := ⟨fun hu => (hiff.2 ⟨hlt, hu⟩).2, fun hu => (hiff.1 ⟨hlt, hu⟩).2⟩
    show b.isUsed f = a.isUsed f
    cases hb : b.isUsed f with
    | false => exact (hused.1 hb).symm
    | true =>
      cases ha : a.isUsed f with
      | true => rfl
      | false => exact absurd (hb.symm.trans (hused.2 ha)) (by decide)
  · have hta := h.rep.tail f (not_lt.1 hlt) (by rw [← hsize.length]; exact hf)
    have htb := h'.rep.tail f (by rw [hsize.total]; exact not_lt.1 hlt) hf
    exact htb.trans hta.symm

end Rustproof.Mm
