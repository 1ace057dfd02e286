/-
What unmapping does to a process's space.

`Unmaps A p S s t`: the leaves of the pages `S` of process `p` were cleared, its share slots within `S` may have been
emptied, and nothing else changed but the paging base. `unmapShareSlot`, `unmapRegionFrom`, `unmapDeviceWindow` and
`unmapUnheld` are such steps, for the pages they are about.
-/
import Rustproof.Kernel.SpaceEffect
import Rustproof.Loader.Spec

namespace Rustproof.Kernel

open Lib Prog

variable (A : Arch)

/-! ## The windows -/

/-- page number `k` of share slot `slot` -/
def sharePage (slot k : ℕ) : ℕ := A.userShareBase / PAGE_SIZE + slot * REGION_MAX_PAGES + k

/-- the pages of share slot `slot` -/
def sharePages (slot : ℕ) : Set ℕ := {v | ∃ k < REGION_MAX_PAGES, v = sharePage A slot k}

/-- the page of the device window -/
def devicePage : ℕ := A.userMmioBase / PAGE_SIZE

theorem shareVa_page (slot k : ℕ) : (shareVa A slot + k * PAGE_SIZE) / PAGE_SIZE = sharePage A slot k ∧
    (shareVa A slot + k * PAGE_SIZE) % PAGE_SIZE = 0 := by
  have := A.share_aligned
  simp only [shareVa, sharePage, REGION_MAX_PAGES, PAGE_SIZE] at *
  omega

theorem sharePage_own {slot k : ℕ} (hs : slot < SHARE_SLOTS) (hk : k < REGION_MAX_PAGES) : A.Own (sharePage A slot k) := by
  rw [← (shareVa_page A slot k).1]
  have h1 := A.mmio_in
  have h2 := A.share_in
  refine A.user_own _ ?_ ?_ <;> simp only [shareVa, REGION_MAX_PAGES, SHARE_SLOTS, PAGE_SIZE] at * <;> omega

theorem devicePage_own : A.Own (devicePage A) := by
  have h1 := A.mmio_in
  have h2 := A.share_in
  refine A.user_own _ ?_ ?_ <;> simp only [REGION_MAX_PAGES, SHARE_SLOTS, PAGE_SIZE] at * <;> omega

theorem sharePage_inj {slot slot' k k' : ℕ} (hk : k < REGION_MAX_PAGES) (hk' : k' < REGION_MAX_PAGES)
    (h : sharePage A slot k = sharePage A slot' k') : slot = slot' ∧ k = k' := by
  simp only [sharePage, REGION_MAX_PAGES] at *
  omega

theorem devicePage_notMem (slot : ℕ) : devicePage A ∉ sharePages A slot := by
  rintro ⟨k, -, h⟩
  have h1 := A.mmio_in.2
  have h2 := A.mmio_aligned
  have h3 := A.share_aligned
  simp only [devicePage, sharePage, REGION_MAX_PAGES, PAGE_SIZE] at *
  omega

theorem unmapRange_cleared {root base n : ℕ} {m : Mem} (hal : base % PAGE_SIZE = 0)
    (hown : ∀ i < n, A.Own (base / PAGE_SIZE + i)) (hT : A.Tree m root) :
    Vspace.Cleared A.toMmu root {v | ∃ i < n, v = base / PAGE_SIZE + i} m (unmapRange A root base n m) := by
  induction n with
  | zero =>
    have hempty : {v | ∃ i < 0, v = base / PAGE_SIZE + i} = (∅ : Set ℕ) := by
      ext v; simp
    rw [hempty]
    exact Vspace.Cleared.refl hT
  | succ n ih =>
    have h1 := ih fun i hi => hown i (by omega)
    have hpage : (base + n * PAGE_SIZE) / PAGE_SIZE = base / PAGE_SIZE + n := by
      simp only [PAGE_SIZE] at *; omega
    have h2 := Vspace.unmap_cleared (base + n * PAGE_SIZE) (by rw [hpage]; exact hown n (by omega)) h1.tree
    have hset : {v | ∃ i < n + 1, v = base / PAGE_SIZE + i} =
        {v | ∃ i < n, v = base / PAGE_SIZE + i} ∪ {(base + n * PAGE_SIZE) / PAGE_SIZE} := by
      ext v
      simp only [Set.mem_ofPred_eq, Set.mem_union, Set.mem_singleton_iff, hpage]
      constructor
      · rintro ⟨i, hi, rfl⟩
        rcases Nat.lt_succ_iff_lt_or_eq.1 hi with hi | rfl
        · exact Or.inl ⟨i, hi, rfl⟩
        · exact Or.inr rfl
      · rintro (⟨i, hi, rfl⟩ | rfl)
        · exact ⟨i, by omega, rfl⟩
        · exact ⟨n, by omega, rfl⟩
    rw [hset, unmapRange, List.range_succ, List.foldl_append, List.foldl_cons, List.foldl_nil]
    exact h1.trans h2

/-! ## Unmapping steps -/

structure Unmaps (p : ℕ) (S : Set ℕ) (s t : KState) : Prop where
  proc : ∃ sh, t.procs = s.procs.put p { s.procs p with shares := sh } ∧
    ∀ k, sh k = (s.procs p).shares k ∨ sh k = 0 ∧ sharePages A k ⊆ S
  fa : t.w.fa = s.w.fa
  handouts : t.w.handouts = s.w.handouts
  regions : t.regions = s.regions
  current : t.current = s.current
  cr3 : t.cr3 = s.cr3 ∨ p = s.current ∧ t.cr3 = (s.procs p).token
  mem : A.Tree s.w.mem (A.root (s.procs p).token) →
    Vspace.Cleared A.toMmu (A.root (s.procs p).token) S s.w.mem t.w.mem

namespace Unmaps

variable {A} {p : ℕ} {S S' : Set ℕ} {s t u : KState}

theorem refl (s : KState) : Unmaps A p ∅ s s :=
  ⟨⟨_, (Table.put_eq_self s.procs p).symm, fun _ => Or.inl rfl⟩, rfl, rfl, rfl, rfl, Or.inl rfl, Vspace.Cleared.refl⟩

theorem token (h : Unmaps A p S s t) (q : ℕ) : (t.procs q).token = (s.procs q).token := by
  obtain ⟨sh, hp, -⟩ := h.proc
  rw [hp, Table.put_apply]
  split_ifs with hq
  · rw [hq]
  · rfl

theorem frames (h : Unmaps A p S s t) (q : ℕ) : (t.procs q).frames = (s.procs q).frames := by
  obtain ⟨sh, hp, -⟩ := h.proc
  rw [hp, Table.put_apply]
  split_ifs with hq
  · rw [hq]
  · rfl

theorem authority (h : Unmaps A p S s t) (q : ℕ) : (t.procs q).authority = (s.procs q).authority := by
  obtain ⟨sh, hp, -⟩ := h.proc
  rw [hp, Table.put_apply]
  split_ifs with hq
  · rw [hq]; rfl
  · rfl

theorem other (h : Unmaps A p S s t) {q : ℕ} (hq : q ≠ p) : t.procs q = s.procs q := by
  obtain ⟨sh, hp, -⟩ := h.proc
  rw [hp, Table.put_of_ne _ hq]

theorem shares (h : Unmaps A p S s t) (k : ℕ) :
    (t.procs p).shares k = (s.procs p).shares k ∨ (t.procs p).shares k = 0 ∧ sharePages A k ⊆ S := by
  obtain ⟨sh, hp, hsh⟩ := h.proc
  rw [hp, Table.put_self]
  exact hsh k

theorem trans (h : Unmaps A p S s t) (h' : Unmaps A p S' t u) : Unmaps A p (S ∪ S') s u := by
  refine ⟨?_, h'.fa.trans h.fa, h'.handouts.trans h.handouts, h'.regions.trans h.regions,
    h'.current.trans h.current, ?_, fun hT => ?_⟩
  · have hs := h.shares
    obtain ⟨sh, hp, -⟩ := h.proc
    obtain ⟨sh', hp', hsh'⟩ := h'.proc
    refine ⟨sh', ?_, fun k => ?_⟩
    · rw [hp', hp, Table.put_self]
      funext q
      simp only [Table.put_apply]
      split_ifs <;> rfl
    · rcases hsh' k with h1 | ⟨h1, h2⟩
      · rw [h1]
        exact (hs k).imp_right fun h => ⟨h.1, h.2.trans Set.subset_union_left⟩
      · exact Or.inr ⟨h1, h2.trans Set.subset_union_right⟩
  · rcases h'.cr3 with h1 | ⟨h1, h2⟩
    · rcases h.cr3 with h3 | ⟨h3, h4⟩
      · exact Or.inl (h1.trans h3)
      · exact Or.inr ⟨h3, h1.trans h4⟩
    · exact Or.inr ⟨h1.trans h.current, h2.trans (h.token p)⟩
  · have hc := h.mem hT
    have hc' := h'.mem (by rw [h.token]; exact hc.tree)
    rw [h.token] at hc'
    exact hc.trans hc'

/-- a step whose pages lie in a larger set, with slots of that set only -/
theorem congr (h : Unmaps A p S s t) (hS : S = S') : Unmaps A p S' s t := hS ▸ h

end Unmaps

theorem unmaps_activate (s : KState) (p : ℕ) : Unmaps A p ∅ s (s.activateIfCurrent p) := by
  refine ⟨⟨_, (Table.put_eq_self s.procs p).symm, fun _ => Or.inl rfl⟩, rfl, rfl, rfl, rfl, ?_, Vspace.Cleared.refl⟩
  show (if p = s.current then _ else _) = _ ∨ _ ∧ (if p = s.current then _ else _) = _
  split_ifs with h
  · exact Or.inr ⟨h, rfl⟩
  · exact Or.inl rfl

theorem unmaps_pages (s : KState) (p : ℕ) {base n : ℕ} (hal : base % PAGE_SIZE = 0)
    (hown : ∀ i < n, A.Own (base / PAGE_SIZE + i)) :
    Unmaps A p {v | ∃ i < n, v = base / PAGE_SIZE + i} s (s.unmapPages A p base n) :=
  ⟨⟨_, (Table.put_eq_self s.procs p).symm, fun _ => Or.inl rfl⟩, rfl, rfl, rfl, rfl, Or.inl rfl,
    fun hT => unmapRange_cleared A hal hown hT⟩

theorem unmaps_sharePages (s : KState) (p : ℕ) {slot : ℕ} (hs : slot < SHARE_SLOTS) :
    Unmaps A p (sharePages A slot) s (s.unmapPages A p (shareVa A slot) REGION_MAX_PAGES) := by
  have hpage : ∀ i, shareVa A slot / PAGE_SIZE + i = sharePage A slot i := fun i => by
    rw [← (shareVa_page A slot i).1]
    simp only [PAGE_SIZE]; omega
  refine (unmaps_pages A s p ?_ fun i hi => ?_).congr ?_
  · have := (shareVa_page A slot 0).2
    rwa [Nat.zero_mul, Nat.add_zero] at this
  · rw [hpage]; exact sharePage_own A hs hi
  · ext v
    simp only [hpage]; rfl

theorem unmaps_emptySlot (s : KState) (p : ℕ) {slot : ℕ} (hs : slot < SHARE_SLOTS) :
    Unmaps A p (sharePages A slot) s (emptySlot A p slot s) := by
  have h1 := unmaps_sharePages A s p hs
  have h2 : Unmaps A p (sharePages A slot) s ((s.unmapPages A p (shareVa A slot) REGION_MAX_PAGES).modProc p fun q =>
      { q with shares := q.shares.put slot 0 }) := by
    refine ⟨⟨(s.procs p).shares.put slot 0, rfl, fun k => ?_⟩, h1.fa, h1.handouts, h1.regions, h1.current, h1.cr3, h1.mem⟩
    rw [Table.put_apply]
    split_ifs with hk
    · exact Or.inr ⟨rfl, hk ▸ le_refl _⟩
    · exact Or.inl rfl
  exact (h2.trans (unmaps_activate A _ p)).congr (Set.union_empty _)

theorem emptySlot_shares (s : KState) (p slot k : ℕ) :
    ((emptySlot A p slot s).procs p).shares k = if k = slot then 0 else (s.procs p).shares k := by
  simp [emptySlot, Table.put_apply]

theorem unmaps_deviceWindow (s : KState) (p : ℕ) : Unmaps A p {devicePage A} s (unmapDeviceWindow A p s) := by
  refine ((unmaps_pages A s p A.mmio_aligned fun i hi => ?_).trans (unmaps_activate A _ p)).congr ?_
  · obtain rfl : i = 0 := Nat.lt_one_iff.1 hi
    exact devicePage_own A
  · rw [Set.union_empty]
    ext v
    simp [DEVICE_PAGES, devicePage]

/-- the pages of the share slots below `n` that hold a region satisfying `Q` -/
def heldPages (s : KState) (p n : ℕ) (Q : ℕ → Prop) : Set ℕ :=
  {v | ∃ k < n, Q ((s.procs p).shares k) ∧ v ∈ sharePages A k}

theorem unmaps_shareSlot (s : KState) (p : ℕ) {slot : ℕ} (hs : slot < SHARE_SLOTS) :
    (∃ S, Unmaps A p S s (unmapShareSlot A p slot s)) ∧ ((unmapShareSlot A p slot s).procs p).shares slot = 0 := by
  rw [unmapShareSlot]
  split_ifs with h
  · exact ⟨⟨∅, Unmaps.refl s⟩, h⟩
  · exact ⟨⟨_, unmaps_emptySlot A s p hs⟩, by rw [emptySlot_shares, if_pos rfl]⟩

/-- a pass over the share slots that empties those whose region satisfies `Q` -/
theorem unmaps_loop {Q : ℕ → Prop} (hQ : ¬ Q 0) {f : KState → ℕ → KState} {p n : ℕ} (hn : n ≤ SHARE_SLOTS) (s : KState)
    (hf : ∀ slot < n, ∀ t, (∃ S, Unmaps A p S s t) →
      (∃ S, Unmaps A p S t (f t slot) ∧ ∀ v ∈ S, v ∈ heldPages A t p SHARE_SLOTS Q) ∧ ¬ Q (((f t slot).procs p).shares slot)) :
    ∃ S, Unmaps A p S s ((List.range n).foldl f s) ∧ (∀ v ∈ S, v ∈ heldPages A s p SHARE_SLOTS Q) ∧
      ∀ k < n, ¬ Q ((((List.range n).foldl f s).procs p).shares k) := by
  induction n with
  | zero => exact ⟨∅, Unmaps.refl s, fun v hv => absurd hv (Set.notMem_empty v), fun k hk => by omega⟩
  | succ n ih =>
    obtain ⟨S, h1, h2, h3⟩ := ih (by omega) fun slot hslot => hf slot (by omega)
    rw [List.range_succ, List.foldl_append, List.foldl_cons, List.foldl_nil]
    obtain ⟨⟨S', h4, h5⟩, h6⟩ := hf n (by omega) _ ⟨S, h1⟩
    refine ⟨S ∪ S', h1.trans h4, fun v hv => ?_, fun k hk => ?_⟩
    · rcases hv with hv | hv
      · exact h2 v hv
      · -- a slot that still held such a region held it before
        obtain ⟨k, hk, hq, hv⟩ := h5 v hv
        rcases h1.shares k with he | ⟨he, -⟩
        · exact ⟨k, hk, he ▸ hq, hv⟩
        · rw [he] at hq; exact absurd hq hQ
    · rcases Nat.lt_succ_iff_lt_or_eq.1 hk with hk | rfl
      · rcases h4.shares k with he | ⟨he, -⟩
        · rw [he]; exact h3 k hk
        · rw [he]; exact hQ
      · exact h6

/-- a flag collected by a loop does not matter to the state -/
theorem forAny_snd {α : Type} (f : α → KState → Bool × KState) (bs : List α) (s : KState) :
    (forAny f bs s).2 = bs.foldl (fun s b => (f b s).2) s := by
  induction bs generalizing s with
  | nil => rfl
  | cons b bs ih => exact ih _

/-- **`unmap_region_from`** empties the slots that hold the region. -/
theorem unmaps_regionFrom (s : KState) (p : ℕ) {id : ℕ} (hid : id ≠ 0) :
    ∃ S, Unmaps A p S s (unmapRegionFrom A p id s).2 ∧ (∀ v ∈ S, v ∈ heldPages A s p SHARE_SLOTS (· = id)) ∧
      ∀ k < SHARE_SLOTS, ((unmapRegionFrom A p id s).2.procs p).shares k ≠ id := by
  rw [unmapRegionFrom, forAny_snd]
  refine unmaps_loop A (Q := (· = id)) hid.symm le_rfl s fun slot hslot t _ => ?_
  by_cases h : (t.procs p).shares slot = id
  · rw [if_neg (not_not.2 h)]
    refine ⟨⟨_, unmaps_emptySlot A t p hslot, fun v hv => ⟨slot, hslot, h, hv⟩⟩, ?_⟩
    rw [emptySlot_shares, if_pos rfl]; exact hid.symm
  · rw [if_pos h]
    exact ⟨⟨∅, Unmaps.refl t, fun v hv => absurd hv (Set.notMem_empty v)⟩, h⟩

/-- the body of the loop of `unmapUnheld` -/
def unmapUnheldSlot (p slot : ℕ) (s : KState) : KState :=
  let id := (s.procs p).shares slot
  if id ≠ 0 ∧ capsHoldRegion (s.procs p).caps id CapRights.READ = false then (unmapRegionFrom A p id s).2 else s

theorem unmapUnheld_eq (p : ℕ) (s : KState) :
    unmapUnheld A p s = (List.range SHARE_SLOTS).foldl (fun s slot => unmapUnheldSlot A p slot s) s := rfl

/-- the slots of `p` hold no region it has no readable capability for -/
theorem unmaps_unheld (s : KState) (p : ℕ) :
    ∃ S, Unmaps A p S s (unmapUnheld A p s) ∧
      (∀ v ∈ S, v ∈ heldPages A s p SHARE_SLOTS fun id => id ≠ 0 ∧ capsHoldRegion (s.procs p).caps id CapRights.READ = false) ∧
      ∀ k < SHARE_SLOTS, ((unmapUnheld A p s).procs p).shares k ≠ 0 →
        capsHoldRegion (s.procs p).caps (((unmapUnheld A p s).procs p).shares k) CapRights.READ = true := by
  have hf : ∀ slot < SHARE_SLOTS, ∀ t, (∃ S, Unmaps A p S s t) →
      (∃ S, Unmaps A p S t (unmapUnheldSlot A p slot t) ∧ ∀ v ∈ S, v ∈ heldPages A t p SHARE_SLOTS
        fun id => id ≠ 0 ∧ capsHoldRegion (s.procs p).caps id CapRights.READ = false) ∧
      ¬ (((unmapUnheldSlot A p slot t).procs p).shares slot ≠ 0 ∧ capsHoldRegion (s.procs p).caps
        (((unmapUnheldSlot A p slot t).procs p).shares slot) CapRights.READ = false) := by
    rintro slot hslot t ⟨S, hS⟩
    have hcaps : (t.procs p).caps = (s.procs p).caps := Process.caps_eq (hS.authority p)
    rw [unmapUnheldSlot, hcaps]
    split_ifs with h
    · obtain ⟨S', h1, h2, h3⟩ := unmaps_regionFrom A t p h.1
      refine ⟨⟨S', h1, fun v hv => ?_⟩, ?_⟩
      · obtain ⟨k, hk, he, hv⟩ := h2 v hv
        exact ⟨k, hk, he ▸ h, hv⟩
      · -- the slot is empty now, or holds something else than it did: it is empty
        rcases h1.shares slot with he | ⟨he, -⟩
        · exact absurd he (h3 slot hslot)
        · rw [he]; exact fun h => h.1 rfl
    · exact ⟨⟨∅, Unmaps.refl t, fun v hv => absurd hv (Set.notMem_empty v)⟩, h⟩
  rw [unmapUnheld_eq]
  obtain ⟨S, h1, h2, h3⟩ := unmaps_loop A (fun h => h.1 rfl) le_rfl s hf
  refine ⟨S, h1, h2, fun k hk h0 => ?_⟩
  by_contra hne
  exact h3 k hk ⟨h0, by simpa using hne⟩

end Rustproof.Kernel
