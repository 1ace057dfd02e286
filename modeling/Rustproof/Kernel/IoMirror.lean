/-
The hardware's I/O tables beside the model of the domains.

`Matched`: slot `slot` of a domain's level-1 table is absent where the model translates nothing, and the entry the model says
where it does. Withdrawals cut both the same way (`Purged`). A mapping that gives a page the rights it is translated with
elsewhere writes both, and one that fails partway leaves what the domains grant and translate as it was (`Fits.installDma`).
-/
import Rustproof.Kernel.Attribution
import Rustproof.Kernel.Grants

namespace Rustproof.Kernel

open Lib Prog RadixTree Iommu.Domain

variable {A : Arch} {C : Config} {s t u : KState}

/-! ## The two tables -/

/-- slot `slot` of domain `di`'s table is what the model translates at its device address -/
structure Matched (C : Config) (s : KState) (di slot : ℕ) : Prop where
  entry : ∀ frame rights, (s.domains di).mapped (slot * PAGE_SIZE) = some (frame, rights) →
    s.leafAt C di slot = iopte.leaf (frame * PAGE_SIZE) rights
  absent : (s.domains di).mapped (slot * PAGE_SIZE) = none → ¬Present C s di slot

/-- models and tables agree on the windows of `MAP_DMA`, and the frames they translate to have addresses -/
structure InStep (C : Config) (s : KState) : Prop where
  ok : ∀ di, di < MAX_DOMAINS → (s.domains di).Ok
  small : ∀ di, di < MAX_DOMAINS → ∀ iova frame rights, (s.domains di).mapped iova = some (frame, rights) →
    frame * PAGE_SIZE < 2 ^ 52
  matched : ∀ di, Published C di → ∀ slot, DMA_IOVA_FIRST_SLOT ≤ slot → slot < 512 → Matched C s di slot

theorem iopte.frame_leaf_page {frame : ℕ} (h : frame * PAGE_SIZE < 2 ^ 52) (rights : CapRights) :
    iopte.frame (iopte.leaf (frame * PAGE_SIZE) rights) = frame := by
  rw [iopte.frame_leaf (Nat.mul_mod_left _ _) h]
  exact Nat.mul_div_cancel _ (by decide)

namespace InStep

/-- what the model translates is present, and names its frame -/
theorem mapped_present (h : InStep C s) {di slot frame : ℕ} {rights : CapRights} (hdi : Published C di)
    (hlo : DMA_IOVA_FIRST_SLOT ≤ slot) (hhi : slot < 512)
    (hm : (s.domains di).mapped (slot * PAGE_SIZE) = some (frame, rights)) :
    Present C s di slot ∧ iopte.frame (s.leafAt C di slot) = frame := by
  have he := (h.matched di hdi slot hlo hhi).entry frame rights hm
  rw [Present, he]
  exact ⟨iopte.present_leaf _ _, iopte.frame_leaf_page (h.small di hdi.1 _ _ _ hm) rights⟩

/-- what is absent the model does not translate -/
theorem mapped_absent (h : InStep C s) {di slot : ℕ} (hdi : Published C di) (hlo : DMA_IOVA_FIRST_SLOT ≤ slot)
    (hhi : slot < 512) (habs : ¬Present C s di slot) : (s.domains di).mapped (slot * PAGE_SIZE) = none := by
  cases hm : (s.domains di).mapped (slot * PAGE_SIZE) with
  | none => rfl
  | some m =>
    obtain ⟨frame, rights⟩ := m
    exact absurd (h.mapped_present hdi hlo hhi hm).1 habs

end InStep

/-! ## Withdrawals -/

/-- what `Q` selects is gone from the tables and from the models, and nothing else is -/
structure Purged (C : Config) (Q : ℕ → ℕ → Prop) (s t : KState) : Prop where
  swept : Swept C Q s t
  drops : ∀ di < MAX_DOMAINS, Drops (Q di) (s.domains di) (t.domains di)

namespace Purged

variable {Q Q' : ℕ → ℕ → Prop}

theorem of_same (hmem : ∀ di, Published C di → t.w.mem (C.domainSlots di).l1 = s.w.mem (C.domainSlots di).l1)
    (hd : t.domains = s.domains) : Purged C (fun _ _ => False) s t :=
  ⟨Swept.of_mem hmem, fun di _ => by rw [hd]; exact Drops.refl _⟩

theorem refl (s : KState) : Purged C (fun _ _ => False) s s := of_same (fun _ _ => rfl) rfl

theorem congr (h : Purged C Q s t) (hQ : ∀ di < MAX_DOMAINS, ∀ f, Q di f ↔ Q' di f) : Purged C Q' s t :=
  ⟨h.swept.congr fun di hdi => hQ di hdi.1, fun di hdi => (h.drops di hdi).congr (hQ di hdi)⟩

theorem trans (h : Purged C Q s t) (h' : Purged C Q' t u) : Purged C (fun di f => Q di f ∨ Q' di f) s u :=
  ⟨h.swept.trans h'.swept, fun di hdi => (h.drops di hdi).trans (h'.drops di hdi)⟩

/-- a purge, and then a step that leaves tables and models alone -/
theorem same (h : Purged C Q s t) (hmem : ∀ di, Published C di → u.w.mem (C.domainSlots di).l1 = t.w.mem (C.domainSlots di).l1)
    (hd : u.domains = t.domains) : Purged C Q s u :=
  (h.trans (of_same hmem hd)).congr fun _ _ _ => or_iff_left id

theorem ring (h : Purged C Q s t) (hC : DomainsOk C) (hr : RingOnly C t u) : Purged C Q s u :=
  h.same (fun di hdi => hr.mem _ (hC.others di hdi.1 hdi.2).1 (hC.others di hdi.1 hdi.2).2.1) hr.domains

theorem forAny {α : Type} {f : α → KState → Bool × KState} {Q : α → ℕ → ℕ → Prop} {bs : List α}
    (hf : ∀ b ∈ bs, ∀ s, Purged C (Q b) s (f b s).2) (s : KState) :
    Purged C (fun di g => ∃ b ∈ bs, Q b di g) s (Prog.forAny f bs s).2 := by
  induction bs generalizing s with
  | nil => exact (refl s).congr fun di _ g => by simp
  | cons b bs ih =>
    have h1 := hf b List.mem_cons_self s
    have h2 := ih (fun c hc => hf c (List.mem_cons_of_mem _ hc)) (f b s).2
    exact (h1.trans h2).congr fun di _ g => by simp

/-- **A withdrawal keeps the tables in step.** -/
theorem inStep (h : Purged C Q s t) (hs : InStep C s) : InStep C t := by
  refine ⟨fun di hdi => (h.drops di hdi (hs.ok di hdi)).ok, fun di hdi iova frame rights hm => ?_, fun di hdi slot hlo hhi => ?_⟩
  · rcases (h.drops di hdi (hs.ok di hdi)).maps iova with ⟨-, hgone⟩ | ⟨-, hsame⟩
    · rw [hgone] at hm
      exact absurd hm (by simp)
    · exact hs.small di hdi iova frame rights (hsame ▸ hm)
  · have hold := hs.matched di hdi slot hlo hhi
    rcases (h.drops di hdi.1 (hs.ok di hdi.1)).maps (slot * PAGE_SIZE) with ⟨⟨frame, rights, hm, hq⟩, hgone⟩ | ⟨hkeep, hsame⟩
    · obtain ⟨hpres, hframe⟩ := hs.mapped_present hdi hlo hhi hm
      have hcut := h.swept.cut di hdi slot hhi hpres (by rw [hframe]; exact hq)
      refine ⟨fun f r hf => absurd (hgone.symm.trans hf) (by simp), fun _ hp => ?_⟩
      rw [Present, hcut] at hp
      exact absurd hp (by decide)
    · have hleaf : t.leafAt C di slot = s.leafAt C di slot := by
        refine h.swept.keep di hdi slot hhi fun hc => ?_
        cases hm : (s.domains di).mapped (slot * PAGE_SIZE) with
        | none => exact hold.absent hm hc.1
        | some m =>
          obtain ⟨frame, rights⟩ := m
          have hframe := (hs.mapped_present hdi hlo hhi hm).2
          exact hkeep frame rights hm (hframe ▸ hc.2)
      refine ⟨fun f r hf => ?_, fun hnone hp => ?_⟩
      · rw [hleaf]
        exact hold.entry f r (hsame ▸ hf)
      · rw [Present, hleaf] at hp
        exact hold.absent (hsame ▸ hnone) hp

end Purged

theorem purged_withdrawPage (hC : DomainsOk C) {di : ℕ} (hdi : di < MAX_DOMAINS) (pfn : ℕ) (s : KState) :
    Purged C (fun dj f => dj = di ∧ f = pfn) s (withdrawPage C di pfn s).2 := by
  have hsw := swept_clearIoMappingsIn hC hdi pfn s
  refine ⟨⟨hsw.cut, hsw.keep⟩, fun dj hdj => ?_⟩
  simp only [withdrawPage, KState.modDomain_domains, domains_clearIoMappingsIn, Table.put_apply]
  by_cases hd : dj = di
  · rw [if_pos hd, hd]
    refine (drops_unmaps (d := s.domains di) _ fun iova hio hok m hm => ?_).congr fun f => (and_iff_right rfl).symm
    -- what is unmapped are translations of this page
    obtain ⟨x, hx, rfl⟩ := List.mem_map.1 (List.mem_of_mem_take hio)
    obtain ⟨hx, hf⟩ := List.mem_filter.1 hx
    have hmx := (hok.mem_reachable.1 hx).2
    rw [hmx] at hm
    rw [← Option.some.inj hm]
    exact beq_iff_eq.1 hf
  · rw [if_neg hd]
    exact (Drops.refl _).congr fun f => ⟨False.elim, fun hc => hd hc.1⟩

theorem purged_region (hC : DomainsOk C) {di : ℕ} (hdi : di < MAX_DOMAINS) (ri : ℕ) (s : KState) :
    Purged C (fun dj f => dj = di ∧ ∃ frame ∈ (s.regions ri).frames, f = frame / PAGE_SIZE) s
      (withdrawRegionFromDomain C di ri s).2 := by
  refine (Purged.forAny (Q := fun frame dj f => dj = di ∧ f = frame / PAGE_SIZE)
    (fun frame _ s => purged_withdrawPage hC hdi (frame / PAGE_SIZE) s) s).congr fun dj _ f => ?_
  constructor
  · rintro ⟨frame, hm, rfl, hf⟩
    exact ⟨rfl, frame, hm, hf⟩
  · rintro ⟨rfl, frame, hm, hf⟩
    exact ⟨frame, hm, rfl, hf⟩

/-- whatever a withdrawal by record takes -/
theorem purged_slot (hC : DomainsOk C) (who slot : ℕ) (s : KState) : ∃ Q, Purged C Q s (withdrawDmaSlot C who slot s).2 := by
  have hrec : Purged C (fun _ _ => False) s (s.modProc who fun p => { p with dma := p.dma.put slot (0, 0) }) :=
    Purged.of_same (fun _ _ => rfl) rfl
  rw [withdrawDmaSlot]
  simp only
  split_ifs
  · exact ⟨_, Purged.refl s⟩
  cases hd : domainLookup C ((s.procs who).dma slot).2 with
  | none => exact ⟨_, hrec⟩
  | some di =>
    simp only
    split
    · exact ⟨_, hrec⟩
    · exact ⟨_, hrec.trans (purged_region hC (domainLookup_lt C hd).1 _ _)⟩

theorem purged_slots (hC : DomainsOk C) (who : ℕ) (s : KState) : ∃ Q, Purged C Q s (withdrawSlots C who s).2 := by
  refine forAny_keep (I := fun t : KState => ∃ Q, Purged C Q s t) (fun slot _ t ht => ?_) ⟨_, Purged.refl s⟩
  obtain ⟨Q, hQ⟩ := ht
  obtain ⟨Q', hQ'⟩ := purged_slot hC who slot t
  rw [withdrawSlotAtExit]
  exact ⟨_, (hQ.trans hQ').same (fun _ _ => rfl) rfl⟩

theorem purged_withdrawAll (hC : DomainsOk C) {who : ℕ} (h : withdrawAllDmaOf C who s = .ok ((), t)) : ∃ Q, Purged C Q s t := by
  have hwp : wp (withdrawAllDmaOf C who) (fun _ t => ∃ Q, Purged C Q s t) (· = .ringFull) s := by
    rw [withdrawAllDmaOf, wp_bind, wp_run]
    refine wp_mono (ringOnly_flushIf _ _) fun _ u hu => ?_
    obtain ⟨Q, hQ⟩ := purged_slots hC who s
    exact ⟨Q, hQ.ring hC hu⟩
  exact wp_ok hwp h

theorem purged_unmapDma (hC : DomainsOk C) {who domain region v : ℕ} (h : unmapDma C who domain region s = .ok (v, t)) :
    ∃ Q, Purged C Q s t := by
  have hwp : wp (unmapDma C who domain region) (fun _ t => ∃ Q, Purged C Q s t) (· = .ringFull) s := by
    rw [unmapDma, wp_bind, wp_get]
    refine wp_ite (fun _ => ⟨_, Purged.refl s⟩) fun _ => ?_
    cases hd : domainLookup C domain with
    | none => exact ⟨_, Purged.refl s⟩
    | some di =>
      simp only
      cases s.regionIndex region with
      | none => exact ⟨_, Purged.refl s⟩
      | some ri =>
        have hw := (purged_region hC (domainLookup_lt C hd).1 ri s).same
          (u := dropRecords who region domain (withdrawRegionFromDomain C di ri s).2) (fun _ _ => rfl) rfl
        simp only [wp_bind, wp_modify]
        refine wp_onlyIf (fun _ => ?_) fun _ => ⟨_, hw⟩
        exact wp_mono (ringOnly_invalidateCounted di _) fun _ u hu => ⟨_, hw.ring hC hu⟩
  exact wp_ok hwp h

/-- the models alone: `Domain::revoke` in every domain, frame by frame -/
theorem drops_everywhere (frames : List ℕ) {di : ℕ} (hdi : di < MAX_DOMAINS) (s : KState) :
    Drops (fun f => ∃ frame ∈ frames, f = frame / PAGE_SIZE) (s.domains di)
      ((withdrawRegionEverywhere A C frames s).2.domains di) := by
  have hone : ∀ (g : ℕ) (n : ℕ) (v : KState) (di : ℕ),
      ((List.range n).foldl (fun s di => s.modDomain di fun d => d.revoke g) v).domains di =
        if di < n then (v.domains di).revoke g else v.domains di := by
    intro g n v di
    induction n with
    | zero => rfl
    | succ n ih =>
      rw [List.range_succ, List.foldl_append, List.foldl_cons, List.foldl_nil, KState.modDomain_domains, Table.put_apply]
      by_cases hn : di = n
      · subst hn
        rw [if_pos rfl, ih, if_neg (lt_irrefl _), if_pos (Nat.lt_succ_self _)]
      · rw [if_neg hn, ih]
        by_cases hlt : di < n
        · rw [if_pos hlt, if_pos (by omega)]
        · rw [if_neg hlt, if_neg (by omega)]
  have hframe : ∀ (frame : ℕ) (v : KState),
      (withdrawFrame A C frame v).2.domains di = (v.domains di).revoke (frame / PAGE_SIZE) := by
    intro frame v
    simp only [withdrawFrame]
    rw [hone, if_pos hdi]
    split_ifs
    · rw [domains_clearIoMappingsOf]
    · rfl
  induction frames generalizing s with
  | nil => exact (Drops.refl _).congr fun f => by simp
  | cons frame fs ih =>
    have h1 : Drops (· = frame / PAGE_SIZE) (s.domains di) ((withdrawFrame A C frame s).2.domains di) := by
      rw [hframe]
      exact Drops.revoke _ _
    refine (h1.trans (ih (withdrawFrame A C frame s).2)).congr fun f => ?_
    simp

theorem purged_everywhere (hC : DomainsOk C) (hio : A.iommu = true) (frames : List ℕ) (s : KState) :
    Purged C (fun _ f => ∃ frame ∈ frames, f = frame / PAGE_SIZE) s (withdrawRegionEverywhere A C frames s).2 :=
  ⟨swept_withdrawRegionEverywhere hC hio frames s, fun _ hdi => drops_everywhere frames hdi s⟩

theorem mem_freeRegion (i : ℕ) (s : KState) : (freeRegion i s).w.mem = s.w.mem := Machine.mem_freeFrames _ _

/-! ## Mapping -/

theorem page_inj {a b : ℕ} : a * PAGE_SIZE = b * PAGE_SIZE ↔ a = b := Nat.mul_left_inj (by decide)

/-- the page of frame `j` of region `ri` -/
def KState.pageOf (s : KState) (ri j : ℕ) : ℕ := (s.regions ri).frames.getD j 0 / PAGE_SIZE

namespace InStep

variable {di : ℕ} {f : Domain → Domain}

/-- a change of the model that leaves every translation as it was -/
theorem model (h : InStep C s) (hok : (f (s.domains di)).Ok) (hf : ∀ x, (f (s.domains di)).mapped x = (s.domains di).mapped x) :
    InStep C (s.modDomain di f) := by
  have hd : ∀ dj, ∀ x, ((s.modDomain di f).domains dj).mapped x = (s.domains dj).mapped x := by
    intro dj x
    rw [KState.modDomain_domains, Table.put_apply]
    split_ifs with hdj
    · rw [hdj]
      exact hf x
    · rfl
  refine ⟨fun dj hdj => ?_, fun dj hdj x frame rights hm => h.small dj hdj x frame rights ((hd dj x) ▸ hm),
    fun dj hdj slot hlo hhi => ?_⟩
  · rw [KState.modDomain_domains, Table.put_apply]
    split_ifs
    · exact hok
    · exact h.ok dj hdj
  · have hold := h.matched dj hdj slot hlo hhi
    exact ⟨fun frame rights hm => hold.entry frame rights ((hd dj _) ▸ hm), fun hn => hold.absent ((hd dj _) ▸ hn)⟩

/-- one translation and its entry are written -/
theorem write (h : InStep C s) (hC : DomainsOk C) (hdi : Published C di) {slot : ℕ} {pte : Word}
    {new : Option (ℕ × CapRights)} (hok : (f (s.domains di)).Ok)
    (hf : ∀ x, (f (s.domains di)).mapped x = if x = slot * PAGE_SIZE then new else (s.domains di).mapped x)
    (hsome : ∀ frame rights, new = some (frame, rights) → frame * PAGE_SIZE < 2 ^ 52 ∧
      pte = iopte.leaf (frame * PAGE_SIZE) rights)
    (hnone : new = none → iopte.present pte = false) : InStep C ((s.modDomain di f).storeLeaf C di slot pte) := by
  have hd : ∀ dj x, (((s.modDomain di f).storeLeaf C di slot pte).domains dj).mapped x =
      if dj = di ∧ x = slot * PAGE_SIZE then new else (s.domains dj).mapped x := by
    intro dj x
    show ((s.domains.put di (f (s.domains di))) dj).mapped x = _
    rw [Table.put_apply]
    by_cases hdj : dj = di
    · subst hdj
      rw [if_pos rfl, hf]
      simp only [true_and]
    · rw [if_neg hdj, if_neg fun hc => hdj hc.1]
  refine ⟨fun dj hdj => ?_, fun dj hdj x frame rights hm => ?_, fun dj hdj k hlo hhi => ?_⟩
  · show ((s.domains.put di (f (s.domains di))) dj).Ok
    rw [Table.put_apply]
    split_ifs
    · exact hok
    · exact h.ok dj hdj
  · rw [hd] at hm
    split_ifs at hm
    · exact (hsome frame rights hm).1
    · exact h.small dj hdj x frame rights hm
  · have hleaf : ((s.modDomain di f).storeLeaf C di slot pte).leafAt C dj k =
        if dj = di ∧ k = slot then pte else s.leafAt C dj k := leafAt_storeLeaf hC hdi hdj _ slot k pte
    by_cases hc : dj = di ∧ k = slot
    · have hc' : dj = di ∧ k * PAGE_SIZE = slot * PAGE_SIZE := ⟨hc.1, by rw [hc.2]⟩
      refine ⟨fun frame rights hm => ?_, fun hn hp => ?_⟩
      · rw [hd, if_pos hc'] at hm
        rw [hleaf, if_pos hc]
        exact (hsome frame rights hm).2
      · rw [hd, if_pos hc'] at hn
        rw [Present, hleaf, if_pos hc, hnone hn] at hp
        exact absurd hp (by decide)
    · have hc' : ¬(dj = di ∧ k * PAGE_SIZE = slot * PAGE_SIZE) := fun hx => hc ⟨hx.1, page_inj.1 hx.2⟩
      have hold := h.matched dj hdj k hlo hhi
      refine ⟨fun frame rights hm => ?_, fun hn hp => ?_⟩
      · rw [hd, if_neg hc'] at hm
        rw [hleaf, if_neg hc]
        exact hold.entry frame rights hm
      · rw [hd, if_neg hc'] at hn
        rw [Present, hleaf, if_neg hc] at hp
        exact hold.absent hn hp

end InStep

/-! ### Undoing a mapping -/

/-- a step of the model of domain `di` and its table, and of nothing else -/
structure InDomain (di : ℕ) (s t : KState) : Prop where
  regions : t.regions = s.regions
  others : ∀ dj, dj ≠ di → t.domains dj = s.domains dj

namespace InDomain

variable {di : ℕ}

theorem refl (s : KState) : InDomain di s s := ⟨rfl, fun _ _ => rfl⟩

theorem trans (h : InDomain di s t) (h' : InDomain di t u) : InDomain di s u :=
  ⟨h'.regions.trans h.regions, fun dj hne => (h'.others dj hne).trans (h.others dj hne)⟩

theorem modDomain (s : KState) (f : Domain → Domain) : InDomain di s (s.modDomain di f) :=
  ⟨rfl, fun _ hne => Table.put_of_ne _ hne _⟩

theorem storeLeaf (s : KState) (f : Domain → Domain) (slot : ℕ) (pte : Word) :
    InDomain di s ((s.modDomain di f).storeLeaf C di slot pte) := ⟨rfl, fun _ hne => Table.put_of_ne _ hne _⟩

theorem pageOf (h : InDomain di s t) (ri j : ℕ) : t.pageOf ri j = s.pageOf ri j := by
  rw [KState.pageOf, KState.pageOf, h.regions]

end InDomain

/-- `unmap` of the page at `slot`, in the model and in the table -/
def unmapPage (C : Config) (di slot : ℕ) (s : KState) : KState :=
  (s.modDomain di fun d => d.unmap (slot * PAGE_SIZE)).storeLeaf C di slot 0

/-- `revoke` of a frame nothing translates to any more -/
def revokeIdle (di pfn : ℕ) (s : KState) : KState :=
  if (s.domains di).reachable.any (·.frame == pfn) then s else s.modDomain di fun d => d.revoke pfn

theorem rollbackDma_eq (di ri first k : ℕ) (s : KState) : rollbackDma C di ri first k s =
    (List.range (k + 1)).foldl (fun v j => revokeIdle di (v.pageOf ri j) v)
      ((List.range (k + 1)).foldl (fun v j => unmapPage C di (first + j) v) s) := rfl

/-- some address of domain `di` translates to `f` -/
def KState.Translates (s : KState) (di f : ℕ) : Prop := ∃ x rights, (s.domains di).mapped x = some (f, rights)

theorem unmapPage_spec (hC : DomainsOk C) {di : ℕ} (hdi : Published C di) (slot : ℕ) (h : InStep C s) :
    InStep C (unmapPage C di slot s) ∧ (∀ x, ((unmapPage C di slot s).domains di).mapped x =
      if x = slot * PAGE_SIZE then none else (s.domains di).mapped x) ∧
      ∀ f, ((unmapPage C di slot s).domains di).granted f = (s.domains di).granted f := by
  have hok := h.ok di hdi.1
  have hd : (unmapPage C di slot s).domains di = (s.domains di).unmap (slot * PAGE_SIZE) := Table.put_self _ _ _
  refine ⟨h.write hC hdi (hok.unmap _) (hok.mapped_unmap _) (fun _ _ hc => absurd hc (by simp)) fun _ => by decide, fun x => ?_,
    fun f => ?_⟩
  · rw [hd]
    exact hok.mapped_unmap _ x
  · rw [hd]
    exact Iommu.Domain.granted_unmap _ f

/-- the first loop of the rollback, after `n` pages -/
theorem unmapPages_spec (hC : DomainsOk C) {di : ℕ} (hdi : Published C di) (first n : ℕ) (h : InStep C s)
    (ht : t = (List.range n).foldl (fun v j => unmapPage C di (first + j) v) s) :
    InStep C t ∧ InDomain di s t ∧ (∀ j < n, (t.domains di).mapped ((first + j) * PAGE_SIZE) = none) ∧
      (∀ x, (∀ j < n, x ≠ (first + j) * PAGE_SIZE) → (t.domains di).mapped x = (s.domains di).mapped x) ∧
      ∀ f, (t.domains di).granted f = (s.domains di).granted f := by
  induction n generalizing t with
  | zero =>
    rw [ht]
    exact ⟨h, InDomain.refl s, fun j hj => absurd hj (Nat.not_lt_zero j), fun _ _ => rfl, fun _ => rfl⟩
  | succ n ih =>
    rw [List.range_succ, List.foldl_append, List.foldl_cons, List.foldl_nil] at ht
    obtain ⟨h1, h2, h3, h4, h5⟩ := ih rfl
    set v := (List.range n).foldl (fun v j => unmapPage C di (first + j) v) s
    obtain ⟨h6, h7, h8⟩ := unmapPage_spec hC hdi (first + n) h1
    rw [ht]
    refine ⟨h6, h2.trans (InDomain.storeLeaf v _ _ _), fun j hj => ?_, fun x hx => ?_, fun f => (h8 f).trans (h5 f)⟩
    · rw [h7]
      split_ifs with hjn
      · rfl
      · have hne : j ≠ n := fun he => hjn (by rw [he])
        exact h3 j (by omega)
    · rw [h7, if_neg (hx n (Nat.lt_succ_self n))]
      exact h4 x fun j hj => hx j (by omega)

theorem revokeIdle_spec {di : ℕ} (hdi : di < MAX_DOMAINS) (pfn : ℕ) (h : InStep C s) :
    InStep C (revokeIdle di pfn s) ∧ InDomain di s (revokeIdle di pfn s) ∧
      (∀ x, ((revokeIdle di pfn s).domains di).mapped x = (s.domains di).mapped x) ∧
      (∀ f, f ≠ pfn ∨ s.Translates di f → ((revokeIdle di pfn s).domains di).granted f = (s.domains di).granted f) ∧
      (¬s.Translates di pfn → ((revokeIdle di pfn s).domains di).granted pfn = none) := by
  have hok := h.ok di hdi
  have hany : (s.domains di).reachable.any (·.frame == pfn) = true ↔ s.Translates di pfn := by
    rw [List.any_eq_true]
    constructor
    · rintro ⟨m, hm, hf⟩
      obtain ⟨-, hmapped⟩ := hok.mem_reachable.1 hm
      exact ⟨m.iova, m.rights, by rw [hmapped, beq_iff_eq.1 hf]⟩
    · rintro ⟨x, rights, hm⟩
      exact ⟨_, hok.mapped_iff.1 hm, beq_iff_eq.2 rfl⟩
  unfold revokeIdle
  by_cases hused : s.Translates di pfn
  · rw [if_pos (hany.2 hused)]
    exact ⟨h, InDomain.refl s, fun _ => rfl, fun _ _ => rfl, fun hn => absurd hused hn⟩
  rw [if_neg fun hc => hused (hany.1 hc)]
  have hsame : ∀ x, ((s.domains di).revoke pfn).mapped x = (s.domains di).mapped x := by
    intro x
    rw [hok.mapped_revoke]
    cases hm : (s.domains di).mapped x with
    | none => rfl
    | some m =>
      have hne : (m.1 != pfn) = true := by
        rw [bne_iff_ne]
        intro he
        exact hused ⟨x, m.2, by rw [hm, ← he]⟩
      rw [Option.filter_some, if_pos hne]
  have hd : (s.modDomain di fun d => d.revoke pfn).domains di = (s.domains di).revoke pfn := Table.put_self _ _ _
  refine ⟨h.model (f := fun d => d.revoke pfn) (hok.revoke pfn) hsame, InDomain.modDomain s _, fun x => ?_, fun f hf => ?_,
    fun _ => ?_⟩
  · rw [hd]
    exact hsame x
  · rw [hd, hok.granted_revoke_eq, if_neg]
    intro he
    rcases hf with hf | hf
    · exact hf he
    · exact hused (he ▸ hf)
  · rw [hd, hok.granted_revoke_eq, if_pos rfl]

/-- the second loop takes no translation, and the grants of the pages `js` that nothing translates to -/
theorem revokeIdles_spec {di : ℕ} (hdi : di < MAX_DOMAINS) (ri : ℕ) (js : List ℕ) (h : InStep C s)
    (ht : t = js.foldl (fun v j => revokeIdle di (v.pageOf ri j) v) s) :
    InStep C t ∧ InDomain di s t ∧ (∀ x, (t.domains di).mapped x = (s.domains di).mapped x) ∧
      (∀ f, (∀ j ∈ js, s.pageOf ri j ≠ f) ∨ s.Translates di f → (t.domains di).granted f = (s.domains di).granted f) ∧
      ∀ f, ¬s.Translates di f → (s.domains di).granted f = none ∨ (∃ j ∈ js, s.pageOf ri j = f) →
        (t.domains di).granted f = none := by
  induction js generalizing s with
  | nil =>
    rw [ht]
    refine ⟨h, InDomain.refl s, fun _ => rfl, fun _ _ => rfl, fun f _ hf => hf.elim id ?_⟩
    rintro ⟨j, hj, -⟩
    exact absurd hj List.not_mem_nil
  | cons j js ih =>
    obtain ⟨h1, h2, h3, h4, h5⟩ := revokeIdle_spec hdi (s.pageOf ri j) h
    set v := revokeIdle di (s.pageOf ri j) s
    obtain ⟨h6, h7, h8, h9, h10⟩ := ih h1 ht
    have htr : ∀ f, v.Translates di f ↔ s.Translates di f := by
      intro f
      simp only [KState.Translates, h3]
    refine ⟨h6, h2.trans h7, fun x => (h8 x).trans (h3 x), fun f hf => ?_, fun f hn hf => ?_⟩
    · have hv : (v.domains di).granted f = (s.domains di).granted f :=
        h4 f (hf.imp_left fun hj => (hj j List.mem_cons_self).symm)
      refine (h9 f ?_).trans hv
      refine hf.imp (fun hj i hi => ?_) (htr f).2
      rw [h2.pageOf]
      exact hj i (List.mem_cons_of_mem j hi)
    · refine h10 f (fun hc => hn ((htr f).1 hc)) ?_
      by_cases hjf : s.pageOf ri j = f
      · exact Or.inl (by rw [← hjf]; exact h5 (hjf ▸ hn))
      · rcases hf with hf | ⟨i, hi, hif⟩
        · exact Or.inl ((h4 f (Or.inl fun he => hjf he.symm)).trans hf)
        · refine Or.inr ⟨i, (List.mem_cons.1 hi).resolve_left fun he => hjf (he ▸ hif), ?_⟩
          rw [h2.pageOf]
          exact hif

/-- the rollback of the pages up to `k`: their translations go, and their grants unless something else translates to them -/
structure RolledBack (C : Config) (di ri first k : ℕ) (s t : KState) : Prop where
  inStep : InStep C t
  inDomain : InDomain di s t
  gone : ∀ j ≤ k, (t.domains di).mapped ((first + j) * PAGE_SIZE) = none
  rest : ∀ x, (∀ j ≤ k, x ≠ (first + j) * PAGE_SIZE) → (t.domains di).mapped x = (s.domains di).mapped x
  idle : ∀ j ≤ k, ¬t.Translates di (s.pageOf ri j) → (t.domains di).granted (s.pageOf ri j) = none
  kept : ∀ f, (∀ j ≤ k, s.pageOf ri j ≠ f) ∨ t.Translates di f → (t.domains di).granted f = (s.domains di).granted f

theorem rollbackDma_spec (hC : DomainsOk C) {di : ℕ} (hdi : Published C di) (ri first k : ℕ) (h : InStep C s) :
    RolledBack C di ri first k s (rollbackDma C di ri first k s) := by
  rw [rollbackDma_eq]
  obtain ⟨h1, h2, h3, h4, h5⟩ := unmapPages_spec hC hdi first (k + 1) h rfl
  set v := (List.range (k + 1)).foldl (fun v j => unmapPage C di (first + j) v) s
  obtain ⟨h6, h7, h8, h9, h10⟩ := revokeIdles_spec hdi.1 ri (List.range (k + 1)) h1 rfl
  set w := (List.range (k + 1)).foldl (fun v j => revokeIdle di (v.pageOf ri j) v) v
  have htr : ∀ f, w.Translates di f ↔ v.Translates di f := by
    intro f
    simp only [KState.Translates, h8]
  refine ⟨h6, h2.trans h7, fun j hj => ?_, fun x hx => ?_, fun j hj hn => ?_, fun f hf => ?_⟩
  · rw [h8]
    exact h3 j (by omega)
  · rw [h8]
    exact h4 x fun j hj => hx j (by omega)
  · refine h10 _ (fun hc => hn ((htr _).2 hc)) (Or.inr ⟨j, List.mem_range.2 (by omega), ?_⟩)
    rw [h2.pageOf]
  · refine (h9 f (hf.imp (fun hj i hi => ?_) (htr f).1)).trans (h5 f)
    rw [h2.pageOf]
    exact hj i (Nat.lt_succ_iff.1 (List.mem_range.1 hi))

/-! ### The install loop -/

/-- every grant has a translation -/
def Used (s : KState) : Prop := ∀ di < MAX_DOMAINS, ∀ f rights, (s.domains di).granted f = some rights →
  ∃ x, (s.domains di).mapped x = some (f, rights)

/-- what the install loop of `map_dma` starts from: free slots of the window, pages that are translated with these rights only -/
structure Fits (C : Config) (di ri first : ℕ) (rights : CapRights) (s : KState) : Prop where
  inStep : InStep C s
  used : Used s
  published : Published C di
  window : DMA_IOVA_FIRST_SLOT ≤ first ∧ first + (s.regions ri).frames.length ≤ 512
  aligned : ∀ j < (s.regions ri).frames.length,
    (s.regions ri).frames.getD j 0 % PAGE_SIZE = 0 ∧ (s.regions ri).frames.getD j 0 < 2 ^ 52
  absent : ∀ j < (s.regions ri).frames.length, ¬Present C s di (first + j)
  exact_ : ∀ j < (s.regions ri).frames.length, ∀ x r, (s.domains di).mapped x = some (s.pageOf ri j, r) → r = rights

/-- the state `t` after `k` pages of the loop that started in `s` -/
structure Installing (C : Config) (di ri first : ℕ) (rights : CapRights) (k : ℕ) (s t : KState) : Prop where
  inStep : InStep C t
  inDomain : InDomain di s t
  done : ∀ j < k, (t.domains di).mapped ((first + j) * PAGE_SIZE) = some (s.pageOf ri j, rights)
  rest : ∀ x, (∀ j < k, x ≠ (first + j) * PAGE_SIZE) → (t.domains di).mapped x = (s.domains di).mapped x
  granted : ∀ j < k, (t.domains di).granted (s.pageOf ri j) = some rights
  ungranted : ∀ f, (∀ j < k, s.pageOf ri j ≠ f) → (t.domains di).granted f = (s.domains di).granted f

namespace Fits

variable {di ri first : ℕ} {rights : CapRights}

theorem start (h : Fits C di ri first rights s) : Installing C di ri first rights 0 s s :=
  ⟨h.inStep, InDomain.refl s, fun j hj => absurd hj (Nat.not_lt_zero j), fun _ _ => rfl,
    fun j hj => absurd hj (Nat.not_lt_zero j), fun _ _ => rfl⟩

/-- nothing is translated at the slots the loop comes to -/
theorem unmapped (h : Fits C di ri first rights s) {j : ℕ} (hj : j < (s.regions ri).frames.length) :
    (s.domains di).mapped ((first + j) * PAGE_SIZE) = none := by
  obtain ⟨hlo, hhi⟩ := h.window
  exact h.inStep.mapped_absent h.published (by omega) (by omega) (h.absent j hj)

/-- a page of the region that is translated was granted with exactly these rights -/
theorem granted (h : Fits C di ri first rights s) {j : ℕ} (hj : j < (s.regions ri).frames.length)
    (htr : s.Translates di (s.pageOf ri j)) : (s.domains di).granted (s.pageOf ri j) = some rights := by
  obtain ⟨x, r, hm⟩ := htr
  obtain ⟨have_, hg, -⟩ := (h.inStep.ok di h.published.1).covered x _ r hm
  have hg' : (s.domains di).granted (s.pageOf ri j) = some have_ := hg
  obtain ⟨y, hy⟩ := h.used di h.published.1 _ _ hg'
  rw [hg', h.exact_ j hj y have_ hy]

/-- granting page `k` changes no translation -/
theorem grant (h : Fits C di ri first rights s) {k : ℕ} (hk : k < (s.regions ri).frames.length)
    (ht : Installing C di ri first rights k s t) (hu : u = t.modDomain di fun d => (d.grant (s.pageOf ri k) rights).2) :
    InStep C u ∧ InDomain di s u ∧ (∀ x, (u.domains di).mapped x = (t.domains di).mapped x) ∧
      (u.domains di).granted (s.pageOf ri k) = (if ((t.domains di).grant (s.pageOf ri k) rights).1 = true then some rights
        else (t.domains di).granted (s.pageOf ri k)) ∧
      ∀ f, f ≠ s.pageOf ri k → (u.domains di).granted f = (t.domains di).granted f := by
  have hok := ht.inStep.ok di h.published.1
  have hsame : ∀ x, ((t.domains di).grant (s.pageOf ri k) rights).2.mapped x = (t.domains di).mapped x := by
    intro x
    rw [hok.mapped_grant]
    cases hm : (t.domains di).mapped x with
    | none => rfl
    | some m =>
      -- what is translated to the page already has these rights
      have hkeep : (m.1 != s.pageOf ri k || rights.contains m.2) = true := by
        by_cases hf : m.1 = s.pageOf ri k
        · have hr : m.2 = rights := by
            by_cases hx : ∃ j < k, x = (first + j) * PAGE_SIZE
            · obtain ⟨j, hj, rfl⟩ := hx
              rw [ht.done j hj] at hm
              rw [← Option.some.inj hm]
            · push Not at hx
              rw [ht.rest x hx] at hm
              exact h.exact_ k hk x m.2 (by rw [hm, ← hf])
          rw [hr, CapRights.contains_refl, Bool.or_true]
        · rw [bne_iff_ne.2 hf, Bool.true_or]
      rw [Option.filter_some, if_pos hkeep]
  have hd : u.domains di = ((t.domains di).grant (s.pageOf ri k) rights).2 := by rw [hu]; exact Table.put_self _ _ _
  refine ⟨?_, ht.inDomain.trans (by rw [hu]; exact InDomain.modDomain t _), fun x => by rw [hd]; exact hsame x, ?_,
    fun f hf => ?_⟩
  · rw [hu]
    exact ht.inStep.model (f := fun d => (d.grant (s.pageOf ri k) rights).2) (hok.grant _ rights) hsame
  · rw [hd, hok.granted_grant_eq]
    simp only [and_true]
  · rw [hd, hok.granted_grant_eq, if_neg fun hc => hf hc.2]

/-- **A mapping that fails partway** leaves what every domain grants and translates as it was. -/
theorem undone (h : Fits C di ri first rights s) (hC : DomainsOk C) {k : ℕ} (hk : k < (s.regions ri).frames.length)
    (ht : Installing C di ri first rights k s t) (hu : u = t.modDomain di fun d => (d.grant (s.pageOf ri k) rights).2) :
    InStep C (rollbackDma C di ri first k u) ∧
      ∀ dj, ((rollbackDma C di ri first k u).domains dj).reach = (s.domains dj).reach := by
  obtain ⟨h1, h2, h3, h4, h5⟩ := h.grant hk ht hu
  have hr := rollbackDma_spec hC h.published ri first k h1
  set v := rollbackDma C di ri first k u
  refine ⟨hr.inStep, fun dj => ?_⟩
  by_cases hdj : dj = di
  case neg => rw [hr.inDomain.others dj hdj, h2.others dj hdj]
  subst hdj
  have hmaps : ∀ x, (v.domains dj).mapped x = (s.domains dj).mapped x := by
    intro x
    by_cases hx : ∃ j ≤ k, x = (first + j) * PAGE_SIZE
    · obtain ⟨j, hj, rfl⟩ := hx
      rw [hr.gone j hj, h.unmapped (by omega)]
    · push Not at hx
      rw [hr.rest x hx, h3, ht.rest x fun j hj => hx j (by omega)]
  have htr : ∀ f, v.Translates dj f ↔ s.Translates dj f := by
    intro f
    simp only [KState.Translates, hmaps]
  have hgrants : ∀ f, (v.domains dj).granted f = (s.domains dj).granted f := by
    intro f
    by_cases hf : ∃ j ≤ k, s.pageOf ri j = f
    · obtain ⟨j, hj, rfl⟩ := hf
      have hpage : u.pageOf ri j = s.pageOf ri j := h2.pageOf ri j
      by_cases hused : s.Translates dj (s.pageOf ri j)
      · have hg := h.granted (by omega) hused
        rw [hr.kept _ (Or.inr ((htr _).2 hused)), hg]
        -- whoever granted it last granted these rights
        by_cases hjk : s.pageOf ri j = s.pageOf ri k
        · rw [hjk, h4]
          split_ifs
          · rfl
          · by_cases hold : ∃ i < k, s.pageOf ri i = s.pageOf ri k
            · obtain ⟨i, hi, hie⟩ := hold
              rw [← hie, ht.granted i hi]
            · push Not at hold
              rw [ht.ungranted _ hold, ← hjk, hg]
        · rw [h5 _ hjk]
          have hlt : j < k := lt_of_le_of_ne hj fun he => hjk (by rw [he])
          exact ht.granted j hlt
      · have hnone : (s.domains dj).granted (s.pageOf ri j) = none := by
          cases hg : (s.domains dj).granted (s.pageOf ri j) with
          | none => rfl
          | some r =>
            obtain ⟨x, hx⟩ := h.used dj h.published.1 _ r hg
            exact absurd ⟨x, r, hx⟩ hused
        have := hr.idle j hj (by rw [hpage]; exact fun hc => hused ((htr _).1 hc))
        rw [hpage] at this
        rw [this, hnone]
    · push Not at hf
      rw [hr.kept f (Or.inl fun j hj => by rw [h2.pageOf]; exact hf j hj), h5 f fun he => hf k le_rfl he.symm]
      exact ht.ungranted f fun j hj => hf j (by omega)
  exact congrArg₂ Iommu.Reach.mk (funext hgrants) (funext hmaps)

/-- one more page -/
theorem next (h : Fits C di ri first rights s) (hC : DomainsOk C) {k : ℕ} (hk : k < (s.regions ri).frames.length)
    (ht : Installing C di ri first rights k s t) (hu : u = t.modDomain di fun d => (d.grant (s.pageOf ri k) rights).2)
    {d : Domain} (hmap : (u.domains di).map ((first + k) * PAGE_SIZE) (s.pageOf ri k) rights = .ok d) :
    Installing C di ri first rights (k + 1) s
      ((u.modDomain di fun _ => d).storeLeaf C di (first + k) (iopte.leaf ((s.regions ri).frames.getD k 0) rights)) := by
  obtain ⟨h1, h2, h3, h4, h5⟩ := h.grant hk ht hu
  have hok := h1.ok di h.published.1
  obtain ⟨hal, hlt⟩ := h.aligned k hk
  have hpage : s.pageOf ri k * PAGE_SIZE = (s.regions ri).frames.getD k 0 := Nat.div_mul_cancel (Nat.dvd_of_mod_eq_zero hal)
  set v := (u.modDomain di fun _ => d).storeLeaf C di (first + k) (iopte.leaf ((s.regions ri).frames.getD k 0) rights)
  have hd : v.domains di = d := Table.put_self _ _ _
  have hmd : ∀ x, (v.domains di).mapped x =
      if x = (first + k) * PAGE_SIZE then some (s.pageOf ri k, rights) else (t.domains di).mapped x := by
    intro x
    rw [hd, hok.mapped_map hmap, h3]
  have hgd : ∀ f, (v.domains di).granted f = (u.domains di).granted f := by
    intro f
    rw [hd]
    exact Iommu.Domain.granted_map hmap f
  -- a page that is mapped is granted
  have hgk : (u.domains di).granted (s.pageOf ri k) = some rights := by
    rw [h4]
    split_ifs with hacc
    · rfl
    by_cases hold : ∃ i < k, s.pageOf ri i = s.pageOf ri k
    · obtain ⟨i, hi, hie⟩ := hold
      rw [← hie, ht.granted i hi]
    · push Not at hold
      rw [ht.ungranted _ hold]
      -- a grant that is refused is one on a frame without any
      have hnone : (u.domains di).granted (s.pageOf ri k) ≠ none := by
        intro hc
        unfold Iommu.Domain.map at hmap
        rw [hc] at hmap
        exact absurd hmap (by simp)
      rw [h4, if_neg hacc, ht.ungranted _ hold] at hnone
      obtain ⟨r, hr⟩ := Option.ne_none_iff_exists'.1 hnone
      obtain ⟨x, hx⟩ := h.used di h.published.1 _ r hr
      exact h.granted hk ⟨x, r, hx⟩
  refine ⟨?_, h2.trans (InDomain.storeLeaf u _ _ _), fun j hj => ?_, fun x hx => ?_, fun j hj => ?_, fun f hf => ?_⟩
  · refine h1.write (f := fun _ => d) hC h.published (hok.map hmap) (hok.mapped_map hmap) (fun frame r he => ?_)
      fun hc => absurd hc (by simp)
    obtain ⟨rfl, rfl⟩ := Prod.mk.inj (Option.some.inj he)
    rw [hpage]
    exact ⟨hlt, rfl⟩
  · rw [hmd]
    split_ifs with hjk
    · rw [show j = k from by have := page_inj.1 hjk; omega]
    · have hne : j ≠ k := fun he => hjk (by rw [he])
      exact ht.done j (by omega)
  · rw [hmd, if_neg (hx k (Nat.lt_succ_self k))]
    exact ht.rest x fun j hj => hx j (by omega)
  · rw [hgd]
    by_cases hjk : s.pageOf ri j = s.pageOf ri k
    · rw [hjk, hgk]
    · rw [h5 _ hjk]
      have hne : j ≠ k := fun he => hjk (by rw [he])
      exact ht.granted j (by omega)
  · rw [hgd, h5 f fun he => hf k (Nat.lt_succ_self k) he.symm]
    exact ht.ungranted f fun j hj => hf j (by omega)

/-- **The install loop** of `map_dma` translates every page of the region, or leaves what the domains grant and translate as it
was; models and tables stay in step. -/
theorem installDma (h : Fits C di ri first rights s) (hC : DomainsOk C) (n k : ℕ) (hk : k + n = (s.regions ri).frames.length)
    (ht : Installing C di ri first rights k s t) :
    ((installDma C di ri first rights n k t).1 = true →
      Installing C di ri first rights (s.regions ri).frames.length s (installDma C di ri first rights n k t).2) ∧
    ((installDma C di ri first rights n k t).1 = false → InStep C (installDma C di ri first rights n k t).2 ∧
      ∀ dj, ((installDma C di ri first rights n k t).2.domains dj).reach = (s.domains dj).reach) := by
  induction n generalizing k t with
  | zero =>
    refine ⟨fun _ => ?_, fun hc => absurd hc (by simp [Kernel.installDma])⟩
    obtain rfl : k = (s.regions ri).frames.length := by omega
    exact ht
  | succ n ih =>
    have hlt : k < (s.regions ri).frames.length := by omega
    have hframes : (t.regions ri).frames = (s.regions ri).frames := by rw [ht.inDomain.regions]
    have hpage : t.pageOf ri k = s.pageOf ri k := ht.inDomain.pageOf ri k
    obtain ⟨u, hu⟩ : ∃ u, u = t.modDomain di fun d => (d.grant (s.pageOf ri k) rights).2 := ⟨_, rfl⟩
    have hrun : (u.domains di).map ((first + k) * PAGE_SIZE) (s.pageOf ri k) rights =
        ((t.modDomain di fun d => (d.grant ((t.regions ri).frames.getD k 0 / PAGE_SIZE) rights).2).domains di).map
          ((first + k) * PAGE_SIZE) ((t.regions ri).frames.getD k 0 / PAGE_SIZE) rights := by
      rw [hu, ← hpage]
      rfl
    rw [Kernel.installDma, ← hrun]
    cases hmap : (u.domains di).map ((first + k) * PAGE_SIZE) (s.pageOf ri k) rights with
    | error e =>
      have hfail := h.undone hC hlt ht hu
      rw [hu, ← hpage] at hfail
      exact ⟨fun hc => absurd hc (by simp), fun _ => hfail⟩
    | ok d =>
      have hnext := h.next hC hlt ht hu hmap
      rw [hu, ← hframes, ← hpage] at hnext
      exact ih (k + 1) (by omega) hnext

end Fits

end Rustproof.Kernel
