/-
What the domains are authorized for.

`OnRegions` says that every page some domain has a grant on is a page of a live region. The DMA paths grant nothing else, each of
the withdrawals only takes grants away, and a region loses its grants in every domain before its frames are freed; so every
move keeps it (`OnRegions.move`). The frames `make_region` draws are nobody's, and no domain has a grant on them:
- `make_ungranted`: the assertion of `make_region` never fails.
-/
import Rustproof.Crates.IommuReach
import Rustproof.Kernel.Accounts

namespace Rustproof.Kernel

open Lib Prog Mm

variable {A : Arch} {C : Config} {G : Gate} {me : ℕ} {k : Trap} {s t u : KState} {F : Multiset ℕ}

/-- domain `di` has a grant on page `pfn` -/
def KState.Authorizes (s : KState) (di pfn : ℕ) : Prop := ((s.domains di).granted pfn).isSome = true

/-- every grant is on a page of a live region -/
def OnRegions (s : KState) : Prop := ∀ di < MAX_DOMAINS, ∀ pfn, s.Authorizes di pfn →
  ∃ i < MAX_REGIONS, (s.regions i).live = true ∧ ∃ f ∈ (s.regions i).frames, f / PAGE_SIZE = pfn

/-! ## Steps that grant nothing but `W` -/

/-- whatever is granted was granted before, or is one of the pages `W` -/
def Grants (W : Set ℕ) (s t : KState) : Prop := ∀ di pfn, t.Authorizes di pfn → s.Authorizes di pfn ∨ pfn ∈ W

namespace Grants

variable {W : Set ℕ}

theorem of_domains (h : t.domains = s.domains) : Grants W s t := by
  intro di pfn hp
  rw [KState.Authorizes, h] at hp
  exact Or.inl hp

theorem trans (h : Grants W s t) (h' : Grants W t u) : Grants W s u :=
  fun di pfn hp => (h' di pfn hp).elim (h di pfn) Or.inr

/-- a step that withdraws only -/
theorem none (h : Grants ∅ s t) {di pfn : ℕ} (hp : t.Authorizes di pfn) : s.Authorizes di pfn :=
  (h di pfn hp).resolve_right fun hf => hf

theorem modDomain (s : KState) (di : ℕ) {f : Domain → Domain}
    (hf : ∀ pfn, ((f (s.domains di)).granted pfn).isSome = true → ((s.domains di).granted pfn).isSome = true ∨ pfn ∈ W) :
    Grants W s (s.modDomain di f) := by
  intro dj pfn hp
  unfold KState.Authorizes at hp ⊢
  rw [KState.modDomain_domains, Table.put_apply] at hp
  split_ifs at hp with hdj
  · rw [hdj]
    exact hf pfn hp
  · exact Or.inl hp

theorem revoke (s : KState) (di pfn : ℕ) : Grants W s (s.modDomain di fun d => d.revoke pfn) :=
  modDomain s di fun _ hp => Or.inl (Iommu.Domain.granted_revoke.1 hp).1

theorem foldl {α : Type} {f : KState → α → KState} {bs : List α} (hf : ∀ b ∈ bs, ∀ s, Grants W s (f s b)) (s : KState) :
    Grants W s (bs.foldl f s) := by
  induction bs generalizing s with
  | nil => exact of_domains rfl
  | cons b bs ih => exact (hf b List.mem_cons_self s).trans (ih (fun c hc => hf c (List.mem_cons_of_mem _ hc)) _)

theorem forAny {α : Type} {f : α → KState → Bool × KState} {bs : List α} (hf : ∀ b ∈ bs, ∀ s, Grants W s (f b s).2)
    (s : KState) : Grants W s (Prog.forAny f bs s).2 :=
  forAny_rel (fun _ => of_domains rfl) (fun _ _ _ => trans) hf s

end Grants

/-! ## Withdrawals -/

theorem domains_clearIoMappingsIn (di pfn : ℕ) (s : KState) : (clearIoMappingsIn C di pfn s).2.domains = s.domains := by
  rw [clearIoMappingsIn]
  split_ifs
  · rfl
  · refine forAny_keep (I := fun t : KState => t.domains = s.domains) (fun slot _ t ht => ?_) rfl
    rw [clearSlot]
    split_ifs
    · exact ht
    · exact ht

theorem domains_clearIoMappingsOf (pfn : ℕ) (s : KState) : (clearIoMappingsOf C pfn s).2.domains = s.domains :=
  forAny_keep (I := fun t : KState => t.domains = s.domains)
    (fun di _ t ht => (domains_clearIoMappingsIn di pfn t).trans ht) rfl

theorem grants_withdrawPage (di pfn : ℕ) (s : KState) : Grants ∅ s (withdrawPage C di pfn s).2 := by
  simp only [withdrawPage]
  refine (Grants.of_domains (domains_clearIoMappingsIn (C := C) di pfn s)).trans (Grants.modDomain _ di fun g hg => Or.inl ?_)
  have hmaps : ∀ (iovas : List ℕ) (d : Domain), (iovas.foldl Iommu.Domain.unmap d).granted g = d.granted g := by
    intro iovas d
    refine List.foldlRecOn (motive := fun x : Domain => x.granted g = d.granted g) _ _ rfl fun x hx iova _ => ?_
    exact (Iommu.Domain.granted_unmap iova g).trans hx
  have hg' := (Iommu.Domain.granted_revoke.1 hg).1
  rwa [hmaps] at hg'

theorem grants_withdrawRegionFromDomain (di ri : ℕ) (s : KState) : Grants ∅ s (withdrawRegionFromDomain C di ri s).2 :=
  Grants.forAny (fun _ _ s => grants_withdrawPage di _ s) s

theorem grants_withdrawDmaSlot (who slot : ℕ) (s : KState) : Grants ∅ s (withdrawDmaSlot C who slot s).2 := by
  have hrec : Grants ∅ s (s.modProc who fun p => { p with dma := p.dma.put slot (0, 0) }) := Grants.of_domains rfl
  rw [withdrawDmaSlot]
  simp only
  split_ifs
  · exact Grants.of_domains rfl
  cases domainLookup C ((s.procs who).dma slot).2 with
  | none => exact hrec
  | some di =>
    simp only
    split
    · exact hrec
    · exact hrec.trans (grants_withdrawRegionFromDomain di _ _)

theorem grants_withdrawUnheld (p : ℕ) (s : KState) : Grants ∅ s (withdrawUnheld C p s).2 := by
  refine Grants.forAny (fun slot _ s => ?_) s
  rw [withdrawUnheldSlot]
  simp only
  split_ifs
  · exact Grants.of_domains rfl
  · exact Grants.of_domains rfl
  · exact grants_withdrawDmaSlot p slot s

theorem grants_withdrawSlots (who : ℕ) (s : KState) : Grants ∅ s (withdrawSlots C who s).2 := by
  refine Grants.forAny (fun slot _ s => ?_) s
  rw [withdrawSlotAtExit]
  exact (grants_withdrawDmaSlot who slot s).trans (Grants.of_domains rfl)

theorem grants_withdrawAll {who : ℕ} (h : withdrawAllDmaOf C who s = .ok ((), t)) : Grants ∅ s t := by
  have hwp : wp (withdrawAllDmaOf C who) (fun _ t => Grants ∅ s t) (· = .ringFull) s := by
    rw [withdrawAllDmaOf, wp_bind, wp_run]
    exact wp_mono (ringOnly_flushIf _ _) fun _ u hu => (grants_withdrawSlots who s).trans (Grants.of_domains hu.domains)
  exact wp_ok hwp h

theorem grants_unmapDma {who domain region v : ℕ} (h : unmapDma C who domain region s = .ok (v, t)) : Grants ∅ s t := by
  have hwp : wp (unmapDma C who domain region) (fun _ t => Grants ∅ s t) (· = .ringFull) s := by
    rw [unmapDma, wp_bind, wp_get]
    refine wp_ite (fun _ => Grants.of_domains rfl) fun _ => ?_
    cases domainLookup C domain with
    | none => exact Grants.of_domains rfl
    | some di =>
      simp only
      cases s.regionIndex region with
      | none => exact Grants.of_domains rfl
      | some ri =>
        have hw : Grants ∅ s (dropRecords who region domain (withdrawRegionFromDomain C di ri s).2) :=
          (grants_withdrawRegionFromDomain di ri s).trans (Grants.of_domains rfl)
        simp only [wp_bind, wp_modify]
        refine wp_onlyIf (fun _ => ?_) fun _ => hw
        exact wp_mono (ringOnly_invalidateCounted di _) fun _ u hu => hw.trans (Grants.of_domains hu.domains)
  exact wp_ok hwp h

/-- the end of a region takes its grants in every domain -/
theorem grants_withdrawEverywhere (frames : List ℕ) (s : KState) {di pfn : ℕ} (hdi : di < MAX_DOMAINS)
    (h : (withdrawRegionEverywhere A C frames s).2.Authorizes di pfn) :
    s.Authorizes di pfn ∧ ∀ f ∈ frames, f / PAGE_SIZE ≠ pfn := by
  -- one frame, in the domains `ds`
  have hone : ∀ (g : ℕ) (ds : List ℕ) (v : KState),
      (ds.foldl (fun s di => s.modDomain di fun d => d.revoke g) v).Authorizes di pfn →
      v.Authorizes di pfn ∧ (di ∈ ds → g ≠ pfn) := by
    intro g ds
    induction ds with
    | nil => exact fun v hv => ⟨hv, fun hc => absurd hc List.not_mem_nil⟩
    | cons d ds ih =>
      intro v hv
      obtain ⟨h1, h2⟩ := ih _ hv
      refine ⟨(Grants.revoke (W := ∅) v d g).none h1, fun hmem => ?_⟩
      rcases List.mem_cons.1 hmem with rfl | hin
      · unfold KState.Authorizes at h1
        rw [KState.modDomain_domains, Table.put_self] at h1
        exact fun he => (Iommu.Domain.granted_revoke.1 h1).2 he.symm
      · exact h2 hin
  induction frames generalizing s with
  | nil => exact ⟨h, fun f hf => absurd hf List.not_mem_nil⟩
  | cons f fs ih =>
    obtain ⟨h1, h2⟩ := ih _ h
    simp only [withdrawFrame] at h1
    obtain ⟨h3, h4⟩ := hone _ _ _ h1
    refine ⟨?_, fun g hg => ?_⟩
    · split_ifs at h3
      · unfold KState.Authorizes at h3
        rwa [domains_clearIoMappingsOf] at h3
      · exact h3
    · rcases List.mem_cons.1 hg with rfl | hin
      · exact h4 (List.mem_range.2 hdi)
      · exact h2 g hin

/-! ## Mapping -/

theorem grants_rollback (di ri first j : ℕ) (s : KState) : Grants ∅ s (rollbackDma C di ri first j s) := by
  rw [rollbackDma]
  refine (Grants.foldl (fun i _ s => ?_) s).trans (Grants.foldl (fun i _ s => ?_) _)
  · have hun : Grants ∅ s (s.modDomain di fun d => d.unmap ((first + i) * PAGE_SIZE)) :=
      Grants.modDomain s di fun g hg => Or.inl (by rwa [Iommu.Domain.granted_unmap] at hg)
    exact hun.trans (Grants.of_domains rfl)
  · simp only
    split_ifs
    · exact Grants.of_domains rfl
    · exact Grants.revoke s di _

theorem Grants.widen {W : Set ℕ} (h : Grants ∅ s t) : Grants W s t := fun _ _ hp => Or.inl (h.none hp)

/-- the install loop grants pages of the region -/
theorem grants_installDma {di ri first : ℕ} {rights : CapRights} {W : Set ℕ} (n j : ℕ)
    (hW : ∀ i < n, (s.regions ri).frames.getD (j + i) 0 / PAGE_SIZE ∈ W) :
    Grants W s (installDma C di ri first rights n j s).2 := by
  induction n generalizing j s with
  | zero => exact Grants.of_domains rfl
  | succ n ih =>
    rw [installDma]
    have hg : Grants W s (s.modDomain di fun d => (d.grant ((s.regions ri).frames.getD j 0 / PAGE_SIZE) rights).2) := by
      refine Grants.modDomain s di fun pfn hp => (Iommu.Domain.granted_grant hp).imp_right fun he => ?_
      rw [he]
      exact hW 0 (Nat.succ_pos n)
    split
    · exact hg.trans (grants_rollback di ri first j _).widen
    · rename_i d hmap
      refine hg.trans (Grants.trans (Grants.modDomain _ di (f := fun _ => d) fun pfn hp => Or.inl ?_) (ih (j + 1) fun i hi => ?_))
      · rwa [Iommu.Domain.granted_map hmap] at hp
      · have := hW (i + 1) (by omega)
        rwa [Nat.add_comm i 1, ← Nat.add_assoc] at this

/-- `map_dma` grants pages of a live region -/
theorem grants_mapDma (who domain region : ℕ) (rights : CapRights) (s : KState) :
    Grants {pfn | ∃ i < MAX_REGIONS, (s.regions i).live = true ∧ ∃ f ∈ (s.regions i).frames, f / PAGE_SIZE = pfn} s
      (mapDma C who domain region rights s).2 := by
  rw [mapDma]
  split_ifs
  · exact Grants.of_domains rfl
  cases domainLookup C domain with
  | none => exact Grants.of_domains rfl
  | some di =>
    simp only
    split_ifs
    · exact Grants.of_domains rfl
    cases hri : s.regionIndex region with
    | none => exact Grants.of_domains rfl
    | some ri =>
      simp only
      cases findRun (s.leafAt C di) (s.regions ri).frames.length DMA_IOVA_SLOTS DMA_IOVA_FIRST_SLOT 0 with
      | none => exact Grants.of_domains rfl
      | some first =>
        simp only
        cases firstIdx SHARE_SLOTS fun i => ((s.procs who).dma i).1 == 0 with
        | none => exact Grants.of_domains rfl
        | some rec_ =>
          obtain ⟨hlt, hlive, -⟩ := regionIndex_some hri
          have hin : Grants {pfn | ∃ i < MAX_REGIONS, (s.regions i).live = true ∧
            ∃ f ∈ (s.regions i).frames, f / PAGE_SIZE = pfn} s
              (installDma C di ri first rights (s.regions ri).frames.length 0 s).2 :=
            grants_installDma (s.regions ri).frames.length 0 fun i hi => by
              rw [Nat.zero_add, List.getD_eq_getElem?_getD, List.getElem?_eq_getElem hi, Option.getD_some]
              exact ⟨ri, hlt, hlive, _, List.getElem_mem hi, rfl⟩
          rcases hr : installDma C di ri first rights (s.regions ri).frames.length 0 s with ⟨_ | _, v⟩
          · rw [hr] at hin
            exact hin
          · rw [hr] at hin
            exact hin.trans (Grants.of_domains rfl)

/-! ## The moves -/

namespace OnRegions

/-- grants that are left rest on the regions that are left -/
theorem grants (h : OnRegions s) (hg : Grants ∅ s t)
    (hkeep : ∀ i < MAX_REGIONS, (s.regions i).live = true → t.regions i = s.regions i) : OnRegions t := by
  intro di hdi pfn hp
  obtain ⟨i, hi, hl, hf⟩ := h di hdi pfn (hg.none hp)
  exact ⟨i, hi, by rw [hkeep i hi hl]; exact hl, by rw [hkeep i hi hl]; exact hf⟩

theorem domains (h : OnRegions s) (hd : t.domains = s.domains) (hr : t.regions = s.regions) : OnRegions t :=
  h.grants (Grants.of_domains hd) fun _ _ _ => by rw [hr]

theorem make (h : OnRegions s) {p pages v : ℕ} {rights : CapRights} (hrun : makeRegion p pages rights s = .ok (v, t)) :
    OnRegions t := by
  rcases wp_ok (makeRegion_spec p pages rights s) hrun with
    ⟨-, rfl | ⟨w, -, rfl⟩ | ⟨frames, w, -, rfl⟩⟩ | ⟨idx, frames, w, cap, caps, hidx, -, -, -, rfl⟩
  · exact h
  · exact h.domains rfl rfl
  · exact h.domains rfl rfl
  · -- the new region takes a slot that was empty
    refine h.grants (Grants.of_domains rfl) fun i _ hl => Table.put_of_ne _ (fun he => ?_) _
    have hdead := (firstIdx_some hidx).2.1
    rw [← he, hl] at hdead
    exact absurd hdead (by decide)

theorem mapDma (h : OnRegions s) (who domain region : ℕ) (rights : CapRights) :
    OnRegions (mapDma C who domain region rights s).2 := by
  have hr := (dmaOnly_mapDma (C := C) who domain region rights s).regions
  intro di hdi pfn hp
  rw [hr]
  exact (grants_mapDma who domain region rights s di pfn hp).elim (h di hdi pfn) fun hw => hw

/-- a region's grants go before its frames -/
theorem retire (h : OnRegions s) {region i : ℕ} (hsl : s.regionSlot region = some i)
    (hrun : releaseRegion A C region (forgetCaps region s) = .ok ((), t)) : OnRegions t := by
  have hcaps := capsOnly_forgetCaps region s
  obtain ⟨_, _, hrest⟩ := hcaps.rest
  have hdom : (forgetCaps region s).domains = s.domains := by rw [hrest]
  have hsl' : (forgetCaps region s).regionSlot region = some i := by rw [regionSlot_congr hcaps.regions]; exact hsl
  have hwp : wp (releaseRegion A C region) (fun _ t => ∃ v, v.domains =
      (withdrawRegionEverywhere A C ((forgetCaps region s).regions i).frames (forgetCaps region s)).2.domains ∧
      v.regions = (forgetCaps region s).regions ∧ t = freeRegion i v) (· = .ringFull) (forgetCaps region s) := by
    rw [releaseRegion, wp_bind, wp_get]
    simp only [hsl', wp_bind, wp_run]
    refine wp_mono (ringOnly_flushIf _ _) fun _ v hv => ⟨forgetRecords region v, hv.domains, ?_, rfl⟩
    exact hv.regions.trans (dmaOnly_withdrawRegionEverywhere A _ _).regions
  obtain ⟨v, hvd, hvr, rfl⟩ := wp_ok hwp hrun
  intro di hdi pfn hp
  have hp' : (withdrawRegionEverywhere A C ((forgetCaps region s).regions i).frames
          (forgetCaps region s)).2.Authorizes di pfn := by
    unfold KState.Authorizes
    rw [← hvd]
    exact hp
  obtain ⟨hold, hoff⟩ := grants_withdrawEverywhere _ _ hdi hp'
  unfold KState.Authorizes at hold
  rw [hdom] at hold
  rw [hcaps.regions] at hoff
  obtain ⟨j, hj, hl, f, hf, hpf⟩ := h di hdi pfn hold
  -- the region that goes is not the one the grant rests on
  have hne : j ≠ i := fun he => hoff f (he ▸ hf) hpf
  have hregs : (freeRegion i v).regions j = s.regions j := by
    show v.regions.put i Region.EMPTY j = _
    rw [Table.put_of_ne _ hne, hvr, hcaps.regions]
  exact ⟨j, hj, by rw [hregs]; exact hl, f, by rw [hregs]; exact hf, hpf⟩

theorem strip (h : OnRegions s) (d : Deleg.Endpoint) : wp (strip A C d) (fun _ t => OnRegions t) (· = .ringFull) s := by
  refine wp_mono (strip_run d s) fun _ t ht => ?_
  rcases ht with ⟨-, rfl⟩ | ⟨-, v, rfl, hio, hnone⟩
  · exact h
  have hb : OnRegions (bereave A d s) :=
    (h.domains (t := s.modProc d.proc fun p => { p with caps := p.caps.revoke d.cap }) rfl rfl).domains
      (spaceOnly_detach _ d.proc).domains (spaceOnly_detach _ d.proc).regions
  have hv : OnRegions v := by
    cases hA : A.iommu with
    | false =>
      rw [hnone hA]
      exact hb
    | true =>
      have hregs := (dmaOnly_withdrawUnheld (C := C) d.proc (bereave A d s)).regions
      exact (hb.grants (grants_withdrawUnheld d.proc _) fun _ _ _ => by rw [hregs]).domains (hio hA).domains (hio hA).regions
  exact hv.domains (quiet_settle d.proc v).domains (quiet_settle d.proc v).regions

theorem revoke (h : OnRegions s) {cap : ℕ} (hrun : revokeDelegations A C me cap s = .ok ((), t)) : OnRegions t := by
  refine wp_ok (wp_revoke (I := OnRegions) (E := (· = .ringFull)) ?_ fun d _ u hu => hu.strip d) hrun
  exact h.domains rfl rfl

theorem handOver (h : OnRegions s) (cur slot arg childId : ℕ) (c : Capabilities.CapSlot) :
    OnRegions (handOver cur slot arg childId c s) := by
  rw [Kernel.handOver]
  cases (s.procs slot).caps.insert c.capType c.rights c.object with
  | none => exact h
  | some r => exact h.domains rfl rfl

theorem loaded (h : OnRegions s) {slot id : ℕ} {role : Role} {ok : Bool}
    (hrun : loadProcess A C slot id role s = .ok (ok, t)) : OnRegions t := by
  rcases wp_ok (loadProcess_spec slot id role s) hrun with ⟨-, rfl | ⟨r, -, rfl⟩⟩ | ⟨-, token, entry, r, -, rfl⟩
  · exact h
  · exact h.domains rfl rfl
  · exact h.domains rfl rfl

/-- **Every move keeps the grants on live regions.** -/
theorem move (h : OnRegions s) (hm : Move A C G me k s t) : OnRegions t := by
  cases hm with
  | control hc => exact h.domains hc.quiet.domains hc.quiet.regions
  | @receive p =>
    refine h.domains ?_ (calm_takeMessage p s).regions
    rw [takeMessage]
    split <;> rfl
  | store | copy | unmapDevice => exact h.domains rfl rfl
  | mapRegion => exact h.domains (spaceOnly_mapRegion A s me _ _).domains (spaceOnly_mapRegion A s me _ _).regions
  | mapDevice _ hcur =>
    exact h.domains (spaceOnly_mapDevice A C s hcur _ _ _).domains (spaceOnly_mapDevice A C s hcur _ _ _).regions
  | unmapRegion =>
    exact h.domains (spaceOnly_unmapRegionFrom A s me _).domains (spaceOnly_unmapRegionFrom A s me _).regions
  | unmapShare => exact h.domains (spaceOnly_unmapShareSlot A s _ _).domains (spaceOnly_unmapShareSlot A s _ _).regions
  | make _ _ _ _ _ hrun => exact h.make hrun
  | mapDma => exact h.mapDma _ _ _ _
  | unmapDma _ _ hrun =>
    have hregs := (wp_ok (dmaOnly_unmapDma me _ _ s) hrun).regions
    exact h.grants (grants_unmapDma hrun) fun _ _ _ => by rw [hregs]
  | withdrawAll _ _ hrun =>
    have hregs := (wp_ok (dmaOnly_withdrawAllDmaOf me s) hrun).regions
    exact h.grants (grants_withdrawAll hrun) fun _ _ _ => by rw [hregs]
  | retire _ hsl _ _ hrun => exact h.retire hsl hrun
  | revoke _ _ _ hrun => exact h.revoke hrun
  | reap =>
    have hreap : OnRegions (Kernel.reap me s) := h.domains rfl rfl
    exact hreap.domains (quiet_refusePeers _).domains (quiet_refusePeers _).regions
  | loadFailed _ _ _ hrun => exact h.loaded hrun
  | boot _ _ _ hrun => exact (h.loaded hrun).domains rfl rfl
  | @spawn u slot arg requested childId cap _ _ _ _ _ _ _ hrun =>
    have hu := h.loaded hrun
    suffices hdone : OnRegions (cap.elim u fun c => Kernel.handOver me slot arg childId c u) from hdone.domains rfl rfl
    cases cap with
    | none => exact hu
    | some c => exact hu.handOver me slot arg childId c

end OnRegions

theorem PreUserland.onRegions (h : PreUserland A C s) : OnRegions s := by
  intro di _ pfn hp
  obtain ⟨i, -, hl, -⟩ := Iommu.Domain.granted_isSome.1 hp
  rw [(h.noGrants di).1 i] at hl
  exact absurd hl (by decide)

theorem Reachable.onRegions {s₀ : KState} (h₀ : PreUserland A C s₀) (h : Reachable A C s₀ s) : OnRegions s :=
  Reachable.keep h₀ h₀.onRegions (fun hm hb => hb.move hm) h

/-- **A new region's frames are granted to nobody**: they were free, and what is granted is held. -/
theorem make_ungranted (h : OnRegions s) (ha : Accounted F s) (p pages : ℕ) (rights : CapRights) :
    makeRegion p pages rights s ≠ .error .grantedAtMint := by
  have hnil : Account F s.w.fa (([] : List ℕ) + held s) := ha.account.congr (zero_add _).symm
  have hwp : wp (makeRegion p pages rights) (fun _ _ => True) (fun _ => False) s := by
    rw [makeRegion, wp_bind, wp_get]
    refine wp_ite (fun _ => trivial) fun _ => ?_
    cases firstIdx MAX_REGIONS fun i => !(s.regions i).live with
    | none => exact trivial
    | some idx =>
      simp only
      refine wp_ite (fun _ => trivial) fun _ => ?_
      rcases hw : takeDmaFrames pages [] s.w with ⟨_ | frames, w⟩
      · exact trivial
      simp only
      rcases (s.procs p).caps.insert .region rights s.nextRegionId with _ | ⟨cap, caps⟩
      · exact trivial
      simp only
      refine wp_ite (fun hgr => ?_) fun _ => trivial
      obtain ⟨hacc, -⟩ := (takeDmaFrames_account pages [] hnil hw).2 frames rfl
      obtain ⟨di, hdi, hany⟩ := anyIdx_iff.1 hgr
      obtain ⟨f, hf, hp⟩ := List.any_eq_true.1 hany
      obtain ⟨i, hi, -, g, hg, hpg⟩ := h di hdi _ hp
      have hgheld : g ∈ held s := by
        rw [held_region hi]
        exact Multiset.mem_add.2 (Or.inl hg)
      -- two frames of one page are one frame
      have hal := hacc.tracked_lt (hacc.held_mem (Multiset.mem_add.2 (Or.inl hf)))
      have hal' := hacc.tracked_lt (hacc.held_mem (Multiset.mem_add.2 (Or.inr hgheld)))
      have hfg : g = f := by
        simp only [PAGE_SIZE] at *
        omega
      have hnodup := hacc.held_nodup
      rw [Multiset.nodup_add] at hnodup
      exact Multiset.disjoint_left.1 hnodup.2.2 hf (hfg ▸ hgheld)
  exact fun hrun => wp_error hwp hrun

end Rustproof.Kernel
