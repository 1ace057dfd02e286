/-
When `MAP_DMA` succeeds.

A domain has eight mappings. The install loop of `map_dma` takes one for every page, and its grants never run out first, since
each has a mapping (`Fits.map_room`); so it comes to its end exactly if as many are free as the region has pages
(`Fits.installed_iff`).
- `map_dma_room`: in every reachable state the call succeeds exactly if the capabilities allow it, the window has a run of absent
entries long enough, wherever it lies, a record is free, and the domain has room.
-/
import Rustproof.Kernel.DmaAuthority

namespace Rustproof.Kernel

open Lib Prog Mm Iommu.Domain

variable {A : Arch} {C : Config} {s t u : KState} {di ri first k : ℕ} {rights : CapRights}

/-! ## The install loop -/

namespace Installing

/-- every grant of the domain still has its mapping -/
theorem used (h : Installing C di ri first rights k s t) (hf : Fits C di ri first rights s)
    (hk : k ≤ (s.regions ri).frames.length) :
    ∀ f r, (t.domains di).granted f = some r → ∃ x, (t.domains di).mapped x = some (f, r) := by
  intro f r hg
  by_cases hnew : ∃ j < k, s.pageOf ri j = f
  · obtain ⟨j, hj, rfl⟩ := hnew
    rw [h.granted j hj] at hg
    rw [← Option.some.inj hg]
    exact ⟨_, h.done j hj⟩
  · push Not at hnew
    rw [h.ungranted f hnew] at hg
    obtain ⟨x, hx⟩ := hf.used di hf.published.1 f r hg
    refine ⟨x, (h.rest x fun j hj he => ?_).trans hx⟩
    rw [he, hf.unmapped (by omega)] at hx
    exact absurd hx (by simp)

/-- one mapping for every page so far -/
theorem length (h : Installing C di ri first rights k s t) (hf : Fits C di ri first rights s)
    (hk : k ≤ (s.regions ri).frames.length) : (t.domains di).reachable.length = (s.domains di).reachable.length + k := by
  have hsok := hf.inStep.ok di hf.published.1
  rw [(h.inStep.ok di hf.published.1).reachable_length, hsok.reachable_length, Iommu.Reach.size, Iommu.Reach.size]
  have hkeys : {x | ((t.domains di).mapped x).isSome} =
      {x | ((s.domains di).mapped x).isSome} ∪ (fun j => (first + j) * PAGE_SIZE) '' (Finset.range k : Set ℕ) := by
    ext x
    by_cases hx : ∃ j < k, x = (first + j) * PAGE_SIZE
    · obtain ⟨j, hj, rfl⟩ := hx
      refine iff_of_true ?_ (Or.inr ⟨j, Finset.mem_coe.2 (Finset.mem_range.2 hj), rfl⟩)
      show ((t.domains di).mapped _).isSome = true
      rw [h.done j hj]
      rfl
    · have hnot : x ∉ (fun j => (first + j) * PAGE_SIZE) '' (Finset.range k : Set ℕ) := by
        rintro ⟨j, hj, rfl⟩
        exact hx ⟨j, Finset.mem_range.1 (Finset.mem_coe.1 hj), rfl⟩
      push Not at hx
      show ((t.domains di).mapped x).isSome = true ↔ _
      rw [h.rest x hx]
      exact (or_iff_left hnot).symm
  have hinj : Set.InjOn (fun j => (first + j) * PAGE_SIZE) (Finset.range k : Set ℕ) := by
    intro i _ j _ he
    have := page_inj.1 he
    omega
  rw [hkeys, Set.ncard_union_eq ?_ hsok.finite.2.1 ((Finset.range k).finite_toSet.image _), hinj.ncard_image,
      Set.ncard_coe_finset,
    Finset.card_range]
  -- the loop writes addresses nothing was translated at
  refine Set.disjoint_left.2 fun x hx => ?_
  rintro ⟨j, hj, rfl⟩
  have hj := Finset.mem_range.1 (Finset.mem_coe.1 hj)
  have hnone := hf.unmapped (j := j) (by omega)
  exact absurd hx (by show ¬((s.domains di).mapped ((first + j) * PAGE_SIZE)).isSome = true; rw [hnone]; simp)

end Installing

namespace Fits

/-- the next page is mapped exactly if a mapping is free -/
theorem map_room (h : Fits C di ri first rights s) (hk : k < (s.regions ri).frames.length)
    (ht : Installing C di ri first rights k s t) (hu : u = t.modDomain di fun d => (d.grant (s.pageOf ri k) rights).2) :
    (∃ d, (u.domains di).map ((first + k) * PAGE_SIZE) (s.pageOf ri k) rights = .ok d) ↔ (t.domains di).reachable.length < 8 := by
  obtain ⟨h1, -, h3, h4, -⟩ := h.grant hk ht hu
  have htok := ht.inStep.ok di h.published.1
  have huok := h1.ok di h.published.1
  -- grants are no scarcer than mappings
  have hacc : ((t.domains di).grant (s.pageOf ri k) rights).1 = true := by
    refine grant_room ?_
    have h1 := htok.grants_le (ht.used h (by omega))
    have h2 := reachable_length_le (t.domains di)
    have h3 : 8 < MAX_REGIONS * REGION_MAX_PAGES := by decide
    omega
  rw [if_pos hacc] at h4
  have hfree : (u.domains di).mapped ((first + k) * PAGE_SIZE) = none := by
    rw [h3, ht.rest _ fun j hj he => by have := page_inj.1 he; omega]
    exact h.unmapped hk
  have hlen : (u.domains di).reachable.length = (t.domains di).reachable.length := by
    rw [huok.reachable_length, htok.reachable_length, funext h3]
  rw [huok.map_room h4 hfree, hlen]

/-- from page `k` on, the loop comes to its end if there is room for the whole region -/
theorem installed (h : Fits C di ri first rights s) (hC : DomainsOk C)
    (hroom : (s.domains di).reachable.length + (s.regions ri).frames.length ≤ 8) (n k : ℕ)
    (hk : k + n = (s.regions ri).frames.length)
    (ht : Installing C di ri first rights k s t) : (Kernel.installDma C di ri first rights n k t).1 = true := by
  induction n generalizing k t with
  | zero => rfl
  | succ n ih =>
    have hlt : k < (s.regions ri).frames.length := by omega
    have hframes : (t.regions ri).frames = (s.regions ri).frames := by rw [ht.inDomain.regions]
    have hpage : (t.regions ri).frames.getD k 0 / PAGE_SIZE = s.pageOf ri k := by rw [hframes]; rfl
    have hlen := ht.length h (by omega)
    obtain ⟨d, hd⟩ := (h.map_room hlt ht rfl).2 (by omega)
    have hnext := h.next hC hlt ht rfl hd
    rw [Kernel.installDma]
    simp only [hpage]
    rw [hd]
    simp only [hframes]
    exact ih (k + 1) (by omega) hnext

/-- **The install loop succeeds** exactly if the domain has a mapping left for every page. -/
theorem installed_iff (h : Fits C di ri first rights s) (hC : DomainsOk C) :
    (Kernel.installDma C di ri first rights (s.regions ri).frames.length 0 s).1 = true ↔
      (s.domains di).reachable.length + (s.regions ri).frames.length ≤ 8 := by
  refine ⟨fun hok => ?_, fun hroom => h.installed hC hroom _ 0 (Nat.zero_add _) h.start⟩
  have hdone := (h.installDma hC _ 0 (Nat.zero_add _) h.start).1 hok
  have hlen := hdone.length h le_rfl
  have hle := reachable_length_le ((Kernel.installDma C di ri first rights (s.regions ri).frames.length 0 s).2.domains di)
  omega

end Fits

/-! ## The search -/

/-- the search finds a run if there is one, wherever it lies -/
theorem findRun_none {table : ℕ → Word} {npages fuel slot run : ℕ} (hrun : run < npages) (hle : run ≤ slot)
    (h : findRun table npages fuel slot run = none) {first : ℕ} (hlo : slot - run ≤ first) (hhi : first + npages ≤ slot + fuel) :
    ∃ j < npages, iopte.present (table (first + j)) = true := by
  induction fuel generalizing slot run with
  | zero => omega
  | succ fuel ih =>
    rw [findRun] at h
    split_ifs at h with hp hlast
    · by_cases hs : slot < first
      · exact ih (by omega) (Nat.zero_le _) h (by omega) (by omega)
      · exact ⟨slot - first, by omega, by rw [show first + (slot - first) = slot by omega]; exact hp⟩
    · exact ih (by omega) (by omega) h (by omega) (by omega)

variable {who me domain region rec_ : ℕ} {f : UserFrame}

/-- a call that finds everything it needs comes to its install loop, and answers as that goes -/
theorem Maps.comes (h : Maps C s who domain region di ri first rec_) (rights : CapRights) :
    ∃ first', Maps C s who domain region di ri first' rec_ ∧ mapDma C who domain region rights s =
      let r := installDma C di ri first' rights (s.regions ri).frames.length 0 s
      if r.1 = true then (first' * PAGE_SIZE, r.2.modProc who fun p => { p with dma := p.dma.put rec_ (region, domain) })
      else (syserr.NO_CAP, r.2) := by
  obtain ⟨hlt, hid, -⟩ := domainLookup_lt C h.lookup
  have hsome : noDomains C = false := by
    rw [noDomains, Bool.not_eq_false']
    exact anyIdx_iff.2 ⟨di, hlt, by simpa using hid⟩
  cases hrun : findRun (s.leafAt C di) (s.regions ri).frames.length DMA_IOVA_SLOTS DMA_IOVA_FIRST_SLOT 0 with
  | none =>
    obtain ⟨j, hj, hp⟩ := findRun_none h.pages (Nat.zero_le _) hrun (Nat.sub_zero DMA_IOVA_FIRST_SLOT ▸ h.window.1)
      (show first + (s.regions ri).frames.length ≤ DMA_IOVA_FIRST_SLOT + DMA_IOVA_SLOTS from h.window.2)
    exact absurd hp (h.absent j hj)
  | some first' =>
    obtain ⟨h1, h2, h3⟩ := findRun_some h.pages (Nat.zero_le _) (fun i h1 h2 => absurd h2 (by omega)) hrun
    refine ⟨first', ⟨h.lookup, h.published, h.index, h.pages, ⟨h1, h2⟩, fun j hj hp => ?_, h.slot⟩, ?_⟩
    · exact absurd (hp.symm.trans (h3 (first' + j) (Nat.le_add_right _ _) (by omega))) (by decide)
    · rw [mapDma, if_neg (by rw [hsome]; decide), h.lookup]
      simp only [if_neg h.published.2, h.index, hrun, h.slot]
      rcases installDma C di ri first' rights (s.regions ri).frames.length 0 s with ⟨_ | _, v⟩
      · rfl
      · rfl

/-- the domain has a mapping for every page of the region -/
def Room (s : KState) (di ri : ℕ) : Prop := (s.domains di).reachable.length + (s.regions ri).frames.length ≤ 8

theorem Reaching.mapDma_succeeds {F : Multiset ℕ} (h : Reaching A C s) (hC : DomainsOk C) (ha : Accounted F s) (hme : s.Alive me)
    (hcaps : dmaCaps A (s.procs me).caps f = some (domain, region, rights)) :
    (Kernel.mapDma C me domain region rights s).1 < 512 * PAGE_SIZE ↔
      ∃ di ri first rec_, Maps C s me domain region di ri first rec_ ∧ Room s di ri := by
  have herr : ∀ v, v = syserr.NO_MEM ∨ v = syserr.NO_CAP → ¬v < 512 * PAGE_SIZE := by
    intro v hv
    simp only [syserr.NO_MEM, syserr.NO_CAP, PAGE_SIZE, U64_MAX] at hv ⊢
    omega
  constructor
  · intro hv
    rcases mapDma_cases hC me domain region rights s with ⟨hno, -⟩ | ⟨di, ri, first, rec_, hm, hrun⟩
    · exact absurd hv (herr _ hno)
    refine ⟨di, ri, first, rec_, hm, ((h.fits ha hme hcaps hm).installed_iff hC).1 ?_⟩
    rw [hrun] at hv
    rcases hi : installDma C di ri first rights (s.regions ri).frames.length 0 s with ⟨_ | _, v⟩
    · rw [hi] at hv
      exact absurd hv (herr _ (Or.inr rfl))
    · rfl
  · rintro ⟨di, ri, first, rec_, hm, hroom⟩
    obtain ⟨first', hm', hrun⟩ := hm.comes rights
    rw [hrun, if_pos (((h.fits ha hme hcaps hm').installed_iff hC).2 hroom)]
    have h1 := hm'.window.2
    have h2 := hm'.pages
    exact Nat.mul_lt_mul_of_pos_right (by omega) (by decide)

/-- **When `MAP_DMA` succeeds.** In every reachable state, whatever the call's registers: the result is an address of the window
exactly if the machine has a unit, both capabilities are there, the domain's window has some run of absent entries as long as the
region, a record is free, and the domain has a mapping left for every page. -/
theorem map_dma_room {s₀ : KState} (h₀ : PreUserland A C s₀) (hbar : BarApart A C s₀) (hin : Loader.Inside A C.userElf)
    (hgrants : ∀ role, ∀ g ∈ grantsFor C role, g.1 ≠ .region) (h : Reachable A C s₀ s) (hme : s.Alive me) (f : UserFrame) :
    ∃ v t, sysMapDma A C me f s = .ok (some (A.frameSetRet f v), t) ∧ (v < 512 * PAGE_SIZE ↔
      A.iommu = true ∧ ∃ domain region rights di ri first rec_, dmaCaps A (s.procs me).caps f = some (domain, region, rights) ∧
        Maps C s me domain region di ri first rec_ ∧ Room s di ri) := by
  obtain ⟨hr, -⟩ := h.reaching h₀ hbar hin hgrants
  have ha := (h.sound h₀ hbar.toBarOutside hin hgrants).accounted
  have hwp : wp (sysMapDma A C me f) (fun out t => ∃ v, out = some (A.frameSetRet f v) ∧ (v < 512 * PAGE_SIZE ↔
      A.iommu = true ∧ ∃ domain region rights di ri first rec_, dmaCaps A (s.procs me).caps f = some (domain, region, rights) ∧
        Maps C s me domain region di ri first rec_ ∧ Room s di ri)) (fun _ => False) s := by
    rw [sysMapDma, wp_bind, wp_get]
    cases hcaps : dmaCaps A (s.procs me).caps f with
    | none =>
      refine ⟨_, rfl, iff_of_false (by decide) ?_⟩
      rintro ⟨-, domain, region, rights, _, _, _, _, hc, -⟩
      exact absurd hc (by simp)
    | some x =>
      obtain ⟨domain, region, rights⟩ := x
      refine wp_ite (fun hio => ⟨_, rfl, iff_of_false (by decide) fun hc => ?_⟩) fun hio => ?_
      · exact absurd (hio.symm.trans hc.1) (by decide)
      rw [wp_bind, wp_run]
      refine ⟨_, rfl, (hr.mapDma_succeeds h₀.domainsOk ha hme hcaps).trans ⟨?_, ?_⟩⟩
      · rintro ⟨di, ri, first, rec_, hm, hroom⟩
        exact ⟨Bool.eq_true_of_not_eq_false hio, _, _, _, di, ri, first, rec_, rfl, hm, hroom⟩
      · rintro ⟨-, domain', region', rights', di, ri, first, rec_, he, hm, hroom⟩
        simp only [Option.some.injEq, Prod.mk.injEq] at he
        obtain ⟨rfl, rfl, rfl⟩ := he
        exact ⟨di, ri, first, rec_, hm, hroom⟩
  cases hrun : sysMapDma A C me f s with
  | error e => exact (wp_error hwp hrun).elim
  | ok r =>
    obtain ⟨out, t⟩ := r
    obtain ⟨v, rfl, hv⟩ := wp_ok hwp hrun
    exact ⟨v, t, rfl, hv⟩

/-- the worker's region of one page fits -/
theorem unitRegion_room : ∃ v t, sysMapDma X86 oneUnitConfig 2 (callFrame sysno.MAP_DMA 8 13) unitRegion =
    .ok (some (X86.frameSetRet (callFrame sysno.MAP_DMA 8 13) v), t) ∧
      (v < 512 * PAGE_SIZE ↔ X86.iommu = true ∧ ∃ domain region rights di ri first rec_,
        dmaCaps X86 (unitRegion.procs 2).caps (callFrame sysno.MAP_DMA 8 13) = some (domain, region, rights) ∧
          Maps oneUnitConfig unitRegion 2 domain region di ri first rec_ ∧ Room unitRegion di ri) :=
  map_dma_room oneUnitConfig_ready oneUnitConfig_apart emptyX86_inside (roleGrants_apart rfl) unitRegion_reachable
    ⟨by decide, by decide +kernel⟩ (callFrame sysno.MAP_DMA 8 13)

end Rustproof.Kernel
