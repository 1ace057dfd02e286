/-
DMA within authority.

- `tables_mirror_models`: in every reachable state the entries of the units' tables are those the models say.
- `dma_within_authority`: every one of them is warranted by the capabilities and a record of a live process, and none names a
frame that is free.
- `map_dma_exact`: `MAP_DMA` maps every page of the region with the rights of the capability, or leaves what devices reach as it
was.
-/
import Rustproof.Kernel.DmaReach

namespace Rustproof.Kernel

open Lib Prog Mm Iommu.Domain

variable {A : Arch} {C : Config} {G : Gate} {me : ℕ} {k : Trap} {s t u : KState} {F : Multiset ℕ} {m₀ : Mem}

/-! ## Entries below the window -/

/-- below the window of `MAP_DMA` no entry comes that was not there at the start -/
def LowKept (C : Config) (m₀ : Mem) (s : KState) : Prop := ∀ di, Published C di → ∀ slot < DMA_IOVA_FIRST_SLOT,
  Present C s di slot → s.leafAt C di slot = m₀ (C.domainSlots di).l1 slot

namespace LowKept

theorem same (h : LowKept C m₀ s)
    (hmem : ∀ di, Published C di → t.w.mem (C.domainSlots di).l1 = s.w.mem (C.domainSlots di).l1) : LowKept C m₀ t := by
  intro di hdi slot hs hp
  have hleaf : t.leafAt C di slot = s.leafAt C di slot := congrFun (hmem di hdi) slot
  rw [Present, hleaf] at hp
  rw [hleaf]
  exact h di hdi slot hs hp

theorem swept {Q : ℕ → ℕ → Prop} (h : LowKept C m₀ s) (hs : Swept C Q s t) : LowKept C m₀ t := by
  intro di hdi slot hlt hp
  have h512 : slot < 512 := lt_trans hlt (by decide)
  by_cases hc : Present C s di slot ∧ Q di (iopte.frame (s.leafAt C di slot))
  · rw [Present, hs.cut di hdi slot h512 hc.1 hc.2, iopte.not_present_zero] at hp
    exact absurd hp (by decide)
  · have hleaf := hs.keep di hdi slot h512 hc
    rw [Present, hleaf] at hp
    rw [hleaf]
    exact h di hdi slot hlt hp

theorem mapDma (h : LowKept C m₀ s) (hC : DomainsOk C) (who domain region : ℕ) (rights : CapRights) :
    LowKept C m₀ (mapDma C who domain region rights s).2 := by
  rcases mapDma_cases hC who domain region rights s with ⟨-, hsame⟩ | ⟨di, ri, first, rec_, hm, hrun⟩
  · rw [hsame]
    exact h
  have hstores := (installDma_spec hC hm.published ri first rights (s.regions ri).frames.length 0 (Nat.zero_add _) s).1.leaf
  rw [hrun]
  rcases hi : Kernel.installDma C di ri first rights (s.regions ri).frames.length 0 s with ⟨ok, v⟩
  rw [hi] at hstores
  have hv : LowKept C m₀ v := by
    intro dj hdj slot hlt hp
    -- the call stores to its own run, which lies in the window
    have hleaf : v.leafAt C dj slot = s.leafAt C dj slot := hstores dj hdj slot fun hc => by
      have := hm.window.1
      omega
    rw [Present, hleaf] at hp
    rw [hleaf]
    exact h dj hdj slot hlt hp
  cases ok with
  | false => exact hv
  | true => exact hv.same fun _ _ => rfl

theorem retire (h : LowKept C m₀ s) (hC : DomainsOk C) {region : ℕ}
    (hrun : releaseRegion A C region (forgetCaps region s) = .ok ((), t)) : LowKept C m₀ t := by
  have hf : LowKept C m₀ (forgetCaps region s) := h.same fun _ _ => by rw [(capsOnly_forgetCaps region s).w]
  have hspec : wp (releaseRegion A C region) (fun _ t => LowKept C m₀ t) (· = .ringFull) (forgetCaps region s) := by
    rw [releaseRegion, wp_bind, wp_get]
    cases (forgetCaps region s).regionSlot region with
    | none => exact hf
    | some i =>
      simp only [wp_bind, wp_run]
      refine wp_mono (ringOnly_flushIf _ _) fun _ v hv => ?_
      have hw : LowKept C m₀ (withdrawRegionEverywhere A C ((forgetCaps region s).regions i).frames (forgetCaps region s)).2 := by
        cases hio : A.iommu with
        | false => exact hf.same fun _ _ => by rw [w_withdrawRegionEverywhere hio]
        | true => exact hf.swept (swept_withdrawRegionEverywhere hC hio _ _)
      refine (hw.swept (hv.swept hC)).same fun _ _ => ?_
      show (Kernel.freeRegion i (forgetRecords region v)).w.mem _ = v.w.mem _
      rw [mem_freeRegion]
      rfl
  exact wp_ok hspec hrun

theorem move (h : LowKept C m₀ s) (hs : Sound A C F m₀ s) (hC : DomainsApart A C) (hin : Loader.Inside A C.userElf)
    (hg : Ground A C F m₀) (hm : Move A C G me k s t) : LowKept C m₀ t := by
  cases hm.unit hs hC hin hg with
  | idle ht _ => exact h.same ht.tables
  | mapDma _ _ _ _ ht =>
    subst ht
    exact h.mapDma hC.toDomainsOk _ _ _ _
  | unmapDma _ hrun =>
    rcases withdrawal_unmapDma hC.toDomainsOk hrun with rfl | hw
    · exact h
    · exact h.swept hw.swept
  | withdrawAll _ hrun => exact h.swept (withdrawal_all hC.toDomainsOk hrun).swept
  | retire _ hrun => exact h.retire hC.toDomainsOk hrun
  | revoke hrun =>
    obtain ⟨hcut, -⟩ := revoke_stripped (hs.laid hC.toDomainsOk hg) hrun
    exact h.swept hcut.dma.swept

end LowKept

/-! ## The results -/

/-- the entries of a domain's window are those its model says -/
def Mirrored (C : Config) (s : KState) : Prop := ∀ di, Published C di → ∀ slot, DMA_IOVA_FIRST_SLOT ≤ slot → slot < 512 →
  (Present C s di slot ↔ ∃ m, (s.domains di).mapped (slot * PAGE_SIZE) = some m) ∧
  ∀ frame rights, (s.domains di).mapped (slot * PAGE_SIZE) = some (frame, rights) →
    s.leafAt C di slot = iopte.leaf (frame * PAGE_SIZE) rights

/-- a live process has asked for the entry, and has the capabilities it takes to ask for exactly that -/
structure Warranted (C : Config) (s : KState) (di slot : ℕ) (p x i : ℕ) (rights : CapRights) : Prop where
  alive : s.Alive p
  lt : x < SHARE_SLOTS
  record : (s.procs p).dma x = ((s.regions i).id, (C.domainSlots di).id)
  region : i < MAX_REGIONS ∧ (s.regions i).live = true
  entry : ∃ frame ∈ (s.regions i).frames, s.leafAt C di slot = iopte.leaf frame rights
  domainCap : capsHoldDomain (s.procs p).caps (C.domainSlots di).id CapRights.WRITE = true
  regionCap : ∃ j, (s.procs p).caps.lookup j = some ⟨.region, rights, (s.regions i).id⟩ ∧ rights.contains CapRights.READ = true

section

variable {s₀ : KState} (h₀ : PreUserland A C s₀) (hbar : BarApart A C s₀) (hin : Loader.Inside A C.userElf)
  (hgrants : ∀ role, ∀ g ∈ grantsFor C role, g.1 ≠ .region) (h : Reachable A C s₀ s)

include h₀ hbar hin hgrants h

theorem Reachable.reaching : Reaching A C s ∧ LowKept C s₀.w.mem s := by
  have hinv : Sound A C (freeAddrs s₀.w.fa) s₀.w.mem s ∧ Reaching A C s ∧ LowKept C s₀.w.mem s := by
    refine Reachable.keep (I := fun u => Sound A C (freeAddrs s₀.w.fa) s₀.w.mem u ∧ Reaching A C u ∧ LowKept C s₀.w.mem u) h₀
      ⟨h₀.sound, h₀.reaching, fun _ _ _ _ _ => rfl⟩ (fun hm hs => ?_) h
    have hg := h₀.ground hbar.toBarOutside
    have hC := h₀.domainsApart hbar
    obtain ⟨h1, h2, h3⟩ := hs
    exact ⟨h1.move hin hgrants hg hm, h2.move h1 hC hin hgrants hg hm, h3.move h1 hC hin hg hm⟩
  exact hinv.2

/-- **The hardware's I/O tables are the image of the models**, and the models contain no mapping beyond its grant and no grant
without a mapping. -/
theorem tables_mirror_models : Mirrored C s ∧
    ∀ di < MAX_DOMAINS, (s.domains di).contained = true ∧
      ∀ f rights, (s.domains di).granted f = some rights → ∃ x, (s.domains di).mapped x = some (f, rights) := by
  obtain ⟨hr, -⟩ := h.reaching h₀ hbar hin hgrants
  refine ⟨fun di hdi slot hlo hhi => ?_, fun di hdi => ⟨(hr.inStep.ok di hdi).contained, hr.used di hdi⟩⟩
  have hmatched := hr.inStep.matched di hdi slot hlo hhi
  refine ⟨⟨fun hp => ?_, fun ⟨m, hm⟩ => (hr.inStep.mapped_present hdi hlo hhi hm).1⟩, hmatched.entry⟩
  by_contra hc
  exact hmatched.absent (Option.eq_none_iff_forall_ne_some.2 fun m hm => hc ⟨m, hm⟩) hp

/-- **DMA reach is within authority**: every entry of a window is warranted, and no entry of a table names a free frame. -/
theorem dma_within_authority :
    (∀ di, Published C di → ∀ slot, DMA_IOVA_FIRST_SLOT ≤ slot → slot < 512 → Present C s di slot →
      A.iommu = true ∧ ∃ p x i rights, Warranted C s di slot p x i rights) ∧
    ∀ di, Published C di → ∀ slot < 512, Present C s di slot →
      ∀ f ∈ freeAddrs s.w.fa, f / PAGE_SIZE ≠ iopte.frame (s.leafAt C di slot) := by
  obtain ⟨hr, hlow⟩ := h.reaching h₀ hbar hin hgrants
  have ha := (h.sound h₀ hbar.toBarOutside hin hgrants).accounted
  have hwindow : ∀ di, Published C di → ∀ slot, DMA_IOVA_FIRST_SLOT ≤ slot → slot < 512 → Present C s di slot →
      A.iommu = true ∧ ∃ p x i rights, Warranted C s di slot p x i rights := by
    intro di hdi slot hlo hhi hp
    have hmatched := hr.inStep.matched di hdi slot hlo hhi
    obtain ⟨⟨f, rights⟩, hm⟩ : ∃ m, (s.domains di).mapped (slot * PAGE_SIZE) = some m := by
      by_contra hc
      exact hmatched.absent (Option.eq_none_iff_forall_ne_some.2 fun m hm => hc ⟨m, hm⟩) hp
    obtain ⟨hio, p, x, i, j, hc⟩ := hr.claimed di hdi.1 _ f rights hm
    obtain ⟨frame, hframe, rfl⟩ := hc.page
    obtain ⟨-, -, hal, -⟩ := ha.out (Accounted.region_held hc.lt hframe)
    have hid := (h.sound h₀ hbar.toBarOutside hin hgrants).ids.pos i hc.lt hc.live
    obtain ⟨-, hk⟩ := hr.held p hc.holder.alive x hc.slot (by rw [hc.record]; exact hid)
    rw [hc.record] at hk
    have hk' := hk
    rw [keepsDma, Bool.and_eq_true] at hk'
    obtain ⟨⟨y, r, hy, hread⟩, z, r', hz, -⟩ := keepsDma_iff.1 hk
    -- the capability the record is kept by is the one it was made with
    obtain ⟨-, rfl⟩ := hr.one _ _ _ _ _ _ _ ⟨hc.holder.alive, ⟨z, _, hz, rfl⟩, hy⟩ hc.holder
    obtain rfl : r = rights := congrArg Capabilities.CapSlot.rights (Option.some.inj (hy.symm.trans hc.holder.region))
    refine ⟨hio, p, x, i, r, hc.holder.alive, hc.slot, hc.record, ⟨hc.lt, hc.live⟩, ⟨frame, hframe, ?_⟩, hk'.2, y, hy, hread⟩
    rw [hmatched.entry _ _ hm, Nat.div_mul_cancel (Nat.dvd_of_mod_eq_zero hal)]
  refine ⟨hwindow, fun di hdi slot hhi hp f hf => ?_⟩
  have hF := ha.account.free_mem hf
  by_cases hlo : DMA_IOVA_FIRST_SLOT ≤ slot
  · obtain ⟨-, p, x, i, rights, hw⟩ := hwindow di hdi slot hlo hhi hp
    obtain ⟨frame, hframe, hentry⟩ := hw.entry
    obtain ⟨-, hnf, hal, hlt⟩ := ha.out (Accounted.region_held hw.region.1 hframe)
    obtain ⟨hal', -⟩ := ha.account.tracked_lt hF
    rw [hentry, iopte.frame_leaf hal hlt]
    intro he
    have hfe : f = frame := by
      simp only [PAGE_SIZE] at hal hal' he
      omega
    exact hnf (hfe ▸ hf)
  · -- below the window the boot's entries are left, and they name nothing the kernel gives out
    have hleaf := hlow di hdi slot (not_le.1 hlo) hp
    have hp₀ : iopte.present (s₀.leafAt C di slot) = true := by
      rw [Present, hleaf] at hp
      exact hp
    rw [hleaf]
    exact (h₀.window di hdi.1 hdi.2 slot hhi hp₀).2 f hF

omit h₀ hbar hin hgrants h in
/-- what is present before and after, if the model translates the same -/
theorem InStep.present_iff (hs : InStep C s) (ht : InStep C t) {di slot : ℕ} (hdi : Published C di)
    (hlo : DMA_IOVA_FIRST_SLOT ≤ slot) (hhi : slot < 512) (hreach : (t.domains di).reach = (s.domains di).reach) :
    (Present C t di slot ↔ Present C s di slot) ∧ (Present C s di slot → t.leafAt C di slot = s.leafAt C di slot) := by
  have hmap : (t.domains di).mapped (slot * PAGE_SIZE) = (s.domains di).mapped (slot * PAGE_SIZE) :=
    congrFun (congrArg Iommu.Reach.maps hreach) _
  have h1 := hs.matched di hdi slot hlo hhi
  have h2 := ht.matched di hdi slot hlo hhi
  cases hm : (s.domains di).mapped (slot * PAGE_SIZE) with
  | none => exact ⟨iff_of_false (h2.absent (hmap.trans hm)) (h1.absent hm), fun hp => absurd hp (h1.absent hm)⟩
  | some m =>
    have he : t.leafAt C di slot = s.leafAt C di slot :=
      (h2.entry m.1 m.2 (hmap.trans hm)).trans (h1.entry m.1 m.2 hm).symm
    exact ⟨by rw [Present, Present, he], fun _ => he⟩

/-- `MAP_DMA` has mapped the region: `first` is the first of its entries, `rec_` its record -/
structure MappedAll (C : Config) (s t : KState) (who domain region : ℕ) (rights : CapRights) (di ri first rec_ : ℕ) : Prop where
  installed : Installed C who domain region rights s t di ri first rec_
  translated : Installing C di ri first rights (s.regions ri).frames.length s t

/-- nothing a device reaches has changed, and no record has -/
structure Unmapped (C : Config) (s t : KState) : Prop where
  procs : t.procs = s.procs
  reach : ∀ di, (t.domains di).reach = (s.domains di).reach
  entries : ∀ di, Published C di → ∀ slot, DMA_IOVA_FIRST_SLOT ≤ slot → slot < 512 →
    (Present C t di slot ↔ Present C s di slot) ∧ (Present C s di slot → t.leafAt C di slot = s.leafAt C di slot)

omit h₀ hbar hin hgrants h in
theorem Unmapped.mapped (hu : Unmapped C s t) (di iova : ℕ) : (t.domains di).mapped iova = (s.domains di).mapped iova :=
  congrFun (congrArg Iommu.Reach.maps (hu.reach di)) iova

/-- **`MAP_DMA` is exact and failure-atomic.** In every reachable state, whatever the call's registers, it returns the address of
a run of entries that were absent and now show every page of the region in order with the rights of the capability presented, and
nothing else has changed of any domain; or it returns an error, and every translation, grant, entry and record is as it was. -/
theorem map_dma_exact (hme : s.Alive me) (f : UserFrame) : ∃ v t, sysMapDma A C me f s = .ok (some (A.frameSetRet f v), t) ∧
    DmaOnly C s t ∧
    ((∃ domain region rights di ri first rec_, dmaCaps A (s.procs me).caps f = some (domain, region, rights) ∧
        v = first * PAGE_SIZE ∧ MappedAll C s t me domain region rights di ri first rec_) ∨
      (v = syserr.NO_MEM ∨ v = syserr.NO_CAP) ∧ Unmapped C s t) := by
  obtain ⟨hr, -⟩ := h.reaching h₀ hbar hin hgrants
  have ha := (h.sound h₀ hbar.toBarOutside hin hgrants).accounted
  have hsame : Unmapped C s s := ⟨rfl, fun _ => rfl, fun _ _ _ _ _ => ⟨Iff.rfl, fun _ => rfl⟩⟩
  have hwp : wp (sysMapDma A C me f) (fun out t => ∃ v, out = some (A.frameSetRet f v) ∧ DmaOnly C s t ∧
      ((∃ domain region rights di ri first rec_, dmaCaps A (s.procs me).caps f = some (domain, region, rights) ∧
          v = first * PAGE_SIZE ∧ MappedAll C s t me domain region rights di ri first rec_) ∨
        (v = syserr.NO_MEM ∨ v = syserr.NO_CAP) ∧ Unmapped C s t)) (fun _ => False) s := by
    rw [sysMapDma, wp_bind, wp_get]
    cases hcaps : dmaCaps A (s.procs me).caps f with
    | none => exact ⟨_, rfl, DmaOnly.refl s, Or.inr ⟨Or.inr rfl, hsame⟩⟩
    | some x =>
      obtain ⟨domain, region, rights⟩ := x
      refine wp_ite (fun _ => ⟨_, rfl, DmaOnly.refl s, Or.inr ⟨Or.inl rfl, hsame⟩⟩) fun _ => ?_
      rw [wp_bind, wp_run]
      refine ⟨_, rfl, dmaOnly_mapDma me domain region rights s, ?_⟩
      rcases hr.mapDma_outcome h₀.domainsOk ha hme hcaps with ⟨herr, hi, hreach, hprocs⟩ | ⟨di, ri, first, rec_, hm, hv, hi, -⟩
      · exact Or.inr ⟨herr, hprocs, hreach, fun dj hdj slot hlo hhi => hr.inStep.present_iff hi hdj hlo hhi (hreach dj)⟩
      · refine Or.inl ⟨domain, region, rights, di, ri, first, rec_, rfl, hv, ?_, hi⟩
        rcases mapDma_spec h₀.domainsOk me domain region rights s with ⟨herr, -⟩ | ⟨di', ri', first', rec', hv', hinst⟩
        · -- the address of a run is no error code
          have := hm.window.2
          rw [hv] at herr
          simp only [syserr.NO_MEM, syserr.NO_CAP, PAGE_SIZE, U64_MAX] at herr
          omega
        · obtain rfl : di = di' := Option.some.inj (hm.lookup.symm.trans hinst.lookup)
          obtain rfl : ri = ri' := Option.some.inj (hm.index.symm.trans hinst.index)
          obtain rfl : rec_ = rec' := Option.some.inj (hm.slot.symm.trans hinst.slot)
          obtain rfl : first = first' := page_inj.1 (hv.symm.trans hv')
          exact hinst
  cases hrun : sysMapDma A C me f s with
  | error e => exact (wp_error hwp hrun).elim
  | ok r =>
    obtain ⟨out, t⟩ := r
    obtain ⟨v, rfl, hd, hout⟩ := wp_ok hwp hrun
    exact ⟨v, t, rfl, hd, hout⟩

end

/-! ## A machine with a unit -/

/-- the worker has made a region of one page -/
def unitRegion : KState := outcome (handle X86 oneUnitConfig (.syscall (callFrame sysno.MAKE_REGION 2 1)) unitWorker) unitWorker

/-- the worker has mapped the region for the device -/
def unitMapped : KState := outcome (handle X86 oneUnitConfig (.syscall (callFrame sysno.MAP_DMA 8 13)) unitRegion) unitRegion

theorem unitRegion_reachable : Reachable X86 oneUnitConfig oneUnitState unitRegion := by
  have hawake : unitWorker.idling = false := by decide +kernel
  exact unitWorker_reachable.outcome (i := .syscall (callFrame sysno.MAKE_REGION 2 1)) hawake (by decide +kernel)

theorem unitMapped_reachable : Reachable X86 oneUnitConfig oneUnitState unitMapped := by
  have hawake : unitRegion.idling = false := by decide +kernel
  exact unitRegion_reachable.outcome (i := .syscall (callFrame sysno.MAP_DMA 8 13)) hawake (by decide +kernel)

theorem unitMapped_mirrored : Mirrored oneUnitConfig unitMapped ∧ (unitMapped.domains 0).mapped (256 * PAGE_SIZE) ≠ none := by
  have h := tables_mirror_models oneUnitConfig_ready oneUnitConfig_apart emptyX86_inside (roleGrants_apart rfl)
    unitMapped_reachable
  exact ⟨h.1, by decide +kernel⟩

theorem unitMapped_warranted : ∃ p x i rights, Warranted oneUnitConfig unitMapped 0 256 p x i rights := by
  have h := dma_within_authority oneUnitConfig_ready oneUnitConfig_apart emptyX86_inside (roleGrants_apart rfl)
    unitMapped_reachable
  have hpub : Published oneUnitConfig 0 := ⟨by decide, by decide⟩
  have hp : iopte.present (unitMapped.leafAt oneUnitConfig 0 256) = true := by decide +kernel
  exact (h.1 0 hpub 256 (by decide) (by decide) hp).2

/-- the call maps the region, the first entry of its window being absent before -/
theorem unitRegion_mapDma : ∃ t domain region rights di ri first rec_,
    sysMapDma X86 oneUnitConfig 2 (callFrame sysno.MAP_DMA 8 13) unitRegion =
      .ok (some (X86.frameSetRet (callFrame sysno.MAP_DMA 8 13) (first * PAGE_SIZE)), t) ∧
    dmaCaps X86 (unitRegion.procs 2).caps (callFrame sysno.MAP_DMA 8 13) = some (domain, region, rights) ∧
    MappedAll oneUnitConfig unitRegion t 2 domain region rights di ri first rec_ := by
  have hme : unitRegion.Alive 2 := ⟨by decide, by decide +kernel⟩
  have hmaps : (unitRegion.domains 0).mapped (256 * PAGE_SIZE) = none ∧
      ((sysMapDma X86 oneUnitConfig 2 (callFrame sysno.MAP_DMA 8 13) unitRegion).toOption.any fun r =>
        ((r.2.domains 0).mapped (256 * PAGE_SIZE)).isSome) = true := by decide +kernel
  obtain ⟨v, t, hrun, -, ⟨domain, region, rights, di, ri, first, rec_, hcaps, rfl, hm⟩ | ⟨-, hun⟩⟩ :=
    map_dma_exact oneUnitConfig_ready oneUnitConfig_apart emptyX86_inside (roleGrants_apart rfl)
      unitRegion_reachable hme (callFrame sysno.MAP_DMA 8 13)
  · exact ⟨t, domain, region, rights, di, ri, first, rec_, hrun, hcaps, hm⟩
  · -- the device reaches a page that it did not reach
    have hkept : (t.domains 0).mapped (256 * PAGE_SIZE) = none := (hun.mapped 0 _).trans hmaps.1
    have hnew : ((t.domains 0).mapped (256 * PAGE_SIZE)).isSome = true := by
      have h := hmaps.2
      rw [hrun] at h
      exact h
    rw [hkept] at hnew
    exact absurd hnew (by decide)

end Rustproof.Kernel
