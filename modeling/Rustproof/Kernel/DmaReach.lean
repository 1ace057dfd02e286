/-
What a device can reach, in every reachable state.

Every page a domain's model translates rests on a mapping record of a live process (`Claim`): of a live region the page belongs
to, which the process has a capability for with exactly the rights of the translation. The tables mirror the models, every grant
is used by some translation, and every record is one its holder has both capabilities for. `Reaching` is all of this, and every
move keeps it (`Reaching.move`).
- `Reaching.withdrawn`: what a withdrawal leaves; `Reaching.revoke` and `Reaching.retire` are withdrawals too.
- `Reaching.mapDma_outcome`: a call maps the whole region, or changes no domain.
-/
import Rustproof.Kernel.IdleMoves
import Rustproof.Kernel.IoMirror
import Rustproof.Kernel.Revocation

namespace Rustproof.Kernel

open Lib Prog Mm Iommu.Domain

variable {A : Arch} {C : Config} {G : Gate} {me : ℕ} {k : Trap} {s t u : KState} {F : Multiset ℕ} {m₀ : Mem}

/-! ## What a translation rests on -/

/-- record `k` of process `p` is a mapping for domain `di` of live region `i`, which frame number `f` is of; slot `j` of `p` has
the capability for the region -/
structure Claim (C : Config) (s : KState) (di f : ℕ) (rights : CapRights) (p k i j : ℕ) : Prop where
  slot : k < SHARE_SLOTS
  record : (s.procs p).dma k = ((s.regions i).id, (C.domainSlots di).id)
  lt : i < MAX_REGIONS
  live : (s.regions i).live = true
  page : ∃ frame ∈ (s.regions i).frames, f = frame / PAGE_SIZE
  holder : MapsWith s p j (s.regions i).id rights

/-- tables, models, records and capabilities agree -/
structure Reaching (A : Arch) (C : Config) (s : KState) : Prop where
  inStep : InStep C s
  used : Used s
  window : ∀ di < MAX_DOMAINS, ∀ x m, (s.domains di).mapped x = some m →
    Published C di ∧ ∃ slot, DMA_IOVA_FIRST_SLOT ≤ slot ∧ slot < 512 ∧ x = slot * PAGE_SIZE
  claimed : ∀ di < MAX_DOMAINS, ∀ x f rights, (s.domains di).mapped x = some (f, rights) →
    A.iommu = true ∧ ∃ p k i j, Claim C s di f rights p k i j
  held : ∀ p, s.Alive p → ∀ k < SHARE_SLOTS, ((s.procs p).dma k).1 ≠ 0 →
    A.iommu = true ∧ keepsDma (s.procs p).caps ((s.procs p).dma k) = true
  one : OneHolder s

theorem holdsCap_forObject {caps : Caps} {ty : CapType} {o : ℕ} {needed : CapRights} :
    holdsCap caps (forObject ty o needed) = true ↔
      ∃ j rights, caps.lookup j = some ⟨ty, rights, o⟩ ∧ rights.contains needed = true := by
  rw [holdsCap_iff]
  constructor
  · rintro ⟨j, ⟨ty', rights, o'⟩, hc, hf⟩
    obtain ⟨rfl, rfl, hr⟩ := forObject_iff.1 hf
    exact ⟨j, rights, hc, hr⟩
  · rintro ⟨j, rights, hc, hr⟩
    exact ⟨j, _, hc, forObject_iff.2 ⟨rfl, rfl, hr⟩⟩

/-- a record its holder has both capabilities for -/
theorem keepsDma_iff {caps : Caps} {r : ℕ × ℕ} : keepsDma caps r = true ↔
    (∃ j rights, caps.lookup j = some ⟨.region, rights, r.1⟩ ∧ rights.contains CapRights.READ = true) ∧
      ∃ j rights, caps.lookup j = some ⟨.iommuDomain, rights, r.2⟩ ∧ rights.contains CapRights.WRITE = true := by
  rw [keepsDma, Bool.and_eq_true, capsHoldRegion, capsHoldDomain, holdsCap_forObject, holdsCap_forObject]

theorem keepsDma_mono {caps caps' : Caps} {r : ℕ × ℕ} (h : ∀ i c, caps.lookup i = some c → caps'.lookup i = some c)
    (hk : keepsDma caps r = true) : keepsDma caps' r = true := by
  by_contra hc
  exact absurd (keepsDma_fewer h (Bool.eq_false_iff.2 hc)) (by rw [hk]; decide)

/-! ## Idle steps -/

theorem Claim.idle {di f p x i j : ℕ} {rights : CapRights} (h : Claim C s di f rights p x i j) (hio : A.iommu = true)
    (hids : RegionIds s) (ht : Idle A C s t) : Claim C t di f rights p x i j := by
  have hp := h.holder.alive
  have hregion := ht.regions i h.lt h.live
  have hpt : t.Alive p := by
    refine ht.stays hio p hp ⟨x, h.slot, ?_⟩
    rw [h.record]
    exact hids.pos i h.lt h.live
  have hkeep := ht.caps p hpt hp
  obtain ⟨y, b, hb, hty⟩ := h.holder.domain
  refine ⟨h.slot, ?_, h.lt, by rw [hregion]; exact h.live, by rw [hregion]; exact h.page,
    ⟨hpt, ⟨y, b, hkeep y b hb, hty⟩, ?_⟩⟩
  · rw [ht.records p hpt hp, hregion]
    exact h.record
  · rw [hregion]
    exact hkeep _ _ h.holder.region

theorem Reaching.idle (h : Reaching A C s) (hids : RegionIds s) (ht : Idle A C s t) (hone : OneHolder t) : Reaching A C t := by
  have hd := ht.domains
  refine ⟨⟨fun di hdi => by rw [hd]; exact h.inStep.ok di hdi, fun di hdi => by rw [hd]; exact h.inStep.small di hdi,
    fun di hdi slot hlo hhi => ?_⟩, fun di hdi => by rw [hd]; exact h.used di hdi,
      fun di hdi => by rw [hd]; exact h.window di hdi,
    fun di hdi x f rights hm => ?_, fun p hp x hx h0 => ?_, hone⟩
  · have hleaf : t.leafAt C di slot = s.leafAt C di slot := congrFun (ht.tables di hdi) slot
    obtain ⟨h1, h2⟩ := h.inStep.matched di hdi slot hlo hhi
    exact ⟨by rw [hd, hleaf]; exact h1, by rw [hd, Present, hleaf]; exact h2⟩
  · rw [hd] at hm
    obtain ⟨hio, p, x', i, j, hc⟩ := h.claimed di hdi x f rights hm
    exact ⟨hio, p, x', i, j, hc.idle hio hids ht⟩
  · by_cases hps : s.Alive p
    · rw [ht.records p hp hps] at h0 ⊢
      obtain ⟨hio, hk⟩ := h.held p hps x hx h0
      exact ⟨hio, keepsDma_mono (ht.caps p hp hps) hk⟩
    · rw [ht.fresh p hp hps] at h0
      exact absurd rfl h0

/-! ## Withdrawals -/

/-- a translation that is left was there before -/
theorem Purged.mapped {Q : ℕ → ℕ → Prop} (h : Purged C Q s t) (hs : InStep C s) {di : ℕ} (hdi : di < MAX_DOMAINS) {x : ℕ}
    {m : ℕ × CapRights} (hm : (t.domains di).mapped x = some m) : (s.domains di).mapped x = some m := by
  rcases (h.drops di hdi (hs.ok di hdi)).maps x with ⟨-, hgone⟩ | ⟨-, hsame⟩
  · rw [hgone] at hm
    exact absurd hm (by simp)
  · rw [← hsame]
    exact hm

/-- a withdrawal leaves every grant used -/
theorem Purged.used {Q : ℕ → ℕ → Prop} (h : Purged C Q s t) (hs : InStep C s) (hu : Used s) : Used t := by
  intro di hdi f rights hg
  have hd := h.drops di hdi (hs.ok di hdi)
  have hq : ¬Q di f := fun hq => by
    rw [hd.gone f hq] at hg
    exact absurd hg (by simp)
  rw [hd.kept f hq] at hg
  obtain ⟨x, hx⟩ := hu di hdi f rights hg
  refine ⟨x, ?_⟩
  rcases hd.maps x with ⟨⟨f', r', hm, hq'⟩, -⟩ | ⟨-, hsame⟩
  · rw [hx] at hm
    rw [(Prod.mk.inj (Option.some.inj hm)).1] at hq
    exact absurd hq' hq
  · rw [hsame, hx]

/-- **A withdrawal** that takes the mappings whose records it drops, and leaves no record without capabilities -/
theorem Reaching.withdrawn {W D : ℕ → ℕ → Prop} (h : Reaching A C s) (hids : RegionIds s) (hC : DomainsOk C)
    (hw : Withdrawal C W D s t) (hp : ∃ Q, Purged C Q s t) (hf : Fewer s t)
    (hD : ∀ p k, s.Alive p → k < SHARE_SLOTS → ((s.procs p).dma k).1 ≠ 0 → D p k → W ((s.procs p).dma k).1 ((s.procs p).dma k).2)
    (hheld : ∀ p, t.Alive p → ∀ k < SHARE_SLOTS, ((t.procs p).dma k).1 ≠ 0 →
      A.iommu = true ∧ keepsDma (t.procs p).caps ((t.procs p).dma k) = true) (hone : OneHolder t) : Reaching A C t := by
  obtain ⟨Q, hQ⟩ := hp
  have hin := hQ.inStep h.inStep
  refine ⟨hin, hQ.used h.inStep h.used, fun di hdi x m hm => h.window di hdi x m (hQ.mapped h.inStep hdi hm),
    fun di hdi x f rights hm => ?_, hheld, hone⟩
  have hms := hQ.mapped h.inStep hdi hm
  obtain ⟨hpub, slot, hlo, hhi, rfl⟩ := h.window di hdi x _ hms
  obtain ⟨hio, p, x, i, j, hc⟩ := h.claimed di hdi _ f rights hms
  obtain ⟨hps, hpf⟩ := h.inStep.mapped_present hpub hlo hhi hms
  obtain ⟨hpt, -⟩ := hin.mapped_present hpub hlo hhi hm
  have hid := hids.pos i hc.lt hc.live
  -- the entry is still there, so its region was not withdrawn from its domain
  have hnot : ¬W (s.regions i).id (C.domainSlots di).id := by
    intro hW
    have hne : (C.domainSlots di).id = di + 1 := by
      have hl := hC.lookup hpub
      exact (domainLookup_lt C hl).2.2
    have hcut := hw.swept.cut di hpub slot hhi hps ⟨(s.regions i).id, (C.domainSlots di).id, i, hW, ?_, ?_, ?_⟩
    · rw [Present, hcut, iopte.not_present_zero] at hpt
      exact absurd hpt (by decide)
    · rw [hne]
      exact hC.lookup hpub
    · have hsl := hids.slot hc.lt hc.live
      rw [KState.regionSlot, if_neg hid] at hsl
      exact hsl
    · rw [hpf]
      exact hc.page
  have hpalive : t.Alive p := (hw.alive p).2 hc.holder.alive
  have hrec : (t.procs p).dma x = ((s.regions i).id, (C.domainSlots di).id) := by
    refine (hw.records p x _ _ hid).2 ⟨hc.record, fun hDx => hnot ?_⟩
    have hWx := hD p x hc.holder.alive hc.slot (by rw [hc.record]; exact hid) hDx
    rwa [hc.record] at hWx
  -- its holder has the capabilities, and had them
  obtain ⟨-, hk⟩ := hheld p hpalive x hc.slot (by rw [hrec]; exact hid)
  rw [hrec] at hk
  obtain ⟨⟨y, r, hy, -⟩, z, r', hz, -⟩ := keepsDma_iff.1 hk
  have hmt : MapsWith t p y (s.regions i).id r := ⟨hpalive, ⟨z, _, hz, rfl⟩, hy⟩
  obtain ⟨-, rfl⟩ := h.one _ p y r p j rights (hf.mapsWith hmt) hc.holder
  have hr : r = rights := by
    have hsame := (hf.mapsWith hmt).region.symm.trans hc.holder.region
    exact congrArg Capabilities.CapSlot.rights (Option.some.inj hsame)
  exact ⟨hio, p, x, i, y, hc.slot, by rw [hw.regions]; exact hrec, hc.lt, by rw [hw.regions]; exact hc.live,
    by rw [hw.regions]; exact hc.page, by rw [hw.regions, ← hr]; exact hmt⟩

/-- a withdrawal on a process's behalf: capabilities stay -/
theorem Reaching.withdrawnBy {W D : ℕ → ℕ → Prop} (h : Reaching A C s) (hids : RegionIds s) (hC : DomainsOk C)
    (hw : Withdrawal C W D s t) (hp : ∃ Q, Purged C Q s t) (hd : DmaOnly C s t)
    (hD : ∀ p k, s.Alive p → k < SHARE_SLOTS → ((s.procs p).dma k).1 ≠ 0 → D p k → W ((s.procs p).dma k).1 ((s.procs p).dma k).2)
    (hone : OneHolder t) : Reaching A C t := by
  refine h.withdrawn hids hC hw hp (.of_authority hd.authority) hD (fun p hpt x hx h0 => ?_) hone
  have he : (s.procs p).dma x = (t.procs p).dma x := ((hw.records p x _ ((t.procs p).dma x).2 h0).1 rfl).1
  rw [← he] at h0 ⊢
  rw [Process.caps_eq (hd.authority p)]
  exact h.held p ((hw.alive p).1 hpt) x hx h0

theorem Reaching.withdrawAll (h : Reaching A C s) (hids : RegionIds s) (hC : DomainsOk C) {who : ℕ}
    (hrun : withdrawAllDmaOf C who s = .ok ((), t)) (hone : OneHolder t) : Reaching A C t := by
  refine h.withdrawnBy hids hC (withdrawal_all hC hrun) (purged_withdrawAll hC hrun) (wp_ok (dmaOnly_withdrawAllDmaOf who s) hrun)
    (fun p x _ _ h0 hp => ?_) hone
  obtain ⟨rfl, hx⟩ := hp
  exact ⟨h0, x, hx, rfl⟩

/-- `unmap_dma` refuses, or withdraws the region from the domain and drops the caller's records of it -/
theorem withdrawal_unmapDma (hC : DomainsOk C) {who domain region v : ℕ} (hrun : unmapDma C who domain region s = .ok (v, t)) :
    t = s ∨ Withdrawal C (fun r d => r = region ∧ d = domain)
      (fun p x => p = who ∧ x < SHARE_SLOTS ∧ (s.procs p).dma x = (region, domain)) s t := by
  have hspec : wp (unmapDma C who domain region) (fun _ t => t = s ∨
      ∃ di ri, domainLookup C domain = some di ∧ s.regionIndex region = some ri ∧
        RingOnly C (dropRecords who region domain (withdrawRegionFromDomain C di ri s).2) t) (· = .ringFull) s := by
    rw [unmapDma, wp_bind, wp_get]
    refine wp_ite (fun _ => Or.inl rfl) fun _ => ?_
    cases hd : domainLookup C domain with
    | none => exact Or.inl rfl
    | some di =>
      simp only
      cases hi : s.regionIndex region with
      | none => exact Or.inl rfl
      | some ri =>
        simp only [wp_bind, wp_modify]
        refine wp_onlyIf (fun _ => ?_) fun _ => Or.inr ⟨di, ri, rfl, rfl, RingOnly.refl _⟩
        exact wp_mono (ringOnly_invalidateCounted di _) fun _ u hu => Or.inr ⟨di, ri, rfl, rfl, hu⟩
  rcases wp_ok hspec hrun with rfl | ⟨di, ri, hd, hi, hr⟩
  · exact Or.inl rfl
  refine Or.inr ?_
  have h1 := withdrawal_region hC hd hi
  set u := (withdrawRegionFromDomain C di ri s).2
  have hdma : (u.procs who).dma = (s.procs who).dma := by
    have hprocs : u.procs = s.procs := forAny_keep (I := fun t : KState => t.procs = s.procs)
      (fun frame _ t ht => (procs_clearIoMappingsIn di (frame / PAGE_SIZE) t).trans ht) rfl
    rw [hprocs]
  have hdrop : Withdrawal C (fun _ _ => False) (fun p x => p = who ∧ x < SHARE_SLOTS ∧ (s.procs who).dma x = (region, domain))
      u (dropRecords who region domain u) := by
    refine withdrawal_drop (d := fun i => if i < SHARE_SLOTS ∧ (u.procs who).dma i = (region, domain) then (0, 0)
      else (u.procs who).dma i) fun x r e hr => ?_
    rw [hdma]
    split_ifs with hx
    · exact ⟨fun he => absurd (Prod.mk.inj he).1.symm hr, fun he => absurd hx he.2⟩
    · exact (and_iff_left hx).symm
  refine ((h1.trans hdrop).ring hC hr).congr (fun r d _ _ _ _ => or_iff_left id) fun p x _ => ?_
  rw [false_or]
  exact and_congr_right fun hp => by rw [hp]

theorem Reaching.unmapDma (h : Reaching A C s) (hids : RegionIds s) (hC : DomainsOk C) {who domain region v : ℕ}
    (hrun : unmapDma C who domain region s = .ok (v, t)) (hone : OneHolder t) : Reaching A C t := by
  rcases withdrawal_unmapDma hC hrun with rfl | hw
  · exact h
  refine h.withdrawnBy hids hC hw (purged_unmapDma hC hrun) (wp_ok (dmaOnly_unmapDma who domain region s) hrun)
    (fun p x _ _ _ hp => ?_) hone
  obtain ⟨-, -, he⟩ := hp
  rw [he]
  exact ⟨rfl, rfl⟩

/-! ## Revocations -/

theorem Sound.laid (h : Sound A C F m₀ s) (hC : DomainsOk C) (hg : Ground A C F m₀) : Laid A C s := by
  obtain ⟨hs, ha, -, -, -, -, hslots⟩ := h
  refine ⟨hC, hslots, fun p hp => (hs.at_ p hp).tree, fun p q hp hq hne a hx hy => ?_, fun p hp a hx hio => ?_⟩
  · exact hs.tables_apart ha hq hp hne hx ((hs.at_ q hq).tables a hy)
  · refine (hs.fixed_apart hg ha (Or.inr ⟨p, hp, hx⟩)).2.1 ?_
    simp only [ioPages, kernelPages, List.mem_cons, List.not_mem_nil, or_false] at hio ⊢
    tauto

theorem purged_unheld (hC : DomainsOk C) (p : ℕ) (s : KState) : ∃ Q, Purged C Q s (withdrawUnheld C p s).2 := by
  refine forAny_keep (I := fun t : KState => ∃ Q, Purged C Q s t) (fun slot _ t ht => ?_) ⟨_, Purged.refl s⟩
  rw [withdrawUnheldSlot]
  simp only
  split_ifs
  · exact ht
  · exact ht
  · obtain ⟨Q, hQ⟩ := ht
    obtain ⟨Q', hQ'⟩ := purged_slot hC p slot t
    exact ⟨_, hQ.trans hQ'⟩

/-- stripping a process of a capability withdraws what it mapped, and touches the tables in no other way -/
theorem purged_strip (hs : Laid A C s) (d : Deleg.Endpoint) :
    wp (strip A C d) (fun _ t => ∃ Q, Purged C Q s t) (· = .ringFull) s := by
  refine wp_mono (strip_run d s) fun _ t ht => ?_
  rcases ht with ⟨-, rfl⟩ | ⟨hhit, v, rfl, hio, hnone⟩
  · exact ⟨_, Purged.refl t⟩
  have hp : s.Alive d.proc := ⟨hs.slots _ hhit.1, hhit.1⟩
  -- unmapping windows writes no table of the unit
  have hb : Purged C (fun _ _ => False) s (bereave A d s) := by
    obtain ⟨S, hS, -⟩ := unmaps_bereave (A := A) d s rfl
    refine .of_same (fun di hdi => ?_) (spaceOnly_detach (A := A) _ d.proc).domains
    have hc := hS.mem (by rw [KState.modProc_procs, Table.put_self]; exact hs.tree _ hp)
    refine hc.off _ fun hin => hs.io _ hp _ ?_ (l1_mem_ioPages C hdi.1)
    rw [KState.modProc_procs, Table.put_self] at hin
    exact hin
  have hv : ∃ Q, Purged C Q s v := by
    cases hA : A.iommu with
    | false =>
      rw [hnone hA]
      exact ⟨_, hb⟩
    | true =>
      obtain ⟨Q, hQ⟩ := purged_unheld hs.domainsOk d.proc (bereave A d s)
      exact ⟨_, (hb.trans hQ).ring hs.domainsOk (hio hA)⟩
  obtain ⟨Q, hQ⟩ := hv
  have hq := quiet_settle (A := A) d.proc v
  exact ⟨Q, hQ.same (fun _ _ => by rw [hq.mem]) hq.domains⟩

theorem purged_revoke (hs : Laid A C s) {root cap : ℕ} (hrun : revokeDelegations A C root cap s = .ok ((), t)) :
    ∃ Q, Purged C Q s t := by
  have hstart : (∃ Q, Purged C Q s { s with ledger := (s.ledger.revokeFrom (s.endpointAt root cap) MAX_DELEGATIONS).1 }) ∧
      Laid A C { s with ledger := (s.ledger.revokeFrom (s.endpointAt root cap) MAX_DELEGATIONS).1 } :=
    ⟨⟨_, .of_same (fun _ _ => rfl) rfl⟩, hs.domainsOk, hs.slots, hs.tree, hs.apart, hs.io⟩
  refine (wp_ok (wp_revoke (I := fun u : KState => (∃ Q, Purged C Q s u) ∧ Laid A C u) (E := (· = .ringFull)) hstart
    fun d _ u hu => ?_) hrun).1
  obtain ⟨⟨Q, hQ⟩, hl⟩ := hu
  refine wp_imp (wp_and (purged_strip hl d) (cut_strip hl d)) (fun _ v _ hv => ?_) fun _ he => he.1
  obtain ⟨⟨Q', hQ'⟩, hcut, -⟩ := hv
  exact ⟨⟨_, hQ.trans hQ'⟩, hcut.laid hl⟩

theorem Reaching.revoke (h : Reaching A C s) (hids : RegionIds s) (hs : Laid A C s) {root cap : ℕ}
    (hrun : revokeDelegations A C root cap s = .ok ((), t)) (hone : OneHolder t) : Reaching A C t := by
  obtain ⟨hcut, -⟩ := revoke_stripped hs hrun
  refine h.withdrawn hids hs.domainsOk hcut.dma (purged_revoke hs hrun) (fewer_revoke hrun) (fun p x hp hx h0 hd => ?_)
    (fun p hpt x hx h0 => ?_) hone
  · obtain ⟨hio, -, hT, -, hfail⟩ := hd
    exact ⟨hio, h0, p, hp, hT, x, hx, rfl, hfail⟩
  · have hp := (hcut.alive p).1 hpt
    obtain ⟨he, hkeep⟩ := (hcut.dma.records p x _ ((t.procs p).dma x).2 h0).1 rfl
    obtain ⟨hio, hk⟩ := h.held p hp x hx (by rw [he]; exact h0)
    rw [he] at hk hkeep
    refine ⟨hio, ?_⟩
    by_cases hT : s.loses (s.reached root cap) p = true
    · by_contra hc
      exact hkeep ⟨hio, hp, hT, hx, Bool.eq_false_iff.2 hc⟩
    · rw [hcut.kept p hT]
      exact hk

/-! ## The end of a region -/

theorem Fewer.oneHolder (h : Fewer s t) (hs : OneHolder s) : OneHolder t :=
  fun id p i r q j r' hp hq => hs id p i r q j r' (h.mapsWith hp) (h.mapsWith hq)

/-- a region goes of which no process has a record -/
theorem Reaching.freeRegion (h : Reaching A C s) {i : ℕ}
    (hno : ∀ p, s.Alive p → ∀ x < SHARE_SLOTS, ((s.procs p).dma x).1 ≠ (s.regions i).id) : Reaching A C (freeRegion i s) := by
  have hleaf : ∀ di slot, (Kernel.freeRegion i s).leafAt C di slot = s.leafAt C di slot := fun di slot => by
    rw [KState.leafAt, KState.leafAt, mem_freeRegion]
  refine ⟨⟨h.inStep.ok, h.inStep.small, fun di hdi slot hlo hhi => ?_⟩, h.used, h.window, fun di hdi x f rights hm => ?_, h.held,
    ?_⟩
  · obtain ⟨h1, h2⟩ := h.inStep.matched di hdi slot hlo hhi
    exact ⟨by rw [hleaf]; exact h1, by rw [Present, hleaf]; exact h2⟩
  · obtain ⟨hio, p, x, j, y, hc⟩ := h.claimed di hdi x f rights hm
    have hne : j ≠ i := by
      rintro rfl
      exact hno p hc.holder.alive x hc.slot (by rw [hc.record])
    have hregs : (Kernel.freeRegion i s).regions j = s.regions j := Table.put_of_ne _ hne _
    exact ⟨hio, p, x, j, y, hc.slot, by rw [hregs]; exact hc.record, hc.lt,
        by rw [hregs]; exact hc.live, by rw [hregs]; exact hc.page,
      by rw [hregs]; exact ⟨hc.holder.alive, hc.holder.domain, hc.holder.region⟩⟩
  · have hf : Fewer s (Kernel.freeRegion i s) := .of_authority fun _ => rfl
    exact hf.oneHolder h.one

/-- without a unit nothing is mapped, and nothing is recorded -/
theorem Reaching.noUnit (h : Reaching A C s) (hio : A.iommu = false)
    (htables : ∀ di, Published C di → t.w.mem (C.domainSlots di).l1 = s.w.mem (C.domainSlots di).l1)
    (hdrops : ∀ di < MAX_DOMAINS, ∃ Q, Drops Q (s.domains di) (t.domains di))
    (hrec : ∀ p, t.Alive p → ∀ x < SHARE_SLOTS, ((t.procs p).dma x).1 = 0) (hone : OneHolder t) : Reaching A C t := by
  have hnone : ∀ di < MAX_DOMAINS, ∀ x, (s.domains di).mapped x = none := by
    intro di hdi x
    cases hm : (s.domains di).mapped x with
    | none => rfl
    | some m => exact absurd ((h.claimed di hdi x m.1 m.2 hm).1.symm.trans hio) (by decide)
  have hgone : ∀ di < MAX_DOMAINS, ∀ x, (t.domains di).mapped x = none := by
    intro di hdi x
    obtain ⟨Q, hQ⟩ := hdrops di hdi
    rcases (hQ (h.inStep.ok di hdi)).maps x with ⟨-, hg⟩ | ⟨-, hsame⟩
    · exact hg
    · rw [hsame, hnone di hdi]
  have hempty : ∀ di < MAX_DOMAINS, ∀ x m, (t.domains di).mapped x ≠ some m := fun di hdi x m hm => by
    rw [hgone di hdi] at hm
    exact absurd hm (by simp)
  refine ⟨⟨fun di hdi => ?_, fun di hdi x f r hm => absurd hm (hempty di hdi x _), fun di hdi slot hlo hhi => ?_⟩,
    fun di hdi f rights hg => ?_, fun di hdi x m hm => absurd hm (hempty di hdi x m),
    fun di hdi x f r hm => absurd hm (hempty di hdi x _), fun p hp x hx h0 => absurd (hrec p hp x hx) h0, hone⟩
  · obtain ⟨Q, hQ⟩ := hdrops di hdi
    exact (hQ (h.inStep.ok di hdi)).ok
  · refine ⟨fun f r hm => absurd hm (hempty di hdi.1 _ _), fun _ hp => ?_⟩
    rw [Present, show t.leafAt C di slot = s.leafAt C di slot from congrFun (htables di hdi) slot] at hp
    exact (h.inStep.matched di hdi slot hlo hhi).absent (hnone di hdi.1 _) hp
  · obtain ⟨Q, hQ⟩ := hdrops di hdi
    have hd := hQ (h.inStep.ok di hdi)
    by_cases hq : Q f
    · rw [hd.gone f hq] at hg
      exact absurd hg (by simp)
    · rw [hd.kept f hq] at hg
      obtain ⟨x, hx⟩ := h.used di hdi f rights hg
      rw [hnone di hdi] at hx
      exact absurd hx (by simp)

/-- the unit's part of a region's end is the same on every machine that has one -/
theorem withdrawRegionEverywhere_unit (hio : A.iommu = true) (frames : List ℕ) (s : KState) :
    withdrawRegionEverywhere A C frames s = withdrawRegionEverywhere X86 C frames s := by
  have hframe : withdrawFrame A C = withdrawFrame X86 C := by
    funext frame s
    simp only [withdrawFrame, hio, show X86.iommu = true from rfl]
  rw [withdrawRegionEverywhere, withdrawRegionEverywhere, hframe]

/-- and writes nothing on one that has none -/
theorem w_withdrawRegionEverywhere (hio : A.iommu = false) (frames : List ℕ) (s : KState) :
    (withdrawRegionEverywhere A C frames s).2.w = s.w := by
  refine forAny_keep (I := fun t : KState => t.w = s.w) (fun frame _ t ht => ?_) rfl
  simp only [withdrawFrame, hio, Bool.false_eq_true, if_false]
  exact List.foldlRecOn (motive := fun u : KState => u.w = s.w) _ _ ht fun u hu di _ => hu

/-- **A region ends**: its translations, its records and its capabilities go with it. -/
theorem Reaching.retire (h : Reaching A C s) (hids : RegionIds s) (hC : DomainsOk C) {region i : ℕ}
    (hsl : s.regionSlot region = some i) (hrun : releaseRegion A C region (forgetCaps region s) = .ok ((), t)) :
    Reaching A C t := by
  obtain ⟨h0, hi, hl, hid⟩ := regionSlot_some hsl
  have hcaps := capsOnly_forgetCaps region s
  have hdom : (forgetCaps region s).domains = s.domains := by
    obtain ⟨_, _, hrest⟩ := hcaps.rest
    rw [hrest]
  have hproc : ∀ p, ((forgetCaps region s).procs p).dma = (s.procs p).dma ∧ (forgetCaps region s).live p = s.live p := fun p => by
    obtain ⟨c, hc⟩ := hcaps.proc p
    rw [KState.live, hc]
    exact ⟨rfl, rfl⟩
  have hfewer := (fewer_forgetCaps region s).1
  have hkeep : ∀ p x c, ¬Names region c → (s.procs p).caps.lookup x = some c →
      ((forgetCaps region s).procs p).caps.lookup x = some c := fun p x c hn hc => forgetCaps_keep hn hc
  have hslot : (forgetCaps region s).regionSlot region = some i := by rw [regionSlot_congr hcaps.regions]; exact hsl
  have hmem : (forgetCaps region s).w = s.w := hcaps.w
  have hregs := hcaps.regions
  generalize forgetCaps region s = f at *
  have hspec : wp (releaseRegion A C region) (fun _ t =>
        ∃ v, RingOnly C (withdrawRegionEverywhere A C (f.regions i).frames f).2 v ∧
      t = Kernel.freeRegion i (forgetRecords region v)) (· = .ringFull) f := by
    rw [releaseRegion, wp_bind, wp_get]
    simp only [hslot, wp_bind, wp_run]
    exact wp_mono (ringOnly_flushIf _ _) fun _ v hv => ⟨v, hv, rfl⟩
  obtain ⟨v, hv, rfl⟩ := wp_ok hspec hrun
  have hprocs : v.procs = f.procs := hv.procs.trans (procs_withdrawRegionEverywhere _ _)
  have hrecords := dmaOnly_forgetRecords (C := C) region v
  have hfew : Fewer s (forgetRecords region v) := by
    refine hfewer.trans (.of_authority fun p => (hrecords.authority p).trans ?_)
    rw [hprocs]
  have hwregs : (forgetRecords region v).regions = s.regions :=
    (hv.regions.trans (dmaOnly_withdrawRegionEverywhere A _ _).regions).trans hregs
  -- which records are left
  have hleft : ∀ p, (forgetRecords region v).Alive p → ∀ x < SHARE_SLOTS, ((forgetRecords region v).procs p).dma x =
      if ((s.procs p).dma x).1 = region then (0, 0) else (s.procs p).dma x := by
    intro p hp x hx
    obtain ⟨hlt, hlive⟩ := hrecords.alive.1 hp
    simp only [forgetRecords, if_pos (show p < MAX_PROCS ∧ v.live p = true from ⟨hlt, hlive⟩), hx, true_and]
    rw [hprocs, (hproc p).1]
  have hone := hfew.oneHolder h.one
  have hw : Reaching A C (forgetRecords region v) := by
    cases hio : A.iommu with
    | false =>
      refine h.noUnit hio (fun di hdi => ?_) (fun di hdi => ⟨fun g => ∃ frame ∈ (f.regions i).frames, g = frame / PAGE_SIZE, ?_⟩)
        (fun p hp x hx => ?_) hone
      · obtain ⟨h1, h2, -⟩ := hC.others di hdi.1 hdi.2
        refine (hv.mem _ h1 h2).trans ?_
        rw [w_withdrawRegionEverywhere hio, hmem]
      · rw [← hdom, show (forgetRecords region v).domains = v.domains from rfl, hv.domains]
        exact drops_everywhere _ hdi f
      · rw [hleft p hp x hx]
        split_ifs
        · rfl
        · by_contra hne
          have hps : s.Alive p := ⟨hp.1, hfew.live p hp.2⟩
          exact absurd ((h.held p hps x hx hne).1.symm.trans hio) (by decide)
    | true =>
      have hstill : Withdrawal C (fun _ _ => False) (fun _ _ => False) s f :=
        .still (fun a _ => by rw [hmem]) hregs (fun p => (hproc p).2) fun p => (hproc p).1
      have hindex : f.regionIndex region = some i := by rwa [KState.regionSlot, if_neg h0] at hslot
      have hrel := withdrawal_release hC hindex (by rw [← withdrawRegionEverywhere_unit hio]; exact hv)
      have hpurged : ∃ Q, Purged C Q s (forgetRecords region v) := by
        have hsame : Purged C (fun _ _ => False) s f := .of_same (fun _ _ => by rw [hmem]) hdom
        exact ⟨_, ((hsame.trans (purged_everywhere hC hio _ f)).ring hC hv).same (fun _ _ => rfl) rfl⟩
      refine h.withdrawn hids hC (hstill.trans hrel) hpurged hfew (fun p x _ _ _ hd => ?_) (fun p hp x hx hne => ?_) hone
      · refine Or.inr ?_
        rw [← (hproc p).1]
        exact (hd.resolve_left id).2.2
      · have hps : s.Alive p := ⟨hp.1, hfew.live p hp.2⟩
        rw [hleft p hp x hx] at hne ⊢
        split_ifs at hne ⊢ with hr
        · exact absurd rfl hne
        obtain ⟨-, hk⟩ := h.held p hps x hx hne
        obtain ⟨⟨y, r, hy, hyr⟩, z, r', hz, hzr⟩ := keepsDma_iff.1 hk
        refine ⟨hio, ?_⟩
        rw [Process.caps_eq (hrecords.authority p), hprocs]
        exact keepsDma_iff.2 ⟨⟨y, r, hkeep p y _ (fun hn => hr hn.2) hy, hyr⟩,
          z, r', hkeep p z _ (fun hn => absurd hn.1 (by simp)) hz, hzr⟩
  refine hw.freeRegion fun p hp x hx => ?_
  rw [hleft p hp x hx, hwregs, hid]
  split_ifs with hr
  · exact fun hz => h0 hz.symm
  · exact hr

/-! ## Mapping -/

theorem dmaCaps_some {caps : Caps} {f : UserFrame} {domain region : ℕ} {rights : CapRights}
    (h : dmaCaps A caps f = some (domain, region, rights)) :
    (∃ j r, caps.lookup j = some ⟨.iommuDomain, r, domain⟩ ∧ r.contains CapRights.WRITE = true) ∧
      ∃ j, caps.lookup j = some ⟨.region, rights, region⟩ ∧ rights.contains CapRights.READ = true := by
  rw [dmaCaps] at h
  obtain ⟨d, hd, h⟩ := Option.bind_eq_some_iff.1 h
  obtain ⟨r, hr, he⟩ := Option.map_eq_some_iff.1 h
  obtain ⟨rfl, rfl⟩ := Prod.mk.inj he
  rw [capsIommuDomain] at hd
  rw [capsRegion] at hr
  obtain ⟨⟨ty, r₁, o₁⟩, hc, ho⟩ := Option.map_eq_some_iff.1 hd
  obtain ⟨⟨ty', r₂, o₂⟩, hc', ho'⟩ := Option.map_eq_some_iff.1 hr
  obtain ⟨rfl, rfl⟩ := Prod.mk.inj ho'
  obtain ⟨h1, rfl, h3⟩ := capNamed_some hc
  obtain ⟨h1', rfl, h3'⟩ := capNamed_some hc'
  rw [← ho]
  exact ⟨⟨_, _, h1, h3⟩, _, h1', h3'⟩

/-- what `map_dma` has found by the time it installs -/
structure Maps (C : Config) (s : KState) (who domain region di ri first rec_ : ℕ) : Prop where
  lookup : domainLookup C domain = some di
  published : Published C di
  index : s.regionIndex region = some ri
  pages : 0 < (s.regions ri).frames.length
  window : DMA_IOVA_FIRST_SLOT ≤ first ∧ first + (s.regions ri).frames.length ≤ 512
  absent : ∀ j < (s.regions ri).frames.length, ¬Present C s di (first + j)
  slot : firstIdx SHARE_SLOTS (fun i => ((s.procs who).dma i).1 == 0) = some rec_

/-- `map_dma` refuses before it has done anything, or comes to its install loop -/
theorem mapDma_cases (hC : DomainsOk C) (who domain region : ℕ) (rights : CapRights) (s : KState) :
    ((mapDma C who domain region rights s).1 = syserr.NO_MEM ∨ (mapDma C who domain region rights s).1 = syserr.NO_CAP) ∧
      (mapDma C who domain region rights s).2 = s ∨
    ∃ di ri first rec_, Maps C s who domain region di ri first rec_ ∧
      mapDma C who domain region rights s =
        match installDma C di ri first rights (s.regions ri).frames.length 0 s with
        | (false, s) => (syserr.NO_CAP, s)
        | (true, s) => (first * PAGE_SIZE, s.modProc who fun p => { p with dma := p.dma.put rec_ (region, domain) }) := by
  rw [mapDma]
  split_ifs with hno
  · exact Or.inl ⟨Or.inl rfl, rfl⟩
  cases hd : domainLookup C domain with
  | none => exact Or.inl ⟨Or.inr rfl, rfl⟩
  | some di =>
    have hpub := published_of_lookup hC hd
    simp only [if_neg hpub.2]
    cases hi : s.regionIndex region with
    | none => exact Or.inl ⟨Or.inr rfl, rfl⟩
    | some ri =>
      simp only
      cases hrun : findRun (s.leafAt C di) (s.regions ri).frames.length DMA_IOVA_SLOTS DMA_IOVA_FIRST_SLOT 0 with
      | none => exact Or.inl ⟨Or.inl rfl, rfl⟩
      | some first =>
        simp only
        cases hrec : firstIdx SHARE_SLOTS fun i => ((s.procs who).dma i).1 == 0 with
        | none => exact Or.inl ⟨Or.inl rfl, rfl⟩
        | some rec_ =>
          have hpos : 0 < (s.regions ri).frames.length := by
            by_contra hz
            rw [Nat.eq_zero_of_not_pos hz] at hrun
            exact findRun_zero _ _ _ _ _ hrun
          obtain ⟨h1, h2, h3⟩ := findRun_some hpos (Nat.zero_le _) (fun i h1 h2 => absurd h2 (by omega)) hrun
          refine Or.inr ⟨di, ri, first, rec_, ⟨hd, hpub, hi, hpos, ⟨h1, h2⟩, fun j hj hp => ?_, hrec⟩, rfl⟩
          have habs := h3 (first + j) (Nat.le_add_right _ _) (by omega)
          rw [Present, KState.leafAt] at hp
          rw [KState.leafAt] at habs
          exact absurd (hp.symm.trans habs) (by decide)

section Call

variable {domain region di ri first rec_ : ℕ} {rights : CapRights} {f : UserFrame}

/-- a page of a region is a page of no other -/
theorem page_of_one (ha : Accounted F s) {i j f g : ℕ} (hi : i < MAX_REGIONS) (hj : j < MAX_REGIONS)
    (hf : f ∈ (s.regions i).frames)
    (hg : g ∈ (s.regions j).frames) (he : f / PAGE_SIZE = g / PAGE_SIZE) : i = j := by
  obtain ⟨-, -, h1, -⟩ := ha.out (Accounted.region_held hi hf)
  obtain ⟨-, -, h2, -⟩ := ha.out (Accounted.region_held hj hg)
  have hfg : f = g := by
    simp only [PAGE_SIZE] at h1 h2 he
    omega
  by_contra hne
  exact ha.regions_apart hi hj hne hf (hfg ▸ hg)

theorem frame_mem {fs : List ℕ} {j : ℕ} (h : j < fs.length) : fs.getD j 0 ∈ fs := by
  rw [List.getD_eq_getElem?_getD, List.getElem?_eq_getElem h]
  exact List.getElem_mem h

/-- **Who maps a region again** has the capability it is mapped with already, so the rights are the same. -/
theorem Reaching.fits (h : Reaching A C s) (ha : Accounted F s) (hme : s.Alive me)
    (hcaps : dmaCaps A (s.procs me).caps f = some (domain, region, rights))
    (hm : Kernel.Maps C s me domain region di ri first rec_) : Fits C di ri first rights s := by
  obtain ⟨hri, hlive, hid⟩ := regionIndex_some hm.index
  obtain ⟨⟨y, r, hy, -⟩, j₀, hj₀, -⟩ := dmaCaps_some hcaps
  have hmine : MapsWith s me j₀ (s.regions ri).id rights := ⟨hme, ⟨y, _, hy, rfl⟩, by rw [hid]; exact hj₀⟩
  refine ⟨h.inStep, h.used, hm.published, hm.window, fun j hj => ?_, hm.absent, fun j hj x r hx => ?_⟩
  · obtain ⟨-, -, hal, hlt⟩ := ha.out (Accounted.region_held hri (frame_mem hj))
    exact ⟨hal, hlt⟩
  · obtain ⟨-, p, x', i, y', hc⟩ := h.claimed di hm.published.1 x _ r hx
    obtain ⟨g, hg, hpage⟩ := hc.page
    obtain rfl := page_of_one ha hri hc.lt (frame_mem hj) hg hpage
    obtain ⟨rfl, rfl⟩ := h.one _ _ _ _ _ _ _ hc.holder hmine
    have hsame := hc.holder.region.symm.trans hmine.region
    exact congrArg Capabilities.CapSlot.rights (Option.some.inj hsame)

/-- a record is written -/
theorem Installing.record {n : ℕ} (h : Installing C di ri first rights n s t) (who : ℕ) (g : Process → Process) :
    Installing C di ri first rights n s (t.modProc who g) :=
  ⟨⟨h.inStep.ok, h.inStep.small, fun di hdi slot hlo hhi =>
      ⟨(h.inStep.matched di hdi slot hlo hhi).entry, (h.inStep.matched di hdi slot hlo hhi).absent⟩⟩,
    ⟨h.inDomain.regions, h.inDomain.others⟩, h.done, h.rest, h.granted, h.ungranted⟩

/-- **`map_dma`**: every page of the region is translated with the rights of the capability, or no domain grants or translates
anything it did not. -/
theorem Reaching.mapDma_outcome (h : Reaching A C s) (hC : DomainsOk C) (ha : Accounted F s) (hme : s.Alive me)
    (hcaps : dmaCaps A (s.procs me).caps f = some (domain, region, rights)) :
    ((mapDma C me domain region rights s).1 = syserr.NO_MEM ∨ (mapDma C me domain region rights s).1 = syserr.NO_CAP) ∧
      InStep C (mapDma C me domain region rights s).2 ∧
      (∀ dj, ((mapDma C me domain region rights s).2.domains dj).reach = (s.domains dj).reach) ∧
      (mapDma C me domain region rights s).2.procs = s.procs ∨
    ∃ di ri first rec_, Kernel.Maps C s me domain region di ri first rec_ ∧
      (mapDma C me domain region rights s).1 = first * PAGE_SIZE ∧
      Installing C di ri first rights (s.regions ri).frames.length s (mapDma C me domain region rights s).2 ∧
      (mapDma C me domain region rights s).2.procs =
        s.procs.put me { s.procs me with dma := (s.procs me).dma.put rec_ (region, domain) } := by
  rcases mapDma_cases hC me domain region rights s with ⟨herr, hsame⟩ | ⟨di, ri, first, rec_, hm, hrun⟩
  · rw [hsame]
    exact Or.inl ⟨herr, h.inStep, fun _ => rfl, rfl⟩
  have hf := h.fits ha hme hcaps hm
  obtain ⟨hok, hfail⟩ := hf.installDma hC _ 0 (Nat.zero_add _) hf.start
  have hprocs := (installDma_spec hC hm.published ri first rights (s.regions ri).frames.length 0 (Nat.zero_add _) s).1.procs
  rcases hi : Kernel.installDma C di ri first rights (s.regions ri).frames.length 0 s with ⟨_ | _, v⟩
  · rw [hi] at hfail hrun hprocs
    obtain ⟨h1, h2⟩ := hfail rfl
    rw [hrun]
    exact Or.inl ⟨Or.inr rfl, h1, h2, hprocs⟩
  · rw [hi] at hok hrun hprocs
    simp only at hrun hprocs
    have hin : Installing C di ri first rights (s.regions ri).frames.length s v := hok rfl
    rw [hrun]
    refine Or.inr ⟨di, ri, first, rec_, hm, rfl, hin.record me fun p => { p with dma := p.dma.put rec_ (region, domain) }, ?_⟩
    rw [KState.modProc_procs, hprocs]

/-- a DMA path that leaves a claim's record leaves the claim -/
theorem Claim.kept {dj g p x i j : ℕ} {r : CapRights} (h : Claim C s dj g r p x i j) (hd : DmaOnly C s t)
    (hrec : (t.procs p).dma x = (s.procs p).dma x) : Claim C t dj g r p x i j := by
  obtain ⟨hp, ⟨y, b, hb, hty⟩, hreg⟩ := h.holder
  refine ⟨h.slot, ?_, h.lt, by rw [hd.regions]; exact h.live, by rw [hd.regions]; exact h.page,
    ⟨hd.alive.2 hp, ⟨y, b, by rw [Process.caps_eq (hd.authority p)]; exact hb, hty⟩, ?_⟩⟩
  · rw [hrec, hd.regions]
    exact h.record
  · rw [Process.caps_eq (hd.authority p), hd.regions]
    exact hreg

/-- a call that was refused -/
theorem Reaching.refused (h : Reaching A C s) (hd : DmaOnly C s t) (hin : InStep C t)
    (hreach : ∀ dj, (t.domains dj).reach = (s.domains dj).reach) (hprocs : t.procs = s.procs) (hone : OneHolder t) :
    Reaching A C t := by
  have hmap : ∀ dj x, (t.domains dj).mapped x = (s.domains dj).mapped x := fun dj x =>
    congrFun (congrArg Iommu.Reach.maps (hreach dj)) x
  have hgr : ∀ dj g, (t.domains dj).granted g = (s.domains dj).granted g := fun dj g =>
    congrFun (congrArg Iommu.Reach.grants (hreach dj)) g
  refine ⟨hin, fun dj hdj g r hg => ?_, fun dj hdj x m hm => h.window dj hdj x m ((hmap dj x) ▸ hm), fun dj hdj x g r hm => ?_,
    fun p hp x hx h0 => ?_, hone⟩
  · rw [hgr] at hg
    obtain ⟨x, hx⟩ := h.used dj hdj g r hg
    exact ⟨x, (hmap dj x).trans hx⟩
  · rw [hmap] at hm
    obtain ⟨hio, p, x', i, j, hc⟩ := h.claimed dj hdj x g r hm
    exact ⟨hio, p, x', i, j, hc.kept hd (by rw [hprocs])⟩
  · rw [hprocs] at h0 ⊢
    exact h.held p (hd.alive.1 hp) x hx h0

/-- a call that mapped the region -/
theorem Reaching.installed (h : Reaching A C s) (ha : Accounted F s) (hids : RegionIds s) (hio : A.iommu = true)
    (hme : s.Alive me) (hcaps : dmaCaps A (s.procs me).caps f = some (domain, region, rights))
    (hm : Kernel.Maps C s me domain region di ri first rec_) (hd : DmaOnly C s t)
    (hin : Installing C di ri first rights (s.regions ri).frames.length s t)
    (hprocs : t.procs = s.procs.put me { s.procs me with dma := (s.procs me).dma.put rec_ (region, domain) })
    (hone : OneHolder t) : Reaching A C t := by
  obtain ⟨hri, hlive, hid⟩ := regionIndex_some hm.index
  obtain ⟨⟨y, r₀, hy, hyw⟩, j₀, hj₀, hjr⟩ := dmaCaps_some hcaps
  obtain ⟨hslot, hfree, -⟩ := firstIdx_some hm.slot
  rw [beq_iff_eq] at hfree
  have hfits := h.fits ha hme hcaps hm
  -- the other records stay, and the new one names the region and the domain
  have hsame : ∀ q z, ¬(q = me ∧ z = rec_) → (t.procs q).dma z = (s.procs q).dma z := by
    intro q z hn
    rw [hprocs, Table.put_apply]
    split_ifs with hq
    · subst hq
      exact Table.put_of_ne _ (fun he => hn ⟨rfl, he⟩) _
    · rfl
  have hnew : (t.procs me).dma rec_ = (region, domain) := by
    rw [hprocs, Table.put_self]
    exact Table.put_self _ _ _
  have hclaim : ∀ {dj g r p x i j}, Claim C s dj g r p x i j → Claim C t dj g r p x i j := by
    intro dj g r p x i j hc
    refine hc.kept hd (hsame p x ?_)
    rintro ⟨rfl, rfl⟩
    rw [hc.record] at hfree
    exact hids.pos i hc.lt hc.live hfree
  -- a translation of the domain is one of the new ones, or one it had
  have hcase : ∀ x m, (t.domains di).mapped x = some m →
      (∃ j < (s.regions ri).frames.length, x = (first + j) * PAGE_SIZE ∧ m = (s.pageOf ri j, rights)) ∨
        (s.domains di).mapped x = some m := by
    intro x m hx
    by_cases hpage : ∃ j < (s.regions ri).frames.length, x = (first + j) * PAGE_SIZE
    · obtain ⟨j, hj, rfl⟩ := hpage
      rw [hin.done j hj] at hx
      exact Or.inl ⟨j, hj, rfl, (Option.some.inj hx).symm⟩
    · push Not at hpage
      rw [hin.rest x hpage] at hx
      exact Or.inr hx
  refine ⟨hin.inStep, fun dj hdj g r hg => ?_, fun dj hdj x m hmx => ?_, fun dj hdj x g r hmx => ?_, fun p hp x hx h0 => ?_, hone⟩
  · by_cases hdd : dj = di
    case neg =>
      rw [hin.inDomain.others dj hdd] at hg ⊢
      exact h.used dj hdj g r hg
    subst hdd
    by_cases hpage : ∃ j < (s.regions ri).frames.length, s.pageOf ri j = g
    · obtain ⟨j, hj, rfl⟩ := hpage
      rw [hin.granted j hj] at hg
      rw [← Option.some.inj hg]
      exact ⟨_, hin.done j hj⟩
    · push Not at hpage
      rw [hin.ungranted g hpage] at hg
      obtain ⟨x, hx⟩ := h.used dj hdj g r hg
      refine ⟨x, (hin.rest x fun j hj he => ?_).trans hx⟩
      rw [he, hfits.unmapped hj] at hx
      exact absurd hx (by simp)
  · by_cases hdd : dj = di
    case neg =>
      rw [hin.inDomain.others dj hdd] at hmx
      exact h.window dj hdj x m hmx
    subst hdd
    rcases hcase x m hmx with ⟨j, hj, rfl, -⟩ | hold
    · obtain ⟨h1, h2⟩ := hm.window
      exact ⟨hm.published, first + j, by omega, by omega, rfl⟩
    · exact h.window dj hdj x m hold
  · have hold : (s.domains dj).mapped x = some (g, r) → A.iommu = true ∧ ∃ p k i j, Claim C t dj g r p k i j := by
      intro hx
      obtain ⟨-, p, x', i, j, hc⟩ := h.claimed dj hdj x g r hx
      exact ⟨hio, p, x', i, j, hclaim hc⟩
    by_cases hdd : dj = di
    case neg =>
      rw [hin.inDomain.others dj hdd] at hmx
      exact hold hmx
    subst hdd
    rcases hcase x _ hmx with ⟨j, hj, rfl, he⟩ | hx
    · obtain ⟨rfl, rfl⟩ := Prod.mk.inj he
      refine ⟨hio, me, rec_, ri, j₀, hslot, ?_, hri, by rw [hd.regions]; exact hlive, ?_, hd.alive.2 hme,
        ⟨y, ⟨.iommuDomain, r₀, domain⟩, ?_, rfl⟩, ?_⟩
      · rw [hnew, hd.regions, hid, (domainLookup_lt C hm.lookup).2.2]
      · rw [hd.regions]
        exact ⟨_, frame_mem hj, rfl⟩
      · rw [Process.caps_eq (hd.authority me)]
        exact hy
      · rw [Process.caps_eq (hd.authority me), hd.regions, hid]
        exact hj₀
    · exact hold hx
  · rw [Process.caps_eq (hd.authority p)]
    by_cases hpx : p = me ∧ x = rec_
    · obtain ⟨rfl, rfl⟩ := hpx
      rw [hnew]
      exact ⟨hio, keepsDma_iff.2 ⟨⟨j₀, rights, hj₀, hjr⟩, y, r₀, hy, hyw⟩⟩
    · rw [hsame p x hpx] at h0 ⊢
      exact h.held p (hd.alive.1 hp) x hx h0

/-- a call to `MAP_DMA` keeps everything mapped covered -/
theorem Reaching.mapDma (h : Reaching A C s) (hC : DomainsOk C) (ha : Accounted F s) (hids : RegionIds s) (hio : A.iommu = true)
    (hme : s.Alive me) (hcaps : dmaCaps A (s.procs me).caps f = some (domain, region, rights))
    (hone : OneHolder (mapDma C me domain region rights s).2) : Reaching A C (mapDma C me domain region rights s).2 := by
  have hd := dmaOnly_mapDma (C := C) me domain region rights s
  rcases h.mapDma_outcome hC ha hme hcaps with ⟨-, hin, hreach, hprocs⟩ | ⟨di, ri, first, rec_, hm, -, hin, hprocs⟩
  · exact h.refused hd hin hreach hprocs hone
  · exact h.installed ha hids hio hme hcaps hm hd hin hprocs hone

end Call

/-! ## Every reachable state -/

/-- **What devices reach stays covered**, whatever the move. -/
theorem Reaching.move (h : Reaching A C s) (hs : Sound A C F m₀ s) (hC : DomainsApart A C) (hin : Loader.Inside A C.userElf)
    (hgrants : ∀ role, ∀ g ∈ grantsFor C role, g.1 ≠ .region) (hg : Ground A C F m₀) (hm : Move A C G me k s t) :
    Reaching A C t := by
  have hone : OneHolder t := h.one.move (fun _ hb => granted_not_region hgrants hb) hs.ids hs.named hm
  cases hm.unit hs hC hin hg with
  | idle ht _ => exact h.idle hs.ids ht hone
  | mapDma hme hio hcaps _ ht =>
    subst ht
    exact h.mapDma hC.toDomainsOk hs.accounted hs.ids hio hme hcaps hone
  | unmapDma _ hrun => exact h.unmapDma hs.ids hC.toDomainsOk hrun hone
  | withdrawAll _ hrun => exact h.withdrawAll hs.ids hC.toDomainsOk hrun hone
  | retire hsl hrun => exact h.retire hs.ids hC.toDomainsOk hsl hrun
  | revoke hrun => exact h.revoke hs.ids (hs.laid hC.toDomainsOk hg) hrun hone

theorem PreUserland.reaching {s₀ : KState} (h₀ : PreUserland A C s₀) : Reaching A C s₀ := by
  have hd : ∀ di, Ok (s₀.domains di) ∧ (s₀.domains di).reach = Iommu.Reach.empty := fun di =>
    ok_dead (h₀.noGrants di).1 (h₀.noGrants di).2
  have hmap : ∀ di x m, (s₀.domains di).mapped x ≠ some m := fun di x m hm => by
    have he := congrFun (congrArg Iommu.Reach.maps (hd di).2) x
    exact absurd (hm.symm.trans he) (by simp [Iommu.Reach.empty])
  have hgr : ∀ di f r, (s₀.domains di).granted f ≠ some r := fun di f r hg => by
    have he := congrFun (congrArg Iommu.Reach.grants (hd di).2) f
    exact absurd (hg.symm.trans he) (by simp [Iommu.Reach.empty])
  have hdead : ∀ p, ¬s₀.Alive p := fun p hp => by
    have hl := hp.2
    rw [KState.live, h₀.noProcs] at hl
    exact absurd hl (by decide)
  refine ⟨⟨fun di _ => (hd di).1, fun di _ x f r hm => absurd hm (hmap di x _), fun di hdi slot hlo hhi =>
      ⟨fun f r hm => absurd hm (hmap di _ _), fun _ hp => ?_⟩⟩, fun di _ f r hg => absurd hg (hgr di f r),
    fun di _ x m hm => absurd hm (hmap di x m), fun di _ x f r hm => absurd hm (hmap di x _),
    fun p hp => absurd hp (hdead p), fun _ p _ _ _ _ _ hp => absurd hp.alive (hdead p)⟩
  have := (h₀.window di hdi.1 hdi.2 slot hhi hp).1
  omega

end Rustproof.Kernel
