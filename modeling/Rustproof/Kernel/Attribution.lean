/-
Whose DMA mapping is whose.

A run of DMA calls keeps a log: every `MAP_DMA` that succeeded (`Mapped`), for as long as the entries it installed stand.
`Attributed` says that the records in the processes' `dma` tables are the log. It is not what the kernel keeps: mappings are
recorded per process, but withdrawn by region and domain, so one process's withdrawal takes the reach of every other that
mapped the same region for the same device, and leaves their records.
- `withdrawal_takes_anothers`: two holders of one region.
- `attribution_iff`: a call keeps the records right, and leaves the mappings of others, exactly when what it withdraws is
recorded by nobody else and, for a single slot, in no second slot.
-/
import Rustproof.Kernel.Handlers
import Rustproof.Kernel.IoTables

namespace Rustproof.Kernel

open Lib Prog RadixTree CapRights

/-! ## Calls and their log -/

/-- a `MAP_DMA` call that succeeded: whose it was, the record it took, and the pages it installed from entry `first` on -/
structure Mapped where
  who : ℕ
  record : ℕ
  region : ℕ
  domain : ℕ
  first : ℕ
  pages : List ℕ
deriving DecidableEq, Repr

/-- every entry the call installed still lets the device in to the page it was installed for -/
def Mapped.stands (C : Config) (s : KState) (m : Mapped) : Bool :=
  (domainLookup C m.domain).elim false fun di => (List.range m.pages.length).all fun j =>
    iopte.present (s.leafAt C di (m.first + j)) &&
      iopte.frame (s.leafAt C di (m.first + j)) == m.pages.getD j 0 / PAGE_SIZE

inductive DmaCall where
  | map (who domain region : ℕ) (rights : CapRights)
  | unmap (who domain region : ℕ)
  | withdrawSlot (who slot : ℕ)
  | withdrawAll (who : ℕ)
  | release (region : ℕ)
deriving DecidableEq, Repr

namespace DmaCall

variable (C : Config)

/-- the call, made by or for a live process, takes the kernel from `s` to `t` -/
def Does : DmaCall → KState → KState → Prop
  | map who domain region rights, s, t => s.Alive who ∧ (mapDma C who domain region rights s).2 = t
  | unmap who domain region, s, t => s.Alive who ∧ ∃ v, unmapDma C who domain region s = .ok (v, t)
  | withdrawSlot who slot, s, t => s.Alive who ∧ slot < SHARE_SLOTS ∧ (withdrawDmaSlot C who slot s).2 = t
  | withdrawAll who, s, t => s.Alive who ∧ withdrawAllDmaOf C who s = .ok ((), t)
  | release region, s, t => releaseRegion X86 C region s = .ok ((), t)

/-- what a call adds to the log: a `map` that returned an address -/
def logs (s : KState) : DmaCall → List Mapped
  | map who domain region rights =>
    let v := (mapDma C who domain region rights s).1
    if v = syserr.NO_MEM ∨ v = syserr.NO_CAP then []
    else
      [⟨who, (firstIdx SHARE_SLOTS fun i => ((s.procs who).dma i).1 == 0).getD 0, region, domain, v / PAGE_SIZE,
        (s.regionIndex region).elim [] fun ri => (s.regions ri).frames⟩]
  | _ => []

/-- on whose behalf the call withdraws -/
def withdraws : DmaCall → Option ℕ
  | unmap who _ _ | withdrawSlot who _ | withdrawAll who => some who
  | _ => none

/-- nobody else has a record of what the call withdraws, and the caller no second one that would be left -/
def Exclusive (s : KState) : DmaCall → Prop
  | map .. => True
  | unmap who domain region => region ≠ 0 → ∀ p, s.Alive p → p ≠ who → ∀ k < SHARE_SLOTS, (s.procs p).dma k ≠ (region, domain)
  | withdrawSlot who slot => ((s.procs who).dma slot).1 ≠ 0 → ∀ p, s.Alive p → ∀ k < SHARE_SLOTS, ¬ (p = who ∧ k = slot) →
      (s.procs p).dma k ≠ (s.procs who).dma slot
  | withdrawAll who => ∀ slot < SHARE_SLOTS, ((s.procs who).dma slot).1 ≠ 0 → ∀ p, s.Alive p → p ≠ who →
      ∀ k < SHARE_SLOTS, (s.procs p).dma k ≠ (s.procs who).dma slot
  | release _ => True

end DmaCall

/-- where the calls start: live regions with pages of their own, and nothing recorded -/
structure DmaStart (C : Config) (s : KState) : Prop where
  domainsOk : DomainsOk C
  ids : ∀ i < MAX_REGIONS, (s.regions i).live = true → (s.regions i).id ≠ 0 ∧
    ∀ j < MAX_REGIONS, (s.regions j).live = true → (s.regions j).id = (s.regions i).id → j = i
  frames : ∀ i < MAX_REGIONS, (s.regions i).live = true → ∀ f ∈ (s.regions i).frames, f % PAGE_SIZE = 0 ∧ f < 2 ^ 52 ∧
    ∀ j < MAX_REGIONS, (s.regions j).live = true → f ∈ (s.regions j).frames → j = i
  records : ∀ p, s.Alive p → ∀ k < SHARE_SLOTS, ((s.procs p).dma k).1 = 0

/-- a run of DMA calls, all of which `ok` admits, with the log of the mappings that stand -/
inductive DmaRun (C : Config) (ok : KState → DmaCall → Prop) : KState → List Mapped → Prop where
  | start {s : KState} : DmaStart C s → DmaRun C ok s []
  | call {s t : KState} {log : List Mapped} {c : DmaCall} : DmaRun C ok s log → ok s c → c.Does C s t →
      DmaRun C ok t (log.filter (·.stands C t) ++ c.logs C s)

/-- the records of the live processes are those of the mappings that stand -/
def Attributed (s : KState) (log : List Mapped) : Prop :=
  ∀ p, s.Alive p → ∀ k < SHARE_SLOTS, ∀ region domain, region ≠ 0 →
    ((s.procs p).dma k = (region, domain) ↔ ∃ m ∈ log, m.who = p ∧ m.record = k ∧ m.region = region ∧ m.domain = domain)

/-- what the call withdraws leaves every mapping another live process has a record of -/
def DmaCall.Spares (C : Config) (c : DmaCall) (s : KState) (log : List Mapped) (t : KState) : Prop :=
  ∀ who, c.withdraws = some who → ∀ m ∈ log, m.who ≠ who → s.Alive m.who →
    (s.procs m.who).dma m.record = (m.region, m.domain) → m.stands C t = true

/-! ## The invariant -/

variable {C : Config} {s t : KState} {log : List Mapped}

/-- what a mapping of the log rests on -/
structure Mapped.Grounded (C : Config) (s : KState) (m : Mapped) (di ri : ℕ) : Prop where
  alive : s.Alive m.who
  record : m.record < SHARE_SLOTS
  region : m.region ≠ 0
  lookup : domainLookup C m.domain = some di
  published : Published C di
  index : s.regionIndex m.region = some ri
  pages : m.pages = (s.regions ri).frames
  some_page : 0 < m.pages.length
  window : m.first + m.pages.length ≤ 512
  leaf : ∀ j < m.pages.length, Present C s di (m.first + j) ∧
    iopte.frame (s.leafAt C di (m.first + j)) = m.pages.getD j 0 / PAGE_SIZE

structure Logged (C : Config) (s : KState) (log : List Mapped) : Prop where
  domainsOk : DomainsOk C
  ids : ∀ i < MAX_REGIONS, (s.regions i).live = true → (s.regions i).id ≠ 0 ∧
    ∀ j < MAX_REGIONS, (s.regions j).live = true → (s.regions j).id = (s.regions i).id → j = i
  frames : ∀ i < MAX_REGIONS, (s.regions i).live = true → ∀ f ∈ (s.regions i).frames, f % PAGE_SIZE = 0 ∧ f < 2 ^ 52 ∧
    ∀ j < MAX_REGIONS, (s.regions j).live = true → f ∈ (s.regions j).frames → j = i
  grounded : ∀ m ∈ log, ∃ di ri, m.Grounded C s di ri
  attributed : Attributed s log

theorem Mapped.stands_iff {m : Mapped} {di : ℕ} (hd : domainLookup C m.domain = some di) :
    m.stands C s = true ↔ ∀ j < m.pages.length, Present C s di (m.first + j) ∧
      iopte.frame (s.leafAt C di (m.first + j)) = m.pages.getD j 0 / PAGE_SIZE := by
  rw [Mapped.stands, hd]
  simp [Present]

theorem DmaStart.logged (h : DmaStart C s) : Logged C s [] := by
  refine ⟨h.domainsOk, h.ids, h.frames, fun m hm => absurd hm List.not_mem_nil, fun p hp k hk region domain hr => ?_⟩
  refine ⟨fun he => absurd (h.records p hp k hk) ?_, fun ⟨m, hm, _⟩ => absurd hm List.not_mem_nil⟩
  rw [he]; exact hr

namespace Logged

/-- a page of one region is no page of another -/
theorem page_inj (h : Logged C s log) {i j f g : ℕ} (hi : i < MAX_REGIONS) (hj : j < MAX_REGIONS)
    (hli : (s.regions i).live = true) (hlj : (s.regions j).live = true) (hf : f ∈ (s.regions i).frames)
    (hg : g ∈ (s.regions j).frames) (he : f / PAGE_SIZE = g / PAGE_SIZE) : i = j := by
  obtain ⟨h1, -, -⟩ := h.frames i hi hli f hf
  obtain ⟨h2, -, h3⟩ := h.frames j hj hlj g hg
  have hfg : f = g := by
    simp only [PAGE_SIZE] at h1 h2 he
    omega
  exact h3 i hi hli (hfg ▸ hf)

end Logged

/-- the pages of the regions that `W` selects for a domain, as a sweep -/
def Withdrawn (C : Config) (s : KState) (W : ℕ → ℕ → Prop) (di pfn : ℕ) : Prop :=
  ∃ region domain ri, W region domain ∧ domainLookup C domain = some di ∧ s.regionIndex region = some ri ∧
    ∃ f ∈ (s.regions ri).frames, pfn = f / PAGE_SIZE

/-- a mapping falls exactly when its region is withdrawn from its domain -/
theorem Logged.stands_swept (h : Logged C s log) {W : ℕ → ℕ → Prop} (hsw : Swept C (Withdrawn C s W) s t) {m : Mapped}
    (hm : m ∈ log) : m.stands C t = true ↔ ¬ W m.region m.domain := by
  obtain ⟨di, ri, hg⟩ := h.grounded m hm
  obtain ⟨hri, hlive, hid⟩ := regionIndex_some hg.index
  have hmem : ∀ j < m.pages.length, m.pages.getD j 0 ∈ (s.regions ri).frames := by
    intro j hj
    rw [hg.pages] at hj ⊢
    rw [List.getD_eq_getElem?_getD, List.getElem?_eq_getElem hj]
    exact List.getElem_mem hj
  rw [Mapped.stands_iff hg.lookup]
  constructor
  · intro hst hW
    obtain ⟨hp, hf⟩ := hg.leaf 0 hg.some_page
    have h0 := hsw.cut di hg.published (m.first + 0) (by have := hg.window; have := hg.some_page; omega) hp
      ⟨m.region, m.domain, ri, hW, hg.lookup, hg.index, _, hmem 0 hg.some_page, hf⟩
    have hpt := (hst 0 hg.some_page).1
    rw [Present, h0, iopte.not_present_zero] at hpt
    exact absurd hpt (by decide)
  · intro hW j hj
    obtain ⟨hp, hf⟩ := hg.leaf j hj
    have hkeep := hsw.keep di hg.published (m.first + j) (by have := hg.window; omega) ?_
    · rw [Present, hkeep]; exact ⟨hp, hf⟩
    · -- the entry names a page of this region alone, so only this region's withdrawal from this domain clears it
      rintro ⟨-, region, domain, ri', hW', hl, hi, f, hfm, hpf⟩
      obtain ⟨hri', hlive', hid'⟩ := regionIndex_some hi
      have hrr : ri = ri' := h.page_inj hri hri' hlive hlive' (hmem j hj) hfm (hf.symm.trans hpf)
      have hregion : region = m.region := by rw [← hid', ← hrr, hid]
      have hdomain : domain = m.domain := by rw [← (domainLookup_lt C hl).2.2, ← (domainLookup_lt C hg.lookup).2.2]
      exact hW (hregion ▸ hdomain ▸ hW')

/-- a step that withdraws the mappings `W` and drops the records `D` -/
structure Withdrawal (C : Config) (W D : ℕ → ℕ → Prop) (s t : KState) : Prop where
  swept : Swept C (Withdrawn C s W) s t
  regions : t.regions = s.regions
  live : ∀ p, t.live p = s.live p
  records : ∀ p k region domain, region ≠ 0 →
    ((t.procs p).dma k = (region, domain) ↔ (s.procs p).dma k = (region, domain) ∧ ¬ D p k)

namespace Withdrawal

variable {u : KState} {W W' D D' : ℕ → ℕ → Prop}

theorem refl (s : KState) : Withdrawal C (fun _ _ => False) (fun _ _ => False) s s := by
  refine ⟨(Swept.refl s).congr fun di _ f => ⟨False.elim, ?_⟩, rfl, fun _ => rfl, fun _ _ _ _ _ => by simp⟩
  rintro ⟨_, _, _, h, -⟩
  exact h

theorem congr (h : Withdrawal C W D s t)
    (hW : ∀ region domain di ri, domainLookup C domain = some di → s.regionIndex region = some ri →
      (W region domain ↔ W' region domain))
    (hD : ∀ p k, ((s.procs p).dma k).1 ≠ 0 → (D p k ↔ D' p k)) : Withdrawal C W' D' s t := by
  refine ⟨h.swept.congr fun di _ f => ?_, h.regions, h.live, fun p k region domain hr => ?_⟩
  · constructor
    · rintro ⟨region, domain, ri, hw, hl, hi, hf⟩
      exact ⟨region, domain, ri, (hW _ _ _ _ hl hi).1 hw, hl, hi, hf⟩
    · rintro ⟨region, domain, ri, hw, hl, hi, hf⟩
      exact ⟨region, domain, ri, (hW _ _ _ _ hl hi).2 hw, hl, hi, hf⟩
  · rw [h.records p k region domain hr]
    refine and_congr_right fun he => not_congr (hD p k ?_)
    rw [he]; exact hr

theorem trans (h : Withdrawal C W D s t) (h' : Withdrawal C W' D' t u) :
    Withdrawal C (fun r d => W r d ∨ W' r d) (fun p k => D p k ∨ D' p k) s u := by
  have hidx : ∀ id, t.regionIndex id = s.regionIndex id := fun id => by rw [KState.regionIndex, h.regions]; rfl
  refine ⟨(h.swept.trans h'.swept).congr fun di _ f => ?_, h'.regions.trans h.regions,
    fun p => (h'.live p).trans (h.live p), fun p k region domain hr => ?_⟩
  · simp only [Withdrawn, hidx, h.regions]
    constructor
    · rintro (⟨r, d, ri, hw, hrest⟩ | ⟨r, d, ri, hw, hrest⟩)
      · exact ⟨r, d, ri, Or.inl hw, hrest⟩
      · exact ⟨r, d, ri, Or.inr hw, hrest⟩
    · rintro ⟨r, d, ri, hw | hw, hrest⟩
      · exact Or.inl ⟨r, d, ri, hw, hrest⟩
      · exact Or.inr ⟨r, d, ri, hw, hrest⟩
  · rw [h'.records p k region domain hr, h.records p k region domain hr]
    tauto

/-- the ring afterwards -/
theorem ring (h : Withdrawal C W D s t) (hC : DomainsOk C) (hr : RingOnly C t u) : Withdrawal C W D s u := by
  refine ⟨(h.swept.trans (hr.swept hC)).congr fun _ _ _ => by simp, hr.regions.trans h.regions,
    fun p => ?_, fun p k region domain hne => ?_⟩
  · rw [KState.live, hr.procs]; exact h.live p
  · rw [hr.procs]; exact h.records p k region domain hne

theorem alive (h : Withdrawal C W D s t) (p : ℕ) : t.Alive p ↔ s.Alive p := by
  rw [KState.Alive, KState.Alive, h.live]

/-- **A withdrawal** that drops the records of what it withdraws keeps the log right. -/
theorem logged (hw : Withdrawal C W D s t) (h : Logged C s log)
    (hWD : ∀ p, s.Alive p → ∀ k < SHARE_SLOTS, ((s.procs p).dma k).1 ≠ 0 →
      (D p k ↔ W ((s.procs p).dma k).1 ((s.procs p).dma k).2)) : Logged C t (log.filter (·.stands C t)) := by
  have hin : ∀ m, m ∈ log.filter (·.stands C t) ↔ m ∈ log ∧ ¬ W m.region m.domain := by
    intro m
    rw [List.mem_filter]
    exact and_congr_right fun hm => h.stands_swept hw.swept hm
  refine ⟨h.domainsOk, by rw [hw.regions]; exact h.ids, by rw [hw.regions]; exact h.frames, fun m hm => ?_,
    fun p hp k hk region domain hr => ?_⟩
  · obtain ⟨hlog, hst⟩ := List.mem_filter.1 hm
    obtain ⟨di, ri, hg⟩ := h.grounded m hlog
    exact ⟨di, ri, (hw.alive _).2 hg.alive, hg.record, hg.region, hg.lookup, hg.published,
      by rw [KState.regionIndex, hw.regions]; exact hg.index, by rw [hw.regions]; exact hg.pages, hg.some_page, hg.window,
      (Mapped.stands_iff hg.lookup).1 hst⟩
  · have hp' := (hw.alive p).1 hp
    have hdrop : (s.procs p).dma k = (region, domain) → (D p k ↔ W region domain) := by
      intro he
      have := hWD p hp' k hk
      rw [he] at this
      exact this hr
    rw [hw.records p k region domain hr]
    constructor
    · rintro ⟨he, hD⟩
      obtain ⟨m, hm, rfl, rfl, rfl, rfl⟩ := (h.attributed p hp' k hk region domain hr).1 he
      exact ⟨m, (hin m).2 ⟨hm, fun hW => hD ((hdrop he).2 hW)⟩, rfl, rfl, rfl, rfl⟩
    · rintro ⟨m, hm, rfl, rfl, rfl, rfl⟩
      obtain ⟨hlog, hW⟩ := (hin m).1 hm
      have he := (h.attributed m.who hp' m.record hk m.region m.domain hr).2 ⟨m, hlog, rfl, rfl, rfl, rfl⟩
      exact ⟨he, fun hD => hW ((hdrop he).1 hD)⟩

/-- a withdrawal spares what it does not select -/
theorem spares (hw : Withdrawal C W D s t) (h : Logged C s log) {m : Mapped} (hm : m ∈ log)
    (hW : ¬ W m.region m.domain) : m.stands C t = true := (h.stands_swept hw.swept hm).2 hW

/-- a record it leaves behind is one of a mapping that fell -/
theorem orphan (hw : Withdrawal C W D s t) (h : Logged C s log) {p k : ℕ} (hp : s.Alive p) (hk : k < SHARE_SLOTS)
    (h0 : ((s.procs p).dma k).1 ≠ 0) (hW : W ((s.procs p).dma k).1 ((s.procs p).dma k).2) (hD : ¬ D p k) :
    (∃ m ∈ log, m.who = p ∧ (s.procs m.who).dma m.record = (m.region, m.domain) ∧ m.stands C t = false) ∧
      ¬ Attributed t (log.filter (·.stands C t)) := by
  obtain ⟨m, hm, rfl, rfl, hreg, hdom⟩ := (h.attributed p hp k hk _ ((s.procs p).dma k).2 h0).1 rfl
  constructor
  · refine ⟨m, hm, rfl, by rw [hreg, hdom], ?_⟩
    have hfall := mt (h.stands_swept hw.swept hm).1 (by rw [hreg, hdom]; exact not_not.2 hW)
    simpa using hfall
  · intro hatt
    have hleft := (hw.records m.who m.record _ ((s.procs m.who).dma m.record).2 h0).2 ⟨rfl, hD⟩
    obtain ⟨m', hm', -, -, hreg', hdom'⟩ := (hatt m.who ((hw.alive _).2 hp) m.record hk _ _ h0).1 hleft
    obtain ⟨hlog', hst'⟩ := List.mem_filter.1 hm'
    exact (h.stands_swept hw.swept hlog').1 hst' (by rw [hreg', hdom']; exact hW)

end Withdrawal

/-! ## The calls -/

/-- `withdraw_region_from_domain` -/
theorem withdrawal_region (hC : DomainsOk C) {region domain di ri : ℕ} (hd : domainLookup C domain = some di)
    (hi : s.regionIndex region = some ri) :
    Withdrawal C (fun r d => r = region ∧ d = domain) (fun _ _ => False) s (withdrawRegionFromDomain C di ri s).2 := by
  have hprocs : (withdrawRegionFromDomain C di ri s).2.procs = s.procs :=
    forAny_keep (I := fun t : KState => t.procs = s.procs)
      (fun frame _ t ht => (procs_clearIoMappingsIn di (frame / PAGE_SIZE) t).trans ht) rfl
  refine ⟨(swept_withdrawRegionFromDomain hC (domainLookup_lt C hd).1 ri s).congr fun dj _ g => ⟨?_, ?_⟩,
    (dmaOnly_withdrawRegionFromDomain (domainLookup_lt C hd).1 ri s).regions, fun p => ?_, fun p k r e hne => ?_⟩
  · rintro ⟨rfl, hfr⟩
    exact ⟨region, domain, ri, ⟨rfl, rfl⟩, hd, hi, hfr⟩
  · rintro ⟨r, e, rj, ⟨rfl, rfl⟩, hl, hj, hfr⟩
    obtain rfl : di = dj := Option.some.inj (hd.symm.trans hl)
    obtain rfl : ri = rj := Option.some.inj (hi.symm.trans hj)
    exact ⟨rfl, hfr⟩
  · rw [KState.live, hprocs]; rfl
  · rw [hprocs]; simp

/-- records of one process dropped -/
theorem withdrawal_drop {who : ℕ} {d : Table (ℕ × ℕ)} {D : ℕ → Prop}
    (hd : ∀ k r e, r ≠ 0 → (d k = (r, e) ↔ (s.procs who).dma k = (r, e) ∧ ¬ D k)) :
    Withdrawal C (fun _ _ => False) (fun p k => p = who ∧ D k) s (s.modProc who fun p => { p with dma := d }) := by
  have hsw : Swept C (fun _ _ => False) s (s.modProc who fun p => { p with dma := d }) := Swept.of_mem fun _ _ => rfl
  refine ⟨hsw.congr fun di _ f => ⟨False.elim, fun ⟨_, _, _, h, _⟩ => h⟩, rfl, fun p => ?_, fun p k r e hne => ?_⟩
  · rw [KState.live, KState.modProc_procs, Table.put_apply]
    split_ifs with hq
    · rw [hq]; rfl
    · rfl
  · rw [KState.modProc_procs, Table.put_apply]
    split_ifs with hq
    · subst hq
      rw [hd k r e hne]
      simp
    · simp [hq]

/-- `withdraw_dma_slot` -/
theorem withdrawal_slot (hC : DomainsOk C) (who slot : ℕ) (s : KState) :
    Withdrawal C (fun r d => r ≠ 0 ∧ (s.procs who).dma slot = (r, d)) (fun p k => p = who ∧ k = slot) s
      (withdrawDmaSlot C who slot s).2 := by
  rw [withdrawDmaSlot]
  rcases hrec : (s.procs who).dma slot with ⟨region, domain⟩
  simp only
  split_ifs with h0
  · subst h0
    refine (Withdrawal.refl s).congr (fun r d _ _ _ _ => ⟨False.elim, ?_⟩) fun p k hne => ⟨False.elim, ?_⟩
    · rintro ⟨hr, he⟩
      exact hr (Prod.mk.inj he).1.symm
    · rintro ⟨rfl, rfl⟩
      exact hne (by rw [hrec])
  have hdrop : Withdrawal C (fun _ _ => False) (fun p k => p = who ∧ k = slot) s
      (s.modProc who fun p => { p with dma := p.dma.put slot (0, 0) }) := by
    refine withdrawal_drop (d := (s.procs who).dma.put slot (0, 0)) fun k r e hr => ?_
    rw [Table.put_apply]
    split_ifs with hk
    · exact ⟨fun he => absurd (Prod.mk.inj he).1.symm hr, fun he => absurd hk he.2⟩
    · simp [hk]
  -- a record that names no region or no device withdraws nothing
  have hnone : (∀ di ri, domainLookup C domain = some di → s.regionIndex region ≠ some ri) →
      Withdrawal C (fun r d => r ≠ 0 ∧ (region, domain) = (r, d)) (fun p k => p = who ∧ k = slot) s
        (s.modProc who fun p => { p with dma := p.dma.put slot (0, 0) }) := by
    intro hno
    refine hdrop.congr (fun r d di ri hl hi => ⟨False.elim, ?_⟩) fun _ _ _ => Iff.rfl
    rintro ⟨-, he⟩
    obtain ⟨rfl, rfl⟩ := Prod.mk.inj he
    exact hno _ _ hl hi
  cases hd : domainLookup C domain with
  | none => exact hnone fun di ri hl => by rw [hd] at hl; simp at hl
  | some di =>
    simp only
    cases hi : (s.modProc who fun p => { p with dma := p.dma.put slot (0, 0) }).regionIndex region with
    | none => exact hnone fun dj ri _ hj => by rw [show s.regionIndex region = none from hi] at hj; simp at hj
    | some ri =>
      refine (hdrop.trans (withdrawal_region hC hd hi)).congr (fun r d _ _ _ _ => ?_) fun p k _ => by simp
      constructor
      · rintro (h | ⟨rfl, rfl⟩)
        · exact h.elim
        · exact ⟨h0, rfl⟩
      · rintro ⟨-, he⟩
        obtain ⟨rfl, rfl⟩ := Prod.mk.inj he
        exact Or.inr ⟨rfl, rfl⟩

/-- a step that touches neither memory, regions nor processes -/
theorem Withdrawal.same {W D : ℕ → ℕ → Prop} {u : KState} (h : Withdrawal C W D s t) (hw : u.w = t.w)
    (hp : u.procs = t.procs) (hr : u.regions = t.regions) : Withdrawal C W D s u := by
  refine ⟨⟨fun di hdi slot hs hp hq => ?_, fun di hdi slot hs hn => ?_⟩, hr.trans h.regions, fun p => ?_,
    fun p k r e hne => ?_⟩
  · rw [KState.leafAt, hw]; exact h.swept.cut di hdi slot hs hp hq
  · rw [KState.leafAt, hw]; exact h.swept.keep di hdi slot hs hn
  · rw [KState.live, hp]; exact h.live p
  · rw [hp]; exact h.records p k r e hne

/-- the loop of `withdraw_all_dma_of`, up to slot `n` -/
theorem withdrawal_slots (hC : DomainsOk C) (who : ℕ) (s : KState) (n : ℕ) :
    Withdrawal C (fun r d => r ≠ 0 ∧ ∃ k < n, (s.procs who).dma k = (r, d)) (fun p k => p = who ∧ k < n) s
      (forAny (withdrawSlotAtExit C who) (List.range n) s).2 := by
  rw [forAny_snd]
  induction n with
  | zero => exact (Withdrawal.refl s).congr (fun _ _ _ _ _ _ => by simp) fun _ _ _ => by simp
  | succ n ih =>
    rw [List.range_succ, List.foldl_append, List.foldl_cons, List.foldl_nil]
    set u := (List.range n).foldl (fun s k => (withdrawSlotAtExit C who k s).2) s
    have hstep : Withdrawal C (fun r d => r ≠ 0 ∧ (u.procs who).dma n = (r, d)) (fun p k => p = who ∧ k = n) u
        (withdrawSlotAtExit C who n u).2 := (withdrawal_slot hC who n u).same rfl rfl rfl
    refine (ih.trans hstep).congr (fun r d _ _ _ _ => ?_) fun p k _ => ?_
    · -- the record in slot `n` is still the one it was
      have hsame : r ≠ 0 → ((u.procs who).dma n = (r, d) ↔ (s.procs who).dma n = (r, d)) := fun hr => by
        rw [ih.records who n r d hr]
        simp
      constructor
      · rintro (⟨hr, k, hk, he⟩ | ⟨hr, he⟩)
        · exact ⟨hr, k, by omega, he⟩
        · exact ⟨hr, n, by omega, (hsame hr).1 he⟩
      · rintro ⟨hr, k, hk, he⟩
        rcases Nat.lt_succ_iff_lt_or_eq.1 hk with hk | rfl
        · exact Or.inl ⟨hr, k, hk, he⟩
        · exact Or.inr ⟨hr, (hsame hr).2 he⟩
    · rw [Nat.lt_succ_iff_lt_or_eq]
      tauto

theorem withdrawal_all (hC : DomainsOk C) {who : ℕ} (h : withdrawAllDmaOf C who s = .ok ((), t)) :
    Withdrawal C (fun r d => r ≠ 0 ∧ ∃ k < SHARE_SLOTS, (s.procs who).dma k = (r, d))
      (fun p k => p = who ∧ k < SHARE_SLOTS) s t := by
  have hw : wp (withdrawAllDmaOf C who) (fun _ t => RingOnly C (withdrawSlots C who s).2 t) (· = .ringFull) s := by
    rw [withdrawAllDmaOf, wp_bind, wp_run]
    exact ringOnly_flushIf _ _
  exact (withdrawal_slots hC who s SHARE_SLOTS).ring hC (wp_ok hw h)

/-- `unmap_dma` -/
theorem withdrawal_unmap (h : Logged C s log) {who domain region v : ℕ} (hw : s.Alive who)
    (hrun : unmapDma C who domain region s = .ok (v, t)) :
    Withdrawal C (fun r d => r ≠ 0 ∧ r = region ∧ d = domain)
      (fun p k => p = who ∧ k < SHARE_SLOTS ∧ (s.procs p).dma k = (region, domain)) s t := by
  have hspec : wp (unmapDma C who domain region) (fun _ t =>
      (t = s ∧ ∀ di ri, domainLookup C domain = some di → s.regionIndex region ≠ some ri) ∨
      ∃ di ri, domainLookup C domain = some di ∧ s.regionIndex region = some ri ∧
        RingOnly C (dropRecords who region domain (withdrawRegionFromDomain C di ri s).2) t) (· = .ringFull) s := by
    rw [unmapDma, wp_bind, wp_get]
    refine wp_ite (fun hno => Or.inl ⟨rfl, fun di ri hl _ => ?_⟩) fun _ => ?_
    · obtain ⟨hlt, hne, -⟩ := domainLookup_lt C hl
      rw [noDomains, Bool.not_eq_true', ← Bool.not_eq_true, anyIdx_iff] at hno
      exact hno ⟨di, hlt, by simpa using hne⟩
    cases hd : domainLookup C domain with
    | none => exact Or.inl ⟨rfl, fun di ri hl => by simp at hl⟩
    | some di =>
      simp only
      cases hi : s.regionIndex region with
      | none => exact Or.inl ⟨rfl, fun di ri _ hj => by simp at hj⟩
      | some ri =>
        simp only [wp_bind, wp_modify]
        refine wp_onlyIf (fun _ => ?_) fun _ => Or.inr ⟨di, ri, rfl, rfl, RingOnly.refl _⟩
        exact wp_mono (ringOnly_invalidateCounted di _) fun _ u hu => Or.inr ⟨di, ri, rfl, rfl, hu⟩
  rcases wp_ok hspec hrun with ⟨rfl, hno⟩ | ⟨di, ri, hd, hi, hr⟩
  · refine (Withdrawal.refl t).congr (fun r d di ri hl hi => ⟨False.elim, ?_⟩) fun p k hne => ⟨False.elim, ?_⟩
    · rintro ⟨-, rfl, rfl⟩
      exact hno _ _ hl hi
    · -- a record is one of a live region and a device, so the call found them
      rintro ⟨rfl, hk, he⟩
      rw [he] at hne
      obtain ⟨m, hm, -, -, rfl, rfl⟩ := (h.attributed p hw k hk region domain hne).1 he
      obtain ⟨di, ri, hg⟩ := h.grounded m hm
      exact hno _ _ hg.lookup hg.index
  · have h0 : region ≠ 0 := by
      obtain ⟨hlt, hl, hid⟩ := regionIndex_some hi
      rw [← hid]; exact (h.ids ri hlt hl).1
    have h1 := withdrawal_region h.domainsOk hd hi
    set u := (withdrawRegionFromDomain C di ri s).2
    have hdrop : Withdrawal C (fun _ _ => False) (fun p k => p = who ∧ k < SHARE_SLOTS ∧ (u.procs who).dma k = (region, domain))
        u (dropRecords who region domain u) := by
      refine withdrawal_drop (d := fun i => if i < SHARE_SLOTS ∧ (u.procs who).dma i = (region, domain) then (0, 0)
        else (u.procs who).dma i) fun k r e hr => ?_
      split_ifs with hk
      · exact ⟨fun he => absurd (Prod.mk.inj he).1.symm hr, fun he => absurd hk he.2⟩
      · simp [hk]
    refine ((h1.trans hdrop).ring h.domainsOk hr).congr (fun r d _ _ _ _ => ?_) fun p k _ => ?_
    · constructor
      · rintro (⟨rfl, rfl⟩ | hf)
        · exact ⟨h0, rfl, rfl⟩
        · exact hf.elim
      · exact fun hx => Or.inl hx.2
    · have hsame : (u.procs who).dma k = (region, domain) ↔ (s.procs who).dma k = (region, domain) := by
        rw [h1.records who k region domain h0]; simp
      rw [hsame]
      constructor
      · rintro (hf | ⟨rfl, hk, he⟩)
        · exact hf.elim
        · exact ⟨rfl, hk, he⟩
      · rintro ⟨rfl, hk, he⟩
        exact Or.inr ⟨rfl, hk, he⟩

/-- every published table is that of a domain somebody can name -/
theorem DomainsOk.lookup (hC : DomainsOk C) {di : ℕ} (hdi : Published C di) : domainLookup C (di + 1) = some di := by
  have hid : ∀ j < MAX_DOMAINS, (C.domainSlots j).id ≠ 0 → (C.domainSlots j).id = j + 1 := by
    intro j hj hne
    rcases hC.named j hj with he | ⟨he, -⟩
    · exact absurd (by rw [he]; rfl) hne
    · exact he
  have hne : (C.domainSlots di).id = di + 1 := by
    rcases hC.named di hdi.1 with he | ⟨he, -⟩
    · exact absurd (by rw [he]; rfl) hdi.2
    · exact he
  obtain ⟨dj, hdj⟩ := firstIdx_isSome (p := fun i => (C.domainSlots i).id != 0 && (C.domainSlots i).id == di + 1) hdi.1
    (by simp [hne])
  obtain ⟨hlt, h0, he⟩ := domainLookup_lt C hdj
  have := hid dj hlt h0
  obtain rfl : dj = di := by omega
  exact hdj

/-- `Step::Release`, up to the frames -/
theorem withdrawal_release (hC : DomainsOk C) {region i : ℕ} (hi : s.regionIndex region = some i)
    {u : KState} (hr : RingOnly C (withdrawRegionEverywhere X86 C (s.regions i).frames s).2 u) :
    Withdrawal C (fun r _ => r = region)
      (fun p k => s.Alive p ∧ k < SHARE_SLOTS ∧ ((s.procs p).dma k).1 = region) s (forgetRecords region u) := by
  have hprocs : u.procs = s.procs := hr.procs.trans (procs_withdrawRegionEverywhere _ s)
  have hsw : Swept C (Withdrawn C s fun r _ => r = region) s u := by
    refine ((swept_withdrawRegionEverywhere (A := X86) hC rfl (s.regions i).frames s).trans (hr.swept hC)).congr
      fun di hdi f => ?_
    rw [or_false]
    constructor
    · exact fun hf => ⟨region, di + 1, i, rfl, hC.lookup hdi, hi, hf⟩
    · rintro ⟨r, d, rj, rfl, -, hj, hf⟩
      obtain rfl : i = rj := Option.some.inj (hi.symm.trans hj)
      exact hf
  refine ⟨⟨hsw.cut, hsw.keep⟩, ?_, fun p => ?_, fun p k r e hne => ?_⟩
  · exact hr.regions.trans (dmaOnly_withdrawRegionEverywhere X86 _ s).regions
  · rw [KState.live, forgetRecords, hprocs]
    simp only
    split_ifs <;> rfl
  · rw [forgetRecords, KState.Alive, KState.live]
    simp only [hprocs, KState.live]
    split_ifs with hp
    · simp only
      split_ifs with hk
      · constructor
        · exact fun he => absurd (Prod.mk.inj he).1.symm hne
        · exact fun he => absurd ⟨⟨hp.1, hp.2⟩, hk⟩ he.2
      · exact ⟨fun he => ⟨he, fun hx => hk hx.2⟩, fun he => he.1⟩
    · exact ⟨fun he => ⟨he, fun hx => hp ⟨hx.1.1, hx.1.2⟩⟩, fun he => he.1⟩

/-- a region no mapping of the log names goes -/
theorem Logged.freeRegion (h : Logged C s log) {i : ℕ} (hi : i < MAX_REGIONS) (hl : (s.regions i).live = true)
    (hno : ∀ m ∈ log, m.region ≠ (s.regions i).id) : Logged C (freeRegion i s) log := by
  have hregs : (Kernel.freeRegion i s).regions = s.regions.put i Region.EMPTY := rfl
  have hold : ∀ j, ((Kernel.freeRegion i s).regions j).live = true → (Kernel.freeRegion i s).regions j = s.regions j := by
    intro j hj
    rw [hregs, Table.put_apply] at hj ⊢
    split_ifs at hj ⊢
    · exact absurd hj (by decide)
    · rfl
  refine ⟨h.domainsOk, fun j hj hlj => ?_, fun j hj hlj f hf => ?_, fun m hm => ?_, h.attributed⟩
  · have he := hold j hlj
    rw [he] at hlj ⊢
    refine ⟨(h.ids j hj hlj).1, fun k hk hlk hid => ?_⟩
    have hk' := hold k hlk
    rw [hk'] at hlk hid
    exact (h.ids j hj hlj).2 k hk hlk hid
  · have hj' := hold j hlj
    rw [hj'] at hlj hf
    obtain ⟨h1, h2, h3⟩ := h.frames j hj hlj f hf
    refine ⟨h1, h2, fun k hk hlk hfk => ?_⟩
    have hk' := hold k hlk
    rw [hk'] at hlk hfk
    exact h3 k hk hlk hfk
  · obtain ⟨di, ri, hg⟩ := h.grounded m hm
    obtain ⟨-, -, hid⟩ := regionIndex_some hg.index
    have hne : ri ≠ i := fun e => hno m hm (by rw [← hid, e])
    have hmem : (Kernel.freeRegion i s).w.mem = s.w.mem := Machine.mem_freeFrames _ _
    refine ⟨di, ri, hg.alive, hg.record, hg.region, hg.lookup, hg.published, ?_, ?_, hg.some_page, hg.window,
      fun j hj => ?_⟩
    · rw [← hg.index]
      refine firstIdx_congr fun j _ => ?_
      rw [hregs, Table.put_apply]
      split_ifs with hj
      · subst hj
        have : ((s.regions j).id == m.region) = false := by simpa using (hno m hm).symm
        rw [this, Bool.and_false]; rfl
      · rfl
    · rw [hregs, Table.put_of_ne _ hne]; exact hg.pages
    · rw [Present, KState.leafAt, hmem]; exact hg.leaf j hj

/-- what was installed before a mapping stands after it -/
theorem Logged.stands_kept (h : Logged C s log)
    (hleaf : ∀ di, Published C di → ∀ slot, Present C s di slot → t.leafAt C di slot = s.leafAt C di slot) {m : Mapped}
    (hm : m ∈ log) : m.stands C t = true := by
  obtain ⟨di, ri, hg⟩ := h.grounded m hm
  rw [Mapped.stands_iff hg.lookup]
  intro j hj
  obtain ⟨hp, hf⟩ := hg.leaf j hj
  rw [Present, hleaf di hg.published _ hp]
  exact ⟨hp, hf⟩

/-- **A call to `MAP_DMA`** keeps the log right, and everything on it stands. -/
theorem Logged.map (h : Logged C s log) {who domain region : ℕ} {rights : CapRights} (hw : s.Alive who)
    (ht : (mapDma C who domain region rights s).2 = t) :
    Logged C t (log.filter (·.stands C t) ++ (DmaCall.map who domain region rights).logs C s) := by
  have hdma := dmaOnly_mapDma (C := C) who domain region rights s
  rw [ht] at hdma
  have halive : ∀ p, t.Alive p ↔ s.Alive p := fun p => hdma.alive
  have hidx : ∀ id, t.regionIndex id = s.regionIndex id := fun id => by rw [KState.regionIndex, hdma.regions]; rfl
  rcases mapDma_spec h.domainsOk who domain region rights s with ⟨hv, hprocs, -, hleaf⟩ | ⟨di, ri, first, rec_, hv, hin⟩
  · -- refused: nothing that stood has changed
    rw [ht] at hprocs hleaf
    rw [DmaCall.logs, if_pos hv, List.append_nil, List.filter_eq_self.2 fun m hm => h.stands_kept hleaf hm]
    refine ⟨h.domainsOk, by rw [hdma.regions]; exact h.ids, by rw [hdma.regions]; exact h.frames, fun m hm => ?_, ?_⟩
    · obtain ⟨di, ri, hg⟩ := h.grounded m hm
      exact ⟨di, ri, (halive _).2 hg.alive, hg.record, hg.region, hg.lookup, hg.published, (hidx _).trans hg.index,
        by rw [hdma.regions]; exact hg.pages, hg.some_page, hg.window,
        (Mapped.stands_iff hg.lookup).1 (h.stands_kept hleaf hm)⟩
    · intro p hp k hk r d hr
      rw [hprocs]
      exact h.attributed p ((halive p).1 hp) k hk r d hr
  rw [ht] at hin
  obtain ⟨hri, hlive, hid⟩ := regionIndex_some hin.index
  have hleaf : ∀ dj, Published C dj → ∀ slot, Present C s dj slot → t.leafAt C dj slot = s.leafAt C dj slot := by
    intro dj hdj slot hp
    refine hin.others dj hdj slot ?_
    rintro ⟨rfl, h1, h2⟩
    have := hin.absent (slot - first) (by omega)
    rw [show first + (slot - first) = slot by omega] at this
    exact this hp
  have hwin := hin.window.2
  have herr : ¬ ((mapDma C who domain region rights s).1 = syserr.NO_MEM ∨
      (mapDma C who domain region rights s).1 = syserr.NO_CAP) := by
    rw [hv]
    simp only [syserr.NO_MEM, syserr.NO_CAP, PAGE_SIZE, U64_MAX]
    omega
  have hrec := firstIdx_some hin.slot
  have hlogs : (DmaCall.map who domain region rights).logs C s =
      [⟨who, rec_, region, domain, first, (s.regions ri).frames⟩] := by
    simp only [DmaCall.logs]
    rw [if_neg herr, hv, hin.slot, hin.index, Nat.mul_div_cancel _ (by decide)]
    rfl
  rw [hlogs, List.filter_eq_self.2 fun m hm => h.stands_kept hleaf hm]
  refine ⟨h.domainsOk, by rw [hdma.regions]; exact h.ids, by rw [hdma.regions]; exact h.frames, fun m hm => ?_, ?_⟩
  · rcases List.mem_append.1 hm with hm | hm
    · obtain ⟨dj, rj, hg⟩ := h.grounded m hm
      exact ⟨dj, rj, (halive _).2 hg.alive, hg.record, hg.region, hg.lookup, hg.published, (hidx _).trans hg.index,
        by rw [hdma.regions]; exact hg.pages, hg.some_page, hg.window,
        (Mapped.stands_iff hg.lookup).1 (h.stands_kept hleaf hm)⟩
    · obtain rfl := List.mem_singleton.1 hm
      refine ⟨di, ri, (halive _).2 hw, hrec.1, hid ▸ (h.ids ri hri hlive).1, hin.lookup, hin.published,
        (hidx _).trans hin.index, by rw [hdma.regions], hin.pages, hwin, fun j hj => ?_⟩
      have hmem : (s.regions ri).frames.getD j 0 ∈ (s.regions ri).frames := by
        rw [List.getD_eq_getElem?_getD, List.getElem?_eq_getElem hj]
        exact List.getElem_mem hj
      obtain ⟨hal, hlt, -⟩ := h.frames ri hri hlive _ hmem
      rw [Present, hin.leaf j hj]
      exact ⟨iopte.present_leaf _ _, iopte.frame_leaf hal hlt _⟩
  · intro p hp k hk r d hr
    have hp' := (halive p).1 hp
    rw [hin.procs]
    by_cases hpk : p = who ∧ k = rec_
    · -- the record the call took was free
      obtain ⟨rfl, rfl⟩ := hpk
      have hfree : ∀ m ∈ log, m.who = p → m.record ≠ k := by
        rintro m hm rfl rfl
        obtain ⟨di, ri, hg⟩ := h.grounded m hm
        have hm' := (h.attributed m.who hp' m.record hk m.region m.domain hg.region).2 ⟨m, hm, rfl, rfl, rfl, rfl⟩
        have h0 := hrec.2.1
        rw [hm'] at h0
        exact hg.region (by simpa using h0)
      rw [Table.put_self]
      show (s.procs p).dma.put k (region, domain) k = (r, d) ↔ _
      rw [Table.put_self]
      constructor
      · intro he
        obtain ⟨rfl, rfl⟩ := Prod.mk.inj he
        exact ⟨_, List.mem_append.2 (Or.inr (List.mem_singleton.2 rfl)), rfl, rfl, rfl, rfl⟩
      · rintro ⟨m, hm, h1, h2, rfl, rfl⟩
        rcases List.mem_append.1 hm with hm | hm
        · exact absurd h2 (hfree m hm h1)
        · rw [List.mem_singleton.1 hm]
    · have hsame : (s.procs.put who { s.procs who with dma := (s.procs who).dma.put rec_ (region, domain) } p).dma k =
          (s.procs p).dma k := by
        rw [Table.put_apply]
        split_ifs with hq
        · subst hq
          exact Table.put_of_ne _ (fun e => hpk ⟨rfl, e⟩) _
        · rfl
      rw [hsame, h.attributed p hp' k hk r d hr]
      constructor
      · rintro ⟨m, hm, hrest⟩
        exact ⟨m, List.mem_append.2 (Or.inl hm), hrest⟩
      · rintro ⟨m, hm, h1, h2, h3⟩
        rcases List.mem_append.1 hm with hm | hm
        · exact ⟨m, hm, h1, h2, h3⟩
        · rw [List.mem_singleton.1 hm] at h1 h2
          exact absurd ⟨h1.symm, h2.symm⟩ hpk

/-- **`Step::Release`** takes the region's mappings for every device, and every record of them. -/
theorem Logged.release (h : Logged C s log) {region : ℕ} (hrun : releaseRegion X86 C region s = .ok ((), t)) :
    Logged C t (log.filter (·.stands C t)) := by
  have hspec : wp (releaseRegion X86 C region) (fun _ t => (t = s ∧ s.regionSlot region = none) ∨
      ∃ i u, s.regionSlot region = some i ∧ RingOnly C (withdrawRegionEverywhere X86 C (s.regions i).frames s).2 u ∧
        t = Kernel.freeRegion i (forgetRecords region u)) (· = .ringFull) s := by
    rw [releaseRegion, wp_bind, wp_get]
    cases hsl : s.regionSlot region with
    | none => exact Or.inl ⟨rfl, rfl⟩
    | some i =>
      simp only [wp_bind, wp_run]
      refine wp_mono (ringOnly_flushIf _ _) fun _ u hu => Or.inr ⟨i, u, rfl, hu, rfl⟩
  rcases wp_ok hspec hrun with ⟨rfl, -⟩ | ⟨i, u, hsl, hr, rfl⟩
  · rw [List.filter_eq_self.2 fun m hm => h.stands_kept (fun _ _ _ _ => rfl) hm]
    exact h
  obtain ⟨-, hi, hl, hid⟩ := regionSlot_some hsl
  have hidx : s.regionIndex region = some i := by
    rw [KState.regionSlot] at hsl
    split_ifs at hsl
    exact hsl
  have hw := withdrawal_release h.domainsOk hidx hr
  have hu := hw.logged h fun p hp k hk _ => ⟨fun hx => hx.2.2, fun he => ⟨hp, hk, he⟩⟩
  have hregs := hw.regions
  have hmem : (Kernel.freeRegion i (forgetRecords region u)).w.mem = (forgetRecords region u).w.mem :=
    Machine.mem_freeFrames _ _
  have hstands : ∀ m : Mapped, m.stands C (Kernel.freeRegion i (forgetRecords region u)) =
      m.stands C (forgetRecords region u) := by
    intro m
    simp only [Mapped.stands, KState.leafAt, hmem]
  simp only [hstands]
  refine hu.freeRegion hi (by rw [hregs]; exact hl) fun m hm he => ?_
  obtain ⟨hlog, hst⟩ := List.mem_filter.1 hm
  refine (h.stands_swept hw.swept hlog).1 hst ?_
  rw [he, hregs, hid]

/-- a call made in a state whose log is right: it stays right, and no mapping of another is taken, exactly when the call
is exclusive -/
theorem Logged.call (h : Logged C s log) {c : DmaCall} (hdoes : c.Does C s t) :
    (c.Exclusive s → Logged C t (log.filter (·.stands C t) ++ c.logs C s) ∧ c.Spares C s log t) ∧
      (¬ c.Exclusive s → ¬ (Attributed t (log.filter (·.stands C t) ++ c.logs C s) ∧ c.Spares C s log t)) := by
  cases c with
  | map who domain region rights =>
    exact ⟨fun _ => ⟨h.map hdoes.1 hdoes.2, fun _ hw => by simp [DmaCall.withdraws] at hw⟩, fun hne => absurd trivial hne⟩
  | release region =>
    refine ⟨fun _ => ⟨?_, fun _ hw => by simp [DmaCall.withdraws] at hw⟩, fun hne => absurd trivial hne⟩
    simp only [DmaCall.logs, List.append_nil]
    exact h.release hdoes
  | unmap who domain region =>
    obtain ⟨hw, v, hrun⟩ := hdoes
    have hwd := withdrawal_unmap h hw hrun
    simp only [DmaCall.logs, List.append_nil]
    refine ⟨fun hex => ⟨hwd.logged h fun p hp k hk hne => ?_, ?_⟩, fun hex => ?_⟩
    · constructor
      · rintro ⟨rfl, -, he⟩
        rw [he] at hne ⊢
        exact ⟨hne, rfl, rfl⟩
      · rintro ⟨hr, hreg, hdom⟩
        have he : (s.procs p).dma k = (region, domain) := Prod.ext hreg hdom
        by_cases hpw : p = who
        · exact ⟨hpw, hk, he⟩
        · exact absurd he (hex (hreg ▸ hr) p hp hpw k hk)
    · rintro who' rfl' m hm hne hp hrec
      obtain rfl : who = who' := Option.some.inj rfl'
      refine hwd.spares h hm ?_
      rintro ⟨hr, hreg, hdom⟩
      obtain ⟨di, ri, hg⟩ := h.grounded m hm
      exact hex (hreg ▸ hr) m.who hp hne m.record hg.record (by rw [hrec, hreg, hdom])
    · simp only [DmaCall.Exclusive] at hex
      push Not at hex
      obtain ⟨hr, p, hp, hpw, k, hk, he⟩ := hex
      obtain ⟨⟨m, hm, hmp, hrec, hfall⟩, -⟩ := hwd.orphan h hp hk (by rw [he]; exact hr)
        (by rw [he]; exact ⟨hr, rfl, rfl⟩) fun hx => hpw hx.1
      rintro ⟨-, hsp⟩
      have := hsp who rfl m hm (by rw [hmp]; exact hpw) (by rw [hmp]; exact hp) hrec
      rw [hfall] at this
      exact absurd this (by decide)
  | withdrawSlot who slot =>
    obtain ⟨hw, hslot, rfl⟩ := hdoes
    have hwd := withdrawal_slot (C := C) h.domainsOk who slot s
    simp only [DmaCall.logs, List.append_nil]
    refine ⟨fun hex => ⟨hwd.logged h fun p hp k hk hne => ?_, ?_⟩, fun hex => ?_⟩
    · constructor
      · rintro ⟨rfl, rfl⟩
        exact ⟨hne, rfl⟩
      · rintro ⟨hr, he⟩
        by_contra hpk
        exact hex (by rw [he]; exact hr) p hp k hk hpk he.symm
    · rintro who' rfl' m hm hne hp hrec
      obtain rfl : who = who' := Option.some.inj rfl'
      refine hwd.spares h hm ?_
      rintro ⟨hr, he⟩
      obtain ⟨di, ri, hg⟩ := h.grounded m hm
      exact hex (by rw [he]; exact hr) m.who hp m.record hg.record (fun hx => hne hx.1) (by rw [hrec, he])
    · simp only [DmaCall.Exclusive] at hex
      push Not at hex
      obtain ⟨h0, p, hp, k, hk, hpk, he⟩ := hex
      obtain ⟨-, hatt⟩ := hwd.orphan h hp hk (by rw [he]; exact h0) ⟨by rw [he]; exact h0, by rw [he]⟩
        (by rintro ⟨h1, h2⟩; exact hpk h1 h2)
      exact fun hx => hatt hx.1
  | withdrawAll who =>
    obtain ⟨hw, hrun⟩ := hdoes
    have hwd := withdrawal_all h.domainsOk hrun
    simp only [DmaCall.logs, List.append_nil]
    refine ⟨fun hex => ⟨hwd.logged h fun p hp k hk hne => ?_, ?_⟩, fun hex => ?_⟩
    · constructor
      · rintro ⟨rfl, hk⟩
        exact ⟨hne, k, hk, rfl⟩
      · rintro ⟨hr, j, hj, he⟩
        by_contra hpk
        exact hex j hj (by rw [he]; exact hr) p hp (fun hp => hpk ⟨hp, hk⟩) k hk he.symm
    · rintro who' rfl' m hm hne hp hrec
      obtain rfl : who = who' := Option.some.inj rfl'
      refine hwd.spares h hm ?_
      rintro ⟨hr, j, hj, he⟩
      obtain ⟨di, ri, hg⟩ := h.grounded m hm
      exact hex j hj (by rw [he]; exact hr) m.who hp hne m.record hg.record (by rw [hrec, he])
    · simp only [DmaCall.Exclusive] at hex
      push Not at hex
      obtain ⟨slot, hslot, h0, p, hp, hpw, k, hk, he⟩ := hex
      obtain ⟨⟨m, hm, hmp, hrec, hfall⟩, -⟩ := hwd.orphan h hp hk (by rw [he]; exact h0)
        ⟨by rw [he]; exact h0, slot, hslot, by rw [he]⟩ fun hx => hpw hx.1
      rintro ⟨-, hsp⟩
      have := hsp who rfl m hm (by rw [hmp]; exact hpw) (by rw [hmp]; exact hp) hrec
      rw [hfall] at this
      exact absurd this (by decide)

/-! ## Runs -/

theorem DmaRun.logged (h : DmaRun C (fun s c => c.Exclusive s) s log) : Logged C s log := by
  induction h with
  | start h => exact h.logged
  | call _ hex hdoes ih => exact ((ih.call hdoes).1 hex).1

/-- **When DMA mappings are attributed.** In a run of exclusive calls the records are those of the mappings that stand; and
of the calls that may come next, the exclusive ones are those that keep it so and take no mapping another process has a
record of. -/
theorem attribution_iff (h : DmaRun C (fun s c => c.Exclusive s) s log) :
    Attributed s log ∧ ∀ (c : DmaCall) (t : KState), c.Does C s t →
      (Attributed t (log.filter (·.stands C t) ++ c.logs C s) ∧ c.Spares C s log t ↔ c.Exclusive s) := by
  refine ⟨h.logged.attributed, fun c t hdoes => ⟨fun hgood => ?_, fun hex => ?_⟩⟩
  · by_contra hex
    exact (h.logged.call hdoes).2 hex hgood
  · obtain ⟨h1, h2⟩ := (h.logged.call hdoes).1 hex
    exact ⟨h1.attributed, h2⟩

/-! ## Two holders of one region -/

/-- one device, whose level-1 table is page 16; the command ring is page 32 -/
def oneDevice : Config :=
  { smallConfig emptyImage ROLE_GRANTS 0 with
    domainSlots := Table.put (fun _ => DomainSlot.EMPTY) 0 ⟨1, 0, 16 * PAGE_SIZE⟩
    amdviBase := 1
    cmdBuf := 32 * PAGE_SIZE
    cmdStore := 33 * PAGE_SIZE }

/-- two processes with a capability for the device and one for region 1, which is page 5 -/
def twoHolders : KState :=
  { smallState 0 with
    procs := fun p =>
      if p < 2 then
        { Process.EMPTY with
          state := .ready
          id := p
          caps := ⟨fun i => [⟨.iommuDomain, ALL, 1⟩, ⟨.region, ALL, 1⟩].getD i Capabilities.CapSlot.EMPTY⟩ }
      else Process.EMPTY
    regions := Table.put (fun _ => Region.EMPTY) 0 ⟨true, 1, 0, [5 * PAGE_SIZE]⟩ }

theorem twoHolders_start : DmaStart oneDevice twoHolders := by
  have hslot : ∀ i < MAX_DOMAINS, oneDevice.domainSlots i = if i = 0 then ⟨1, 0, 16 * PAGE_SIZE⟩ else DomainSlot.EMPTY :=
    fun _ _ => rfl
  have hregion : ∀ i, twoHolders.regions i = if i = 0 then ⟨true, 1, 0, [5 * PAGE_SIZE]⟩ else Region.EMPTY := fun _ => rfl
  have hlive : ∀ i, (twoHolders.regions i).live = true → i = 0 := by
    intro i hl
    by_contra hne
    rw [hregion, if_neg hne] at hl
    exact absurd hl (by decide)
  refine ⟨⟨by decide, by decide, by decide⟩, fun i _ hl => ?_, fun i _ hl f hf => ?_, fun p _ k _ => ?_⟩
  · obtain rfl := hlive i hl
    exact ⟨by decide, fun j _ hlj _ => hlive j hlj⟩
  · obtain rfl := hlive i hl
    obtain rfl : f = 5 * PAGE_SIZE := by simpa [hregion] using hf
    exact ⟨by decide, by decide, fun j _ hlj _ => hlive j hlj⟩
  · simp only [twoHolders]
    split_ifs <;> rfl

/-- each of the two maps the region -/
def bothMapped : KState := (mapDma oneDevice 1 1 1 ALL (mapDma oneDevice 0 1 1 ALL twoHolders).2).2

theorem DmaRun.mono {ok ok' : KState → DmaCall → Prop} (hok : ∀ s c, ok s c → ok' s c) (h : DmaRun C ok s log) :
    DmaRun C ok' s log := by
  induction h with
  | start h => exact .start h
  | call _ hc hdoes ih => exact .call ih (hok _ _ hc) hdoes

theorem bothMapped_run : DmaRun oneDevice (fun s c => c.Exclusive s) bothMapped
    [⟨0, 0, 1, 1, 256, [5 * PAGE_SIZE]⟩, ⟨1, 0, 1, 1, 257, [5 * PAGE_SIZE]⟩] := by
  have h1 : DmaRun oneDevice (fun s c => c.Exclusive s) _ _ :=
    .call (c := .map 0 1 1 ALL) (.start twoHolders_start) trivial ⟨⟨by decide, by decide⟩, rfl⟩
  have h2 := DmaRun.call (c := .map 1 1 1 ALL) h1 trivial
    ⟨(dmaOnly_mapDma (C := oneDevice) 0 1 1 ALL twoHolders).alive.2 ⟨by decide, by decide⟩, rfl⟩
  have hlog : ((([] : List Mapped).filter (·.stands oneDevice (mapDma oneDevice 0 1 1 ALL twoHolders).2) ++
      (DmaCall.map 0 1 1 ALL).logs oneDevice twoHolders).filter (·.stands oneDevice bothMapped) ++
        (DmaCall.map 1 1 1 ALL).logs oneDevice (mapDma oneDevice 0 1 1 ALL twoHolders).2) =
      [⟨0, 0, 1, 1, 256, [5 * PAGE_SIZE]⟩, ⟨1, 0, 1, 1, 257, [5 * PAGE_SIZE]⟩] := by decide +kernel
  exact hlog ▸ h2

/-- what comes after the two calls -/
theorem bothMapped_attributed :
    Attributed bothMapped [⟨0, 0, 1, 1, 256, [5 * PAGE_SIZE]⟩, ⟨1, 0, 1, 1, 257, [5 * PAGE_SIZE]⟩] ∧
      ∀ (c : DmaCall) (t : KState), c.Does oneDevice bothMapped t →
        (Attributed t ([⟨0, 0, 1, 1, 256, [5 * PAGE_SIZE]⟩, ⟨1, 0, 1, 1, 257, [5 * PAGE_SIZE]⟩].filter
            (·.stands oneDevice t) ++ c.logs oneDevice bothMapped) ∧
          c.Spares oneDevice bothMapped [⟨0, 0, 1, 1, 256, [5 * PAGE_SIZE]⟩, ⟨1, 0, 1, 1, 257, [5 * PAGE_SIZE]⟩] t ↔
          c.Exclusive bothMapped) :=
  attribution_iff bothMapped_run

/-- both hold the two capabilities the calls ask for; when the first one's mapping is withdrawn, the second's falls with it,
and its record stays -/
theorem withdrawal_takes_anothers : ∃ log, DmaRun oneDevice (fun _ _ => True) bothMapped log ∧
    (∀ p < 2, capsHoldDomain (bothMapped.procs p).caps 1 WRITE = true ∧
      capsHoldRegion (bothMapped.procs p).caps 1 READ = true) ∧
    ∃ t, (DmaCall.withdrawSlot 0 0).Does oneDevice bothMapped t ∧ ¬ Attributed t (log.filter (·.stands oneDevice t)) ∧
      ¬ (DmaCall.withdrawSlot 0 0).Spares oneDevice bothMapped log t := by
  have hrecords : ∀ p < 2, (bothMapped.procs p).dma 0 = (1, 1) := by decide +kernel
  have hauth : ∀ p, (bothMapped.procs p).authority = (twoHolders.procs p).authority := fun p =>
    ((dmaOnly_mapDma 1 1 1 ALL _).authority p).trans ((dmaOnly_mapDma 0 1 1 ALL twoHolders).authority p)
  have halive : ∀ p < 2, bothMapped.Alive p := by
    intro p hp
    refine ⟨hp.trans (by decide), ?_⟩
    rw [KState.live, Process.live_eq (hauth p)]
    exact (by decide : ∀ p < 2, (twoHolders.procs p).live = true) p hp
  have hlogged := bothMapped_run.logged
  refine ⟨_, bothMapped_run.mono fun _ _ _ => trivial, fun p hp => ?_, _, ⟨halive 0 (by decide), by decide, rfl⟩, ?_⟩
  · rw [Process.caps_eq (hauth p)]
    exact (by decide : ∀ p < 2, capsHoldDomain (twoHolders.procs p).caps 1 WRITE = true ∧
      capsHoldRegion (twoHolders.procs p).caps 1 READ = true) p hp
  · have hwd := withdrawal_slot (C := oneDevice) hlogged.domainsOk 0 0 bothMapped
    have hrec := hrecords 1 (by decide)
    obtain ⟨⟨m, hm, hm1, hmr, hfall⟩, hatt⟩ := hwd.orphan hlogged (halive 1 (by decide)) (k := 0) (by decide)
      (by rw [hrec]; decide) (by rw [hrec, hrecords 0 (by decide)]; exact ⟨one_ne_zero, rfl⟩) (fun h => absurd h.1 one_ne_zero)
    refine ⟨hatt, fun hsp => ?_⟩
    have := hsp 0 rfl m hm (by rw [hm1]; exact one_ne_zero) (by rw [hm1]; exact halive 1 (by decide)) hmr
    rw [hfall] at this
    exact absurd this (by decide)

end Rustproof.Kernel
