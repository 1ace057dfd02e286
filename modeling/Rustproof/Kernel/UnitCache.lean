/-
What the units may still hold of their tables.

A unit may keep an entry it has seen until it is told to forget its domain. `UnitsSafe` says that of the entries it translates
by it holds none that its table does not show, and that it held none naming a frame when that frame went back to the allocator.
Idle moves store to no table and free no frame of a region; withdrawals tell the units before they end and before any frame is
freed (`Settles`); `MAP_DMA` stores over absent entries.

It also clears entries, when it fails partway, and does not tell the units of that. `Overruns` says when: the domain has mappings
left, but too few for the region.
- `caches_fresh`: in every run without such a call the units hold nothing stale, and no frame is freed that one may translate to.
- `overrun_stale`: every such call leaves a unit holding a stale entry.
-/
import Rustproof.Kernel.DmaRoom
import Rustproof.Kernel.UnitLog

namespace Rustproof.Kernel

open Lib Prog Mm Iommu.Domain

variable {A : Arch} {C : Config} {G : Gate} {me : ℕ} {k : Trap} {s t u : KState} {F : Multiset ℕ} {m₀ : Mem} {h h' : List Event}
  {di slot : ℕ} {pte : Word}

/-- an entry a unit translates by -/
def Walked (slot : ℕ) (pte : Word) : Prop := slot < 512 ∧ iopte.present pte = true

/-- after the history `h` the unit of domain `di` may hold `pte` for `slot`, if its table was that of `m₀` at first -/
def Caches (C : Config) (m₀ : Mem) (h : List Event) (di slot : ℕ) (pte : Word) : Prop :=
  Published C di ∧ Walked slot pte ∧ Access.MayHold (m₀ (C.domainSlots di).l1) (accesses di h) slot pte

/-- no frame has gone back to the allocator while a unit might have translated to it -/
def FreedUnheld (C : Config) (m₀ : Mem) (h : List Event) : Prop :=
  ∀ pre f post, h = pre ++ .freed f :: post → ∀ di slot pte, Caches C m₀ pre di slot pte → iopte.frame pte ≠ f / PAGE_SIZE

theorem FreedUnheld.append (hh : FreedUnheld C m₀ h) (hh' : ∀ pre f post, h' = pre ++ .freed f :: post →
    ∀ di slot pte, Caches C m₀ (h ++ pre) di slot pte → iopte.frame pte ≠ f / PAGE_SIZE) : FreedUnheld C m₀ (h ++ h') := by
  intro pre f post he
  rcases List.append_eq_append_iff.1 he with ⟨x, rfl, hx⟩ | ⟨x, rfl, hx⟩
  · exact hh' x f post hx
  · rcases List.cons_eq_append_iff.1 hx with ⟨rfl, hx⟩ | ⟨x', rfl, hx⟩
    · have := hh' [] f post hx.symm
      simpa using this
    · exact hh pre f x' rfl

/-- the log says what the tables are; no unit holds a stale entry, and none did when a frame it names was freed -/
structure UnitsSafe (C : Config) (m₀ : Mem) (s : KState) : Prop where
  synced : ∀ di, Published C di →
    Access.table (m₀ (C.domainSlots di).l1) (accesses di s.w.history) = s.w.mem (C.domainSlots di).l1
  fresh : ∀ di, Published C di → Access.Fresh Walked (m₀ (C.domainSlots di).l1) (accesses di s.w.history)
  freed : FreedUnheld C m₀ s.w.history

namespace UnitsSafe

theorem start (hh : s.w.history = []) : UnitsSafe C s.w.mem s := by
  refine ⟨fun di _ => ?_, fun di _ slot pte _ hp => ?_, fun pre f post he => ?_⟩
  · rw [hh]
    rfl
  · rw [hh] at hp ⊢
    exact hp
  · rw [hh] at he
    exact absurd he (by simp)

/-- what a unit may hold is in its table -/
theorem shown (hs : UnitsSafe C m₀ s) (hc : Caches C m₀ s.w.history di slot pte) : s.leafAt C di slot = pte := by
  obtain ⟨hdi, hw, hm⟩ := hc
  have htab := hs.fresh di hdi slot pte hw hm
  rw [hs.synced di hdi] at htab
  exact htab

theorem synced_tells (hs : UnitsSafe C m₀ s) (ht : Tells C s h t) (hdi : Published C di) :
    Access.table (m₀ (C.domainSlots di).l1) (accesses di t.w.history) = t.w.mem (C.domainSlots di).l1 := by
  rw [ht.history, accesses_append, Access.table_append, hs.synced di hdi, ht.table di hdi]

/-- the same machine -/
theorem same (hs : UnitsSafe C m₀ s) (hw : t.w = s.w) : UnitsSafe C m₀ t :=
  ⟨by rw [hw]; exact hs.synced, by rw [hw]; exact hs.fresh, by rw [hw]; exact hs.freed⟩

/-- a step that tells the units before it ends -/
theorem settles (hs : UnitsSafe C m₀ s) (ht : Settles C s t) : UnitsSafe C m₀ t := by
  obtain ⟨x, htell, hsettled, hfrees⟩ := ht
  refine ⟨fun di hdi => hs.synced_tells htell hdi, fun di hdi => ?_, ?_⟩
  · rw [htell.history, accesses_append]
    exact (hs.fresh di hdi).settled (hsettled di hdi)
  · rw [htell.history]
    refine hs.freed.append fun pre f post he => absurd ?_ (hfrees f)
    rw [he]
    exact List.mem_append_right _ List.mem_cons_self

/-- frames are freed that no entry names -/
theorem hands (hs : UnitsSafe C m₀ s) (hhist : t.w.history = s.w.history ++ h)
    (hmem : ∀ di, Published C di → t.w.mem (C.domainSlots di).l1 = s.w.mem (C.domainSlots di).l1)
    (hio : ∀ e ∈ h, Event.io e = false)
    (hfree : ∀ f, .freed f ∈ h → ∀ di, Published C di → ∀ slot < 512, Present C s di slot →
      iopte.frame (s.leafAt C di slot) ≠ f / PAGE_SIZE) : UnitsSafe C m₀ t := by
  have hnil : ∀ di, accesses di t.w.history = accesses di s.w.history := fun di => by
    rw [hhist, accesses_append, accesses_nil hio, List.append_nil]
  refine ⟨fun di hdi => ?_, fun di hdi => ?_, ?_⟩
  · rw [hnil, hmem di hdi]
    exact hs.synced di hdi
  · rw [hnil]
    exact hs.fresh di hdi
  · rw [hhist]
    refine hs.freed.append fun pre f post he di slot pte hc => ?_
    have hnone : accesses di pre = [] := accesses_nil (fun e hm => hio e (by rw [he]; exact List.mem_append_left _ hm)) di
    have hpre : accesses di (s.w.history ++ pre) = accesses di s.w.history := by
      rw [accesses_append, hnone, List.append_nil]
    have hc' : Caches C m₀ s.w.history di slot pte := ⟨hc.1, hc.2.1, hpre ▸ hc.2.2⟩
    have hleaf := hs.shown hc'
    have hmem' : .freed f ∈ h := he ▸ List.mem_append_right _ List.mem_cons_self
    rw [← hleaf]
    exact hfree f hmem' di hc.1 slot hc.2.1.1 (by rw [Present, hleaf]; exact hc.2.1.2)

/-- a store over an absent entry -/
theorem store (hs : UnitsSafe C m₀ s) (hC : DomainsOk C) (hdi : Published C di) (habs : ¬Present C s di slot) (pte : Word) :
    UnitsSafe C m₀ (s.storeLeaf C di slot pte) := by
  have htell := Tells.storeLeaf hC hdi s slot pte
  refine ⟨fun dj hdj => hs.synced_tells htell hdj, fun dj hdj => ?_, ?_⟩
  · rw [htell.history, accesses_append]
    by_cases hd : di = dj
    · subst hd
      have hlog : accesses di [.leaf di slot pte] = [.write slot pte] := by simp [accesses, accessOf]
      rw [hlog]
      refine (hs.fresh di hdi).write fun hw => habs ?_
      rw [hs.synced di hdi] at hw
      exact hw.2
    · have hlog : accesses dj [.leaf di slot pte] = [] := by simp [accesses, accessOf, hd]
      rw [hlog, List.append_nil]
      exact hs.fresh dj hdj
  · rw [htell.history]
    refine hs.freed.append fun pre f post he => ?_
    have hm : Event.freed f ∈ [Event.leaf di slot pte] := by
      rw [he]
      exact List.mem_append_right _ List.mem_cons_self
    exact absurd (List.mem_singleton.1 hm) (by simp)

end UnitsSafe

/-! ## What entries name -/

/-- what the boot left in the tables names no frame of `F` -/
def BootUnnamed (C : Config) (F : Multiset ℕ) (m₀ : Mem) : Prop :=
  ∀ di, Published C di → ∀ slot < 512, iopte.present (m₀ (C.domainSlots di).l1 slot) = true →
    ∀ f ∈ F, f / PAGE_SIZE ≠ iopte.frame (m₀ (C.domainSlots di).l1 slot)

theorem PreUserland.unnamed (h : PreUserland A C s) : BootUnnamed C (freeAddrs s.w.fa) s.w.mem :=
  fun di hdi slot hslot hp => (h.window di hdi.1 hdi.2 slot hslot hp).2

/-- an entry names no frame that the kernel gives out, but those of live regions -/
theorem Reaching.unnamed (h : Reaching A C s) (hlow : LowKept C m₀ s) (ha : Accounted F s) (hboot : BootUnnamed C F m₀)
    (hdi : Published C di) (hslot : slot < 512) (hp : Present C s di slot) :
    (∀ f ∈ F, iopte.frame (s.leafAt C di slot) ≠ f / PAGE_SIZE) ∨
      A.iommu = true ∧ ∀ f, Spare F s f → iopte.frame (s.leafAt C di slot) ≠ f / PAGE_SIZE := by
  by_cases hlo : DMA_IOVA_FIRST_SLOT ≤ slot
  · right
    obtain ⟨⟨frame, rights⟩, hm⟩ : ∃ m, (s.domains di).mapped (slot * PAGE_SIZE) = some m := by
      by_contra hc
      refine (h.inStep.matched di hdi slot hlo hslot).absent (Option.eq_none_iff_forall_ne_some.2 fun m hm => hc ⟨m, hm⟩) hp
    obtain ⟨hio, p, x, i, j, hc⟩ := h.claimed di hdi.1 _ frame rights hm
    refine ⟨hio, fun f hf he => ?_⟩
    obtain ⟨g, hg, hpage⟩ := hc.page
    rw [(h.inStep.mapped_present hdi hlo hslot hm).2, hpage] at he
    obtain ⟨hal, -⟩ := ha.account.tracked_lt hf.1
    obtain ⟨-, -, hal', -⟩ := ha.out (Accounted.region_held hc.lt hg)
    have hgf : g = f := by
      simp only [PAGE_SIZE] at hal hal' he
      omega
    exact hf.2 i hc.lt hc.live (hgf ▸ hg)
  · left
    intro f hf he
    have hleaf := hlow di hdi slot (not_le.1 hlo) hp
    rw [Present, hleaf] at hp
    rw [hleaf] at he
    exact hboot di hdi slot hslot hp f hf he.symm

/-! ## The steps of the units -/

namespace UnitsSafe

theorem idle (hs : UnitsSafe C m₀ s) (hr : Reaching A C s) (hlow : LowKept C m₀ s) (ha : Accounted F s)
    (hboot : BootUnnamed C F m₀)
    (ht : Idle A C s t) (hsp : Sparing F s t) : UnitsSafe C m₀ t := by
  obtain ⟨x, hhist, hx⟩ := hsp
  refine hs.hands hhist ht.tables (fun e he => (hx e he).1) fun f hf di hdi slot hslot hp => ?_
  have hspare := (hx _ hf).2 f rfl
  rcases hr.unnamed hlow ha hboot hdi hslot hp with hno | ⟨-, hno⟩
  · exact hno f hspare.1
  · exact hno f hspare

/-- a region's pages are withdrawn everywhere, and the units told: no entry names one -/
theorem withdrawn (hr : Reaching A C s) (hlow : LowKept C m₀ s) (ha : Accounted F s) (hboot : BootUnnamed C F m₀)
    (hC : DomainsOk C)
    {i : ℕ} (hi : i < MAX_REGIONS) (hw : u.w = s.w)
    (hring : RingOnly C (withdrawRegionEverywhere A C (s.regions i).frames u).2 t) (hdi : Published C di) (hslot : slot < 512)
    (hp : Present C t di slot) : ∀ g ∈ (s.regions i).frames, iopte.frame (t.leafAt C di slot) ≠ g / PAGE_SIZE := by
  have hlast : t.leafAt C di slot = (withdrawRegionEverywhere A C (s.regions i).frames u).2.leafAt C di slot :=
    (hring.swept hC).keep di hdi slot hslot fun hc => hc.2
  rw [Present, hlast] at hp
  rw [hlast]
  cases hio : A.iommu with
  | true =>
    have hsw := swept_withdrawRegionEverywhere (A := A) hC hio (s.regions i).frames u
    intro g hg he
    by_cases hc : Present C u di slot ∧ ∃ frame ∈ (s.regions i).frames, iopte.frame (u.leafAt C di slot) = frame / PAGE_SIZE
    · rw [hsw.cut di hdi slot hslot hc.1 hc.2, iopte.not_present_zero] at hp
      exact absurd hp (by decide)
    · have hleaf := hsw.keep di hdi slot hslot hc
      rw [hleaf] at hp he
      exact hc ⟨hp, g, hg, he⟩
  | false =>
    -- nothing is in the windows, and what is below names no frame of a region
    have hleaf : (withdrawRegionEverywhere A C (s.regions i).frames u).2.leafAt C di slot = s.leafAt C di slot := by
      rw [KState.leafAt, KState.leafAt, w_withdrawRegionEverywhere hio, hw]
    rw [hleaf] at hp ⊢
    rcases hr.unnamed hlow ha hboot hdi hslot hp with hno | ⟨hc, -⟩
    · exact fun g hg => hno g (ha.out (Accounted.region_held hi hg)).1
    · exact absurd (hc.symm.trans hio) (by decide)

/-- **A region ends**: the units are told before its frames are freed. -/
theorem retire (hs : UnitsSafe C m₀ s) (hr : Reaching A C s) (hlow : LowKept C m₀ s) (ha : Accounted F s)
    (hboot : BootUnnamed C F m₀) (hC : DomainsOk C) (hA : Armed C) {region i : ℕ} (hsl : s.regionSlot region = some i)
    (hrun : releaseRegion A C region (forgetCaps region s) = .ok ((), t)) : UnitsSafe C m₀ t := by
  have hcaps := capsOnly_forgetCaps region s
  have hslot : (forgetCaps region s).regionSlot region = some i := by rw [regionSlot_congr hcaps.regions]; exact hsl
  have hi := (regionSlot_some hsl).2.1
  have hw := hcaps.w
  have hregs := hcaps.regions
  generalize forgetCaps region s = f at hslot hw hregs hrun
  have hspec : wp (releaseRegion A C region) (fun _ t => ∃ v, Settles C f v ∧
      RingOnly C (withdrawRegionEverywhere A C (f.regions i).frames f).2 v ∧ t = freeRegion i (forgetRecords region v))
      (fun e => e = .ringFull ∧ e = .ringFull) f := by
    rw [releaseRegion, wp_bind, wp_get, hslot]
    simp only [wp_bind, wp_run]
    have hclear : Clears C (fun _ => True) f (A.iommu && (withdrawRegionEverywhere A C (f.regions i).frames f).1,
        (withdrawRegionEverywhere A C (f.regions i).frames f).2) := by
      cases hio : A.iommu with
      | true =>
        rw [Bool.true_and]
        exact clears_everywhere hC _ f
      | false =>
        rw [Bool.false_and]
        exact .none (w_withdrawRegionEverywhere hio _ f)
    exact wp_mono (wp_and (settles_flushIf hC hA hclear) (ringOnly_flushIf _ _)) fun _ v hv => ⟨v, hv.1, hv.2, rfl⟩
  obtain ⟨v, hsettles, hring, rfl⟩ := wp_ok hspec hrun
  have hvs : UnitsSafe C m₀ v := (hs.same hw).settles hsettles
  have hframes : (v.regions i).frames = (s.regions i).frames := by
    rw [hring.regions, (dmaOnly_withdrawRegionEverywhere (C := C) A _ _).regions, hregs]
  rw [hregs] at hring
  refine hvs.hands (h := (s.regions i).frames.map Event.freed) ?_ (fun di hdi => ?_) (fun e he => ?_)
      fun g hg di hdi slot hlt hp => ?_
  · show (v.w.freeFrames (v.regions i).frames).history = _
    rw [Machine.history_freeFrames, hframes]
  · exact congrFun (mem_freeRegion i (forgetRecords region v)) _
  · obtain ⟨g, -, rfl⟩ := List.mem_map.1 he
    rfl
  · obtain ⟨g', hg', he⟩ := List.mem_map.1 hg
    obtain rfl := Event.freed.inj he
    exact withdrawn hr hlow ha hboot hC hi hw hring hdi hlt hp g' hg'

/-- the install loop, if it comes to its end: every page goes to a slot that was absent -/
theorem installed (hs : UnitsSafe C m₀ t) (hC : DomainsOk C) (hdi : Published C di) {ri first n k : ℕ} {rights : CapRights}
    (habs : ∀ j, k ≤ j → j < k + n → ¬Present C t di (first + j)) (hok : (installDma C di ri first rights n k t).1 = true) :
    UnitsSafe C m₀ (installDma C di ri first rights n k t).2 := by
  induction n generalizing k t with
  | zero => exact hs
  | succ n ih =>
    rw [installDma] at hok ⊢
    split at hok
    · exact absurd hok (by simp)
    · rename_i d _
      have hmodel : UnitsSafe C m₀
          ((t.modDomain di fun d => (d.grant ((t.regions ri).frames.getD k 0 / PAGE_SIZE) rights).2).modDomain di fun _ => d) :=
        hs.same rfl
      refine ih (hmodel.store hC hdi (habs k le_rfl (by omega)) _) (fun j hj hjn hp => ?_) hok
      refine habs j (by omega) (by omega) ?_
      rw [Present, leafAt_storeLeaf hC hdi hdi, if_neg (by omega)] at hp
      exact hp

/-- the rollback of the first page stores over the slot it found absent -/
theorem rolledBack (hs : UnitsSafe C m₀ s) (hC : DomainsOk C) (hdi : Published C di) (ri : ℕ) {first : ℕ}
    (habs : ¬Present C s di first) :
    UnitsSafe C m₀ (rollbackDma C di ri first 0 s) := by
  rw [rollbackDma_eq]
  show UnitsSafe C m₀ (revokeIdle di _ (unmapPage C di (first + 0) s))
  have hmodel : UnitsSafe C m₀ (s.modDomain di fun d => d.unmap ((first + 0) * PAGE_SIZE)) := hs.same rfl
  have hone : UnitsSafe C m₀ (unmapPage C di (first + 0) s) := hmodel.store hC hdi habs 0
  refine hone.same ?_
  unfold revokeIdle
  split_ifs <;> rfl

end UnitsSafe

/-! ## Calls that run out of mappings -/

/-- the domain has mappings left, but fewer than the region has pages -/
def Short (s : KState) (di ri : ℕ) : Prop := (s.domains di).reachable.length < 8 ∧ ¬Room s di ri

/-- a call of `map_dma` that comes to its install loop and does not come to the end of it, nor ends at its first page -/
def Overruns (C : Config) (s : KState) (who domain region : ℕ) : Prop :=
  ∃ di ri first rec_, Maps C s who domain region di ri first rec_ ∧ Short s di ri

section Call

variable {domain region ri first rec_ : ℕ} {rights : CapRights} {f : UserFrame}

/-- the first page is mapped exactly if the domain has a mapping left -/
theorem Fits.first_page (h : Fits C di ri first rights s) (hpos : 0 < (s.regions ri).frames.length) :
    (∃ d, ((s.modDomain di fun d => (d.grant (s.pageOf ri 0) rights).2).domains di).map ((first + 0) * PAGE_SIZE)
        (s.pageOf ri 0) rights
      = .ok d) ↔ (s.domains di).reachable.length < 8 := h.map_room hpos h.start rfl

theorem UnitsSafe.mapDma (hs : UnitsSafe C m₀ s) (hr : Reaching A C s) (ha : Accounted F s) (hC : DomainsOk C) (hme : s.Alive me)
    (hcaps : dmaCaps A (s.procs me).caps f = some (domain, region, rights)) (hno : ¬Overruns C s me domain region) :
    UnitsSafe C m₀ (mapDma C me domain region rights s).2 := by
  rcases mapDma_cases hC me domain region rights s with ⟨-, hsame⟩ | ⟨di, ri, first, rec_, hm, hrun⟩
  · rw [hsame]
    exact hs
  have hf := hr.fits ha hme hcaps hm
  by_cases hroom : Room s di ri
  · have hok := (hf.installed_iff hC).2 hroom
    have hsafe := hs.installed hC hm.published (fun j _ hj => hm.absent j (by omega)) hok
    rw [hrun]
    rcases hi : installDma C di ri first rights (s.regions ri).frames.length 0 s with ⟨_ | _, v⟩
    · rw [hi] at hok
      exact absurd hok (by simp)
    · rw [hi] at hsafe
      exact hsafe.same rfl
  · -- there is no mapping left at all, and the first page is rolled back
    have hfull : ¬(s.domains di).reachable.length < 8 := fun hlt => hno ⟨di, ri, first, rec_, hm, hlt, hroom⟩
    have hfirst := mt (hf.first_page hm.pages).1 hfull
    obtain ⟨n, hn⟩ := Nat.exists_eq_succ_of_ne_zero hm.pages.ne'
    rw [hrun, hn, installDma]
    cases hmap : ((s.modDomain di fun d => (d.grant ((s.regions ri).frames.getD 0 0 / PAGE_SIZE) rights).2).domains di).map
        ((first + 0) * PAGE_SIZE) ((s.regions ri).frames.getD 0 0 / PAGE_SIZE) rights with
    | ok d => exact absurd ⟨d, hmap⟩ hfirst
    | error e =>
      have hmodel : UnitsSafe C m₀ (s.modDomain di fun d => (d.grant ((s.regions ri).frames.getD 0 0 / PAGE_SIZE) rights).2) :=
        hs.same rfl
      exact hmodel.rolledBack hC hm.published ri (hm.absent 0 hm.pages)

/-! ### What they leave -/

/-- a step that only stores to domain `di`'s table -/
def Stores (C : Config) (di : ℕ) (s t : KState) : Prop := ∃ x, Tells C s x t ∧ ∀ e ∈ x, ∃ slot pte, e = .leaf di slot pte

namespace Stores

theorem model (hw : t.w = s.w) : Stores C di s t :=
  ⟨[], .silent (by rw [hw]) fun _ _ => by rw [hw], fun _ he => absurd he List.not_mem_nil⟩

theorem trans (h : Stores C di s t) (h' : Stores C di t u) : Stores C di s u := by
  obtain ⟨x, hx, hsx⟩ := h
  obtain ⟨y, hy, hsy⟩ := h'
  exact ⟨x ++ y, hx.trans hy, fun e he => (List.mem_append.1 he).elim (hsx e) (hsy e)⟩

theorem storeLeaf (hC : DomainsOk C) (hdi : Published C di) (s : KState) (slot : ℕ) (pte : Word) :
    Stores C di s (s.storeLeaf C di slot pte) :=
  ⟨_, .storeLeaf hC hdi s slot pte, fun _ he => ⟨slot, pte, List.mem_singleton.1 he⟩⟩

/-- after a change of the model -/
theorem write (hC : DomainsOk C) (hdi : Published C di) (s : KState) (f : Domain → Domain) (slot : ℕ) (pte : Word) :
    Stores C di s ((s.modDomain di f).storeLeaf C di slot pte) :=
  (model (s := s) (t := s.modDomain di f) rfl).trans (storeLeaf hC hdi _ slot pte)

theorem rollbackDma (hC : DomainsOk C) (hdi : Published C di) (ri first k : ℕ) (s : KState) :
    Stores C di s (rollbackDma C di ri first k s) := by
  rw [rollbackDma_eq]
  have hunmap : Stores C di s ((List.range (k + 1)).foldl (fun v j => unmapPage C di (first + j) v) s) :=
    List.foldlRecOn (motive := fun v : KState => Stores C di s v) _ _ (.model rfl) fun v hv j _ =>
      hv.trans (write hC hdi v _ _ _)
  refine List.foldlRecOn (motive := fun v : KState => Stores C di s v) _ _ hunmap fun v hv j _ => hv.trans (.model ?_)
  unfold revokeIdle
  split_ifs <;> rfl

theorem installDma (hC : DomainsOk C) (hdi : Published C di) (ri first : ℕ) (rights : CapRights) (n k : ℕ) (s : KState) :
    Stores C di s (installDma C di ri first rights n k s).2 := by
  induction n generalizing k s with
  | zero => exact .model rfl
  | succ n ih =>
    rw [Kernel.installDma]
    have hgrant : Stores C di s (s.modDomain di fun d => (d.grant ((s.regions ri).frames.getD k 0 / PAGE_SIZE) rights).2) :=
      .model rfl
    split
    · exact hgrant.trans (rollbackDma hC hdi ri first k _)
    · exact (hgrant.trans (write hC hdi _ _ _ _)).trans (ih _ _)

/-- it empties no cache -/
theorem holds (h : Stores C di s t) (hc : Caches C m₀ s.w.history di slot pte) : Caches C m₀ t.w.history di slot pte := by
  obtain ⟨x, hx, hsx⟩ := h
  refine ⟨hc.1, hc.2.1, ?_⟩
  rw [hx.history, accesses_append]
  refine Access.mayHold_append.2 (Or.inl ⟨hc.2.2, fun hf => ?_⟩)
  obtain ⟨e, he, hacc⟩ := List.mem_filterMap.1 hf
  obtain ⟨slot', pte', rfl⟩ := hsx e he
  simp [accessOf] at hacc

end Stores

/-- what a unit's table shows, the unit may hold -/
theorem UnitsSafe.caches (hs : UnitsSafe C m₀ s) (hdi : Published C di) (hslot : slot < 512) (hp : Present C s di slot) :
    Caches C m₀ s.w.history di slot (s.leafAt C di slot) := by
  refine ⟨hdi, ⟨hslot, hp⟩, ?_⟩
  have hlast := Access.mayHold_last (t := m₀ (C.domainSlots di).l1) (l := accesses di s.w.history) (k := slot)
  rw [hs.synced di hdi] at hlast
  exact hlast

/-- **A call that runs out of mappings leaves a stale entry**: the unit may go on translating to the region's first page, which
its table does not show any more. -/
theorem UnitsSafe.stale (hs : UnitsSafe C m₀ s) (hr : Reaching A C s) (ha : Accounted F s) (hC : DomainsOk C) (hme : s.Alive me)
    (hcaps : dmaCaps A (s.procs me).caps f = some (domain, region, rights)) (hover : Overruns C s me domain region) :
    ∃ di ri first rec_, Maps C s me domain region di ri first rec_ ∧
      (Kernel.mapDma C me domain region rights s).1 = syserr.NO_CAP ∧
      Caches C m₀ (Kernel.mapDma C me domain region rights s).2.w.history di first
        (iopte.leaf ((s.regions ri).frames.getD 0 0) rights) ∧
      ¬Present C (Kernel.mapDma C me domain region rights s).2 di first := by
  obtain ⟨di, ri, first₀, rec_, hm₀, hleft, hroom⟩ := hover
  obtain ⟨first, hm, hrun⟩ := hm₀.comes rights
  have hf := hr.fits ha hme hcaps hm
  have hfail := mt (hf.installed_iff hC).1 hroom
  obtain ⟨d, hmap⟩ := (hf.first_page hm.pages).2 hleft
  have hdone := (hf.installDma hC _ 0 (Nat.zero_add _) hf.start).2 (Bool.eq_false_iff.2 hfail)
  have hlt : first < 512 := by
    have := hm.window.2
    have := hm.pages
    omega
  -- the first page is stored, and nothing is said to the unit after that
  obtain ⟨n, hn⟩ := Nat.exists_eq_succ_of_ne_zero hm.pages.ne'
  obtain ⟨v, hv⟩ : ∃ v, v = ((s.modDomain di fun d => (d.grant (s.pageOf ri 0) rights).2).modDomain di fun _ => d).storeLeaf C di
    (first + 0) (iopte.leaf ((s.regions ri).frames.getD 0 0) rights) := ⟨_, rfl⟩
  have hstep : Kernel.installDma C di ri first rights (s.regions ri).frames.length 0 s =
      Kernel.installDma C di ri first rights n 1 v := by
    have hmap' : ((s.modDomain di fun d => (d.grant ((s.regions ri).frames.getD 0 0 / PAGE_SIZE) rights).2).domains di).map
        ((first + 0) * PAGE_SIZE) ((s.regions ri).frames.getD 0 0 / PAGE_SIZE) rights = .ok d := hmap
    rw [hn, Kernel.installDma, hmap', hv]
    rfl
  have hgrant : UnitsSafe C m₀ ((s.modDomain di fun d => (d.grant (s.pageOf ri 0) rights).2).modDomain di fun _ => d) :=
      hs.same rfl
  have hvs : UnitsSafe C m₀ v := hv ▸ hgrant.store hC hm.published (hm.absent 0 hm.pages) _
  have hleaf : v.leafAt C di first = iopte.leaf ((s.regions ri).frames.getD 0 0) rights := by
    rw [hv, leafAt_storeLeaf hC hm.published hm.published, if_pos ⟨rfl, rfl⟩]
  have hheld := hvs.caches hm.published hlt (by rw [Present, hleaf]; exact iopte.present_leaf _ _)
  rw [hleaf] at hheld
  have hlater := (Stores.installDma hC hm.published ri first rights n 1 v).holds hheld
  rw [← hstep] at hlater
  refine ⟨di, ri, first, rec_, hm, ?_⟩
  rw [hrun, if_neg hfail]
  refine ⟨rfl, hlater, fun hp => ?_⟩
  have hmatched := hdone.1.matched di hm.published first hm.window.1 hlt
  refine hmatched.absent ?_ hp
  have hmaps :
      ((Kernel.installDma C di ri first rights (s.regions ri).frames.length 0 s).2.domains di).mapped (first * PAGE_SIZE) =
        (s.domains di).mapped (first * PAGE_SIZE) := congrFun (congrArg Iommu.Reach.maps (hdone.2 di)) _
  have hnone := hf.unmapped hm.pages
  rw [Nat.add_zero] at hnone
  exact hmaps.trans hnone

end Call

/-! ## Runs -/

/-- the states of every run from `s₀` none of whose inputs `G` refuses -/
inductive Admissible (A : Arch) (C : Config) (G : Gate) (s₀ : KState) : KState → Prop where
  | boot {s : KState} : bootUserland A C s₀ = .ok ((), s) → Admissible A C G s₀ s
  | step {s s' : KState} {i : Input} : Admissible A C G s₀ s → Step A C s i s' → G.Admits A s i → Admissible A C G s₀ s'

theorem Admissible.reachable {s₀ : KState} (h : Admissible A C G s₀ s) : Reachable A C s₀ s := by
  induction h with
  | boot h => exact .boot h
  | step _ hstep _ ih => exact .step ih hstep

/-- no `MAP_DMA` that overruns -/
def roomGate (C : Config) : Gate := ⟨fun s me domain region _ => ¬Overruns C s me domain region, fun _ _ => True⟩

theorem UnitsSafe.move (hs : UnitsSafe C m₀ s) (hsound : Sound A C F m₀ s) (hr : Reaching A C s) (hlow : LowKept C m₀ s)
    (hboot : BootUnnamed C F m₀) (hC : DomainsApart A C) (hA : Armed C) (hin : Loader.Inside A C.userElf) (hg : Ground A C F m₀)
    (hm : Move A C (roomGate C) me k s t) : UnitsSafe C m₀ t := by
  have ha := hsound.accounted
  cases hm.unit hsound hC hin hg with
  | idle ht hsp => exact hs.idle hr hlow ha hboot ht hsp
  | mapDma hme _ hcaps hno ht =>
    subst ht
    exact hs.mapDma hr ha hC.toDomainsOk hme hcaps hno
  | unmapDma _ hrun => exact hs.settles (settles_unmapDma hC.toDomainsOk hA hrun)
  | withdrawAll _ hrun => exact hs.settles (settles_withdrawAll hC.toDomainsOk hA hrun)
  | retire hsl hrun => exact hs.retire hr hlow ha hboot hC.toDomainsOk hA hsl hrun
  | revoke hrun => exact hs.settles (settles_revoke (hsound.laid hC.toDomainsOk hg) hA hrun)

section

variable {s₀ : KState} (h₀ : PreUserland A C s₀) (hbar : BarApart A C s₀) (hin : Loader.Inside A C.userElf)
  (hgrants : ∀ role, ∀ g ∈ grantsFor C role, g.1 ≠ .region) (hA : Armed C) (hadm : Admissible A C (roomGate C) s₀ s)

include h₀ hbar hin hgrants hA hadm

theorem Admissible.unitsSafe : UnitsSafe C s₀.w.mem s := by
  have hmove : ∀ {me k s t}, Move A C (roomGate C) me k s t → (Sound A C (freeAddrs s₀.w.fa) s₀.w.mem s ∧ Reaching A C s ∧
      LowKept C s₀.w.mem s) ∧ UnitsSafe C s₀.w.mem s → (Sound A C (freeAddrs s₀.w.fa) s₀.w.mem t ∧ Reaching A C t ∧
      LowKept C s₀.w.mem t) ∧ UnitsSafe C s₀.w.mem t := by
    rintro me k s t hm ⟨⟨h1, h2, h3⟩, h4⟩
    have hg := h₀.ground hbar.toBarOutside
    have hC := h₀.domainsApart hbar
    exact ⟨⟨h1.move hin hgrants hg hm, h2.move h1 hC hin hgrants hg hm, h3.move h1 hC hin hg hm⟩,
      h4.move h1 h2 h3 h₀.unnamed hC hA hin hg hm⟩
  have hinv : (Sound A C (freeAddrs s₀.w.fa) s₀.w.mem s ∧ Reaching A C s ∧ LowKept C s₀.w.mem s) ∧ UnitsSafe C s₀.w.mem s := by
    induction hadm with
    | boot hrun =>
      exact Moves.keep (fun _ _ => hmove) (wp_ok (boot_moves (G := roomGate C) (k := .fresh UserFrame.ZERO) h₀) hrun).1
        ⟨⟨h₀.sound, h₀.reaching, fun _ _ _ _ _ => rfl⟩, .start h₀.unstarted⟩
    | step hs hstep hgate ih => exact Moves.keep (fun _ _ => hmove) (hstep.moves (hs.reachable.ready h₀) hgate).1 ih
  exact hinv.2

/-- **No unit holds a stale translation**, and no frame goes back to the allocator while a unit may translate to it: in every
run in which no `MAP_DMA` overruns, if the unit answers. -/
theorem caches_fresh : (∀ di slot pte, Caches C s₀.w.mem s.w.history di slot pte → s.leafAt C di slot = pte) ∧
    FreedUnheld C s₀.w.mem s.w.history := by
  have hs := hadm.unitsSafe h₀ hbar hin hgrants hA
  exact ⟨fun _ _ _ hc => hs.shown hc, hs.freed⟩

/-- **The condition is exact**: after any such run, a `MAP_DMA` that overruns returns an error, and leaves a unit that may go on
translating to the first page of the region, which its table does not show. -/
theorem overrun_stale (hme : s.Alive me) (hio : A.iommu = true) {f : UserFrame} {domain region : ℕ} {rights : CapRights}
    (hcaps : dmaCaps A (s.procs me).caps f = some (domain, region, rights)) (hover : Overruns C s me domain region) :
    ∃ t, sysMapDma A C me f s = .ok (some (A.frameSetRet f syserr.NO_CAP), t) ∧
      ∃ di ri slot, Caches C s₀.w.mem t.w.history di slot (iopte.leaf ((s.regions ri).frames.getD 0 0) rights) ∧
        s.regionIndex region = some ri ∧ ¬Present C t di slot := by
  have hs := hadm.unitsSafe h₀ hbar hin hgrants hA
  obtain ⟨hr, -⟩ := hadm.reachable.reaching h₀ hbar hin hgrants
  have ha := (hadm.reachable.sound h₀ hbar.toBarOutside hin hgrants).accounted
  obtain ⟨di, ri, first, rec_, hm, hv, hheld, habs⟩ := hs.stale hr ha h₀.domainsOk hme hcaps hover
  have hwp : wp (sysMapDma A C me f) (fun out t => out = some (A.frameSetRet f syserr.NO_CAP) ∧
      t = (mapDma C me domain region rights s).2) (fun _ => False) s := by
    rw [sysMapDma, wp_bind, wp_get, hcaps]
    refine wp_ite (fun hno => absurd (hio.symm.trans hno) (by decide)) fun _ => ?_
    rw [wp_bind, wp_run]
    exact ⟨congrArg (fun v => some (A.frameSetRet f v)) hv, rfl⟩
  cases hrun : sysMapDma A C me f s with
  | error e => exact (wp_error hwp hrun).elim
  | ok r =>
    obtain ⟨out, t⟩ := r
    obtain ⟨rfl, rfl⟩ := wp_ok hwp hrun
    exact ⟨_, rfl, di, ri, first, hheld, hm.index, habs⟩

end

/-! ## Three calls for a region of three pages -/

/-- a domain with room for every region -/
theorem not_overruns {domain region : ℕ} (hroom : ∀ di < MAX_DOMAINS, ∀ ri < MAX_REGIONS, Room s di ri) :
    ¬Overruns C s me domain region := by
  rintro ⟨di, ri, first, rec_, hm, -, hshort⟩
  exact hshort (hroom di hm.published.1 ri (regionIndex_some hm.index).1)

/-- the worker has made a region of three pages -/
def unitWide : KState := outcome (handle X86 oneUnitConfig (.syscall (callFrame sysno.MAKE_REGION 2 3)) unitWorker) unitWorker

/-- it has mapped it once -/
def unitWideOnce : KState := outcome (handle X86 oneUnitConfig (.syscall (callFrame sysno.MAP_DMA 8 13)) unitWide) unitWide

/-- and twice: the domain has two mappings left -/
def unitWideTwice : KState :=
  outcome (handle X86 oneUnitConfig (.syscall (callFrame sysno.MAP_DMA 8 13)) unitWideOnce) unitWideOnce

theorem oneUnitConfig_armed : Armed oneUnitConfig := ⟨by decide, by decide, by decide, fun _ => rfl⟩

theorem Admissible.outcome {s₀ : KState} (hs : Admissible A C G s₀ s) {i : Input} (hen : Enabled A s i)
    (hok : (handle A C i s).toBool = true) (hgate : G.Admits A s i) : Admissible A C G s₀ (outcome (handle A C i s) s) :=
  .step hs ⟨hen, outcome_eq hok⟩ hgate

theorem unitWide_admissible : Admissible X86 oneUnitConfig (roomGate oneUnitConfig) oneUnitState unitWide := by
  have hboot : Admissible X86 oneUnitConfig (roomGate oneUnitConfig) oneUnitState unitBoot :=
    .boot (outcome_eq (by decide +kernel))
  have hconsumer : Admissible X86 oneUnitConfig (roomGate oneUnitConfig) oneUnitState unitConsumer :=
    hboot.outcome (i := .timer UserFrame.ZERO) trivial (by decide +kernel) trivial
  have hworker : Admissible X86 oneUnitConfig (roomGate oneUnitConfig) oneUnitState unitWorker :=
    hconsumer.outcome (i := .timer UserFrame.ZERO) trivial (by decide +kernel) trivial
  have hawake : unitWorker.idling = false := by decide +kernel
  exact hworker.outcome (i := .syscall (callFrame sysno.MAKE_REGION 2 3)) hawake (by decide +kernel)
    ⟨fun hn => absurd hn (by decide +kernel), fun _ => trivial⟩

theorem unitWideTwice_admissible : Admissible X86 oneUnitConfig (roomGate oneUnitConfig) oneUnitState unitWideTwice := by
  have hfirst : ∀ di < MAX_DOMAINS, ∀ ri < MAX_REGIONS, Room unitWide di ri := by
    show ∀ di < MAX_DOMAINS, ∀ ri < MAX_REGIONS, (unitWide.domains di).reachable.length + (unitWide.regions ri).frames.length ≤ 8
    decide +kernel
  have hsecond : ∀ di < MAX_DOMAINS, ∀ ri < MAX_REGIONS, Room unitWideOnce di ri := by
    show ∀ di < MAX_DOMAINS, ∀ ri < MAX_REGIONS,
      (unitWideOnce.domains di).reachable.length + (unitWideOnce.regions ri).frames.length ≤ 8
    decide +kernel
  have hawake : unitWide.idling = false ∧ unitWideOnce.idling = false := by decide +kernel
  have honce : Admissible X86 oneUnitConfig (roomGate oneUnitConfig) oneUnitState unitWideOnce :=
    unitWide_admissible.outcome (i := .syscall (callFrame sysno.MAP_DMA 8 13)) hawake.1 (by decide +kernel)
      ⟨fun _ _ _ _ _ => not_overruns hfirst, fun _ => trivial⟩
  exact honce.outcome (i := .syscall (callFrame sysno.MAP_DMA 8 13)) hawake.2 (by decide +kernel)
    ⟨fun _ _ _ _ _ => not_overruns hsecond, fun _ => trivial⟩

theorem unitWideTwice_fresh : FreedUnheld oneUnitConfig oneUnitState.w.mem unitWideTwice.w.history ∧
    ∃ pte, Caches oneUnitConfig oneUnitState.w.mem unitWideTwice.w.history 0 256 pte ∧
      unitWideTwice.leafAt oneUnitConfig 0 256 = pte := by
  have h := caches_fresh oneUnitConfig_ready oneUnitConfig_apart emptyX86_inside (roleGrants_apart rfl) oneUnitConfig_armed
    unitWideTwice_admissible
  have hs := unitWideTwice_admissible.unitsSafe oneUnitConfig_ready oneUnitConfig_apart emptyX86_inside (roleGrants_apart rfl)
    oneUnitConfig_armed
  have hpub : Published oneUnitConfig 0 := ⟨by decide, by decide⟩
  have hp : iopte.present (unitWideTwice.leafAt oneUnitConfig 0 256) = true := by decide +kernel
  have hc := hs.caches hpub (by decide) hp
  exact ⟨h.2, _, hc, h.1 0 256 _ hc⟩

theorem unitWideTwice_stale : ∃ t, sysMapDma X86 oneUnitConfig 2 (callFrame sysno.MAP_DMA 8 13) unitWideTwice =
      .ok (some (X86.frameSetRet (callFrame sysno.MAP_DMA 8 13) syserr.NO_CAP), t) ∧
    ∃ di slot pte, Caches oneUnitConfig oneUnitState.w.mem t.w.history di slot pte ∧ ¬Present oneUnitConfig t di slot := by
  have hme : unitWideTwice.Alive 2 := ⟨by decide, by decide +kernel⟩
  have hcaps : (dmaCaps X86 (unitWideTwice.procs 2).caps (callFrame sysno.MAP_DMA 8 13)).map (fun x => (x.1, x.2.1)) =
      some (1, 1) := by decide +kernel
  obtain ⟨⟨domain, region, rights⟩, hcaps, he⟩ := Option.map_eq_some_iff.1 hcaps
  obtain ⟨rfl, rfl⟩ := Prod.mk.inj he
  have hm : Maps oneUnitConfig unitWideTwice 2 1 1 0 0 262 2 := by
    refine ⟨by decide, ⟨by decide, by decide⟩, by decide +kernel, by decide +kernel, by decide +kernel, ?_, by decide +kernel⟩
    show ∀ j < (unitWideTwice.regions 0).frames.length, ¬iopte.present (unitWideTwice.leafAt oneUnitConfig 0 (262 + j)) = true
    decide +kernel
  have hshort : Short unitWideTwice 0 0 := by
    show (unitWideTwice.domains 0).reachable.length < 8 ∧
      ¬(unitWideTwice.domains 0).reachable.length + (unitWideTwice.regions 0).frames.length ≤ 8
    decide +kernel
  obtain ⟨t, hrun, di, ri, slot, hc, -, hp⟩ := overrun_stale oneUnitConfig_ready oneUnitConfig_apart emptyX86_inside
    (roleGrants_apart rfl)
    oneUnitConfig_armed unitWideTwice_admissible hme rfl hcaps ⟨0, 0, 262, 2, hm, hshort⟩
  exact ⟨t, hrun, di, slot, _, hc, hp⟩

end Rustproof.Kernel
