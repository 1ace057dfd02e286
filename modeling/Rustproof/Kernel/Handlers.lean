/-
Every handler is a sequence of moves.

`RegionIds` is the one fact about the state this needs beyond the run queue: live regions have distinct, nonzero
identities, so a teardown plan's releases empty exactly the table entries it was made for.
- `wp_destroy`, `wp_teardown`: the moves a plan is carried out with, and what is left of the region table.
- `handle_moves`: one input. A run that ends does not end for a leak unless the final verdict says so.
-/
import Rustproof.Crates.Teardown
import Rustproof.Kernel.SpaceEffect

namespace Rustproof.Kernel

open Lib Prog

variable {A : Arch} {C : Config} {G : Gate} {me : ℕ} {tr : Trap}

/-- live regions have distinct identities, none of them 0, all of them given out before -/
structure RegionIds (s : KState) : Prop where
  next : s.nextRegionId ≠ 0
  below : ∀ i < MAX_REGIONS, (s.regions i).live = true → (s.regions i).id < s.nextRegionId
  pos : ∀ i < MAX_REGIONS, (s.regions i).live = true → (s.regions i).id ≠ 0
  inj : ∀ i < MAX_REGIONS, ∀ j < MAX_REGIONS, (s.regions i).live = true → (s.regions j).live = true →
    (s.regions i).id = (s.regions j).id → i = j

theorem regionIndex_some {s : KState} {id i : ℕ} (h : s.regionIndex id = some i) :
    i < MAX_REGIONS ∧ (s.regions i).live = true ∧ (s.regions i).id = id := by
  obtain ⟨hlt, hp, -⟩ := firstIdx_some h
  simp only [Bool.and_eq_true, beq_iff_eq] at hp
  exact ⟨hlt, hp.1, hp.2⟩

theorem regionSlot_some {s : KState} {id i : ℕ} (h : s.regionSlot id = some i) :
    id ≠ 0 ∧ i < MAX_REGIONS ∧ (s.regions i).live = true ∧ (s.regions i).id = id := by
  rw [KState.regionSlot] at h
  split_ifs at h with h0
  exact ⟨h0, regionIndex_some h⟩

theorem RegionIds.slot {s : KState} (h : RegionIds s) {i : ℕ} (hi : i < MAX_REGIONS) (hl : (s.regions i).live = true) :
    s.regionSlot (s.regions i).id = some i := by
  rw [KState.regionSlot, if_neg (h.pos i hi hl)]
  obtain ⟨j, hj⟩ := firstIdx_isSome (p := fun k => (s.regions k).live && (s.regions k).id == (s.regions i).id) hi
    (by simp [hl])
  obtain ⟨hlt, hp, -⟩ := firstIdx_some hj
  simp only [Bool.and_eq_true, beq_iff_eq] at hp
  rw [KState.regionIndex, hj, h.inj j hlt i hi hp.1 hl hp.2]

theorem regionSlot_congr {s s' : KState} (h : s'.regions = s.regions) (id : ℕ) : s'.regionSlot id = s.regionSlot id := by
  rw [KState.regionSlot, KState.regionSlot, KState.regionIndex, KState.regionIndex, h]

/-! ## The end of one region -/

/-- a step that empties capability slots and drops the edges naming them -/
structure CapsOnly (s s' : KState) : Prop where
  proc : ∀ p, ∃ c, s'.procs p = { s.procs p with caps := c }
  rest : ∃ procs ledger, s' = { s with procs := procs, ledger := ledger }

namespace CapsOnly

theorem refl (s : KState) : CapsOnly s s := ⟨fun _ => ⟨_, rfl⟩, s.procs, s.ledger, rfl⟩

theorem trans {s t u : KState} (h : CapsOnly s t) (h' : CapsOnly t u) : CapsOnly s u := by
  refine ⟨fun p => ?_, ?_⟩
  · obtain ⟨c, hc⟩ := h.proc p
    obtain ⟨c', hc'⟩ := h'.proc p
    exact ⟨c', by rw [hc', hc]⟩
  · obtain ⟨pr, l, rfl⟩ := h.rest
    obtain ⟨pr', l', rfl⟩ := h'.rest
    exact ⟨pr', l', rfl⟩

theorem foldl {α : Type} {f : KState → α → KState} {bs : List α} (hf : ∀ b ∈ bs, ∀ s, CapsOnly s (f s b)) (s : KState) :
    CapsOnly s (bs.foldl f s) := by
  induction bs generalizing s with
  | nil => exact refl s
  | cons b bs ih =>
    exact (hf b List.mem_cons_self s).trans (ih (fun c hc => hf c (List.mem_cons_of_mem _ hc)) _)

variable {s t : KState} (h : CapsOnly s t)

include h

theorem regions : t.regions = s.regions := by obtain ⟨_, _, rfl⟩ := h.rest; rfl

theorem w : t.w = s.w := by obtain ⟨_, _, rfl⟩ := h.rest; rfl

theorem steady : Steady s t := by
  refine Steady.of_same (fun p => ?_) (fun p => ?_) ?_ ?_ ?_ (Or.inl ?_) ?_ fun i hi => by rwa [h.w] at hi
  · obtain ⟨c, hc⟩ := h.proc p; rw [hc]
  · obtain ⟨c, hc⟩ := h.proc p; rw [hc]
  · obtain ⟨_, _, rfl⟩ := h.rest; rfl
  · obtain ⟨_, _, rfl⟩ := h.rest; rfl
  · obtain ⟨_, _, rfl⟩ := h.rest; rfl
  · rw [KState.cr3, h.w]
  · obtain ⟨c, hc⟩ := h.proc s.current; rw [hc]

end CapsOnly

theorem capsOnly_forgetCap (region p : ℕ) (s : KState) (c : ℕ) : CapsOnly s (forgetCap region p s c) := by
  rw [forgetCap]
  split_ifs
  · refine ⟨fun q => ?_, _, _, rfl⟩
    simp only [KState.modProc_procs, Table.put_apply]
    by_cases hq : q = p
    · subst hq; rw [if_pos rfl]; exact ⟨_, rfl⟩
    · rw [if_neg hq]; exact ⟨_, rfl⟩
  · exact CapsOnly.refl s

theorem capsOnly_forgetCaps (region : ℕ) (s : KState) : CapsOnly s (forgetCaps region s) := by
  refine CapsOnly.foldl (fun p _ s => ?_) s
  split_ifs
  · exact CapsOnly.foldl (fun c _ s => capsOnly_forgetCap region p s c) s
  · exact CapsOnly.refl s

theorem procs_clearIoMappingsIn (di pfn : ℕ) (s : KState) : (clearIoMappingsIn C di pfn s).2.procs = s.procs := by
  rw [clearIoMappingsIn]
  split_ifs
  · rfl
  · refine forAny_keep (I := fun t : KState => t.procs = s.procs) (fun slot _ t ht => ?_) rfl
    rw [clearSlot]
    split_ifs
    · exact ht
    · exact ht

theorem procs_clearIoMappingsOf (pfn : ℕ) (s : KState) : (clearIoMappingsOf C pfn s).2.procs = s.procs :=
  forAny_keep (I := fun t : KState => t.procs = s.procs) (fun di _ t ht => (procs_clearIoMappingsIn di pfn t).trans ht) rfl

theorem procs_withdrawRegionEverywhere (frames : List ℕ) (s : KState) :
    (withdrawRegionEverywhere A C frames s).2.procs = s.procs := by
  refine forAny_keep (I := fun t : KState => t.procs = s.procs) (fun frame _ t ht => ?_) rfl
  refine List.foldlRecOn (motive := fun x : KState => x.procs = s.procs) _ _ ?_ fun y hy _ _ => hy
  split_ifs
  · exact (procs_clearIoMappingsOf _ t).trans ht
  · exact ht

/-- a release: the device's reach goes, then the records, then the frames -/
theorem releaseRegion_spec {s : KState} {region i : ℕ} (h : s.regionSlot region = some i) :
    wp (releaseRegion A C region) (fun _ s' => ∃ t, DmaOnly C s t ∧
      (∀ p k, (t.procs p).dma k = (s.procs p).dma k ∨ (t.procs p).dma k = (0, 0)) ∧ s' = freeRegion i t)
      (· = .ringFull) s := by
  rw [releaseRegion, wp_bind, wp_get]
  simp only [h, wp_bind, wp_run]
  refine wp_mono (ringOnly_flushIf _ _) fun _ t ht => ⟨forgetRecords region t, ?_, fun p k => ?_, rfl⟩
  · exact ((dmaOnly_withdrawRegionEverywhere A _ s).trans ht.dmaOnly).trans (dmaOnly_forgetRecords region t)
  · have hp : t.procs = s.procs := ht.procs.trans (procs_withdrawRegionEverywhere _ s)
    rw [forgetRecords]
    simp only [hp]
    split_ifs
    · simp only; split_ifs
      · exact Or.inr rfl
      · exact Or.inl rfl
    · exact Or.inl rfl

theorem steady_freeFrames (s : KState) (fs : List ℕ) (regions : Table Region) :
    Steady s { s with w := s.w.freeFrames fs, regions := regions } := by
  refine Steady.of_control rfl rfl rfl rfl (Machine.cr3_freeFrames s.w fs) fun j hj => ?_
  have hj' : Event.queued j false ∈ (s.w.freeFrames fs).history := hj
  rw [Machine.history_freeFrames] at hj'
  rcases List.mem_append.1 hj' with hj' | hj'
  · exact hj'
  · simp at hj'

theorem steady_freeRegion (i : ℕ) (s : KState) : Steady s (freeRegion i s) := steady_freeFrames s _ _

/-! ## Plans -/

/-- where carrying out a plan made in `s` has come to: the regions `done` are gone, and nothing was mapped meanwhile -/
structure Along (A : Arch) (C : Config) (G : Gate) (me : ℕ) (tr : Trap) (s : KState) (done : List ℕ) (t : KState) :
    Prop where
  moves : Moves A C G me tr s t
  steady : Steady s t
  ids : ∀ p, (t.procs p).id = (s.procs p).id
  regions : ∀ i < MAX_REGIONS, t.regions i =
    if (s.regions i).live = true ∧ (s.regions i).id ∈ done then Region.EMPTY else s.regions i
  shares : ∀ p k, (t.procs p).shares k = (s.procs p).shares k ∨ (t.procs p).shares k = 0
  dma : ∀ p k, (t.procs p).dma k = (s.procs p).dma k ∨ (t.procs p).dma k = (0, 0)

namespace Along

variable {s t u : KState} {done : List ℕ}

theorem start (s : KState) : Along A C G me tr s [] s :=
  ⟨.refl, Steady.refl s, fun _ => rfl, fun i _ => by simp, fun _ _ => Or.inl rfl, fun _ _ => Or.inl rfl⟩

theorem unmapShare (h : Along A C G me tr s done t) {p k : ℕ} (hp : s.Alive p) (hk : k < SHARE_SLOTS) :
    Along A C G me tr s done (unmapShareSlot A p k t) ∧ ((unmapShareSlot A p k t).procs p).shares k = 0 ∧
      ∀ q j, ((unmapShareSlot A p k t).procs q).shares j = (t.procs q).shares j ∨
        ((unmapShareSlot A p k t).procs q).shares j = 0 := by
  have hs := spaceOnly_unmapShareSlot A t p k
  have hshares : ∀ q j, ((unmapShareSlot A p k t).procs q).shares j =
      if q = p ∧ j = k then 0 else (t.procs q).shares j := by
    intro q j
    rw [unmapShareSlot]
    split_ifs with h0 hc hc
    · rw [hc.1, hc.2]; exact h0
    · rfl
    · simp [emptySlot, hc.1, hc.2]
    · simp only [emptySlot, KState.activateIfCurrent_procs, KState.modProc_procs, KState.unmapPages_procs, Table.put_apply]
      by_cases hq : q = p
      · subst hq
        rw [if_pos rfl]
        exact Table.put_of_ne _ (fun hj => hc ⟨rfl, hj⟩) _
      · rw [if_neg hq]
  have hmono : ∀ q j, ((unmapShareSlot A p k t).procs q).shares j = (t.procs q).shares j ∨
      ((unmapShareSlot A p k t).procs q).shares j = 0 := fun q j => by
    rw [hshares q j]
    split_ifs
    · exact Or.inr rfl
    · exact Or.inl rfl
  refine ⟨⟨h.moves.tail (.unmapShare (h.steady.alive.2 hp) hk), h.steady.trans hs.steady,
    fun q => (Process.id_eq (hs.authority q)).trans (h.ids q), fun i hi => by rw [hs.regions]; exact h.regions i hi,
    fun q j => ?_, fun q j => by rw [hs.dma q]; exact h.dma q j⟩, by rw [hshares]; simp, hmono⟩
  rcases hmono q j with hj | hj
  · rw [hj]; exact h.shares q j
  · exact Or.inr hj

/-- the unmappings of a plan -/
theorem unmaps (h : Along A C G me tr s done t) {ps : List (ℕ × ℕ)} {region : ℕ}
    (hps : ∀ x ∈ ps, s.Alive x.1 ∧ x.2 < SHARE_SLOTS) :
    wp (forEach (ps.map fun x => Regions.Step.unmap x.1 x.2 region) (runStep A C))
      (fun _ u => Along A C G me tr s done u ∧ (∀ x ∈ ps, (u.procs x.1).shares x.2 = 0) ∧
        ∀ q j, (u.procs q).shares j = (t.procs q).shares j ∨ (u.procs q).shares j = 0) (· = .ringFull) t := by
  induction ps generalizing t with
  | nil => exact ⟨h, by simp, fun _ _ => Or.inl rfl⟩
  | cons x ps ih =>
    obtain ⟨hp, hk⟩ := hps x List.mem_cons_self
    obtain ⟨h1, h2, h3⟩ := h.unmapShare hp hk
    simp only [List.map_cons, forEach, wp_bind', runStep, wp_modify]
    refine wp_mono (ih h1 fun y hy => hps y (List.mem_cons_of_mem _ hy)) fun _ u hu => ?_
    obtain ⟨h4, h5, h6⟩ := hu
    refine ⟨h4, ?_, fun q j => ?_⟩
    · rintro y (_ | ⟨_, hy⟩)
      · rcases h6 x.1 x.2 with hx | hx
        · rw [hx, h2]
        · exact hx
      · exact h5 y hy
    · rcases h6 q j with hj | hj
      · rw [hj]; exact h3 q j
      · exact Or.inr hj

/-- the end of one region of the plan -/
theorem retire (hids : RegionIds s) (h : Along A C G me tr s done t) {i : ℕ} (hi : i < MAX_REGIONS)
    (hl : (s.regions i).live = true) (hnot : (s.regions i).id ∉ done)
    (hme : s.Alive me) (hown : (s.regions i).ownerId = (s.procs me).id)
    (hun : ∀ p, t.Alive p → ∀ k < SHARE_SLOTS, (t.procs p).shares k ≠ (s.regions i).id) :
    wp (forEach [Regions.Step.forgetCaps (s.regions i).id, .release (s.regions i).id] (runStep A C))
      (fun _ u => Along A C G me tr s (done ++ [(s.regions i).id]) u) (· = .ringFull) t := by
  set r := (s.regions i).id with hr
  have hti : t.regions i = s.regions i := by rw [h.regions i hi, if_neg fun hc => hnot hc.2]
  have hsl : t.regionSlot r = some i := by
    have hpos := hids.pos i hi hl
    rw [KState.regionSlot, if_neg (by rw [hr]; exact hpos)]
    obtain ⟨j, hj⟩ := firstIdx_isSome (p := fun k => (t.regions k).live && (t.regions k).id == r) hi
      (by rw [hti]; simp [hl, hr])
    obtain ⟨hjl, hp, -⟩ := firstIdx_some hj
    rw [KState.regionIndex, hj]
    rw [h.regions j hjl] at hp
    split_ifs at hp with hc
    · simp [Region.EMPTY] at hp
    · simp only [Bool.and_eq_true, beq_iff_eq] at hp
      rw [hids.inj j hjl i hi hp.1 hl (hp.2.trans hr)]
  have hcaps := capsOnly_forgetCaps r t
  have hsl' : (forgetCaps r t).regionSlot r = some i := by rw [regionSlot_congr hcaps.regions]; exact hsl
  simp only [forEach, wp_bind', runStep, wp_modify]
  refine wp_imp (releaseRegion_spec (A := A) (C := C) hsl') (fun _ u hrun hu => ?_) fun _ => id
  obtain ⟨v, hdma, hdrop, rfl⟩ := hu
  have hproc : ∀ p, ∃ c d, v.procs p = { t.procs p with caps := c, dma := d } := fun p => by
    obtain ⟨c, hc⟩ := hcaps.proc p
    obtain ⟨d, hd⟩ := hdma.proc p
    exact ⟨c, d, by rw [hd, hc]⟩
  refine ⟨h.moves.tail (.retire (h.steady.alive.2 hme) hsl (by rw [hti, h.ids]; exact hown) hun hrun), ?_,
    fun p => ?_, fun j hj => ?_, fun p k => ?_, fun p k => ?_⟩
  · refine h.steady.trans ((hcaps.steady.trans hdma.steady).trans (steady_freeRegion i v))
  · obtain ⟨c, d, hp⟩ := hproc p
    show (v.procs p).id = _
    rw [hp]; exact h.ids p
  · show v.regions.put i Region.EMPTY j = _
    rw [hdma.regions, hcaps.regions, Table.put_apply]
    by_cases hji : j = i
    · subst hji
      rw [if_pos rfl, if_pos ⟨hl, List.mem_append_right _ (List.mem_singleton_self _)⟩]
    · rw [if_neg hji, h.regions j hj]
      refine if_congr ⟨fun hc => ⟨hc.1, List.mem_append_left _ hc.2⟩, fun hc => ⟨hc.1, ?_⟩⟩ rfl rfl
      rcases List.mem_append.1 hc.2 with hd | hd
      · exact hd
      · exact absurd (hids.inj j hj i hi hc.1 hl (List.mem_singleton.1 hd)) hji
  · obtain ⟨c, d, hp⟩ := hproc p
    show (v.procs p).shares k = _ ∨ (v.procs p).shares k = 0
    rw [hp]; exact h.shares p k
  · show (v.procs p).dma k = _ ∨ (v.procs p).dma k = _
    obtain ⟨c, hc⟩ := hcaps.proc p
    rcases hdrop p k with hk | hk
    · rw [hk, hc]; exact h.dma p k
    · exact Or.inr hk

/-- the steps that destroy one region -/
theorem destroySteps (hids : RegionIds s) (h : Along A C G me tr s done t) {i : ℕ} (hi : i < MAX_REGIONS)
    (hl : (s.regions i).live = true) (hnot : (s.regions i).id ∉ done) (hme : s.Alive me)
    (hown : (s.regions i).ownerId = (s.procs me).id) :
    wp (forEach (Regions.destroySteps (regionView s) (s.regions i).id) (runStep A C))
      (fun _ u => Along A C G me tr s (done ++ [(s.regions i).id]) u) (· = .ringFull) t := by
  have hpos := hids.pos i hi hl
  have hview : ∀ p, ((regionView s).holders p).live = true ↔ s.live p = true := fun p => by
    simp only [regionView]; split_ifs with hp <;> simp [hp, Regions.Holder.FREE]
  have hslots : ∀ p, s.live p = true → ((regionView s).holders p).slots = (s.procs p).shares := fun p hp => by
    simp only [regionView, hp, if_true]
  rw [Regions.destroySteps, wp_forEach_append]
  refine wp_mono (h.unmaps fun x hx => ?_) fun _ u hu => ?_
  · obtain ⟨h1, h2, h3, -⟩ := Regions.mem_holdersOf.1 hx
    exact ⟨⟨h1, (hview x.1).1 h3⟩, h2⟩
  · obtain ⟨h1, h2, h3⟩ := hu
    refine h1.retire hids hi hl hnot hme hown fun p hp k hk he => ?_
    -- who still maps the region mapped it when the plan was made, and was unmapped
    have hps : s.Alive p := h1.steady.alive.1 hp
    have hsame : (s.procs p).shares k = (s.regions i).id := by
      rcases h1.shares p k with hq | hq
      · rw [← hq]; exact he
      · rw [he] at hq; exact absurd hq hpos
    have := h2 (p, k) (Regions.mem_holdersOf.2 ⟨hps.1, hk, (hview p).2 hps.2, by rw [hslots p hps.2]; exact hsame, hpos⟩)
    rw [he] at this
    exact hpos this

theorem destroyAll (hids : RegionIds s) (hme : s.Alive me) {is : List ℕ} (h : Along A C G me tr s done t)
    (his : ∀ i ∈ is, i < MAX_REGIONS ∧ (s.regions i).live = true ∧ (s.regions i).ownerId = (s.procs me).id ∧
      (s.regions i).id ∉ done) (hnd : is.Nodup) :
    wp (forEach ((is.map fun i => (s.regions i).id).flatMap (Regions.destroySteps (regionView s))) (runStep A C))
      (fun _ u => Along A C G me tr s (done ++ is.map fun i => (s.regions i).id) u) (· = .ringFull) t := by
  induction is generalizing done t with
  | nil => simpa [forEach] using h
  | cons i is ih =>
    obtain ⟨hi, hl, hown, hnot⟩ := his i List.mem_cons_self
    obtain ⟨hni, hnd⟩ := List.nodup_cons.1 hnd
    rw [List.map_cons, List.flatMap_cons, wp_forEach_append]
    refine wp_mono (h.destroySteps hids hi hl hnot hme hown) fun _ u hu => ?_
    rw [List.append_cons]
    refine ih hu (fun j hj => ?_) hnd
    obtain ⟨hj1, hj2, hj4, hj3⟩ := his j (List.mem_cons_of_mem _ hj)
    refine ⟨hj1, hj2, hj4, fun hc => ?_⟩
    rcases List.mem_append.1 hc with hc | hc
    · exact hj3 hc
    · exact hni (hids.inj j hj1 i hi hj2 hl (List.mem_singleton.1 hc) ▸ hj)

end Along

theorem isLive_view {s : KState} {i : ℕ} (hi : i < MAX_REGIONS) (hl : (s.regions i).live = true) :
    Regions.isLive (regionView s) (s.regions i).id = true :=
  anyIdx_iff.2 ⟨i, hi, by simp [regionView, hl]⟩

/-- the planner sees live regions with identities of their own -/
theorem RegionIds.distinct {s : KState} (h : RegionIds s) : Regions.DistinctIds (regionView s) := by
  intro i hi j hj hil hjl he
  simp only [regionView] at hil hjl he
  split_ifs at hil hjl he with h1 h2
  · exact h.inj i hi j hj h1 h2 he
  all_goals simp [Regions.Region.EMPTY] at hil hjl

theorem planSteps_le : MAX_PROCS * SHARE_SLOTS + 2 * MAX_REGIONS ≤ PLAN_STEPS := Nat.le_add_right _ _

variable (tr) in
/-- **Destroying a region** takes exactly it out of the table. -/
theorem wp_destroy {s : KState} (hids : RegionIds s) (hme : s.Alive me) {i : ℕ} (hi : i < MAX_REGIONS)
    (hl : (s.regions i).live = true) (hown : (s.regions i).ownerId = (s.procs me).id) :
    wp (destroyRegion A C i) (fun _ t => Along A C G me tr s [(s.regions i).id] t)
      (· = .ringFull) s := by
  rw [destroyRegion, wp_bind, wp_get, runRegionPlan]
  have ht := (Regions.plans_fit (regionView s) hids.distinct planSteps_le).1 (s.regions i).id
  refine wp_ite (fun hc => absurd (hc.symm.trans ht) (by decide)) fun _ => ?_
  rw [Regions.destroy_steps (hids.pos i hi hl) (isLive_view hi hl) ht]
  have h0 : Along A C G me tr s [] s := Along.start s
  exact wp_mono (h0.destroySteps hids hi hl (by simp) hme hown) fun _ _ h => h

variable (tr) in
/-- **The teardown plan** leaves no region of the dying process. -/
theorem wp_teardown {s : KState} (hids : RegionIds s) (hme : s.Alive me) :
    wp (destroyRegionsOwnedBy A C me (s.procs me).id)
      (fun _ t => ∃ done, Along A C G me tr s done t ∧ ∀ i < MAX_REGIONS, (t.regions i).live = true →
        (t.regions i).ownerId ≠ (t.procs me).id) (· = .ringFull) s := by
  rw [destroyRegionsOwnedBy, wp_bind, wp_get, runRegionPlan]
  have ht := (Regions.plans_fit (regionView s) hids.distinct planSteps_le).2 me (s.procs me).id
  refine wp_ite (fun hc => absurd (hc.symm.trans ht) (by decide)) fun _ => ?_
  set owned := (List.range MAX_REGIONS).filter fun i => (s.regions i).live && (s.regions i).ownerId == (s.procs me).id
  have hmem : ∀ i, i ∈ owned ↔ i < MAX_REGIONS ∧ (s.regions i).live = true ∧ (s.regions i).ownerId = (s.procs me).id :=
    fun i => by simp [owned]
  have hown : Regions.ownedBy (regionView s) (s.procs me).id = owned.map fun i => (s.regions i).id := by
    rw [Regions.ownedBy]
    have hf : ((List.range MAX_REGIONS).filter fun i => ((regionView s).regions i).live &&
        ((regionView s).regions i).owner == (s.procs me).id) = owned := by
      refine List.filter_congr fun i _ => ?_
      simp only [regionView]
      split_ifs with hl
      · simp [hl]
      · simp [hl, Regions.Region.EMPTY]
    rw [hf]
    refine List.map_congr_left fun i hi => ?_
    simp [regionView, ((hmem i).1 hi).2.1]
  obtain ⟨rest, hsteps, hrest⟩ := Regions.teardown_steps (fun r hr => by
    rw [hown] at hr
    obtain ⟨i, hi, rfl⟩ := List.mem_map.1 hr
    obtain ⟨h1, h2, -⟩ := (hmem i).1 hi
    exact ⟨hids.pos i h1 h2, isLive_view h1 h2⟩) ht
  rw [hsteps, hown, wp_forEach_append]
  have hnd : owned.Nodup := List.Nodup.filter _ List.nodup_range
  have h0 : Along A C G me tr s [] s := Along.start s
  refine wp_imp (h0.destroyAll hids hme (fun i hi => ⟨((hmem i).1 hi).1, ((hmem i).1 hi).2.1, ((hmem i).1 hi).2.2, by simp⟩) hnd)
    (fun _ t _ h => ?_) fun _ => id
  -- what remains is unmapping the dying process's own slots
  have hloop : wp (forEach rest (runStep A C))
      (fun _ t => Along A C G me tr s (owned.map fun i => (s.regions i).id) t) (· = .ringFull) t := by
    refine wp_forEach (fun st hst u hu => ?_) (by simpa using h)
    obtain ⟨k, hk, r, rfl, hlt, hlive⟩ := hrest st hst
    exact (hu.unmapShare hme hk).1
  refine wp_mono hloop fun _ u hu => ⟨_, hu, fun i hi hl => ?_⟩
  rw [hu.regions i hi] at hl ⊢
  rw [hu.ids]
  split_ifs at hl ⊢ with hc
  · simp [Region.EMPTY] at hl
  · intro he
    exact hc ⟨hl, List.mem_map.2 ⟨i, (hmem i).2 ⟨hi, hl, he⟩, rfl⟩⟩

end Rustproof.Kernel
