/-
Who may map a region for a device.

`MAP_DMA` asks for two capabilities of one process, a domain and a region. A child starts with the one capability it was
handed, so whoever was handed a region has no domain: of the processes with a domain capability only the one that made a
region has a capability for it, and that is the one it was given when it made it (`OneHolder`). Every move keeps this
(`OneHolder.move`); `Move.capStep` sorts the moves by what they do to capability spaces.
-/
import Rustproof.Kernel.Accounts
import Rustproof.Kernel.Sole

namespace Rustproof.Kernel

open Lib Prog

variable {A : Arch} {C : Config} {G : Gate} {me : ℕ} {k : Trap} {s t : KState}

/-- `p` has a capability for some domain, and in slot `i` one for region `id` -/
structure MapsWith (s : KState) (p i id : ℕ) (rights : CapRights) : Prop where
  alive : s.Alive p
  domain : ∃ j b, (s.procs p).caps.lookup j = some b ∧ b.capType = .iommuDomain
  region : (s.procs p).caps.lookup i = some ⟨.region, rights, id⟩

/-- a region has one capability among the processes that have one for a domain -/
def OneHolder (s : KState) : Prop :=
  ∀ id p i r q j r', MapsWith s p i id r → MapsWith s q j id r' → p = q ∧ i = j

/-! ## What a move does to capability spaces -/

/-- nobody gets a capability, but `me` for a region it has made, or a process that has just come: what it was handed is a
region only if it is all it has -/
inductive CapStep (me : ℕ) (s t : KState) : Prop where
  | fewer : Fewer s t → CapStep me s t
  | made {pages v : ℕ} {rights : CapRights} : s.Alive me → makeRegion me pages rights s = .ok (v, t) → CapStep me s t
  | came {slot : ℕ} : s.live slot = false → (∀ q, q ≠ slot → t.procs q = s.procs q) →
      (∀ i c, (t.procs slot).caps.lookup i = some c → c.capType = .region →
        ∀ j b, (t.procs slot).caps.lookup j = some b → j = i) → CapStep me s t

/-- the processes a load leaves: the others as they were, the newcomer with the grants of its role -/
theorem procs_loaded {slot id : ℕ} {role : Role} (hrun : loadProcess A C slot id role s = .ok (true, t)) :
    (∀ q, q ≠ slot → t.procs q = s.procs q) ∧ (t.procs slot).caps = mintGrants A C role := by
  rcases wp_ok (loadProcess_spec slot id role s) hrun with ⟨hf, -⟩ | ⟨-, token, entry, r, -, rfl⟩
  · exact absurd hf (by decide)
  refine ⟨fun q hq => ?_, ?_⟩
  · rw [KState.record_procs, KState.modProc_procs, Table.put_of_ne _ hq]
  · rw [KState.record_procs, KState.modProc_procs, Table.put_self]
    rfl

/-- a child has one capability at most -/
theorem procs_handOver {slot arg childId : ℕ} {c : Capabilities.CapSlot}
    (hnew : (s.procs slot).caps = Capabilities.CapSpace.new) :
    (∀ q, q ≠ slot → (handOver me slot arg childId c s).procs q = s.procs q) ∧
      ∀ i b j d, ((handOver me slot arg childId c s).procs slot).caps.lookup i = some b →
        ((handOver me slot arg childId c s).procs slot).caps.lookup j = some d → j = i := by
  rw [handOver]
  cases hins : (s.procs slot).caps.insert c.capType c.rights c.object with
  | none =>
    refine ⟨fun q _ => rfl, fun i b j d hi _ => ?_⟩
    rw [hnew, Capabilities.CapSpace.lookup_new] at hi
    exact absurd hi (by simp)
  | some out =>
    obtain ⟨idx, caps⟩ := out
    obtain ⟨-, -, -, -, -, -, hold⟩ := Capabilities.CapSpace.insert_some hins
    have honly : ∀ i b, caps.lookup i = some b → i = idx := by
      intro i b hi
      by_contra hne
      rw [hold i hne, hnew, Capabilities.CapSpace.lookup_new] at hi
      exact absurd hi (by simp)
    have hproc : ∀ q, (s.modProc slot fun p => { p with caps := caps }).procs q =
        if q = slot then { s.procs slot with caps := caps } else s.procs q := fun q => Table.put_apply _ _ _ _
    refine ⟨fun q hq => ?_, fun i b j d hi hj => ?_⟩
    · exact (hproc q).trans (if_neg hq)
    · have hslot := (hproc slot).trans (if_pos rfl)
      have hi' : ((s.modProc slot fun p => { p with caps := caps }).procs slot).caps.lookup i = some b := hi
      have hj' : ((s.modProc slot fun p => { p with caps := caps }).procs slot).caps.lookup j = some d := hj
      rw [hslot] at hi' hj'
      rw [honly i b hi', honly j d hj']

theorem fewer_retire {region i : ℕ} (hsl : s.regionSlot region = some i)
    (hrun : releaseRegion A C region (forgetCaps region s) = .ok ((), t)) : Fewer s t := by
  have hcaps := capsOnly_forgetCaps region s
  have hsl' : (forgetCaps region s).regionSlot region = some i := by rw [regionSlot_congr hcaps.regions]; exact hsl
  obtain ⟨u, hdma, -, rfl⟩ := wp_ok (releaseRegion_spec (A := A) (C := C) hsl') hrun
  have hu : Fewer (forgetCaps region s) (freeRegion i u) := .of_authority fun p => hdma.authority p
  exact (fewer_forgetCaps region s).1.trans hu

/-- **The moves, by what they do to capabilities.** -/
theorem Move.capStep (hgr : ∀ b, Granted A C b → b.capType ≠ .region) (h : Move A C G me k s t) : CapStep me s t := by
  cases h with
  | control hc => exact .fewer (.of_authority hc.quiet.authority)
  | @receive p => exact .fewer (.of_authority (calm_takeMessage p s).authority)
  | store | copy => exact .fewer (.of_authority fun _ => rfl)
  | mapRegion => exact .fewer (.of_authority (spaceOnly_mapRegion A s me _ _).authority)
  | mapDevice _ hcur => exact .fewer (.of_authority (spaceOnly_mapDevice A C s hcur _ _ _).authority)
  | unmapDevice => exact .fewer (.of_authority (spaceOnly_unmapDeviceWindow A s me).authority)
  | unmapRegion => exact .fewer (.of_authority (spaceOnly_unmapRegionFrom A s me _).authority)
  | unmapShare => exact .fewer (.of_authority (spaceOnly_unmapShareSlot A s _ _).authority)
  | make hme _ _ _ _ hrun => exact .made hme hrun
  | mapDma => exact .fewer (.of_authority (dmaOnly_mapDma me _ _ _ s).authority)
  | unmapDma _ _ hrun => exact .fewer (.of_authority (wp_ok (dmaOnly_unmapDma me _ _ s) hrun).authority)
  | withdrawAll _ _ hrun => exact .fewer (.of_authority (wp_ok (dmaOnly_withdrawAllDmaOf me s) hrun).authority)
  | retire _ hsl _ _ hrun => exact .fewer (fewer_retire hsl hrun)
  | revoke _ _ _ hrun => exact .fewer (fewer_revoke hrun)
  | reap => exact .fewer (fewer_reap s me)
  | loadFailed _ _ _ hrun =>
    rcases wp_ok (loadProcess_spec _ _ _ _) hrun with ⟨-, rfl | ⟨r, -, rfl⟩⟩ | ⟨hf, -⟩
    · exact .fewer (.refl _)
    · exact .fewer (.of_authority fun _ => rfl)
    · exact absurd hf (by decide)
  | @boot u i _ hi hfree hrun =>
    obtain ⟨hother, hcaps⟩ := procs_loaded hrun
    refine .came hfree (fun q hq => hother q hq) fun j c hc hreg => absurd hreg (hgr c ⟨i, hi, j, ?_⟩)
    have hc' : (u.procs i).caps.lookup j = some c := hc
    rwa [hcaps] at hc'
  | @spawn u slot arg requested childId cap _ _ _ _ hfree _ _ hrun =>
    obtain ⟨hother, hcaps⟩ := procs_loaded hrun
    rw [mintGrants_child] at hcaps
    cases cap with
    | none =>
      refine .came hfree (fun q hq => hother q hq) fun i c hc _ => ?_
      have hc' : (u.procs slot).caps.lookup i = some c := hc
      rw [hcaps, Capabilities.CapSpace.lookup_new] at hc'
      exact absurd hc' (by simp)
    | some c =>
      have hsame : ∀ q, q ≠ slot → (handOver me slot arg childId c u).procs q = u.procs q := (procs_handOver hcaps).1
      have hone : ∀ i b j d, ((handOver me slot arg childId c u).procs slot).caps.lookup i = some b →
          ((handOver me slot arg childId c u).procs slot).caps.lookup j = some d → j = i := (procs_handOver hcaps).2
      refine .came hfree (fun q hq => (hsame q hq).trans (hother q hq)) fun i b hi _ j d hj => ?_
      exact hone i b j d hi hj

/-! ## One holder -/

theorem Fewer.mapsWith (h : Fewer s t) {p i id : ℕ} {r : CapRights} (hm : MapsWith t p i id r) : MapsWith s p i id r := by
  obtain ⟨⟨hp, hl⟩, ⟨j, b, hb, hty⟩, hreg⟩ := hm
  exact ⟨⟨hp, h.live p hl⟩, ⟨j, b, h.lookup p hl j b hb, hty⟩, h.lookup p hl i _ hreg⟩

/-- who may map a region after a step could before, unless `me` has made the region in it -/
theorem CapStep.mapsWith (h : CapStep me s t) {p i id : ℕ} {r : CapRights} (hm : MapsWith t p i id r) :
    MapsWith s p i id r ∨ id = s.nextRegionId := by
  cases h with
  | fewer hf => exact Or.inl (hf.mapsWith hm)
  | @made pages v rights hme hrun =>
    rcases wp_ok (makeRegion_spec me pages rights s) hrun with
      ⟨-, rfl | ⟨w, -, rfl⟩ | ⟨frames, w, -, rfl⟩⟩ | ⟨idx, frames, w, cap, caps, -, -, hins, -, rfl⟩
    · exact Or.inl hm
    · exact Or.inl ⟨hm.alive, hm.domain, hm.region⟩
    · exact Or.inl ⟨hm.alive, hm.domain, hm.region⟩
    obtain ⟨⟨hp, hl⟩, ⟨j, b, hb, hty⟩, hreg⟩ := hm
    by_cases hpm : p = me
    · subst hpm
      have hb' : ((s.procs.put p { s.procs p with caps := caps }) p).caps.lookup j = some b := hb
      have hreg' : ((s.procs.put p { s.procs p with caps := caps }) p).caps.lookup i = some ⟨.region, r, id⟩ := hreg
      rw [Table.put_self] at hb' hreg'
      rcases lookup_insert hins hreg' with hnew | hold
      · exact Or.inr (congrArg Capabilities.CapSlot.object hnew)
      rcases lookup_insert hins hb' with rfl | hbold
      · exact absurd hty (by simp)
      · exact Or.inl ⟨hme, ⟨j, b, hbold, hty⟩, hold⟩
    · have hproc : (s.procs.put me { s.procs me with caps := caps }) p = s.procs p := Table.put_of_ne _ hpm _
      have hl' : ((s.procs.put me { s.procs me with caps := caps }) p).live = true := hl
      have hb' : ((s.procs.put me { s.procs me with caps := caps }) p).caps.lookup j = some b := hb
      have hreg' : ((s.procs.put me { s.procs me with caps := caps }) p).caps.lookup i = some ⟨.region, r, id⟩ := hreg
      rw [hproc] at hl' hb' hreg'
      exact Or.inl ⟨⟨hp, hl'⟩, ⟨j, b, hb', hty⟩, hreg'⟩
  | @came slot hfree hother hone =>
    obtain ⟨⟨hp, hl⟩, ⟨j, b, hb, hty⟩, hreg⟩ := hm
    by_cases hps : p = slot
    · -- a newcomer with a region has no domain
      subst hps
      have hji := hone i _ hreg rfl j b hb
      rw [hji, hreg] at hb
      rw [← Option.some.inj hb] at hty
      exact absurd hty (by simp)
    · rw [KState.live, hother p hps] at hl
      rw [hother p hps] at hb hreg
      exact Or.inl ⟨⟨hp, hl⟩, ⟨j, b, hb, hty⟩, hreg⟩

/-- the maker of a region has one capability for it -/
theorem CapStep.newest (h : CapStep me s t) (hids : RegionIds s) (hlive : NamesLive s) {p i q j : ℕ} {r r' : CapRights}
    (hp : MapsWith t p i s.nextRegionId r) (hq : MapsWith t q j s.nextRegionId r') : p = q ∧ i = j := by
  -- nobody had one before
  have hnone : ∀ x y c, s.Alive x → (s.procs x).caps.lookup y = some c → c.capType = .region → c.object ≠ s.nextRegionId := by
    intro x y c hx hc hty he
    obtain ⟨l, hl, hll, hlid⟩ := regionIndex_isSome.1 (hlive x c ⟨hx, y, hc⟩ hty)
    have := hids.below l hl hll
    omega
  have hnot : ∀ {x y r}, ¬MapsWith s x y s.nextRegionId r := fun hx => hnone _ _ _ hx.alive hx.region rfl rfl
  cases h with
  | fewer hf => exact absurd (hf.mapsWith hp) hnot
  | @made pages v rights hme hrun =>
    rcases wp_ok (makeRegion_spec me pages rights s) hrun with
      ⟨-, rfl | ⟨w, -, rfl⟩ | ⟨frames, w, -, rfl⟩⟩ | ⟨idx, frames, w, cap, caps, -, -, hins, -, rfl⟩
    · exact absurd hp hnot
    · exact absurd (⟨hp.alive, hp.domain, hp.region⟩ : MapsWith s p i s.nextRegionId r) hnot
    · exact absurd (⟨hp.alive, hp.domain, hp.region⟩ : MapsWith s p i s.nextRegionId r) hnot
    obtain ⟨-, -, hempty, -, -, hput, hold⟩ := Capabilities.CapSpace.insert_some hins
    have hslot : ∀ x y rx, (s.procs.put me { s.procs me with caps := caps } x).live = true → x < MAX_PROCS →
        (s.procs.put me { s.procs me with caps := caps } x).caps.lookup y = some ⟨.region, rx, s.nextRegionId⟩ →
        x = me ∧ y = cap := by
      intro x y rx hl hx hlook
      by_cases hxm : x = me
      · subst hxm
        rw [Table.put_self] at hlook
        refine ⟨rfl, by_contra fun hy => ?_⟩
        rw [hold y hy] at hlook
        exact hnone x y _ hme hlook rfl rfl
      · rw [Table.put_of_ne _ hxm] at hl hlook
        exact absurd rfl (hnone x y _ ⟨hx, hl⟩ hlook rfl)
    obtain ⟨rfl, rfl⟩ := hslot p i r hp.alive.2 hp.alive.1 hp.region
    obtain ⟨rfl, rfl⟩ := hslot q j r' hq.alive.2 hq.alive.1 hq.region
    exact ⟨rfl, rfl⟩
  | @came slot hfree hother hone =>
    have hold : MapsWith s p i s.nextRegionId r := by
      obtain ⟨⟨hlt, hl⟩, ⟨y, b, hb, hty⟩, hreg⟩ := hp
      have hps : p ≠ slot := by
        rintro rfl
        have hyi := hone i _ hreg rfl y b hb
        rw [hyi, hreg] at hb
        rw [← Option.some.inj hb] at hty
        exact absurd hty (by simp)
      rw [KState.live, hother p hps] at hl
      rw [hother p hps] at hb hreg
      exact ⟨⟨hlt, hl⟩, ⟨y, b, hb, hty⟩, hreg⟩
    exact absurd hold hnot

/-- **One holder**: every move keeps it. -/
theorem OneHolder.move (h : OneHolder s) (hgr : ∀ b, Granted A C b → b.capType ≠ .region) (hids : RegionIds s)
    (hlive : NamesLive s) (hm : Move A C G me k s t) : OneHolder t := by
  intro id p i r q j r' hp hq
  have hstep := hm.capStep hgr
  rcases hstep.mapsWith hp with hp' | rfl
  · rcases hstep.mapsWith hq with hq' | rfl
    · exact h id p i r q j r' hp' hq'
    · exact hstep.newest hids hlive hp hq
  · exact hstep.newest hids hlive hp hq

end Rustproof.Kernel
