/-
A delegated capability is its holder's only one of its kind.

A child starts with what it was handed and nothing else; what it gets later are capabilities for regions it created. So
whoever loses a delegated capability loses all it conferred: beside a capability at the end of an edge its holder has
capabilities for other regions only (`Sole`). Every move keeps this, and a revocation keeps it at every endpoint it has
still to come to (`fewer_strip`).
-/
import Rustproof.Kernel.Authority

namespace Rustproof.Kernel

open Lib Prog

variable {A : Arch} {C : Config} {G : Gate} {me : ℕ} {k : Trap} {s t : KState}

/-- beside the capability at `e` its holder has capabilities for other regions only -/
def SoleAt (s : KState) (e : Deleg.Endpoint) : Prop :=
  ∀ c, s.capOf e = some c → ∀ j, j ≠ e.cap → ∀ b, (s.procs e.proc).caps.lookup j = some b →
    b.capType = .region ∧ (c.capType = .region → b.object ≠ c.object)

/-- so it is at the end of every edge -/
def Sole (s : KState) : Prop :=
  ∀ i < MAX_DELEGATIONS, (s.ledger.edges i).live = true → SoleAt s (s.ledger.edges i).child

/-! ## Steps that give nobody a capability -/

/-- a step after which every process lives only if it did, as the one it was and with no capability it did not have -/
structure Fewer (s t : KState) : Prop where
  live : ∀ p, t.live p = true → s.live p = true
  id : ∀ p, t.live p = true → (t.procs p).id = (s.procs p).id
  lookup : ∀ p, t.live p = true → ∀ i c, (t.procs p).caps.lookup i = some c → (s.procs p).caps.lookup i = some c

namespace Fewer

theorem refl (s : KState) : Fewer s s := ⟨fun _ h => h, fun _ _ => rfl, fun _ _ _ _ h => h⟩

theorem trans {u : KState} (h : Fewer s t) (h' : Fewer t u) : Fewer s u :=
  ⟨fun p hp => h.live p (h'.live p hp), fun p hp => (h'.id p hp).trans (h.id p (h'.live p hp)),
    fun p hp i c hc => h.lookup p (h'.live p hp) i c (h'.lookup p hp i c hc)⟩

theorem of_authority (h : ∀ p, (t.procs p).authority = (s.procs p).authority) : Fewer s t := by
  refine ⟨fun p hp => ?_, fun p _ => Process.id_eq (h p), fun p _ i c hc => ?_⟩
  · exact (Process.live_eq (h p)).symm.trans hp
  · rwa [Process.caps_eq (h p)] at hc

theorem capOf (h : Fewer s t) {e : Deleg.Endpoint} {c : Capabilities.CapSlot} (hc : t.capOf e = some c) :
    s.capOf e = some c := by
  obtain ⟨hl, hid, hlook⟩ := capOf_some hc
  rw [KState.capOf, if_pos ⟨h.live _ hl, (h.id _ hl).symm.trans hid⟩]
  exact h.lookup _ hl _ _ hlook

theorem soleAt (h : Fewer s t) {e : Deleg.Endpoint} (he : SoleAt s e) : SoleAt t e := by
  intro c hc j hj b hb
  exact he c (h.capOf hc) j hj b (h.lookup _ (capOf_some hc).1 _ _ hb)

/-- every edge left ends where one did -/
theorem sole (h : Fewer s t) (hs : Sole s)
    (hedge : ∀ i < MAX_DELEGATIONS, (t.ledger.edges i).live = true →
      (s.ledger.edges i).live = true ∧ (s.ledger.edges i).child = (t.ledger.edges i).child) : Sole t := by
  intro i hi hl
  obtain ⟨hl', he⟩ := hedge i hi hl
  rw [← he]
  exact h.soleAt (hs i hi hl')

theorem sole_sub (h : Fewer s t) (hs : Sole s) (hsub : t.ledger.Sub s.ledger) : Sole t := by
  refine h.sole hs fun i hi hl => ?_
  have he := hsub i hi hl
  exact ⟨he ▸ hl, by rw [he]⟩

end Fewer

theorem fewer_revokeCap (s : KState) (p c : ℕ) : Fewer s (s.modProc p fun q => { q with caps := q.caps.revoke c }) := by
  refine ⟨fun q hq => ?_, fun q _ => ?_, fun q _ i x hx => ?_⟩
  · rw [KState.live, KState.modProc_procs, Table.put_apply] at hq
    split_ifs at hq with h
    · rw [h]; exact hq
    · exact hq
  · rw [KState.modProc_procs, Table.put_apply]
    split_ifs with h
    · rw [h]
    · rfl
  · rw [KState.modProc_procs, Table.put_apply] at hx
    split_ifs at hx with h
    · rw [Capabilities.CapSpace.lookup_revoke] at hx
      split_ifs at hx
      rw [h]; exact hx
    · exact hx

theorem sub_forget {N : ℕ} (l : Deleg.Ledger N) (e : Deleg.Endpoint) : (l.forget e).Sub l := Deleg.Ledger.sub_dropWhere l _

theorem fewer_forgetCap (region p c : ℕ) (s : KState) :
    Fewer s (forgetCap region p s c) ∧ (forgetCap region p s c).ledger.Sub s.ledger := by
  rw [forgetCap]
  split_ifs
  · exact ⟨(fewer_revokeCap s p c).trans (.of_authority fun _ => rfl), sub_forget s.ledger _⟩
  · exact ⟨Fewer.refl s, Deleg.Ledger.Sub.refl _⟩

theorem fewer_forgetCaps (region : ℕ) (s : KState) :
    Fewer s (forgetCaps region s) ∧ (forgetCaps region s).ledger.Sub s.ledger := by
  have hstep : ∀ p c (t : KState), Fewer s t ∧ t.ledger.Sub s.ledger →
      Fewer s (forgetCap region p t c) ∧ (forgetCap region p t c).ledger.Sub s.ledger := by
    intro p c t ht
    obtain ⟨h1, h2⟩ := fewer_forgetCap region p c t
    exact ⟨ht.1.trans h1, h2.trans ht.2⟩
  rw [forgetCaps]
  refine List.foldlRecOn (motive := fun t : KState => Fewer s t ∧ t.ledger.Sub s.ledger) _ _
    ⟨Fewer.refl s, Deleg.Ledger.Sub.refl _⟩ fun t ht p _ => ?_
  split_ifs
  · exact List.foldlRecOn (motive := fun t : KState => Fewer s t ∧ t.ledger.Sub s.ledger) _ _ ht fun u hu c _ =>
      hstep p c u hu
  · exact ht

theorem fewer_strip (d : Deleg.Endpoint) (s : KState) : wp (strip A C d) (fun _ t => Fewer s t) (· = .ringFull) s := by
  refine wp_mono (strip_spec d s) fun _ t ht => ?_
  rcases ht with rfl | ⟨-, -, v, hv, rfl⟩
  · exact Fewer.refl _
  refine (fewer_revokeCap s d.proc d.cap).trans ⟨fun p hp => ?_, fun p _ => ?_, fun p _ i c hc => ?_⟩
  · rw [live_settle] at hp
    rwa [← hv.toStill.live p]
  · exact (congrArg (·.1) (who_settle d.proc v p)).trans (hv.toStill.id p)
  · rwa [caps_settle, hv.caps_eq] at hc

theorem fewer_revoke {cap : ℕ} (h : revokeDelegations A C me cap s = .ok ((), t)) : Fewer s t := by
  refine wp_ok (wp_revoke (I := Fewer s) (E := (· = .ringFull)) (.of_authority fun _ => rfl) fun d _ u hu => ?_) h
  exact wp_mono (fewer_strip d u) fun _ v hv => hu.trans hv

/-- the ledger a revocation leaves -/
theorem ledger_revoke {cap : ℕ} (h : revokeDelegations A C me cap s = .ok ((), t)) :
    t.ledger = (s.ledger.revokeFrom (s.endpointAt me cap) MAX_DELEGATIONS).1 := by
  refine wp_ok (wp_revoke (I := fun u : KState => u.ledger = (s.ledger.revokeFrom (s.endpointAt me cap) MAX_DELEGATIONS).1)
    (E := (· = .ringFull)) rfl fun d _ u hu => ?_) h
  exact wp_mono (capOf_stripped d u) fun _ v hv => hv.1.trans hu

/-- what a revocation reaches is the end of an edge -/
theorem reached_child {l : Deleg.Ledger MAX_DELEGATIONS} {root d : Deleg.Endpoint}
    (h : d ∈ (l.revokeFrom root MAX_DELEGATIONS).2) : ∃ i < MAX_DELEGATIONS, (l.edges i).live = true ∧ (l.edges i).child = d := by
  obtain ⟨hmem, -, -⟩ := l.revokeFrom_spec root MAX_DELEGATIONS le_rfl
  obtain ⟨a, -, i, hi, he⟩ := Relation.TransGen.tail'_iff.1 ((hmem d).1 h)
  exact ⟨i, hi, by rw [he], by rw [he]⟩

theorem fewer_reap (s : KState) (p : ℕ) : Fewer s (refusePeers A (reap p s)) := by
  refine ⟨fun q hq => ?_, fun q _ => ?_, fun q _ i c hc => ?_⟩
  · rw [live_refusePeers, KState.live, procs_reap, Table.put_apply] at hq
    split_ifs at hq with h
    · exact absurd hq (by simp [Process.live])
    · exact hq
  · refine (congrArg (·.1) (who_refusePeers (reap p s) q)).trans ?_
    show ((reap p s).procs q).id = _
    rw [procs_reap, Table.put_apply]
    split_ifs with h
    · rw [h]
    · rfl
  · rw [caps_refusePeers, procs_reap, Table.put_apply] at hc
    split_ifs at hc with h
    · rw [h]; exact hc
    · exact hc

theorem spliceOut_child {N : ℕ} {l : Deleg.Ledger N} {proc id i : ℕ} (hi : i < N)
    (h : ((l.spliceOut proc id).edges i).live = true) :
    (l.edges i).live = true ∧ (l.edges i).child = ((l.spliceOut proc id).edges i).child := by
  have hsub := Deleg.Ledger.sub_dropWhere (l.spliceLoop proc id) (fun e => e.parent.sameProc proc id)
  rw [Deleg.Ledger.spliceOut_eq] at h ⊢
  have he := hsub i hi h
  rw [he] at h ⊢
  rw [Deleg.Ledger.spliceLoop] at h ⊢
  revert h
  refine List.foldlRecOn (motive := fun u : Deleg.Ledger N => (u.edges i).live = true →
    (l.edges i).live = true ∧ (l.edges i).child = (u.edges i).child) _ _ (fun h => ⟨h, rfl⟩) fun u hu j _ hl => ?_
  obtain ⟨h1, h2⟩ := Deleg.Ledger.spliceEdge_child proc id u j i
  rw [h1]
  exact hu (h2 hl)

/-! ## Steps that add capabilities -/

/-- a fresh occupant of a free slot is named by no edge -/
theorem sole_loaded {slot id : ℕ} {role : Role} {ok : Bool} (hl : Lineage s) (h : Sole s) (hfree : s.live slot = false)
    (hrun : loadProcess A C slot id role s = .ok (ok, t)) : Sole t := by
  obtain ⟨hled, hother⟩ := loadProcess_ledger hrun
  intro i hi hlive
  rw [hled] at hlive ⊢
  have hne : (s.ledger.edges i).child.proc ≠ slot := fun hp => by
    obtain ⟨-, c, -, hc, -⟩ := Deleg.Ledger.Forest.edge hl i hi hlive
    have := (capOf_some hc).1
    rw [hp, hfree] at this
    exact absurd this (by decide)
  intro c hc j hj b hb
  rw [KState.capOf, KState.live, hother _ hne] at hc
  rw [hother _ hne] at hb
  exact h i hi hlive c hc j hj b hb

/-- the capability a child is handed is the only one it has -/
theorem sole_handOver {slot arg childId : ℕ} {c : Capabilities.CapSlot} (h : Sole s)
    (hroom : s.ledger.len < MAX_DELEGATIONS) (hempty : ∀ i, (s.procs slot).caps.lookup i = none)
    (hnew : ∀ i < MAX_DELEGATIONS, (s.ledger.edges i).live = true → (s.ledger.edges i).child.proc ≠ slot) :
    Sole (handOver me slot arg childId c s) := by
  rw [handOver]
  cases hins : (s.procs slot).caps.insert c.capType c.rights c.object with
  | none => exact h
  | some out =>
    obtain ⟨childCap, caps⟩ := out
    obtain ⟨-, -, -, -, -, -, hold⟩ := Capabilities.CapSpace.insert_some hins
    obtain ⟨n, -, -, hrec⟩ := Deleg.Ledger.record_spec hroom (s.endpointAt me arg) ⟨slot, childId, childCap⟩
    set u : KState := s.modProc slot fun p => { p with caps := caps }
    have hother : ∀ p, p ≠ slot → u.procs p = s.procs p := fun p hp => by
      rw [KState.modProc_procs, Table.put_of_ne _ hp]
    have hparent : u.endpointAt me arg = s.endpointAt me arg := by
      rw [KState.endpointAt, KState.endpointAt, KState.modProc_procs, Table.put_apply]
      split_ifs with hp
      · rw [hp]
      · rfl
    intro i hi hl
    show SoleAt u (((u.ledger.record (u.endpointAt me arg) ⟨slot, childId, childCap⟩).2).edges i).child
    have hl' : (((u.ledger.record (u.endpointAt me arg) ⟨slot, childId, childCap⟩).2).edges i).live = true := hl
    rw [hparent] at hl' ⊢
    rw [show u.ledger = s.ledger from rfl, hrec] at hl' ⊢
    simp only [Table.put_apply] at hl' ⊢
    split_ifs at hl' ⊢ with hin
    · -- the new edge
      intro b _ j hj x hx
      have hx' : caps.lookup j = some x := by
        have : (u.procs slot).caps.lookup j = some x := hx
        rwa [KState.modProc_procs, Table.put_self] at this
      rw [hold j hj, hempty] at hx'
      exact absurd hx' (by simp)
    · have hne := hnew i hi hl'
      intro b hb j hj x hx
      rw [KState.capOf, KState.live, hother _ hne] at hb
      rw [hother _ hne] at hx
      exact h i hi hl' b hb j hj x hx

/-- the capability for a region just created is for none that was there -/
theorem sole_makeRegion {pages v : ℕ} {rights : CapRights} (hids : RegionIds s) (hlive : NamesLive s) (hl : Lineage s)
    (hme : s.Alive me) (h : Sole s) (hrun : makeRegion me pages rights s = .ok (v, t)) : Sole t := by
  rcases wp_ok (makeRegion_spec me pages rights s) hrun with
    ⟨-, rfl | ⟨w, -, rfl⟩ | ⟨frames, w, -, rfl⟩⟩ | ⟨idx, frames, w, cap, caps, -, -, hins, -, rfl⟩
  · exact h
  · exact h
  · exact h
  obtain ⟨-, -, hnone, -, -, -, hold⟩ := Capabilities.CapSpace.insert_some hins
  intro i hi hedge
  have hedge' : (s.ledger.edges i).live = true := hedge
  obtain ⟨-, c₀, -, hc₀, -⟩ := Deleg.Ledger.Forest.edge hl i hi hedge'
  set e := (s.ledger.edges i).child with he
  set u : KState := s.modProc me fun q => { q with caps := caps }
  suffices hu : SoleAt u e from fun c hc j hj b hb => hu c hc j hj b hb
  by_cases hp : e.proc = me
  · have hlook₀ : (s.procs me).caps.lookup e.cap = some c₀ := by
      rw [← hp]; exact (capOf_some hc₀).2.2
    have hcap : e.cap ≠ cap := fun hec => by
      rw [hec, hnone] at hlook₀
      exact absurd hlook₀ (by simp)
    intro c hc j hj b hb
    obtain ⟨-, -, hlook⟩ := capOf_some hc
    rw [KState.modProc_procs, hp, Table.put_self] at hlook hb
    have hlook' : (s.procs me).caps.lookup e.cap = some c := by
      rw [← hold _ hcap]; exact hlook
    have hcs : s.capOf e = some c := by
      rw [hc₀, ← hlook₀, hlook']
    rcases lookup_insert hins hb with rfl | hb
    · -- its identity was never given out
      refine ⟨rfl, fun hreg => ?_⟩
      obtain ⟨r, hr, hrl, hrid⟩ := regionIndex_isSome.1 (hlive me c ⟨hme, e.cap, hlook'⟩ hreg)
      have := hids.below r hr hrl
      show s.nextRegionId ≠ c.object
      omega
    · exact h i hi hedge' c hcs j hj b (by rw [← he, hp]; exact hb)
  · have hproc : u.procs e.proc = s.procs e.proc := by
      rw [KState.modProc_procs, Table.put_of_ne _ hp]
    intro c hc j hj b hb
    rw [KState.capOf, KState.live, hproc] at hc
    rw [hproc] at hb
    exact h i hi hedge' c hc j hj b hb

/-! ## Every move -/

theorem Sole.congr (h : Sole s) (hled : t.ledger = s.ledger)
    (hauth : ∀ p, (t.procs p).authority = (s.procs p).authority) : Sole t :=
  (Fewer.of_authority hauth).sole_sub h (by rw [hled]; exact Deleg.Ledger.Sub.refl _)

theorem Sole.move (h : Sole s) (hids : RegionIds s) (hlive : NamesLive s) (hl : Lineage s) (hm : Move A C G me k s t) :
    Sole t := by
  cases hm with
  | control hc => exact h.congr hc.quiet.ledger hc.quiet.authority
  | @receive p =>
    obtain ⟨⟨f, hf⟩, -⟩ := takeMessage_spec (A := A) p s
    refine h.congr ?_ fun q => ?_
    · rw [takeMessage]; split <;> rfl
    · rw [hf, Table.put_apply]
      split_ifs with hq
      · rw [hq]; rfl
      · rfl
  | store | copy => exact h.congr rfl fun _ => rfl
  | mapRegion =>
    have hso := spaceOnly_mapRegion A s me
    exact h.congr (hso _ _).ledger (hso _ _).authority
  | mapDevice _ hcur =>
    have hso := spaceOnly_mapDevice A C s hcur
    exact h.congr (hso _ _ _).ledger (hso _ _ _).authority
  | unmapDevice => exact h.congr (spaceOnly_unmapDeviceWindow A s me).ledger (spaceOnly_unmapDeviceWindow A s me).authority
  | unmapRegion =>
    have hso := spaceOnly_unmapRegionFrom A s me
    exact h.congr (hso _).ledger (hso _).authority
  | unmapShare =>
    have hso := spaceOnly_unmapShareSlot A s
    exact h.congr (hso _ _).ledger (hso _ _).authority
  | make hme _ _ _ _ hrun => exact sole_makeRegion hids hlive hl hme h hrun
  | mapDma => exact h.congr (dmaOnly_mapDma me _ _ _ s).ledger (dmaOnly_mapDma me _ _ _ s).authority
  | unmapDma _ _ hrun =>
    have hd := wp_ok (dmaOnly_unmapDma me _ _ s) hrun
    exact h.congr hd.ledger hd.authority
  | withdrawAll _ _ hrun =>
    have hd := wp_ok (dmaOnly_withdrawAllDmaOf me s) hrun
    exact h.congr hd.ledger hd.authority
  | @retire _ region i _ hsl _ _ hrun =>
    have hcaps := capsOnly_forgetCaps region s
    have hsl' : (forgetCaps region s).regionSlot region = some i := by rw [regionSlot_congr hcaps.regions]; exact hsl
    obtain ⟨u, hdma, -, rfl⟩ := wp_ok (releaseRegion_spec (A := A) (C := C) hsl') hrun
    obtain ⟨hf, hsub⟩ := fewer_forgetCaps region s
    have hu : Sole u := (hf.sole_sub h hsub).congr hdma.ledger hdma.authority
    exact hu.congr rfl fun _ => rfl
  | revoke _ _ _ hrun =>
    refine (fewer_revoke hrun).sole_sub h ?_
    rw [ledger_revoke hrun]
    exact (s.ledger.revokeFrom_spec _ MAX_DELEGATIONS le_rfl).2.2
  | reap =>
    have hled : (refusePeers A (reap me s)).ledger = s.ledger.spliceOut me (s.procs me).id := by
      rw [refusePeers_ledger, reap]
      simp only [KState.dequeue_ledger, KState.modProc_ledger, KState.modProc_procs, Table.put_self]
    refine (fewer_reap s me).sole h fun i hi hlv => ?_
    rw [hled] at hlv ⊢
    exact spliceOut_child hi hlv
  | loadFailed _ _ hfree hrun => exact sole_loaded hl h hfree hrun
  | boot _ _ hfree hrun => exact (sole_loaded hl h hfree hrun).congr rfl fun _ => rfl
  | @spawn u slot arg requested childId cap hme _ _ hslot hfree hcap hgate hrun =>
    have hu := sole_loaded hl h hfree hrun
    obtain ⟨hled, hother⟩ := loadProcess_ledger hrun
    suffices hdone : Sole (cap.elim u fun c => handOver me slot arg childId c u) from hdone.congr rfl fun _ => rfl
    cases cap with
    | none => exact hu
    | some c =>
      have harg : arg ≠ sysno.NO_DELEGATE := fun e => by rw [if_pos e] at hcap; simp at hcap
      have hroom := (hgate.resolve_left harg).2
      refine sole_handOver hu (by rw [hled]; exact hroom) (fun i => ?_) fun i hi hlv hp => ?_
      · rcases wp_ok (loadProcess_spec slot childId .child s) hrun with ⟨hf, -⟩ | ⟨-, tok, entry, r, -, rfl⟩
        · exact absurd hf (by decide)
        rw [KState.record_procs, KState.modProc_procs, Table.put_self]
        exact Capabilities.CapSpace.lookup_new i
      · rw [hled] at hlv hp
        obtain ⟨-, x, -, hx, -⟩ := Deleg.Ledger.Forest.edge hl i hi hlv
        have := (capOf_some hx).1
        rw [hp, hfree] at this
        exact absurd this (by decide)

end Rustproof.Kernel
