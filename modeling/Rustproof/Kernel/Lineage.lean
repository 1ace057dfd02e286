/-
Where capabilities came from.

`Lineage s`: the ledger's live edges form a forest, and each joins two occupied capability slots of live processes, of one
type and object, the child's rights among the parent's (`Below`). `Lineage.move`: every move keeps it. Slots are emptied
together with the edges that name them, a dead process's are spliced out, and an edge is recorded only for a slot that was
empty.

`Reachable.lineage` is the invariant, `revoke_reach` what it says about a revocation: what is stripped lies below the
revoker's own capability, which stays.
-/
import Rustproof.Kernel.Parked

namespace Rustproof.Kernel

open Lib Prog

variable {A : Arch} {C : Config} {G : Gate} {me : ℕ} {k : Trap} {s s' : KState}

/-- the capability an end of an edge names, if its process is still the one that held it -/
def KState.capOf (s : KState) (e : Deleg.Endpoint) : Option Capabilities.CapSlot :=
  if s.live e.proc = true ∧ (s.procs e.proc).id = e.id then (s.procs e.proc).caps.lookup e.cap else none

/-- `b` names a capability that confers nothing the one `a` names does not -/
def Below (s : KState) (a b : Deleg.Endpoint) : Prop :=
  ∃ ca cb, s.capOf a = some ca ∧ s.capOf b = some cb ∧ cb.capType = ca.capType ∧ cb.object = ca.object ∧
    ca.rights.contains cb.rights = true

/-- the ledger tells where capabilities came from -/
def Lineage (s : KState) : Prop := s.ledger.Forest (Below s)

theorem Below.trans {a b c : Deleg.Endpoint} (h : Below s a b) (h' : Below s b c) : Below s a c := by
  obtain ⟨ca, cb, h1, h2, h3, h4, h5⟩ := h
  obtain ⟨cb', cc, h1', h2', h3', h4', h5'⟩ := h'
  obtain rfl : cb = cb' := Option.some.inj (h2.symm.trans h1')
  exact ⟨ca, cc, h1, h2', h3'.trans h3, h4'.trans h4, CapRights.contains_trans h5 h5'⟩

theorem capOf_some {e : Deleg.Endpoint} {c : Capabilities.CapSlot} (h : s.capOf e = some c) :
    s.live e.proc = true ∧ (s.procs e.proc).id = e.id ∧ (s.procs e.proc).caps.lookup e.cap = some c := by
  rw [KState.capOf] at h
  split_ifs at h with hc
  exact ⟨hc.1, hc.2, h⟩

/-- an end that names a capability is the present occupant's -/
theorem endpoint_of_capOf {e : Deleg.Endpoint} {c : Capabilities.CapSlot} (h : s.capOf e = some c) :
    e = s.endpointAt e.proc e.cap := by
  obtain ⟨-, hid, -⟩ := capOf_some h
  rw [KState.endpointAt, hid]

theorem capOf_endpointAt {p i : ℕ} (hp : s.live p = true) : s.capOf (s.endpointAt p i) = (s.procs p).caps.lookup i :=
  if_pos ⟨hp, rfl⟩

theorem capOf_congr {e : Deleg.Endpoint} (hl : s'.live e.proc = s.live e.proc)
    (hid : (s'.procs e.proc).id = (s.procs e.proc).id)
    (hc : (s'.procs e.proc).caps.lookup e.cap = (s.procs e.proc).caps.lookup e.cap) : s'.capOf e = s.capOf e := by
  rw [KState.capOf, KState.capOf, hl, hid, hc]

/-! ## Steps that keep what the edges name -/

theorem Below.mono {a b : Deleg.Endpoint} (h : Below s a b) (ha : s'.capOf a = s.capOf a) (hb : s'.capOf b = s.capOf b) :
    Below s' a b := by
  obtain ⟨ca, cb, h1, h2, h3⟩ := h
  exact ⟨ca, cb, ha.trans h1, hb.trans h2, h3⟩

/-- dropping edges, and changing what none of those left names -/
theorem Lineage.drop {l : Deleg.Ledger MAX_DELEGATIONS} (h : Lineage s) (hled : s'.ledger = l) (hsub : l.Sub s.ledger)
    (hcap : ∀ i < MAX_DELEGATIONS, (l.edges i).live = true →
      s'.capOf (l.edges i).parent = s.capOf (l.edges i).parent ∧ s'.capOf (l.edges i).child = s.capOf (l.edges i).child) :
    Lineage s' := by
  rw [Lineage, hled]
  exact (Deleg.Ledger.Forest.sub h hsub).imp fun i hi hl hb => hb.mono (hcap i hi hl).1 (hcap i hi hl).2

/-- a step that keeps the ledger and every capability it names -/
theorem Lineage.keep (h : Lineage s) (hled : s'.ledger = s.ledger)
    (hcap : ∀ e c, s.capOf e = some c → s'.capOf e = some c) : Lineage s' := by
  refine h.drop hled (Deleg.Ledger.Sub.refl _) fun i hi hl => ?_
  obtain ⟨ca, cb, h1, h2, -⟩ := Deleg.Ledger.Forest.edge h i hi hl
  exact ⟨(hcap _ _ h1).trans h1.symm, (hcap _ _ h2).trans h2.symm⟩

/-- a step that keeps the ledger and every process's authority -/
theorem Lineage.congr (h : Lineage s) (hled : s'.ledger = s.ledger)
    (hauth : ∀ p, (s'.procs p).authority = (s.procs p).authority) : Lineage s' :=
  h.keep hled fun e _ he =>
    (capOf_congr (Process.live_eq (hauth _)) (Process.id_eq (hauth _)) (by rw [Process.caps_eq (hauth e.proc)])).trans he

theorem Still.authority (h : Still s s') (hc : ∀ p, (s'.procs p).caps = (s.procs p).caps) (p : ℕ) :
    (s'.procs p).authority = (s.procs p).authority := by
  obtain ⟨c, fr, sh, d, hp⟩ := h.proc p
  have := hc p
  rw [hp] at this ⊢
  rw [Process.authority, Process.authority, ← this]
  rfl

theorem SpaceOnly.lineage {p : ℕ} (hs : SpaceOnly s p s') (h : Lineage s) : Lineage s' :=
  h.congr hs.ledger (hs.still.authority hs.caps)

theorem DmaOnly.lineage (hs : DmaOnly C s s') (h : Lineage s) : Lineage s' := h.congr hs.ledger hs.authority

/-! ## Slots that are emptied -/

/-- the capabilities of `p` but one are kept when that one is emptied -/
theorem capOf_strip {p c : ℕ} {e : Deleg.Endpoint} (hne : e ≠ s.endpointAt p c) :
    (s.modProc p fun q => { q with caps := q.caps.revoke c }).capOf e = s.capOf e := by
  by_cases hp : e.proc = p
  · rw [KState.capOf, KState.capOf, KState.live, KState.live, KState.modProc_procs, hp, Table.put_self]
    show (if (s.procs p).live = true ∧ (s.procs p).id = e.id then _ else _) = _
    split_ifs with hc
    · rw [Capabilities.CapSpace.lookup_revoke, if_neg fun h => hne ?_]
      cases e
      rw [KState.endpointAt, hc.2]
      exact congrArg₂ (fun x y => (⟨x, _, y⟩ : Deleg.Endpoint)) hp h
    · rfl
  · exact capOf_congr (by rw [KState.live, KState.live, KState.modProc_procs, Table.put_of_ne _ hp])
      (by rw [KState.modProc_procs, Table.put_of_ne _ hp]) (by rw [KState.modProc_procs, Table.put_of_ne _ hp])

theorem Lineage.forgetCap (h : Lineage s) (region p c : ℕ) : Lineage (forgetCap region p s c) := by
  rw [Kernel.forgetCap]
  split_ifs
  · have hsub := Deleg.Ledger.sub_dropWhere s.ledger fun d => d.parent = s.endpointAt p c || d.child = s.endpointAt p c
    have hid : (s.modProc p fun q => { q with caps := q.caps.revoke c }).endpointAt p c = s.endpointAt p c := by
      rw [KState.endpointAt, KState.modProc_procs, Table.put_self]; rfl
    simp only [hid]
    refine h.drop (l := s.ledger.forget (s.endpointAt p c)) rfl hsub fun i hi hl => ?_
    obtain ⟨hp, -⟩ := Deleg.Ledger.dropWhere_live hi hl
    rw [← hsub i hi hl] at hp
    simp only [Bool.or_eq_false_iff, decide_eq_false_iff_not] at hp
    exact ⟨capOf_strip hp.1, capOf_strip hp.2⟩
  · exact h

theorem Lineage.forgetCaps (h : Lineage s) (region : ℕ) : Lineage (forgetCaps region s) := by
  rw [Kernel.forgetCaps]
  refine List.foldlRecOn (motive := Lineage) _ _ h fun t ht p _ => ?_
  split_ifs
  · exact List.foldlRecOn (motive := Lineage) _ _ ht fun u hu c _ => hu.forgetCap region p c
  · exact ht

/-! ## Revocation -/

theorem settle_ledger (p : ℕ) (s : KState) : (settle A p s).ledger = s.ledger := by
  rw [settle]
  split_ifs <;> rfl

theorem live_settle (p q : ℕ) (s : KState) : (settle A p s).live q = s.live q := by
  have h1 : (dropCredits p s).live q = s.live q := by
    rw [KState.live, KState.live, Process.live, Process.live, dropCredits, state_modProc rfl]
  rw [settle]
  split_ifs with hst
  · rw [live_refuse (stranded_parked hst).2, h1]
  · exact h1

theorem capOf_settle (p : ℕ) (s : KState) (e : Deleg.Endpoint) : (settle A p s).capOf e = s.capOf e :=
  capOf_congr (live_settle p e.proc s) (congrArg (·.1) (who_settle p s e.proc)) (by rw [caps_settle])

/-- one iteration empties the slot it was given, and no other -/
theorem capOf_stripped (d : Deleg.Endpoint) (s : KState) :
    wp (strip A C d) (fun _ t => t.ledger = s.ledger ∧ ∀ e, e ≠ d → t.capOf e = s.capOf e) (· = .ringFull) s := by
  refine wp_mono (strip_spec d s) fun _ t ht => ?_
  rcases ht with rfl | ⟨-, hid, v, hv, rfl⟩
  · exact ⟨rfl, fun _ _ => rfl⟩
  refine ⟨(settle_ledger _ _).trans hv.ledger, fun e he => ?_⟩
  have hd : d = s.endpointAt d.proc d.cap := by rw [KState.endpointAt, hid]
  rw [capOf_settle]
  refine Eq.trans (capOf_congr (hv.toStill.live _) (hv.toStill.id _) (by rw [hv.caps_eq])) (capOf_strip ?_)
  rwa [← hd]

/-- **What a revocation reaches** lies below the revoker's capability; every other capability stays. -/
theorem revoke_reach {cap : ℕ} (h : Lineage s) (hrun : revokeDelegations A C me cap s = .ok ((), s')) :
    (∀ e, s'.capOf e ≠ s.capOf e → Below s (s.endpointAt me cap) e ∧ e ≠ s.endpointAt me cap) ∧ Lineage s' := by
  set root := s.endpointAt me cap
  obtain ⟨hmem, hhas, hsub⟩ := s.ledger.revokeFrom_spec root MAX_DELEGATIONS le_rfl
  have hbelow : ∀ d ∈ (s.ledger.revokeFrom root MAX_DELEGATIONS).2, Below s root d ∧ d ≠ root := fun d hd => by
    obtain ⟨h1, h2⟩ := Deleg.Ledger.Forest.below h (fun _ _ _ => Below.trans) ((hmem d).1 hd)
    exact ⟨h1, h2.symm⟩
  -- an edge that is left names nothing that was reached
  have hleft : ∀ i < MAX_DELEGATIONS, ((s.ledger.revokeFrom root MAX_DELEGATIONS).1.edges i).live = true →
      ((s.ledger.revokeFrom root MAX_DELEGATIONS).1.edges i).parent ∉ (s.ledger.revokeFrom root MAX_DELEGATIONS).2 ∧
      ((s.ledger.revokeFrom root MAX_DELEGATIONS).1.edges i).child ∉ (s.ledger.revokeFrom root MAX_DELEGATIONS).2 := by
    intro i hi hl
    obtain ⟨hh, hne, hno⟩ := (hhas _ _).1 (Deleg.Ledger.has_edge hi hl)
    refine ⟨fun hd => hno ((hmem _).1 hd), fun hd => ?_⟩
    -- its child has one parent only
    rcases Relation.TransGen.tail'_iff.1 ((hmem _).1 hd) with ⟨a, hra, j, hj, hej⟩
    obtain ⟨i', hi', hei⟩ := hh
    have hij : i' = j := Deleg.Ledger.Forest.unique h i' hi' j hj (by rw [hei]) (by rw [hej]) (by rw [hei, hej])
    rw [hij, hej] at hei
    obtain rfl : a = _ := congrArg Deleg.Edge.parent hei
    rcases Relation.reflTransGen_iff_eq_or_transGen.1 hra with he | ht
    · exact hne he
    · exact hno ht
  have key : ((∀ e, e ∉ (s.ledger.revokeFrom root MAX_DELEGATIONS).2 → s'.capOf e = s.capOf e) ∧
      s'.ledger = (s.ledger.revokeFrom root MAX_DELEGATIONS).1) := by
    refine wp_ok (wp_revoke (I := fun t : KState =>
      (∀ e, e ∉ (s.ledger.revokeFrom root MAX_DELEGATIONS).2 → t.capOf e = s.capOf e) ∧
      t.ledger = (s.ledger.revokeFrom root MAX_DELEGATIONS).1) (E := (· = .ringFull)) ⟨fun _ _ => rfl, rfl⟩
      fun d hd t ⟨h1, h2⟩ => ?_) hrun
    refine wp_mono (capOf_stripped d t) fun _ u ⟨h3, h4⟩ => ⟨fun e he => ?_, h3.trans h2⟩
    exact (h4 e fun heq => he (heq ▸ hd)).trans (h1 e he)
  refine ⟨fun e he => ?_, h.drop key.2 hsub fun i hi hl => ?_⟩
  · by_contra hno
    exact he (key.1 e fun hd => hno (hbelow e hd))
  · exact ⟨key.1 _ (hleft i hi hl).1, key.1 _ (hleft i hi hl).2⟩

/-! ## Deaths and arrivals -/

theorem refusePeers_ledger (s : KState) : (refusePeers A s).ledger = s.ledger := by
  rw [refusePeers]
  refine List.foldlRecOn (motive := fun t : KState => t.ledger = s.ledger) _ _ rfl fun t ht i _ => ?_
  rw [refuseUnanswerable]
  cases awaited t i with
  | none => exact ht
  | some en =>
    simp only
    split_ifs <;> exact ht

theorem Lineage.reap (h : Lineage s) (p : ℕ) : Lineage (reap p s) := by
  have hf : (s.ledger.spliceOut p (s.procs p).id).Forest (Below s) :=
    Deleg.Ledger.Forest.spliceOut h (fun _ _ _ => Below.trans) p (s.procs p).id
  have hled : (Kernel.reap p s).ledger = s.ledger.spliceOut p (s.procs p).id := by
    rw [Kernel.reap]
    simp only [KState.dequeue_ledger, KState.modProc_ledger, KState.modProc_procs, Table.put_self]
  have hcap : ∀ e c, e.sameProc p (s.procs p).id = false → s.capOf e = some c → (Kernel.reap p s).capOf e = some c := by
    intro e c hne he
    have hp : e.proc ≠ p := fun hp => by
      obtain ⟨-, hid, -⟩ := capOf_some he
      rw [Deleg.Endpoint.sameProc, hp, ← hid, hp] at hne
      simp at hne
    have hproc : (Kernel.reap p s).procs e.proc = s.procs e.proc := by rw [procs_reap, Table.put_of_ne _ hp]
    exact (capOf_congr (by rw [KState.live, KState.live, hproc]) (by rw [hproc]) (by rw [hproc])).trans he
  rw [Lineage, hled]
  refine hf.imp fun i hi hl hends => ?_
  obtain ⟨ca, cb, h1, h2, h3⟩ := hends
  obtain ⟨hp, hc⟩ := Deleg.Ledger.spliceOut_clean hi hl
  exact ⟨ca, cb, hcap _ _ hp h1, hcap _ _ hc h2, h3⟩

theorem Lineage.refusePeers (h : Lineage s) : Lineage (refusePeers A s) :=
  h.keep (refusePeers_ledger s) fun e _ he =>
    (capOf_congr (live_refusePeers s e.proc) (congrArg (·.1) (who_refusePeers s e.proc)) (by rw [caps_refusePeers])).trans he

/-- a process in an empty slot is named by no edge -/
theorem capOf_arrives {slot : ℕ} {t : KState} (hfree : s.live slot = false) (hother : ∀ p, p ≠ slot → t.procs p = s.procs p)
    {e : Deleg.Endpoint} {c : Capabilities.CapSlot} (he : s.capOf e = some c) : t.capOf e = some c := by
  have hne : e.proc ≠ slot := fun h => by
    have := (capOf_some he).1
    rw [h, hfree] at this
    exact absurd this (by decide)
  exact (capOf_congr (by rw [KState.live, KState.live, hother _ hne]) (by rw [hother _ hne]) (by rw [hother _ hne])).trans he

theorem loadProcess_ledger {slot id : ℕ} {role : Role} {ok : Bool} (h : loadProcess A C slot id role s = .ok (ok, s')) :
    s'.ledger = s.ledger ∧ ∀ p, p ≠ slot → s'.procs p = s.procs p := by
  rcases wp_ok (loadProcess_spec slot id role s) h with ⟨-, rfl | ⟨r, -, rfl⟩⟩ | ⟨-, token, entry, r, -, rfl⟩
  · exact ⟨rfl, fun _ _ => rfl⟩
  · exact ⟨rfl, fun _ _ => rfl⟩
  · exact ⟨rfl, fun p hp => by rw [KState.record_procs, KState.modProc_procs, Table.put_of_ne _ hp]⟩

theorem Lineage.arrives {slot id : ℕ} {role : Role} {ok : Bool} (h : Lineage s) (hfree : s.live slot = false)
    (hrun : loadProcess A C slot id role s = .ok (ok, s')) : Lineage s' :=
  h.keep (loadProcess_ledger hrun).1 fun _ _ => capOf_arrives hfree (loadProcess_ledger hrun).2

/-- the delegated capability is one the caller has, with rights of the caller's -/
theorem delegated_some {caps : Caps} {arg requested : ℕ} {c : Capabilities.CapSlot}
    (h : delegated caps arg requested = some c) :
    ∃ own, caps.lookup arg = some own ∧ c.capType = own.capType ∧ c.object = own.object ∧
      own.rights.contains c.rights = true := by
  rw [delegated] at h
  cases hl : caps.lookup arg with
  | none => rw [hl] at h; simp at h
  | some own =>
    rw [hl] at h
    obtain rfl := Option.some.inj h
    exact ⟨own, rfl, rfl, rfl, CapRights.contains_intersect _ _⟩

/-- handing a capability to a process nobody has delegated to -/
theorem Lineage.handOver {slot arg childId : ℕ} {c : Capabilities.CapSlot} (requested : ℕ)
    (h : Lineage s) (hroom : s.ledger.len < MAX_DELEGATIONS)
    (hne : me ≠ slot) (hme : s.live me = true) (hslot : s.live slot = true) (hid : (s.procs slot).id = childId)
    (hnew : ∀ i < MAX_DELEGATIONS, (s.ledger.edges i).live = true →
      (s.ledger.edges i).parent.proc ≠ slot ∧ (s.ledger.edges i).child.proc ≠ slot)
    (hc : delegated (s.procs me).caps arg requested = some c) : Lineage (handOver me slot arg childId c s) := by
  rw [Kernel.handOver]
  cases hins : (s.procs slot).caps.insert c.capType c.rights c.object with
  | none => exact h
  | some out =>
    obtain ⟨childCap, caps⟩ := out
    obtain ⟨own, hown, ht, ho, hr⟩ := delegated_some hc
    obtain ⟨-, -, -, -, -, hput, -⟩ := Capabilities.CapSpace.insert_some hins
    set u : KState := s.modProc slot fun p => { p with caps := caps }
    have hu : ∀ e, e.proc ≠ slot → u.capOf e = s.capOf e := fun e he =>
      capOf_congr (by rw [KState.live, KState.live, KState.modProc_procs, Table.put_of_ne _ he])
        (by rw [KState.modProc_procs, Table.put_of_ne _ he]) (by rw [KState.modProc_procs, Table.put_of_ne _ he])
    have hfor : s.ledger.Forest (Below u) := h.imp fun i hi hl hb =>
      hb.mono (hu _ (hnew i hi hl).1) (hu _ (hnew i hi hl).2)
    have hparent : u.endpointAt me arg = s.endpointAt me arg := by
      rw [KState.endpointAt, KState.endpointAt, KState.modProc_procs, Table.put_of_ne _ hne]
    show (s.ledger.record (u.endpointAt me arg) ⟨slot, childId, childCap⟩).2.Forest (Below u)
    rw [hparent]
    refine hfor.record hroom ⟨own, c, ?_, ?_, ht, ho, hr⟩ (fun he => hne (congrArg Deleg.Endpoint.proc he)) fun i hi hl =>
      ⟨fun he => (hnew i hi hl).1 (by rw [he]), fun he => (hnew i hi hl).2 (by rw [he])⟩
    · rw [hu _ hne, capOf_endpointAt hme]; exact hown
    · have hl : u.live slot = true := by
        rw [KState.live, KState.modProc_procs, Table.put_self]; exact hslot
      rw [KState.capOf, if_pos ⟨hl, by rw [KState.modProc_procs, Table.put_self]; exact hid⟩, KState.modProc_procs,
        Table.put_self]
      exact hput

/-! ## Every move -/

theorem Lineage.move (h : Lineage s) (hm : Move A C G me k s s') : Lineage s' := by
  cases hm with
  | control hc => exact h.congr hc.quiet.ledger hc.quiet.authority
  | @receive t =>
    obtain ⟨⟨f, hf⟩, -⟩ := takeMessage_spec (A := A) t s
    refine h.congr ?_ fun p => ?_
    · rw [takeMessage]; split <;> rfl
    · rw [hf, Table.put_apply]
      split_ifs with hp
      · rw [hp]; rfl
      · rfl
  | store | copy => exact h.congr rfl fun _ => rfl
  | mapRegion => exact (spaceOnly_mapRegion A s me _ _).lineage h
  | mapDevice _ hcur => exact (spaceOnly_mapDevice A C s hcur _ _ _).lineage h
  | unmapDevice => exact (spaceOnly_unmapDeviceWindow A s me).lineage h
  | unmapRegion => exact (spaceOnly_unmapRegionFrom A s me _).lineage h
  | unmapShare => exact (spaceOnly_unmapShareSlot A s _ _).lineage h
  | make _ _ _ _ _ hrun =>
    rcases wp_ok (makeRegion_spec me _ _ s) hrun with
      ⟨-, rfl | ⟨w, -, rfl⟩ | ⟨frames, w, -, rfl⟩⟩ | ⟨idx, frames, w, cap, caps, -, -, hins, -, rfl⟩
    · exact h
    · exact h.congr rfl fun _ => rfl
    · exact h.congr rfl fun _ => rfl
    · -- the new capability takes a slot that held none
      obtain ⟨-, -, hnone, -, -, -, hold⟩ := Capabilities.CapSpace.insert_some hins
      refine h.keep rfl fun e c he => ?_
      obtain ⟨hl, hid, hlook⟩ := capOf_some he
      rw [← he]
      by_cases hp : e.proc = me
      · refine capOf_congr ?_ ?_ ?_
        all_goals simp only [KState.live, KState.record_procs, KState.modProc_procs, hp, Table.put_self]
        · rfl
        · rw [hold]
          rintro rfl
          rw [hp, hnone] at hlook
          simp at hlook
      · refine capOf_congr ?_ ?_ ?_
        all_goals simp only [KState.live, KState.record_procs, KState.modProc_procs, Table.put_of_ne _ hp]
  | mapDma => exact (dmaOnly_mapDma me _ _ _ s).lineage h
  | unmapDma _ _ hrun => exact (wp_ok (dmaOnly_unmapDma me _ _ s) hrun).lineage h
  | withdrawAll _ _ hrun => exact (wp_ok (dmaOnly_withdrawAllDmaOf me s) hrun).lineage h
  | @retire _ region i _ hsl _ _ hrun =>
    have hcaps := capsOnly_forgetCaps region s
    have hsl' : (Kernel.forgetCaps region s).regionSlot region = some i := by
      rw [regionSlot_congr hcaps.regions]; exact hsl
    obtain ⟨t, hdma, -, rfl⟩ := wp_ok (releaseRegion_spec (A := A) (C := C) hsl') hrun
    have h1 : Lineage t := hdma.lineage (Lineage.forgetCaps h region)
    exact h1.congr rfl fun _ => rfl
  | revoke _ _ _ hrun => exact (revoke_reach h hrun).2
  | reap => exact (h.reap me).refusePeers
  | loadFailed _ _ hfree hrun => exact h.arrives hfree hrun
  | boot _ _ hfree hrun => exact (h.arrives hfree hrun).congr rfl fun _ => rfl
  | @spawn u slot arg requested childId cap hme _ _ hslot hfree hcap hgate hrun =>
    have hu := h.arrives hfree hrun
    obtain ⟨hled, hother⟩ := loadProcess_ledger hrun
    have hne : me ≠ slot := fun e => by
      have := hme.2
      rw [e, hfree] at this
      exact absurd this (by decide)
    suffices hdone : Lineage (cap.elim u fun c => Kernel.handOver me slot arg childId c u) from
      hdone.congr rfl fun _ => rfl
    cases cap with
    | none => exact hu
    | some c =>
      have harg : arg ≠ sysno.NO_DELEGATE := fun e => by rw [if_pos e] at hcap; simp at hcap
      rw [if_neg harg] at hcap
      have hroom := (hgate.resolve_left harg).2
      rcases wp_ok (loadProcess_spec slot childId .child s) hrun with ⟨hf, -⟩ | ⟨-, tok, entry, r, -, rfl⟩
      · exact absurd hf (by decide)
      refine hu.handOver requested hroom hne ?_ ?_ ?_ (fun i hi hl => ?_) ?_
      · rw [KState.live, hother _ hne]; exact hme.2
      · rw [KState.live, KState.record_procs, KState.modProc_procs, Table.put_self]; rfl
      · rw [KState.record_procs, KState.modProc_procs, Table.put_self]; rfl
      · obtain ⟨ca, cb, h1, h2, -⟩ := Deleg.Ledger.Forest.edge h i hi hl
        have hdead : ∀ (e : Deleg.Endpoint) (x : Capabilities.CapSlot), s.capOf e = some x → e.proc ≠ slot := fun e x hx hp => by
          have := (capOf_some hx).1
          rw [hp, hfree] at this
          exact absurd this (by decide)
        exact ⟨hdead _ _ h1, hdead _ _ h2⟩
      · rw [hother _ hne]; exact hcap.symm

/-- **In every reachable state the ledger tells where capabilities came from.** -/
theorem Reachable.lineage {s₀ : KState} (h₀ : PreUserland A C s₀) (h : Reachable A C s₀ s) : Lineage s :=
  Reachable.keep h₀ (by rw [Lineage, h₀.noEdges]; exact Deleg.Ledger.forest_new) (fun hm hl => hl.move hm) h

end Rustproof.Kernel
