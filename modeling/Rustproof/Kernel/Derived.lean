/-
Where capabilities came from, told by the run.

`Derived h a b` is read off the history alone: the capability now in slot `b` (a process slot and a slot of its capabilities) was
obtained from the one in slot `a` through some chain of delegations, whoever has exited since and whatever slots have been used
again. The ledger knows of the present only: it drops the edges of a region that is destroyed and bypasses a process that is
gone.

`Descends s`: between capabilities that are held, the ledger's chains are nevertheless the run's derivations. Every move keeps
it, and so a revocation takes exactly what was derived from the revoker's capability (`revocation_exact`).
-/
import Rustproof.Lib.Provenance
import Rustproof.Kernel.Sole
import Rustproof.Kernel.Revocation
import Rustproof.Kernel.Credits
import Rustproof.Kernel.Shutdown

namespace Rustproof.Kernel

open Lib Prog Relation

variable {A : Arch} {C : Config} {G : Gate} {me : ℕ} {k : Trap} {s t u : KState}

/-! ## What the history tells -/

/-- the slot an end of an edge lies in -/
def slotOf (e : Deleg.Endpoint) : ℕ × ℕ := (e.proc, e.cap)

/-- what an event is to the capability slots -/
def handingOf : Event → Option (Handing (ℕ × ℕ))
  | .loaded p => some (.clear {x | x.1 = p})
  | .minted p c _ _ => some (.clear {(p, c)})
  | .delegated p c q d => some (.hand (p, c) (q, d))
  | _ => none

/-- the capability in the second slot was obtained from the one in the first -/
def Derived (h : List Event) : ℕ × ℕ → ℕ × ℕ → Prop := Handing.Came (h.filterMap handingOf)

theorem derived_append {h h' : List Event} (hnone : ∀ e ∈ h', handingOf e = none) : Derived (h ++ h') = Derived h := by
  rw [Derived, Derived, List.filterMap_append, List.filterMap_eq_nil_iff.2 hnone, List.append_nil]

theorem derived_snoc {h : List Event} {e : Event} {x : Handing (ℕ × ℕ)} (he : handingOf e = some x) :
    Derived (h ++ [e]) = Handing.tell (Derived h) x := by
  have hone : [e].filterMap handingOf = [x] := by simp [he]
  rw [Derived, List.filterMap_append, hone, Handing.came_append]
  rfl

theorem derived_freed {h : List Event} (fs : List ℕ) : Derived (h ++ fs.map Event.freed) = Derived h := by
  refine derived_append fun e he => ?_
  obtain ⟨f, -, rfl⟩ := List.mem_map.1 he
  rfl

theorem Quiet.derived (h : Quiet s t) : Derived t.w.history = Derived s.w.history := by
  obtain ⟨x, hx, hs⟩ := h.history
  rw [hx]
  refine derived_append fun e he => ?_
  have := hs e he
  cases e with
  | resumed => rfl
  | queued => rfl
  | _ => exact absurd this (by simp [Event.scheduling])

theorem SpaceOnly.derived {p : ℕ} (h : SpaceOnly s p t) : Derived t.w.history = Derived s.w.history := by
  obtain ⟨fs, hfs⟩ := h.history
  rw [hfs, derived_freed]

theorem DmaOnly.derived (h : DmaOnly C s t) : Derived t.w.history = Derived s.w.history := by
  obtain ⟨x, hx, hs⟩ := h.history
  rw [hx]
  refine derived_append fun e he => ?_
  have := hs e he
  cases e with
  | leaf => rfl
  | tail => rfl
  | invalidated => rfl
  | _ => exact absurd this (by simp [Event.io])

/-! ## What the ledger tells -/

/-- the end names a capability its process holds -/
def Current (s : KState) (e : Deleg.Endpoint) : Prop := ∃ c, s.capOf e = some c

/-- **Between capabilities that are held, the ledger's chains are the run's derivations.** -/
def Descends (s : KState) : Prop := Tracks slotOf (Current s) s.ledger.Has (Derived s.w.history)

theorem Current.of_slot {e e' : Deleg.Endpoint} (h : Current s e) (h' : Current s e') (he : slotOf e = slotOf e') : e = e' := by
  obtain ⟨_, hc⟩ := h
  obtain ⟨_, hc'⟩ := h'
  obtain ⟨hp, hcap⟩ := Prod.mk.inj he
  rw [endpoint_of_capOf hc, endpoint_of_capOf hc', hp, hcap]

theorem Current.fewer {e : Deleg.Endpoint} (h : Current t e) (hf : Fewer s t) : Current s e := by
  obtain ⟨c, hc⟩ := h
  exact ⟨c, hf.capOf hc⟩

theorem Lineage.has_below (h : Lineage s) {a b : Deleg.Endpoint} (hab : s.ledger.Has a b) : Below s a b := by
  obtain ⟨i, hi, he⟩ := hab
  have hb := Deleg.Ledger.Forest.edge h i hi (by rw [he])
  rw [he] at hb
  exact hb

theorem Below.current {a b : Deleg.Endpoint} (h : Below s a b) : Current s a ∧ Current s b := by
  obtain ⟨ca, cb, h1, h2, -⟩ := h
  exact ⟨⟨ca, h1⟩, cb, h2⟩

/-- only capabilities that are held are on chains -/
theorem Lineage.ends (h : Lineage s) (a b : Deleg.Endpoint) (hab : s.ledger.Has a b) : Current s a ∧ Current s b :=
  (h.has_below hab).current

theorem Lineage.isForest (h : Lineage s) : s.ledger.IsForest := Deleg.Ledger.Forest.isForest h

/-- a chain between capabilities of the ledger relates them -/
theorem Lineage.below (h : Lineage s) {a b : Deleg.Endpoint} (hab : TransGen s.ledger.Has a b) : Below s a b :=
  (Deleg.Ledger.Forest.below h (fun _ _ _ => Below.trans) hab).1

namespace Descends

/-- a step that tells nothing, keeps the ledger and gives nobody a capability -/
theorem congr (h : Descends s) (hd : Derived t.w.history = Derived s.w.history) (hled : t.ledger = s.ledger)
    (hcap : ∀ e, Current t e → Current s e) : Descends t := by
  rw [Descends, hd, hled]
  exact h.drop hcap fun _ _ _ _ => Iff.rfl

/-- the same, with every process's authority kept -/
theorem still (h : Descends s) (hd : Derived t.w.history = Derived s.w.history) (hled : t.ledger = s.ledger)
    (hauth : ∀ p, (t.procs p).authority = (s.procs p).authority) : Descends t := by
  refine h.congr hd hled fun e he => ?_
  obtain ⟨c, hc⟩ := he
  refine ⟨c, ?_⟩
  rw [← hc]
  exact (capOf_congr (Process.live_eq (hauth _)) (Process.id_eq (hauth _)) (by rw [Process.caps_eq (hauth e.proc)])).symm

theorem spaceOnly {p : ℕ} (h : Descends s) (hs : SpaceOnly s p t) : Descends t :=
  h.still hs.derived hs.ledger (hs.still.authority hs.caps)

theorem dmaOnly (h : Descends s) (hs : DmaOnly C s t) : Descends t := h.still hs.derived hs.ledger hs.authority

theorem quiet (h : Descends s) (hs : Quiet s t) : Descends t := h.still hs.derived hs.ledger hs.authority

end Descends

/-! ## A region that is destroyed

Every capability a chain leads through names the same object, so what loses its chains is gone itself. -/

/-- a slot that is emptied takes the edges that name it, and no others -/
theorem has_forgetCap {region p c : ℕ} {a b : Deleg.Endpoint} (h : s.ledger.Has a b) :
    (forgetCap region p s c).ledger.Has a b ∨ ¬Current (forgetCap region p s c) a ∨ ¬Current (forgetCap region p s c) b := by
  rw [forgetCap]
  split_ifs with hc
  · have hid : (s.modProc p fun q => { q with caps := q.caps.revoke c }).endpointAt p c = s.endpointAt p c := by
      rw [KState.endpointAt, KState.modProc_procs, Table.put_self]; rfl
    have hgone : ¬Current (s.modProc p fun q => { q with caps := q.caps.revoke c }) (s.endpointAt p c) := by
      rintro ⟨x, hx⟩
      obtain ⟨-, -, hx⟩ := capOf_some hx
      have hx' : ((s.procs p).caps.revoke c).lookup c = some x := by
        rw [KState.modProc_procs] at hx
        simpa [KState.endpointAt] using hx
      rw [Capabilities.CapSpace.lookup_revoke, if_pos rfl] at hx'
      simp at hx'
    simp only [hid]
    by_cases ha : a = s.endpointAt p c
    · exact Or.inr (Or.inl (ha ▸ hgone))
    by_cases hb : b = s.endpointAt p c
    · exact Or.inr (Or.inr (hb ▸ hgone))
    obtain ⟨i, hi, he⟩ := h
    refine Or.inl ⟨i, hi, ?_⟩
    refine (if_neg fun hdrop => ?_).trans he
    have hends : (decide ((s.ledger.edges i).parent = s.endpointAt p c) ||
          decide ((s.ledger.edges i).child = s.endpointAt p c)) = true :=
      hdrop.2.2
    rw [he, decide_eq_false ha, decide_eq_false hb] at hends
    exact absurd hends (by decide)
  · exact Or.inl h

/-- what `forgetCaps` leaves of the ledger: the edges between capabilities that stay -/
theorem has_forgetCaps {region : ℕ} {a b : Deleg.Endpoint} (h : s.ledger.Has a b) (ha : Current (forgetCaps region s) a)
    (hb : Current (forgetCaps region s) b) : (forgetCaps region s).ledger.Has a b := by
  have hstep : ∀ p c (v : KState), (v.ledger.Has a b ∨ ¬Current v a ∨ ¬Current v b) →
      (forgetCap region p v c).ledger.Has a b ∨ ¬Current (forgetCap region p v c) a ∨ ¬Current (forgetCap region p v c) b := by
    intro p c v hv
    rcases hv with hv | hv | hv
    · exact has_forgetCap hv
    · exact Or.inr (Or.inl fun hc => hv (hc.fewer (fewer_forgetCap _ _ _ _).1))
    · exact Or.inr (Or.inr fun hc => hv (hc.fewer (fewer_forgetCap _ _ _ _).1))
  have hall : (forgetCaps region s).ledger.Has a b ∨ ¬Current (forgetCaps region s) a ∨ ¬Current (forgetCaps region s) b := by
    rw [forgetCaps]
    refine List.foldlRecOn (motive := fun v : KState => v.ledger.Has a b ∨ ¬Current v a ∨ ¬Current v b) _ _ (Or.inl h)
      fun v hv p _ => ?_
    split_ifs
    · exact List.foldlRecOn (motive := fun v : KState => v.ledger.Has a b ∨ ¬Current v a ∨ ¬Current v b) _ _ hv
        fun v hv c _ => hstep p c v hv
    · exact hv
  rcases hall with hall | hall | hall
  · exact hall
  · exact absurd ha hall
  · exact absurd hb hall

theorem has_of_sub {N : ℕ} {l l' : Deleg.Ledger N} (h : l'.Sub l) {a b : Deleg.Endpoint} (hab : l'.Has a b) : l.Has a b := by
  obtain ⟨i, hi, he⟩ := hab
  exact ⟨i, hi, by rw [← h i hi (by rw [he]), he]⟩

/-- every chain between capabilities that stay is left -/
theorem Lineage.chain_forgetCaps (hl : Lineage s) (hslots : ∀ i, s.live i = true → i < MAX_PROCS)
    {region : ℕ} {x y : Deleg.Endpoint}
    (hx : Current (Kernel.forgetCaps region s) x) (hc : TransGen s.ledger.Has x y) :
    TransGen (Kernel.forgetCaps region s).ledger.Has x y := by
  have hcaps := capsOnly_forgetCaps region s
  obtain ⟨hfewer, -⟩ := fewer_forgetCaps region s
  -- everything on the chain names the object the first capability names
  have hstay : ∀ z, TransGen s.ledger.Has x z → Current (Kernel.forgetCaps region s) z := by
    intro z hz
    obtain ⟨cx, cz, h1, h2, ht, ho, -⟩ := hl.below hz
    obtain ⟨cx', hx'⟩ := hx
    obtain rfl : cx' = cx := Option.some.inj ((hfewer.capOf hx').symm.trans h1)
    obtain ⟨hlive, -, hlook⟩ := capOf_some hx'
    obtain ⟨hzl, hzid, hzlook⟩ := capOf_some h2
    have hnot : ¬Names region cz := by
      rintro ⟨hn1, hn2⟩
      exact forgetCaps_gone (p := x.proc) (c := cx') ⟨⟨hslots _ (hfewer.live _ hlive), hlive⟩, _, hlook⟩ ⟨ht ▸ hn1, ho ▸ hn2⟩
    obtain ⟨_, hproc⟩ := hcaps.proc z.proc
    refine ⟨cz, (if_pos ⟨?_, ?_⟩).trans (forgetCaps_keep hnot hzlook)⟩
    · rw [KState.live, hproc]
      exact hzl
    · rw [hproc]
      exact hzid
  induction hc with
  | single hab => exact .single (has_forgetCaps hab hx (hstay _ (.single hab)))
  | tail ham hmb ih => exact ih.tail (has_forgetCaps hmb (hstay _ ham) (hstay _ (ham.tail hmb)))

theorem Descends.forgetCaps (h : Descends s) (hl : Lineage s) (hslots : ∀ i, s.live i = true → i < MAX_PROCS) (region : ℕ) :
    Descends (forgetCaps region s) := by
  obtain ⟨hfewer, hsub⟩ := fewer_forgetCaps region s
  rw [Descends, (capsOnly_forgetCaps region s).w]
  refine h.drop (fun e he => he.fewer hfewer) fun x y hx _ => ⟨fun hc => ?_, hl.chain_forgetCaps hslots hx⟩
  exact TransGen.mono (fun _ _ hab => has_of_sub hsub hab) _ _ hc

/-! ## Revocations -/

/-- what one iteration is given is gone afterwards -/
theorem strip_gone (d : Deleg.Endpoint) (s : KState) : wp (strip A C d) (fun _ t => ¬Current t d) (· = .ringFull) s := by
  refine wp_mono (strip_run d s) fun _ t ht => ?_
  rintro ⟨c, hc⟩
  obtain ⟨hl, hid, hlook⟩ := capOf_some hc
  rcases ht with ⟨hno, rfl⟩ | ⟨-, v, rfl, hio, hnone⟩
  · exact hno ⟨hl, hid⟩
  have hv : DmaOnly C (bereave A d s) v := by
    rcases hA : A.iommu with _ | _
    · rw [hnone hA]
      exact DmaOnly.refl _
    · exact (dmaOnly_withdrawUnheld d.proc _).trans (hio hA).dmaOnly
  rw [caps_settle, Process.caps_eq (hv.authority d.proc), bereave, (spaceOnly_detach _ d.proc).caps, KState.modProc_procs,
    Table.put_self, Capabilities.CapSpace.lookup_revoke, if_pos rfl] at hlook
  simp at hlook

/-- **All that a revocation reaches is gone.** -/
theorem revoke_gone {cap : ℕ} (hrun : revokeDelegations A C me cap s = .ok ((), t)) {d : Deleg.Endpoint}
    (hd : TransGen s.ledger.Has (s.endpointAt me cap) d) : ¬Current t d := by
  obtain ⟨hmem, -, -⟩ := s.ledger.revokeFrom_spec (s.endpointAt me cap) MAX_DELEGATIONS le_rfl
  have hwp : wp (revokeDelegations A C me cap)
      (fun _ u => ∀ d ∈ (s.ledger.revokeFrom (s.endpointAt me cap) MAX_DELEGATIONS).2, ¬Current u d)
      (fun e => e = .ringFull ∧ e = .ringFull) s := by
    rw [revokeDelegations, wp_bind, wp_get]
    simp only [wp_bind, wp_modify]
    refine wp_forEach_prefix (I := fun ds u => ∀ d ∈ ds, ¬Current u d) (fun pre d post _ u hu => ?_) (by simp)
    refine wp_mono (wp_and (strip_gone d u) (fewer_strip d u)) fun _ v hv e he => ?_
    rcases List.mem_append.1 he with he | he
    · exact fun hc => hu e he (hc.fewer hv.2)
    · rw [List.mem_singleton.1 he]
      exact hv.1
  exact wp_ok hwp hrun d ((hmem d).2 hd)

theorem derived_revoke {cap : ℕ} (hrun : revokeDelegations A C me cap s = .ok ((), t)) :
    Derived t.w.history = Derived s.w.history := by
  refine wp_ok (wp_revoke (I := fun u : KState => Derived u.w.history = Derived s.w.history) (E := (· = .ringFull)) rfl
    fun d _ u hu => ?_) hrun
  refine wp_mono (strip_parts d u) fun _ v hv => ?_
  rcases hv with rfl | ⟨-, -, v, hdma, rfl⟩
  · exact hu
  calc Derived (settle A d.proc v).w.history = Derived v.w.history := (quiet_settle d.proc v).derived
    _ = Derived (bereave A d u).w.history := hdma.derived
    _ = Derived u.w.history := (spaceOnly_detach _ d.proc).derived
    _ = Derived s.w.history := hu

theorem Descends.revoke (h : Descends s) {cap : ℕ} (hrun : revokeDelegations A C me cap s = .ok ((), t)) : Descends t := by
  obtain ⟨-, hhas, hsub⟩ := s.ledger.revokeFrom_spec (s.endpointAt me cap) MAX_DELEGATIONS le_rfl
  have hled := ledger_revoke hrun
  rw [Descends, derived_revoke hrun]
  refine h.drop (fun e he => he.fewer (fewer_revoke hrun)) fun x y hx hy => ⟨fun hc => ?_, fun hc => ?_⟩
  · rw [hled] at hc
    exact TransGen.mono (fun _ _ hab => has_of_sub hsub hab) _ _ hc
  · -- a chain that leads to what is left has not been near the root
    have hoff : ∀ z, TransGen s.ledger.Has z y → z ≠ s.endpointAt me cap ∧ ¬TransGen s.ledger.Has (s.endpointAt me cap) z :=
      fun z hz => ⟨fun he => revoke_gone hrun (he ▸ hz) hy, fun hr => revoke_gone hrun (hr.trans hz) hy⟩
    rw [hled]
    clear hx
    induction hc using TransGen.head_induction_on with
    | single hay => exact .single ((hhas _ _).2 ⟨hay, hoff _ (.single hay)⟩)
    | head hac hcy ih => exact .head ((hhas _ _).2 ⟨hac, hoff _ (.head hac hcy)⟩) ih

/-! ## Deaths and arrivals -/

theorem derived_reap (s : KState) (p : ℕ) : Derived (refusePeers A (reap p s)).w.history = Derived s.w.history := by
  calc Derived (refusePeers A (reap p s)).w.history = Derived (reap p s).w.history := (quiet_refusePeers (reap p s)).derived
    _ = Derived (s.w.freeFrames (s.procs p).frames).history := rfl
    _ = Derived s.w.history := by rw [Machine.history_freeFrames, derived_freed]

theorem Descends.reap (h : Descends s) (hl : Lineage s) (p : ℕ) : Descends (refusePeers A (reap p s)) := by
  have hled : (refusePeers A (Kernel.reap p s)).ledger = s.ledger.spliceOut p (s.procs p).id := by
    rw [refusePeers_ledger, Kernel.reap]
    simp only [KState.dequeue_ledger, KState.modProc_ledger, KState.modProc_procs, Table.put_self]
  have hfewer := fewer_reap (A := A) s p
  -- what is left is not the dead process's
  have hout : ∀ e, Current (refusePeers A (Kernel.reap p s)) e → e.sameProc p (s.procs p).id = false := by
    rintro e ⟨c, hc⟩
    obtain ⟨hlive, -, -⟩ := capOf_some hc
    rw [live_refusePeers, KState.live, procs_reap, Table.put_apply] at hlive
    by_cases he : e.proc = p
    · rw [if_pos he] at hlive
      exact absurd hlive (by simp [Process.live])
    · rw [Deleg.Endpoint.sameProc, beq_eq_false_iff_ne.2 he, Bool.false_and]
  rw [Descends, derived_reap, hled]
  refine h.drop (fun e he => he.fewer hfewer) fun x y hx hy => ?_
  exact (Deleg.Ledger.spliceOut_preserves s.ledger hl.isForest p (s.procs p).id).2.1 x y (hout x hx) (hout y hy)

/-- a process that could not be loaded leaves no word of itself -/
theorem Descends.loadFailed (h : Descends s) {slot id : ℕ} {role : Role}
    (hrun : loadProcess A C slot id role s = .ok (false, t)) :
    Descends t := by
  rcases wp_ok (loadProcess_spec slot id role s) hrun with ⟨-, rfl | ⟨r, hb, rfl⟩⟩ | ⟨hf, -⟩
  · exact h
  · have hfreed : FreedOnly ⟨s.w, []⟩ (buildSpace A C ⟨s.w, []⟩).2 :=
      buildSpace_keep FreedOnly.alloc FreedOnly.write (FreedOnly.refl _)
    rw [hb] at hfreed
    obtain ⟨-, fs, hfs⟩ := hfreed
    refine h.still ?_ rfl fun _ => rfl
    show Derived (r.w.freeFrames r.frames).history = _
    rw [Machine.history_freeFrames, derived_freed, hfs, derived_freed]
  · exact absurd hf (by decide)

/-- a new process starts with capabilities nobody delegated -/
theorem Descends.arrives (h : Descends s) (hl : Lineage s) {slot id : ℕ} {role : Role} (hfree : s.live slot = false)
    (hrun : loadProcess A C slot id role s = .ok (true, t)) : Descends t := by
  rcases wp_ok (loadProcess_spec slot id role s) hrun with ⟨hf, -⟩ | ⟨-, token, entry, r, hb, rfl⟩
  · exact absurd hf (by decide)
  have hfreed : FreedOnly ⟨s.w, []⟩ (buildSpace A C ⟨s.w, []⟩).2 :=
    buildSpace_keep FreedOnly.alloc FreedOnly.write (FreedOnly.refl _)
  rw [hb] at hfreed
  obtain ⟨-, fs, hfs⟩ := hfreed
  have hd : Derived (({ s with w := r.w }.modProc slot fun p => freshProcess A C p token entry id role r.frames).record
      (.loaded slot)).w.history = Handing.tell (Derived s.w.history) (.clear {x | x.1 = slot}) := by
    show Derived (r.w.history ++ [.loaded slot]) = _
    have htell := derived_snoc (h := r.w.history) (e := .loaded slot) rfl
    rw [htell, hfs, derived_freed]
  rw [Descends, hd]
  refine Tracks.clear h hl.ends fun e he => ?_
  by_cases hp : e.proc = slot
  · refine Or.inr ⟨hp, ?_⟩
    rintro ⟨c, hc⟩
    obtain ⟨hlive, -⟩ := capOf_some hc
    rw [hp, hfree] at hlive
    exact absurd hlive (by decide)
  · obtain ⟨c, hc⟩ := he
    refine Or.inl ⟨hp, c, hc ▸ (capOf_congr ?_ ?_ ?_).symm⟩
    all_goals simp only [KState.live, KState.record_procs, KState.modProc_procs, Table.put_of_ne _ hp]

/-- a region that is made has a capability of its own -/
theorem Descends.make (h : Descends s) (hl : Lineage s) (hme : s.live me = true) {pages v : ℕ} {rights : CapRights}
    (hrun : makeRegion me pages rights s = .ok (v, t)) : Descends t := by
  have htook := takeDmaFrames_spec pages [] s.w
  rcases wp_ok (makeRegion_spec me pages rights s) hrun with
    ⟨-, rfl | ⟨w, hw, rfl⟩ | ⟨frames, w, hw, rfl⟩⟩ | ⟨idx, frames, w, cap, caps, -, hw, hins, -, rfl⟩
  · exact h
  · rw [hw] at htook
    obtain ⟨-, fs, hfs⟩ := htook
    refine h.still ?_ rfl fun _ => rfl
    rw [hfs, derived_freed]
  · rw [hw] at htook
    obtain ⟨-, fs, hfs⟩ := htook
    refine h.still ?_ rfl fun _ => rfl
    show Derived (w.freeFrames frames).history = _
    rw [Machine.history_freeFrames, derived_freed, hfs, derived_freed]
  rw [hw] at htook
  obtain ⟨-, fs, hfs⟩ := htook
  obtain ⟨-, -, hnone, -, -, -, hold⟩ := Capabilities.CapSpace.insert_some hins
  have hd : Derived (w.history ++ [.minted me cap s.nextRegionId rights]) =
      Handing.tell (Derived s.w.history) (.clear {(me, cap)}) := by
    have htell := derived_snoc (h := w.history) (e := .minted me cap s.nextRegionId rights) rfl
    rw [htell, hfs, derived_freed]
  rw [Descends]
  show Tracks slotOf _ s.ledger.Has (Derived (w.history ++ [.minted me cap s.nextRegionId rights]))
  rw [hd]
  refine Tracks.clear h hl.ends fun e he => ?_
  obtain ⟨c, hc⟩ := he
  obtain ⟨hlive, hid, hlook⟩ := capOf_some hc
  by_cases hp : e.proc = me
  · simp only [KState.record_procs, KState.modProc_procs, hp, Table.put_self] at hid hlook
    by_cases hcap : e.cap = cap
    · refine Or.inr ⟨Prod.ext hp hcap, ?_⟩
      rintro ⟨x, hx⟩
      have := (capOf_some hx).2.2
      rw [hp, hcap, hnone] at this
      exact absurd this (by simp)
    · refine Or.inl ⟨fun he => hcap (congrArg Prod.snd he), c, (if_pos ⟨hp ▸ hme, hp ▸ hid⟩).trans ?_⟩
      rw [hold e.cap hcap] at hlook
      rw [hp]
      exact hlook
  · refine Or.inl ⟨fun he => hp (congrArg Prod.fst he), c, hc ▸ (capOf_congr ?_ ?_ ?_).symm⟩
    all_goals simp only [KState.live, KState.record_procs, KState.modProc_procs, Table.put_of_ne _ hp]

/-- an edge written over a dead one is one edge more -/
theorem has_put {N : ℕ} {l : Deleg.Ledger N} {i : ℕ} (hi : i < N) (hdead : (l.edges i).live = false) (a b x y : Deleg.Endpoint) :
    (⟨l.edges.put i ⟨a, b, true⟩⟩ : Deleg.Ledger N).Has x y ↔ l.Has x y ∨ x = a ∧ y = b := by
  constructor
  · rintro ⟨j, hj, he⟩
    simp only [Table.put_apply] at he
    split_ifs at he with hji
    · exact Or.inr ⟨(congrArg Deleg.Edge.parent he).symm, (congrArg Deleg.Edge.child he).symm⟩
    · exact Or.inl ⟨j, hj, he⟩
  · rintro (⟨j, hj, he⟩ | ⟨rfl, rfl⟩)
    · refine ⟨j, hj, (Table.put_of_ne _ ?_ _).trans he⟩
      rintro rfl
      rw [he] at hdead
      exact Bool.noConfusion hdead
    · exact ⟨i, hi, Table.put_self _ _ _⟩

/-- a capability is handed on -/
theorem Descends.handOver (h : Descends s) (hl : Lineage s) {slot arg childId : ℕ} {c : Capabilities.CapSlot} (requested : ℕ)
    (hroom : s.ledger.len < MAX_DELEGATIONS) (hne : me ≠ slot) (hme : s.live me = true) (hslot : s.live slot = true)
    (hid : (s.procs slot).id = childId) (hc : delegated (s.procs me).caps arg requested = some c) :
    Descends (handOver me slot arg childId c s) := by
  rw [Kernel.handOver]
  cases hins : (s.procs slot).caps.insert c.capType c.rights c.object with
  | none => exact h
  | some out =>
    obtain ⟨childCap, caps⟩ := out
    obtain ⟨own, hown, -⟩ := delegated_some hc
    obtain ⟨-, -, hnone, -, -, -, hold⟩ := Capabilities.CapSpace.insert_some hins
    obtain ⟨i, hi, hdead, hrec⟩ := Deleg.Ledger.record_spec hroom (s.endpointAt me arg) ⟨slot, childId, childCap⟩
    have hparent : (s.modProc slot fun p => { p with caps := caps }).endpointAt me arg = s.endpointAt me arg := by
      rw [KState.endpointAt, KState.endpointAt, KState.modProc_procs, Table.put_of_ne _ hne]
    have hd : Derived (s.w.history ++ [.delegated me arg slot childCap]) =
        Handing.tell (Derived s.w.history) (.hand (me, arg) (slot, childCap)) := derived_snoc rfl
    have hparented : Current s (s.endpointAt me arg) := ⟨own, (capOf_endpointAt hme).trans hown⟩
    rw [Descends]
    show Tracks slotOf _ (s.ledger.record ((s.modProc slot fun p => { p with caps := caps }).endpointAt me arg)
      ⟨slot, childId, childCap⟩).2.Has (Derived (s.w.history ++ [.delegated me arg slot childCap]))
    rw [hparent, hrec, hd]
    refine Tracks.hand (a := s.endpointAt me arg) (b := ⟨slot, childId, childCap⟩) h hl.ends hparented ?_ (fun e he => ?_)
      (has_put hi hdead _ _) fun e he hslot' => he.of_slot hparented hslot'
    · rintro ⟨x, hx⟩
      have := (capOf_some hx).2.2
      rw [hnone] at this
      exact absurd this (by simp)
    · obtain ⟨x, hx⟩ := he
      obtain ⟨hlive, hxid, hlook⟩ := capOf_some hx
      by_cases hp : e.proc = slot
      · simp only [KState.record_procs, KState.modProc_procs, hp, Table.put_self] at hxid hlook
        by_cases hcap : e.cap = childCap
        · obtain ⟨p, id, cap⟩ := e
          obtain rfl : p = slot := hp
          obtain rfl : cap = childCap := hcap
          exact Or.inr (congrArg (fun n => (⟨p, n, cap⟩ : Deleg.Endpoint)) (hxid.symm.trans hid))
        · rw [hold e.cap hcap] at hlook
          refine Or.inl ⟨⟨x, (if_pos ⟨hp ▸ hslot, hp ▸ hxid⟩).trans ?_⟩, fun he => hcap (congrArg Prod.snd he)⟩
          rw [hp]
          exact hlook
      · refine Or.inl ⟨⟨x, hx ▸ (capOf_congr ?_ ?_ ?_).symm⟩, fun he => hp (congrArg Prod.fst he)⟩
        all_goals simp only [KState.live, KState.record_procs, KState.modProc_procs, Table.put_of_ne _ hp]

/-! ## Every move -/

theorem Descends.move (h : Descends s) (hl : Lineage s) (hslots : ∀ i, s.live i = true → i < MAX_PROCS)
    (hm : Move A C G me k s t) : Descends t := by
  cases hm with
  | control hc => exact h.quiet hc.quiet
  | @receive r =>
    obtain ⟨⟨f, hf⟩, -⟩ := takeMessage_spec (A := A) r s
    have hhist : (takeMessage A r s).w.history = s.w.history := by
      rw [takeMessage]; split <;> rfl
    refine h.still (by rw [hhist]) (by rw [takeMessage]; split <;> rfl) fun p => ?_
    rw [hf, Table.put_apply]
    split_ifs with hp
    · rw [hp]; rfl
    · rfl
  | store | copy => exact h.still rfl rfl fun _ => rfl
  | mapRegion => exact h.spaceOnly (spaceOnly_mapRegion A s me _ _)
  | mapDevice _ hcur => exact h.spaceOnly (spaceOnly_mapDevice A C s hcur _ _ _)
  | unmapDevice => exact h.spaceOnly (spaceOnly_unmapDeviceWindow A s me)
  | unmapRegion => exact h.spaceOnly (spaceOnly_unmapRegionFrom A s me _)
  | unmapShare => exact h.spaceOnly (spaceOnly_unmapShareSlot A s _ _)
  | make hme _ _ _ _ hrun => exact h.make hl hme.2 hrun
  | mapDma => exact h.dmaOnly (dmaOnly_mapDma me _ _ _ s)
  | unmapDma _ _ hrun => exact h.dmaOnly (wp_ok (dmaOnly_unmapDma me _ _ s) hrun)
  | withdrawAll _ _ hrun => exact h.dmaOnly (wp_ok (dmaOnly_withdrawAllDmaOf me s) hrun)
  | @retire _ region i _ hsl _ _ hrun =>
    have hcaps := capsOnly_forgetCaps region s
    have hsl' : (Kernel.forgetCaps region s).regionSlot region = some i := by
      rw [regionSlot_congr hcaps.regions]; exact hsl
    obtain ⟨v, hdma, -, rfl⟩ := wp_ok (releaseRegion_spec (A := A) (C := C) hsl') hrun
    have hv := (h.forgetCaps hl hslots region).dmaOnly hdma
    refine hv.still ?_ rfl fun _ => rfl
    show Derived (v.w.freeFrames (v.regions i).frames).history = _
    rw [Machine.history_freeFrames, derived_freed]
  | revoke _ _ _ hrun => exact h.revoke hrun
  | reap => exact h.reap hl me
  | loadFailed _ _ _ hrun => exact h.loadFailed hrun
  | @boot u i _ _ hfree hrun => exact (h.arrives hl hfree hrun).quiet (Quiet.enqueue u i)
  | @spawn u slot arg requested childId cap hme _ _ hslot hfree hcap hgate hrun =>
    have hu := h.arrives hl hfree hrun
    obtain ⟨hled, hother⟩ := loadProcess_ledger hrun
    have hne : me ≠ slot := fun e => by
      have := hme.2
      rw [e, hfree] at this
      exact absurd this (by decide)
    suffices hdone : Descends (cap.elim u fun c => Kernel.handOver me slot arg childId c u) from
      hdone.quiet (Quiet.enqueue _ slot)
    cases cap with
    | none => exact hu
    | some c =>
      have harg : arg ≠ sysno.NO_DELEGATE := fun e => by rw [if_pos e] at hcap; simp at hcap
      rw [if_neg harg] at hcap
      have hroom := (hgate.resolve_left harg).2
      rcases wp_ok (loadProcess_spec slot childId .child s) hrun with ⟨hf, -⟩ | ⟨-, tok, entry, r, -, rfl⟩
      · exact absurd hf (by decide)
      refine hu.handOver (hl.arrives hfree hrun) requested hroom hne ?_ ?_ ?_ ?_
      · rw [KState.live, hother _ hne]; exact hme.2
      · rw [KState.live, KState.record_procs, KState.modProc_procs, Table.put_self]; rfl
      · rw [KState.record_procs, KState.modProc_procs, Table.put_self]; rfl
      · rw [hother _ hne]; exact hcap.symm

/-- **In every reachable state the ledger tells what the run has derived.** -/
theorem Reachable.descends {s₀ : KState} (h₀ : PreUserland A C s₀) (h : Reachable A C s₀ s) : Descends s := by
  have hall : Lineage s ∧ (∀ i, s.live i = true → i < MAX_PROCS) ∧ Descends s := by
    refine Reachable.keep (I := fun s => Lineage s ∧ (∀ i, s.live i = true → i < MAX_PROCS) ∧ Descends s) h₀
      ⟨?_, h₀.scheduled.slots, fun x y hx _ => ?_⟩ (fun hm hs => ?_) h
    · rw [Lineage, h₀.noEdges]
      exact Deleg.Ledger.forest_new
    · -- nobody holds anything yet
      obtain ⟨c, hc⟩ := hx
      have hlive := (capOf_some hc).1
      rw [KState.live, h₀.noProcs] at hlive
      exact absurd hlive (by decide)
    · obtain ⟨hl, hslots, hd⟩ := hs
      exact ⟨hl.move hm, hm.change.slots hslots, hd.move hl hslots hm⟩
  exact hall.2.2

/-! ## What a revocation takes -/

/-- process `q` holds a capability that was obtained from the one in slot `cap` of process `p` -/
def KState.Owes (s : KState) (p cap q : ℕ) : Prop :=
  ∃ i, ((s.procs q).caps.lookup i).isSome = true ∧ Derived s.w.history (p, cap) (q, i)

/-- `t` is `s` without what was obtained from the capability in slot `cap` of process `p` -/
structure Revoked (A : Arch) (C : Config) (p cap : ℕ) (s t : KState) : Prop where
  gone : ∀ q, s.Alive q → ∀ i, Derived s.w.history (p, cap) (q, i) → (t.procs q).caps.lookup i = none
  kept : ∀ q, s.Alive q → ∀ i, ¬Derived s.w.history (p, cap) (q, i) → (t.procs q).caps.lookup i = (s.procs q).caps.lookup i
  own : (t.procs p).caps.lookup cap = (s.procs p).caps.lookup cap
  /-- of its windows and recorded DMA mappings, a process that loses a capability keeps what it has others for -/
  access : ∀ q, s.Alive q → s.Owes p cap q → ∀ m, t.Maps A C q m → s.passes (t.procs q).caps q m = true
  /-- and of its interrupt credits -/
  credits : ∀ q, s.Alive q → ∀ line, (t.procs q).irqPending line ≠ 0 → capsHoldIrq (t.procs q).caps line = true
  /-- the windows of a process that loses none stay -/
  windows : ∀ q, s.Alive q → ¬s.Owes p cap q → (t.Maps A C q .device ↔ s.Maps A C q .device) ∧
    ∀ slot page, t.Maps A C q (.share slot page) ↔ s.Maps A C q (.share slot page)

/-- what is not below the root keeps its capability -/
theorem revoke_spares {cap : ℕ} (hrun : revokeDelegations A C me cap s = .ok ((), t)) {e : Deleg.Endpoint}
    (he : ¬TransGen s.ledger.Has (s.endpointAt me cap) e) : t.capOf e = s.capOf e := by
  obtain ⟨hmem, -, -⟩ := s.ledger.revokeFrom_spec (s.endpointAt me cap) MAX_DELEGATIONS le_rfl
  refine wp_ok (wp_revoke (I := fun u : KState => u.capOf e = s.capOf e) (E := (· = .ringFull)) rfl fun d hd u hu => ?_) hrun
  refine wp_mono (capOf_stripped d u) fun _ v hv => (hv.2 e ?_).trans hu
  rintro rfl
  exact he ((hmem _).1 hd)

theorem revoke_exact (hl : Lineage s) (hd : Descends s) (hs : Laid A C s) {cap : ℕ} (hme : s.Alive me)
    (hcap : ((s.procs me).caps.lookup cap).isSome = true) (hrun : revokeDelegations A C me cap s = .ok ((), t))
    (hcounts : CountsHeld t) : Revoked A C me cap s t := by
  obtain ⟨hmem, -, -⟩ := s.ledger.revokeFrom_spec (s.endpointAt me cap) MAX_DELEGATIONS le_rfl
  have hstripped := revoke_stripped hs hrun
  have hfewer := fewer_revoke hrun
  have hlive : ∀ q, t.live q = s.live q := hstripped.cut.live
  have hid : ∀ q, (t.procs q).id = (s.procs q).id := hstripped.cut.id
  obtain ⟨c, hc⟩ := Option.isSome_iff_exists.1 hcap
  have hroot : Current s (s.endpointAt me cap) := ⟨c, (capOf_endpointAt hme.2).trans hc⟩
  -- what the slots of a live process hold is what its ends name
  have hlook : ∀ q, s.Alive q → ∀ i, (s.procs q).caps.lookup i = s.capOf (s.endpointAt q i) ∧
      (t.procs q).caps.lookup i = t.capOf (s.endpointAt q i) := by
    intro q hq i
    refine ⟨(capOf_endpointAt hq.2).symm, (if_pos ⟨?_, hid q⟩).symm⟩
    rw [hlive]
    exact hq.2
  have hempty : ∀ q, s.Alive q → ∀ i, s.capOf (s.endpointAt q i) = none → (t.procs q).caps.lookup i = none := by
    intro q hq i hnone
    rw [← (hlook q hq i).1] at hnone
    exact Option.eq_none_iff_forall_not_mem.2 fun x hx =>
      absurd (hnone.symm.trans (hstripped.cut.fewer q i x hx)) (by simp)
  -- a process is stripped of something if and only if it holds something derived
  have howes : ∀ q, s.Alive q → (s.loses (s.reached me cap) q = true ↔ s.Owes me cap q) := by
    intro q hq
    rw [KState.loses, List.any_eq_true]
    constructor
    · rintro ⟨d, hdr, hn⟩
      have hchain := (hmem d).1 hdr
      obtain ⟨x, hx⟩ := (hl.below hchain).current.2
      rw [KState.names, Bool.and_eq_true, beq_iff_eq, beq_iff_eq] at hn
      obtain ⟨-, -, hxl⟩ := capOf_some hx
      refine ⟨d.cap, ?_, ?_⟩
      · rw [← hn.1, hxl]
        rfl
      · rw [← hn.1]
        exact (hd _ _ hroot ⟨x, hx⟩).2 hchain
    · rintro ⟨i, hi, hder⟩
      obtain ⟨x, hx⟩ := Option.isSome_iff_exists.1 hi
      have hcur : Current s (s.endpointAt q i) := ⟨x, (hlook q hq i).1 ▸ hx⟩
      refine ⟨s.endpointAt q i, (hmem _).2 ((hd _ _ hroot hcur).1 hder), ?_⟩
      rw [KState.names, KState.endpointAt, beq_self_eq_true, beq_self_eq_true, Bool.and_self]
  have hkept : ∀ q, s.Alive q → ∀ i, ¬Derived s.w.history (me, cap) (q, i) →
      (t.procs q).caps.lookup i = (s.procs q).caps.lookup i := by
    intro q hq i hno
    cases hcur : s.capOf (s.endpointAt q i) with
    | none => rw [hempty q hq i hcur, (hlook q hq i).1, hcur]
    | some x =>
      rw [(hlook q hq i).1, (hlook q hq i).2]
      exact revoke_spares hrun fun hchain => hno ((hd _ _ hroot ⟨x, hcur⟩).2 hchain)
  refine ⟨fun q hq i hder => ?_, hkept, ?_, fun q hq ho m hm => ?_, fun q hq line => hcounts q line ?_, fun q hq hno => ?_⟩
  · cases hcur : s.capOf (s.endpointAt q i) with
    | none => exact hempty q hq i hcur
    | some x =>
      have hchain := (hd _ _ hroot ⟨x, hcur⟩).1 hder
      rw [(hlook q hq i).2]
      by_contra hne
      obtain ⟨y, hy⟩ := Option.ne_none_iff_exists'.1 hne
      exact revoke_gone hrun hchain ⟨y, hy⟩
  · refine hkept me hme cap fun hder => ?_
    exact hl.isForest.acyclic _ ((hd _ _ hroot hroot).1 hder)
  · rw [hstripped.caps q hq]
    exact ((hstripped.maps_iff hs hq m).1 hm).2.1 ((howes q hq).2 ho)
  · rw [hlive]
    exact hq.2
  · have hnot : ¬s.loses (s.reached me cap) q = true := mt (howes q hq).1 hno
    have hiff : ∀ m, s.Spared A C (s.reached me cap) q m → (t.Maps A C q m ↔ s.Maps A C q m) := fun m hsp =>
      (hstripped.maps_iff hs hq m).trans ⟨And.left, fun hm => ⟨hm, fun hc => absurd hc hnot, hsp⟩⟩
    exact ⟨hiff _ trivial, fun slot page => hiff _ trivial⟩

theorem Reachable.countsHeld_revoke {s₀ : KState} (h₀ : PreUserland A C s₀) (h : Reachable A C s₀ s) (hme : s.Alive me)
    (hready : (s.procs me).state = .ready) (hslots : ∀ i, s.live i = true → i < MAX_PROCS) {cap : ℕ}
    (hrun : revokeDelegations A C me cap s = .ok ((), t)) : CountsHeld t := by
  obtain ⟨u, hu⟩ := h.interleaved.booted
  have hch : Change A C me (.fresh UserFrame.ZERO) s t := .revoke hme hready hrun
  exact hch.countsHeld (booted_deliver hu) (h.bounded h₀) hslots (h.interleaved.countsHeld h₀)

/-- **Revocation is complete and exact over whole runs.** In every reachable state: a `REVOKE` of an empty slot changes nothing;
one of a capability takes every capability that was obtained from it through any chain of delegations during the run, through
processes that have died and slots that have been used again, with what they gave access to, and leaves every other capability,
the revoked one included. -/
theorem revocation_exact {s₀ : KState} (h₀ : PreUserland A C s₀) (hbar : BarOutside A C s₀) (hin : Loader.Inside A C.userElf)
    (hgrants : ∀ role, ∀ g ∈ grantsFor C role, g.1 ≠ .region) (h : Reachable A C s₀ s) (hme : s.Alive me)
    (hready : (s.procs me).state = .ready) {f : UserFrame} {out : Option UserFrame} (hrun : sysRevoke A C me f s = .ok (out, t)) :
    (s.procs me).caps.lookup (A.frameArg f 0) = none ∧ out = some (A.frameSetRet f syserr.NO_CAP) ∧ t = s ∨
    ((s.procs me).caps.lookup (A.frameArg f 0)).isSome = true ∧ out = some (A.frameSetRet f syserr.OK) ∧
      Revoked A C me (A.frameArg f 0) s t := by
  have hsound := h.sound h₀ hbar hin hgrants
  have hwp : wp (sysRevoke A C me f) (fun out t =>
      (s.procs me).caps.lookup (A.frameArg f 0) = none ∧ out = some (A.frameSetRet f syserr.NO_CAP) ∧ t = s ∨
      ((s.procs me).caps.lookup (A.frameArg f 0)).isSome = true ∧ out = some (A.frameSetRet f syserr.OK) ∧
        Revoked A C me (A.frameArg f 0) s t) (fun _ => True) s := by
    rw [sysRevoke, wp_bind, wp_get]
    refine wp_ite (fun hcap => ?_) fun hcap => ?_
    · rw [wp_bind]
      refine wp_imp (wp_self (revokeDelegations A C me (A.frameArg f 0)) s) (fun _ v hv _ => ?_) fun _ _ => trivial
      refine Or.inr ⟨hcap, rfl, ?_⟩
      exact revoke_exact hsound.lineage (h.descends h₀) (h.laid h₀ hbar hin hgrants) hme hcap hv
        (h.countsHeld_revoke h₀ hme hready hsound.slots hv)
    · exact Or.inl ⟨by simpa using hcap, rfl, rfl⟩
  exact wp_ok hwp hrun

/-! ## A chain through a process that is gone -/

/-- the child hands it to a child of its own, and exits -/
def childLent : KState :=
  fedTo oneUnitConfig (fedTo oneUnitConfig workerLent (.timer UserFrame.ZERO)) (.syscall (lendFrame 0 0))

def childGone : KState := fedTo oneUnitConfig childLent (.syscall exitFrame)

theorem childGone_reachable : Reachable X86 oneUnitConfig oneUnitState childGone := by
  have hruns : Reachable X86 oneUnitConfig oneUnitState (fedTo oneUnitConfig workerLent (.timer UserFrame.ZERO)) :=
    workerLent_reachable.fedTo (i := .timer UserFrame.ZERO) trivial rfl
  have hlent : Reachable X86 oneUnitConfig oneUnitState childLent := hruns.called (by decide +kernel)
  exact hlent.called (by decide +kernel)

/-- what an edge between capabilities that are held says of their slots -/
theorem Descends.of_has (h : Descends s) {p i q j : ℕ} (hp : s.live p = true) (hq : s.live q = true)
    (hi : ((s.procs p).caps.lookup i).isSome = true) (hj : ((s.procs q).caps.lookup j).isSome = true)
    (hedge : s.ledger.Has (s.endpointAt p i) (s.endpointAt q j)) : Derived s.w.history (p, i) (q, j) := by
  obtain ⟨c, hc⟩ := Option.isSome_iff_exists.1 hi
  obtain ⟨d, hd⟩ := Option.isSome_iff_exists.1 hj
  exact (h _ _ ⟨c, (capOf_endpointAt hp).trans hc⟩ ⟨d, (capOf_endpointAt hq).trans hd⟩).2 (.single hedge)

theorem exists_ok {ε α : Type} {x : Except ε α} (h : x.toBool = true) : ∃ a, x = .ok a := by
  cases x with
  | error e => exact Bool.noConfusion h
  | ok a => exact ⟨a, rfl⟩

/-- the grandchild's capability came from the worker's, and the worker takes it back -/
theorem childGone_revoked : Derived childGone.w.history (2, 2) (1, 0) ∧ ∃ out t,
    sysRevoke X86 oneUnitConfig 2 (callFrame sysno.REVOKE 2 0) childGone = .ok (out, t) ∧
      (t.procs 1).caps.lookup 0 = none ∧ (t.procs 2).caps.lookup 2 = (childGone.procs 2).caps.lookup 2 := by
  have hlive : childGone.live 1 = true ∧ childGone.live 2 = true ∧ (childGone.procs 2).state = .ready := by decide +kernel
  have hcap : ((childGone.procs 2).caps.lookup 2).isSome = true ∧ ((childGone.procs 1).caps.lookup 0).isSome = true := by
    decide +kernel
  have hedge : ∃ i < MAX_DELEGATIONS, childGone.ledger.edges i = ⟨childGone.endpointAt 2 2, childGone.endpointAt 1 0, true⟩ := by
    decide +kernel
  have hok : (sysRevoke X86 oneUnitConfig 2 (callFrame sysno.REVOKE 2 0) childGone).toBool = true := by decide +kernel
  have hd := childGone_reachable.descends oneUnitConfig_ready
  have hexact : ∀ out t, sysRevoke X86 oneUnitConfig 2 (callFrame sysno.REVOKE 2 0) childGone = .ok (out, t) → _ := fun out t =>
    revocation_exact oneUnitConfig_ready oneUnitConfig_apart.toBarOutside emptyX86_inside
      (roleGrants_apart rfl) childGone_reachable ⟨by decide, hlive.2.1⟩ hlive.2.2
  have harg : Arch.frameArg X86 (callFrame sysno.REVOKE 2 0) 0 = 2 := by decide
  rw [harg] at hexact
  revert hlive hcap hedge hok hd hexact
  generalize childGone = u
  intro hlive hcap hedge hok hd hexact
  have hder : Derived u.w.history (2, 2) (1, 0) := hd.of_has hlive.2.1 hlive.1 hcap.1 hcap.2 hedge
  obtain ⟨⟨out, t⟩, hrun⟩ := exists_ok hok
  refine ⟨hder, out, t, hrun, ?_⟩
  rcases hexact out t hrun with ⟨hnone, -⟩ | ⟨-, -, hrev⟩
  · rw [hnone] at hcap
    exact absurd hcap.1 (by decide)
  · exact ⟨hrev.gone 1 ⟨by decide, hlive.1⟩ 0 hder, hrev.own⟩

end Rustproof.Kernel
