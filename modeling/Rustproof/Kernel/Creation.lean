/-
Creations that are refused, and region identities.

`MAKE_REGION` and `SPAWN` acquire one thing after the other, and give back what they have when the next one is not to be had.
`Refused` says what is left of such a call: the answer in its caller's registers, and at most one process identity used up.
- `makes_or_refused`, `spawns_or_refused`: either call, from trap to resumption.
- `Later`: the regions of a later state were there already, or have an identity that was not given out yet.
- `creations_leave_no_trace`: the refusals, in every reachable state; no creation trips the assertion of `make_region`; no
region identity is used twice, and nobody owns more than `REGION_QUOTA` regions.
-/
import Rustproof.Kernel.Grants
import Rustproof.Kernel.Newborn

namespace Rustproof.Kernel

open Lib Prog Mm

variable {A : Arch} {C : Config} {G : Gate} {me : ℕ} {k : Trap} {s t u : KState} {F : Multiset ℕ}

/-- the states of a run that goes on from `s` -/
def Onward (A : Arch) (C : Config) : KState → KState → Prop := Relation.ReflTransGen fun s t => ∃ i, Step A C s i t

/-! ## Region identities -/

/-- the regions of `t` were there in `s`, or have an identity `s` had not given out -/
structure Later (s t : KState) : Prop where
  next : s.nextRegionId ≤ t.nextRegionId
  regions : ∀ i, (t.regions i).live = true → t.regions i = s.regions i ∨ s.nextRegionId ≤ (t.regions i).id

namespace Later

theorem refl (s : KState) : Later s s := ⟨le_rfl, fun _ _ => Or.inl rfl⟩

theorem trans (h : Later s t) (h' : Later t u) : Later s u := by
  refine ⟨h.next.trans h'.next, fun i hl => ?_⟩
  rcases h'.regions i hl with he | hid
  · rw [he] at hl ⊢
    exact h.regions i hl
  · exact Or.inr (h.next.trans hid)

theorem move (hm : Move A C G me k s t) : Later s t := by
  rcases hm.regions with ⟨hr, hn⟩ | ⟨idx, r, -, hid, hr, hn, -⟩ | ⟨region, j, -, hr, hn, -⟩
  · exact ⟨hn.ge, fun i _ => Or.inl (by rw [hr])⟩
  · refine ⟨by rw [hn]; exact Nat.le_succ _, fun i _ => ?_⟩
    rw [hr, Table.put_apply]
    split_ifs
    · exact Or.inr hid.ge
    · exact Or.inl rfl
  · refine ⟨hn.ge, fun i hl => Or.inl ?_⟩
    rw [hr, Table.put_apply] at hl ⊢
    split_ifs at hl ⊢
    · exact absurd hl (by decide)
    · rfl

theorem moves (hm : Moves A C G me k s t) : Later s t :=
  Moves.keep (I := Later s) (fun _ _ hstep hs => hs.trans (move hstep)) hm (refl s)

theorem onward {s₀ : KState} (h₀ : PreUserland A C s₀) (h : Reachable A C s₀ s) (hon : Onward A C s t) :
    Later s t ∧ Reachable A C s₀ t := by
  induction hon with
  | refl => exact ⟨refl s, h⟩
  | tail _ hstep ih =>
    obtain ⟨i, hstep⟩ := hstep
    obtain ⟨hl, hr⟩ := ih
    exact ⟨hl.trans (moves (hstep.moves (hr.ready h₀) (Gate.admits_all _ _ _)).1), .step hr hstep⟩

/-- a region with the identity of one that was there is that one -/
theorem same (h : Later s t) (hids : RegionIds s) {i j : ℕ} (hi : i < MAX_REGIONS) (hj : j < MAX_REGIONS)
    (hl : (s.regions i).live = true) (hl' : (t.regions j).live = true) (he : (t.regions j).id = (s.regions i).id) :
    j = i ∧ t.regions j = s.regions i := by
  rcases h.regions j hl' with hold | hnew
  · have hij : j = i := by
      rw [hold] at hl' he
      exact hids.inj j hj i hi hl' hl he
    exact ⟨hij, hold.trans (by rw [hij])⟩
  · have hlt := hids.below i hi hl
    omega

end Later

/-- nobody owns more regions than the quota allows -/
def InQuota (s : KState) : Prop := ∀ id, (s.owned id).length ≤ REGION_QUOTA

theorem mem_owned {id i : ℕ} : i ∈ s.owned id ↔ i < MAX_REGIONS ∧ (s.regions i).live = true ∧ (s.regions i).ownerId = id := by
  rw [KState.owned, List.mem_filter, List.mem_range, Bool.and_eq_true, beq_iff_eq]

theorem owned_nodup (s : KState) (id : ℕ) : (s.owned id).Nodup := List.nodup_range.filter _

namespace InQuota

/-- regions that go count for nobody -/
theorem fewer (h : InQuota s) (hr : ∀ i, (t.regions i).live = true → t.regions i = s.regions i) : InQuota t := by
  intro id
  refine ((owned_nodup t id).subperm fun i hi => ?_).length_le.trans (h id)
  obtain ⟨hlt, hl, ho⟩ := mem_owned.1 hi
  have he := hr i hl
  rw [he] at hl ho
  exact mem_owned.2 ⟨hlt, hl, ho⟩

/-- one more region for an owner below the quota -/
theorem make (h : InQuota s) {idx : ℕ} {r : Region} (hr : t.regions = s.regions.put idx r)
    (hq : (s.owned r.ownerId).length < REGION_QUOTA) : InQuota t := by
  intro id
  have hsub : ∀ i ∈ t.owned id, i ∈ s.owned id ∨ i = idx ∧ id = r.ownerId := by
    intro i hi
    obtain ⟨hlt, hl, ho⟩ := mem_owned.1 hi
    rw [hr, Table.put_apply] at hl ho
    split_ifs at hl ho with hidx
    · exact Or.inr ⟨hidx, ho.symm⟩
    · exact Or.inl (mem_owned.2 ⟨hlt, hl, ho⟩)
  by_cases hid : id = r.ownerId
  · have hcons : t.owned id ⊆ idx :: s.owned id := fun i hi =>
      List.mem_cons.2 ((hsub i hi).symm.imp_left And.left)
    have hlen := ((owned_nodup t id).subperm hcons).length_le
    rw [List.length_cons] at hlen
    rw [← hid] at hq
    omega
  · have hkeep : t.owned id ⊆ s.owned id := fun i hi => (hsub i hi).resolve_right fun hc => hid hc.2
    exact ((owned_nodup t id).subperm hkeep).length_le.trans (h id)

theorem move (h : InQuota s) (hm : Move A C G me k s t) : InQuota t := by
  rcases hm.regions with ⟨hr, -⟩ | ⟨idx, r, -, -, hr, -, hq⟩ | ⟨region, j, -, hr, -, -⟩
  · exact h.fewer fun _ _ => by rw [hr]
  · exact h.make hr hq
  · refine h.fewer fun i hl => ?_
    rw [hr, Table.put_apply] at hl ⊢
    split_ifs at hl ⊢
    · exact absurd hl (by decide)
    · rfl

end InQuota

theorem PreUserland.inQuota (h : PreUserland A C s) : InQuota s := by
  intro id
  have hnone : s.owned id = [] := by
    refine List.eq_nil_iff_forall_not_mem.2 fun i hi => ?_
    have hl := (mem_owned.1 hi).2.1
    rw [h.noRegions] at hl
    exact absurd hl (by decide)
  rw [hnone]
  exact Nat.zero_le _

/-! ## What is left of a refusal -/

/-- the frames that were drawn are back -/
structure GaveBack (F : Multiset ℕ) (s u : KState) : Prop where
  eq : ∃ w n, u = { s with w := w, nextId := n } ∧ (n = s.nextId ∨ n = wadd s.nextId 1)
  account : Account F u.w.fa (held s)
  size : SameSize s.w.fa u.w.fa

theorem GaveBack.refl (ha : Accounted F s) : GaveBack F s s :=
  ⟨⟨s.w, s.nextId, rfl, Or.inl rfl⟩, ha.account, SameSize.refl _⟩

theorem sameSize_freeFrames (w : Machine) (fs : List ℕ) : SameSize w.fa (w.freeFrames fs).fa := by
  rw [Machine.fa_freeFrames]
  exact List.foldlRecOn (motive := SameSize w.fa) fs _ (SameSize.refl _) fun a ha f _ => ha.trans (SameSize.freeFrame a f)

theorem sameSize_takeDmaFrames (n : ℕ) (got : List ℕ) (w : Machine) : SameSize w.fa (takeDmaFrames n got w).2.fa := by
  induction n generalizing got w with
  | zero => exact SameSize.refl _
  | succ n ih =>
    have hsize := SameSize.allocDmaFrame w.fa
    rw [takeDmaFrames]
    rcases ha : w.fa.allocDmaFrame with ⟨_ | frame, fa⟩
    · rw [ha] at hsize
      exact hsize.trans (sameSize_freeFrames { w with fa := fa } got)
    · rw [ha] at hsize
      exact hsize.trans (ih (got ++ [frame]) ({ w.handOut with fa := fa }.zeroFrame frame))

theorem sameSize_allocFrame (r : RecordingAlloc) : SameSize r.w.fa r.allocFrame.2.w.fa := by
  have hsize := SameSize.allocFrame r.w.fa
  rw [RecordingAlloc.allocFrame]
  rcases ha : r.w.fa.allocFrame with ⟨_ | p, fa⟩
  · rw [ha] at hsize
    exact hsize
  · rw [ha] at hsize
    simp only
    split_ifs
    · exact hsize.trans (SameSize.freeFrame fa p)
    · exact hsize

/-- a process that could not be loaded gives its frames back -/
theorem gaveBack_load (ha : Accounted F s) {slot id : ℕ} {role : Role}
    (hrun : loadProcess A C slot id role { s with nextId := wadd s.nextId 1 } = .ok (false, u)) : GaveBack F s u := by
  have hcount : Accounted F { s with nextId := wadd s.nextId 1 } := ha.caps (fun q => ⟨_, rfl⟩) rfl rfl
  have hacc := (hcount.loadFailed hrun).account
  rcases wp_ok (loadProcess_spec slot id role _) hrun with ⟨-, rfl | ⟨r, hb, rfl⟩⟩ | ⟨hf, -⟩
  · exact ⟨⟨s.w, _, rfl, Or.inr rfl⟩, hacc, SameSize.refl _⟩
  · have hbuilt : SameSize s.w.fa (buildSpace A C ⟨s.w, []⟩).2.w.fa :=
      buildSpace_keep (I := fun r : RecordingAlloc => SameSize s.w.fa r.w.fa)
        (fun r hr => hr.trans (sameSize_allocFrame r)) (fun _ _ hr => hr) (SameSize.refl _)
    rw [hb] at hbuilt
    exact ⟨⟨_, _, rfl, Or.inr rfl⟩, hacc, hbuilt.trans (sameSize_freeFrames _ _)⟩
  · exact absurd hf (by decide)

/-- a region that could not be made gives its frames back -/
theorem gaveBack_make (ha : Accounted F s) {pages : ℕ} (h : u = s ∨
    (∃ w, takeDmaFrames pages [] s.w = (none, w) ∧ u = { s with w := w }) ∨
    ∃ frames w, takeDmaFrames pages [] s.w = (some frames, w) ∧ u = { s with w := w.freeFrames frames }) :
    GaveBack F s u := by
  have hnil : Account F s.w.fa (([] : List ℕ) + held s) := ha.account.congr (zero_add _).symm
  have hsize := sameSize_takeDmaFrames pages [] s.w
  rcases h with rfl | ⟨w, hw, rfl⟩ | ⟨frames, w, hw, rfl⟩
  · exact GaveBack.refl ha
  · rw [hw] at hsize
    exact ⟨⟨w, _, rfl, Or.inl rfl⟩, (takeDmaFrames_account pages [] hnil hw).1 rfl, hsize⟩
  · rw [hw] at hsize
    refine ⟨⟨_, _, rfl, Or.inl rfl⟩, ?_, hsize.trans (sameSize_freeFrames _ _)⟩
    show Account F (w.freeFrames frames).fa (held s)
    rw [Machine.fa_freeFrames]
    exact ((takeDmaFrames_account pages [] hnil hw).2 frames rfl).1.freeAll

/-- the call `f` was refused with `v`: nothing is left of it but the answer, and maybe an identity used up -/
structure Refused (A : Arch) (f : UserFrame) (v : ℕ) (s t : KState) : Prop where
  /-- the answer is an error word -/
  word : U64_MAX - 3 ≤ v
  bitmap : t.w.fa.bitmap = s.w.fa.bitmap
  free : t.w.fa.free = s.w.fa.free
  regions : t.regions = s.regions
  procs : t.procs = s.procs.put s.current { s.procs s.current with frame := A.frameSetRet f v }
  ledger : t.ledger = s.ledger
  sched : t.sched = s.sched
  nextRegionId : t.nextRegionId = s.nextRegionId
  nextId : t.nextId = s.nextId ∨ t.nextId = wadd s.nextId 1

/-- a call that gave everything back was refused without a trace -/
theorem GaveBack.refused (h : GaveBack F s u) (ha : Accounted F s) {f : UserFrame} {v token : ℕ} (hv : U64_MAX - 3 ≤ v)
    (ht : t = ((u.modProc s.current fun p => { p with frame := A.frameSetRet f v }).setCr3 token).record .resumed) :
    Refused A f v s t := by
  obtain ⟨hbitmap, hfree⟩ := ha.account.restored h.account h.size
  obtain ⟨w, n, rfl, hn⟩ := h.eq
  subst ht
  exact ⟨hv, hbitmap, hfree, rfl, rfl, rfl, rfl, rfl, hn⟩

/-! ## The two calls -/

/-- the call `f` made a region, and answered with the capability `v` for it -/
structure MadeRegion (A : Arch) (f : UserFrame) (v : ℕ) (s t : KState) : Prop where
  answer : v < CAP_SLOTS ∧ (t.procs s.current).frame = A.frameSetRet f v
  cap : ∃ rights, (t.procs s.current).caps.lookup v = some ⟨.region, rights, s.nextRegionId⟩
  region : ∃ idx frames, idx < MAX_REGIONS ∧ (s.regions idx).live = false ∧
    t.regions = s.regions.put idx ⟨true, s.nextRegionId, (s.procs s.current).id, frames⟩
  nextRegionId : t.nextRegionId = s.nextRegionId + 1

/-- the call `f` made a process, and answered with its identity -/
structure MadeProcess (A : Arch) (f : UserFrame) (v : ℕ) (s t : KState) : Prop where
  answer : v = s.nextId ∧ (t.procs s.current).frame = A.frameSetRet f v
  child : ∃ slot, s.live slot = false ∧ t.live slot = true ∧ (t.procs slot).id = v

theorem insert_lookup {caps caps' : Caps} {ty : CapType} {rights : CapRights} {object cap : ℕ}
    (h : caps.insert ty rights object = some (cap, caps')) : cap < CAP_SLOTS ∧ caps'.lookup cap = some ⟨ty, rights, object⟩ := by
  obtain ⟨-, -, -, -, -, hnew, -⟩ := Capabilities.CapSpace.insert_some h
  exact ⟨(Capabilities.CapSpace.lookup_some hnew).1, hnew⟩

/-- **`MAKE_REGION`, from trap to resumption**: a region and its capability, or a refusal without a trace. -/
theorem makes_or_refused (hr : Ready s) (ha : Accounted F s) {frame : UserFrame} (hi : s.idling = false)
    (hnum : A.frameNum (snapshot A frame UserFrame.ZERO) = sysno.MAKE_REGION)
    (hrun : syscallTrap A C frame s = .ok ((), t)) :
    ∃ v, MadeRegion A (snapshot A frame UserFrame.ZERO) v s t ∨ Refused A (snapshot A frame UserFrame.ZERO) v s t := by
  have hc := hr.called hi
  set f := snapshot A frame UserFrame.ZERO with hf
  have hserv : service A C s.current f = sysMakeRegion A s.current f := by
    rw [service, hnum]
    rfl
  have hback : wp (service A C s.current f) (fun out u => ∃ f', out = some f' ∧ u.current = s.current ∧
      (u.procs s.current).pendingLen = 0 ∧ ∃ v, f' = A.frameSetRet f v ∧ (U64_MAX - 3 ≤ v ∧ GaveBack F s u ∨
        ∃ rights idx frames w caps, firstIdx MAX_REGIONS (fun i => !(s.regions i).live) = some idx ∧
          (s.procs s.current).caps.insert .region rights s.nextRegionId = some (v, caps) ∧
          u = ({ s.modProc s.current (fun q => { q with caps := caps }) with
              w := w
              nextRegionId := s.nextRegionId + 1
              regions := s.regions.put idx ⟨true, s.nextRegionId, (s.procs s.current).id, frames⟩ }).record
            (.minted s.current v s.nextRegionId rights))) (· = .grantedAtMint) s := by
    rw [hserv, sysMakeRegion, wp_bind, wp_get]
    cases hcap : capsMint (s.procs s.current).caps (A.frameArg f 0) with
    | none => exact ⟨_, rfl, rfl, hc.pending, _, rfl, Or.inl ⟨by decide, GaveBack.refl ha⟩⟩
    | some src =>
      refine wp_ite (fun _ => ?_) fun _ => ⟨_, rfl, rfl, hc.pending, _, rfl, Or.inl ⟨by decide, GaveBack.refl ha⟩⟩
      rw [wp_bind]
      refine wp_mono (makeRegion_spec s.current (A.frameArg f 1) src.rights s) fun v u hu => ?_
      rcases hu with ⟨rfl, hu⟩ | ⟨idx, frames, w, cap, caps, hidx, -, hins, ⟨rfl, -, -⟩, rfl⟩
      · have hback := gaveBack_make ha hu
        obtain ⟨w, n, hueq, -⟩ := hback.eq
        refine ⟨_, rfl, ?_, ?_, _, rfl, Or.inl ⟨by decide, hback⟩⟩
        · rw [hueq]
        · rw [hueq]
          exact hc.pending
      · refine ⟨_, rfl, rfl, ?_, v, rfl, Or.inr ⟨src.rights, idx, frames, w, caps, hidx, hins, rfl⟩⟩
        simp only [KState.record_procs, KState.modProc_procs, Table.put_self]
        exact hc.pending
  obtain ⟨f', u, ⟨v, rfl, hu⟩, ht⟩ := wp_ok (wp_answered_back hback) hrun
  rcases hu with ⟨hv, hu⟩ | ⟨rights, idx, frames, w, caps, hidx, hins, rfl⟩
  · exact ⟨v, Or.inr (hu.refused ha hv ht)⟩
  · obtain ⟨hlt, hdead, -⟩ := firstIdx_some hidx
    obtain ⟨hcap, hlook⟩ := insert_lookup hins
    have hproc : t.procs s.current = { s.procs s.current with caps := caps, frame := A.frameSetRet f v } := by
      rw [ht]
      simp only [KState.record_procs, KState.setCr3_procs, KState.modProc_procs, Table.put_self]
    refine ⟨v, Or.inl ⟨⟨hcap, by rw [hproc]⟩, ⟨rights, by rw [hproc]; exact hlook⟩,
      ⟨idx, frames, hlt, by simpa using hdead, ?_⟩, ?_⟩⟩
    · rw [ht]
      rfl
    · rw [ht]
      rfl

/-- **`SPAWN`, from trap to resumption**: a process, or a refusal without a trace. -/
theorem spawns_or_refused (hr : Ready s) (ha : Accounted F s) {frame : UserFrame} (hi : s.idling = false)
    (hnum : A.frameNum (snapshot A frame UserFrame.ZERO) = sysno.SPAWN) (hrun : syscallTrap A C frame s = .ok ((), t)) :
    ∃ v, MadeProcess A (snapshot A frame UserFrame.ZERO) v s t ∨ Refused A (snapshot A frame UserFrame.ZERO) v s t := by
  have hc := hr.called hi
  obtain ⟨v, u, ht, hu⟩ := wp_ok (syscallTrap_spawn hr hi hnum) hrun
  refine ⟨v, ?_⟩
  rcases hu with ⟨hv, rfl | ⟨slot, hload⟩⟩ | ⟨slot, rfl, hdead, hspawns, hother⟩
  · exact Or.inr ((GaveBack.refl ha).refused ha hv ht)
  · exact Or.inr ((gaveBack_load ha hload).refused ha hv ht)
  · obtain ⟨x, y, cap, arg, hload, -, hy, hproc, -⟩ := hspawns.run
    have hne : slot ≠ s.current := by
      intro he
      rw [he] at hdead
      exact absurd (hdead.symm.trans hc.alive.2) (by decide)
    -- the child is what was loaded, with the capability it was given
    have hslot : (u.procs slot).live = true ∧ (u.procs slot).id = s.nextId := by
      have hnew : (x.procs slot).live = true ∧ (x.procs slot).id = s.nextId := by
        rcases wp_ok (loadProcess_spec _ _ _ _) hload with ⟨hf, -⟩ | ⟨-, token, entry, r, -, rfl⟩
        · exact absurd hf (by decide)
        · rw [KState.record_procs, KState.modProc_procs, Table.put_self]
          exact ⟨rfl, rfl⟩
      rw [hproc, hy]
      cases cap with
      | none => exact hnew
      | some c =>
        rw [Option.elim_some, handOver]
        cases (x.procs slot).caps.insert c.capType c.rights c.object with
        | none => exact hnew
        | some r =>
          simp only [KState.record_procs, KState.modProc_procs, Table.put_self]
          exact hnew
    have htslot : t.procs slot = u.procs slot := by
      rw [ht]
      exact Table.put_of_ne _ hne _
    refine Or.inl ⟨⟨rfl, ?_⟩, slot, hdead, ?_, ?_⟩
    · rw [ht]
      simp only [KState.record_procs, KState.setCr3_procs, KState.modProc_procs, Table.put_self]
    · rw [KState.live, htslot]
      exact hslot.1
    · rw [htslot]
      exact hslot.2

/-! ## Every reachable state -/

/-- no identity of a region is used again: a region with the identity of an earlier one is that one, and one that is gone stays
gone -/
theorem region_ids_unique {s₀ : KState} (h₀ : PreUserland A C s₀) (h : Reachable A C s₀ s) (hst : Onward A C s t)
    (htu : Onward A C t u) {i j : ℕ} (hi : i < MAX_REGIONS) (hj : j < MAX_REGIONS) (hl : (s.regions i).live = true)
    (hl' : (u.regions j).live = true) (he : (u.regions j).id = (s.regions i).id) :
    j = i ∧ u.regions i = s.regions i ∧ t.regions i = s.regions i := by
  obtain ⟨hlst, ht⟩ := Later.onward h₀ h hst
  obtain ⟨hltu, -⟩ := Later.onward h₀ ht htu
  have hids := (h.ready h₀).ids
  obtain ⟨rfl, hsame⟩ := (hlst.trans hltu).same hids hi hj hl hl' he
  refine ⟨rfl, hsame, ?_⟩
  rcases hltu.regions j hl' with hold | hnew
  · rw [← hold, hsame]
  · -- the identity was given out before `t`
    have hlt := hids.below j hj hl
    have hle := hlst.next
    omega

/-- **Refused creations leave no trace.** In every reachable state: a `MAKE_REGION` makes a region and answers with its
capability, or leaves everything but the answer as it was, and no input trips the assertion that a new region's frames are
granted to no device; a `SPAWN` makes a process and answers with its identity, or leaves everything but the answer and the
identity counter as it was; an identity names one region for good; and nobody owns more than `REGION_QUOTA` regions. -/
theorem creations_leave_no_trace {s₀ : KState} (h₀ : PreUserland A C s₀) (h : Reachable A C s₀ s) :
    (∀ frame t, Step A C s (.syscall frame) t →
      (A.frameNum (snapshot A frame UserFrame.ZERO) = sysno.MAKE_REGION → ∃ v,
        MadeRegion A (snapshot A frame UserFrame.ZERO) v s t ∨ Refused A (snapshot A frame UserFrame.ZERO) v s t) ∧
      (A.frameNum (snapshot A frame UserFrame.ZERO) = sysno.SPAWN → ∃ v,
        MadeProcess A (snapshot A frame UserFrame.ZERO) v s t ∨ Refused A (snapshot A frame UserFrame.ZERO) v s t)) ∧
    (∀ i, Enabled A s i → handle A C i s ≠ .error .grantedAtMint) ∧
    (∀ t u, Onward A C s t → Onward A C t u → ∀ i < MAX_REGIONS, ∀ j < MAX_REGIONS, (s.regions i).live = true →
      (u.regions j).live = true → (u.regions j).id = (s.regions i).id →
      j = i ∧ u.regions i = s.regions i ∧ t.regions i = s.regions i) ∧
    ∀ id, (s.owned id).length ≤ REGION_QUOTA := by
  have hready := h.ready h₀
  have ha := h.accounted h₀
  refine ⟨fun frame t hstep => ⟨fun hnum => ?_, fun hnum => ?_⟩, fun i hen hrun => ?_,
    fun t u hst htu i hi j hj hl hl' he => ?_, ?_⟩
  · exact makes_or_refused hready ha hstep.1 hnum hstep.2
  · exact spawns_or_refused hready ha hstep.1 hnum hstep.2
  · obtain ⟨t, pages, rights, hm, -, hmint⟩ := (wp_error (handle_moves hready hen (Gate.admits_all _ _ _)) hrun).mint rfl
    have hat : Accounted (freeAddrs s₀.w.fa) t := Moves.keep (fun _ _ hstep hs => hs.move hstep) hm ha
    have hbt : OnRegions t := Moves.keep (fun _ _ hstep hs => hs.move hstep) hm (h.onRegions h₀)
    exact make_ungranted hbt hat s.caller pages rights hmint
  · exact region_ids_unique h₀ h hst htu hi hj hl hl' he
  · exact Reachable.keep h₀ h₀.inQuota (fun hm hq => InQuota.move hq hm) h

/-- the worker makes a region of one page -/
def workerRegion : KState := fedTo oneUnitConfig workerAlone (.syscall (callFrame sysno.MAKE_REGION 2 1))

/-- the worker asks for four pages, of which the pool of the devices has three -/
def workerDenied : KState := fedTo oneUnitConfig workerAlone (.syscall (callFrame sysno.MAKE_REGION 2 4))

theorem workerRegion_reachable : Reachable X86 oneUnitConfig oneUnitState workerRegion :=
  workerAlone_reachable.called (by decide +kernel)

/-- a process and a region that are made, a region that is refused, and a region that keeps its identity -/
theorem workerAlone_creations :
    (∃ v, MadeProcess X86 (snapshot X86 (lendFrame 2 2) UserFrame.ZERO) v workerAlone workerLent) ∧
    (∃ v, MadeRegion X86 (snapshot X86 (callFrame sysno.MAKE_REGION 2 1) UserFrame.ZERO) v workerAlone workerRegion) ∧
    (∃ v, Refused X86 (snapshot X86 (callFrame sysno.MAKE_REGION 2 4) UserFrame.ZERO) v workerAlone workerDenied) ∧
    (∀ i, Enabled X86 workerAlone i → handle X86 oneUnitConfig i workerAlone ≠ .error .grantedAtMint) ∧
    (∀ u, Onward X86 oneUnitConfig workerRegion u → ∀ j < MAX_REGIONS, (u.regions j).live = true → (u.regions j).id = 1 →
      j = 0 ∧ u.regions 0 = workerRegion.regions 0) ∧
    ∀ id, (workerRegion.owned id).length ≤ REGION_QUOTA := by
  obtain ⟨hcalls, hmint, -, -⟩ := creations_leave_no_trace oneUnitConfig_ready workerAlone_reachable
  obtain ⟨-, -, hids, hquota⟩ := creations_leave_no_trace oneUnitConfig_ready workerRegion_reachable
  have hawake : workerAlone.idling = false := by decide +kernel
  have hruns : ∀ f ∈ [lendFrame 2 2, callFrame sysno.MAKE_REGION 2 1, callFrame sysno.MAKE_REGION 2 4],
      (handle X86 oneUnitConfig (.syscall f) workerAlone).toBool = true := by decide +kernel
  have hspawns : X86.frameNum (snapshot X86 (lendFrame 2 2) UserFrame.ZERO) = sysno.SPAWN := by decide +kernel
  have hmakes : ∀ pages ∈ [1, 4],
      X86.frameNum (snapshot X86 (callFrame sysno.MAKE_REGION 2 pages) UserFrame.ZERO) = sysno.MAKE_REGION := by decide +kernel
  have hchild : workerLent.live 0 = true ∧ workerAlone.live 0 = false ∧ workerAlone.current = 2 := by decide +kernel
  have hnext : workerRegion.nextRegionId ≠ workerAlone.nextRegionId ∧
      workerDenied.nextRegionId = workerAlone.nextRegionId := by decide +kernel
  have hregion : (workerRegion.regions 0).live = true ∧ (workerRegion.regions 0).id = 1 := by decide +kernel
  refine ⟨?_, ?_, ?_, hmint, fun u hu j hj hl hid => ?_, hquota⟩
  · obtain ⟨v, hmade | hrefused⟩ := (hcalls _ _ (fedTo_step hawake (hruns (lendFrame 2 2) (by simp)))).2 hspawns
    · exact ⟨v, hmade⟩
    · -- a refusal makes nobody alive
      have hlive : workerLent.live 0 = workerAlone.live 0 := by
        show (workerLent.procs 0).live = _
        rw [workerLent, hrefused.procs, Table.put_of_ne _ (by rw [hchild.2.2]; decide)]
        rfl
      rw [hchild.1, hchild.2.1] at hlive
      exact absurd hlive (by decide)
  · obtain ⟨v, hmade | hrefused⟩ :=
      (hcalls _ _ (fedTo_step hawake (hruns (callFrame sysno.MAKE_REGION 2 1) (by simp)))).1 (hmakes 1 (by simp))
    · exact ⟨v, hmade⟩
    · exact absurd hrefused.nextRegionId hnext.1
  · obtain ⟨v, hmade | hrefused⟩ :=
      (hcalls _ _ (fedTo_step hawake (hruns (callFrame sysno.MAKE_REGION 2 4) (by simp)))).1 (hmakes 4 (by simp))
    · -- one that was made would have used up an identity
      have hused : workerDenied.nextRegionId = workerAlone.nextRegionId + 1 := hmade.nextRegionId
      have hkept := hnext.2
      omega
    · exact ⟨v, hrefused⟩
  · obtain ⟨hj0, hsame, -⟩ := hids _ u .refl hu 0 (by decide) j hj hregion.1 hl (hid.trans hregion.2.symm)
    exact ⟨hj0, hsame⟩

end Rustproof.Kernel
