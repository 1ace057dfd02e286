/-
A DMA domain as a pair of finite maps (`crates/iommu`): frames to the rights granted on them, and device addresses to the frame
and rights they translate to.

`Reach` is the pair, with the four operations on it said once more in its own terms. `domain_refines`: over every sequence of
`grant`, `revoke`, `map` and `unmap`, with any arguments, a domain answers and changes as its pair of maps does, keeps one
grant a frame and one mapping an address, and what the device reaches stays inside what is granted.
-/
import Rustproof.Lib.Slots
import Rustproof.Crates.Iommu

namespace Rustproof.Iommu

open Lib Slots

variable {G M : ℕ}

/-- a call on a domain -/
inductive Op where
  | grant (frame : ℕ) (rights : CapRights)
  | revoke (frame : ℕ)
  | map (iova frame : ℕ) (rights : CapRights)
  | unmap (iova : ℕ)

/-- what a call returns; a map is refused with its error -/
inductive Reply where
  | granted (ok : Bool)
  | revoked (count : ℕ)
  | mapped (refusal : Option MapErr)
  | unmapped (hit : Bool)
deriving DecidableEq

/-- a call that changed nothing because it was refused -/
def Reply.refused : Reply → Bool
  | .granted ok => !ok
  | .mapped refusal => refusal.isSome
  | _ => false

namespace Domain

/-- how many mappings `revoke` withdraws, which is what it returns -/
def revokeCount (d : Domain G M) (frame : ℕ) : ℕ :=
  ((List.range M).filter fun i => (d.maps i).live && (d.maps i).frame == frame).length

/-- whether `unmap` finds a translation, which is what it returns -/
def unmapHit (d : Domain G M) (iova : ℕ) : Bool :=
  (firstIdx M fun i => (d.maps i).live && (d.maps i).iova == iova).isSome

def step (d : Domain G M) : Op → Reply × Domain G M
  | .grant frame rights => (.granted (d.grant frame rights).1, (d.grant frame rights).2)
  | .revoke frame => (.revoked (d.revokeCount frame), d.revoke frame)
  | .map iova frame rights =>
    match d.map iova frame rights with
    | .ok d' => (.mapped none, d')
    | .error e => (.mapped (some e), d)
  | .unmap iova => (.unmapped (d.unmapHit iova), d.unmap iova)

end Domain

/-- the replies to a sequence of calls, and the state after it -/
def run {σ : Type*} (step : σ → Op → Reply × σ) (s : σ) : List Op → List Reply × σ
  | [] => ([], s)
  | op :: ops => ((step s op).1 :: (run step (step s op).2 ops).1, (run step (step s op).2 ops).2)

/-- what a device may reach, and what it does reach -/
structure Reach where
  grants : ℕ → Option CapRights
  maps : ℕ → Option (ℕ × CapRights)

namespace Reach

def empty : Reach := ⟨fun _ => none, fun _ => none⟩

/-- the size of a finite map -/
noncomputable def size {β : Type} (m : ℕ → Option β) : ℕ := {k | (m k).isSome}.ncard

/-- the mappings of `a` that satisfy `p` -/
def keep (a : Reach) (p : ℕ × CapRights → Bool) : ℕ → Option (ℕ × CapRights) := fun iova => (a.maps iova).filter p

/-- the operations of a domain with room for `G` grants and `M` mappings -/
noncomputable def step (G M : ℕ) (a : Reach) : Op → Reply × Reach
  | .grant frame rights =>
    match a.grants frame with
    | some _ => (.granted true,
        ⟨Function.update a.grants frame (some rights), a.keep fun m => m.1 != frame || rights.contains m.2⟩)
    | none =>
      if size a.grants < G then (.granted true, ⟨Function.update a.grants frame (some rights), a.maps⟩)
      else (.granted false, a)
  | .revoke frame => (.revoked {iova | ∃ rights, a.maps iova = some (frame, rights)}.ncard,
      ⟨Function.update a.grants frame none, a.keep fun m => m.1 != frame⟩)
  | .map iova frame rights =>
    match a.grants frame with
    | none => (.mapped (some .notGranted), a)
    | some have_ =>
      if have_.contains rights = false then (.mapped (some .rightsExceedGrant), a)
      else if (a.maps iova).isSome then (.mapped (some .iovaInUse), a)
      else if size a.maps < M then
        (.mapped none, ⟨a.grants, Function.update a.maps iova (some (frame, rights))⟩)
      else (.mapped (some .full), a)
  | .unmap iova => (.unmapped (a.maps iova).isSome, ⟨a.grants, Function.update a.maps iova none⟩)

variable {a : Reach} {iova frame : ℕ} {rights have_ old : CapRights}

theorem step_regrant (h : a.grants frame = some old) : step G M a (.grant frame rights) = (.granted true,
    ⟨Function.update a.grants frame (some rights), a.keep fun m => m.1 != frame || rights.contains m.2⟩) := by
  simp only [step, h]

theorem step_grant (h : a.grants frame = none) (hroom : size a.grants < G) :
    step G M a (.grant frame rights) = (.granted true, ⟨Function.update a.grants frame (some rights), a.maps⟩) := by
  simp only [step, h, if_pos hroom]

theorem step_grant_full (h : a.grants frame = none) (hfull : ¬size a.grants < G) :
    step G M a (.grant frame rights) = (.granted false, a) := by
  simp only [step, h, if_neg hfull]

theorem step_map_none (h : a.grants frame = none) : step G M a (.map iova frame rights) = (.mapped (some .notGranted), a) := by
  simp only [step, h]

theorem step_map_wide (h : a.grants frame = some have_) (hc : have_.contains rights = false) :
    step G M a (.map iova frame rights) = (.mapped (some .rightsExceedGrant), a) := by
  simp only [step, h, if_pos hc]

theorem step_map_used (h : a.grants frame = some have_) (hc : ¬have_.contains rights = false) (hu : (a.maps iova).isSome) :
    step G M a (.map iova frame rights) = (.mapped (some .iovaInUse), a) := by
  simp only [step, h, if_neg hc, if_pos hu]

theorem step_map (h : a.grants frame = some have_) (hc : ¬have_.contains rights = false) (hu : ¬(a.maps iova).isSome)
    (hroom : size a.maps < M) :
    step G M a (.map iova frame rights) =
      (.mapped none, ⟨a.grants, Function.update a.maps iova (some (frame, rights))⟩) := by
  simp only [step, h, if_neg hc, if_neg hu, if_pos hroom]

theorem step_map_full (h : a.grants frame = some have_) (hc : ¬have_.contains rights = false) (hu : ¬(a.maps iova).isSome)
    (hfull : ¬size a.maps < M) : step G M a (.map iova frame rights) = (.mapped (some .full), a) := by
  simp only [step, h, if_neg hc, if_neg hu, if_neg hfull]

theorem step_revoke : step G M a (.revoke frame) = (.revoked {iova | ∃ rights, a.maps iova = some (frame, rights)}.ncard,
    ⟨Function.update a.grants frame none, a.keep fun m => m.1 != frame⟩) := rfl

theorem step_unmap : step G M a (.unmap iova) =
    (.unmapped (a.maps iova).isSome, ⟨a.grants, Function.update a.maps iova none⟩) := rfl

/-- every mapping is within the grant of its frame -/
def Covered (a : Reach) : Prop :=
  ∀ iova frame rights, a.maps iova = some (frame, rights) → ∃ have_, a.grants frame = some have_ ∧ have_.contains rights = true

/-- no operation takes the mappings out of the grants -/
theorem Covered.step {a : Reach} (h : a.Covered) (op : Op) : (step G M a op).2.Covered := by
  intro iova f r hmap
  cases op with
  | grant frame rights =>
    unfold Reach.step at hmap ⊢
    cases hg : a.grants frame with
    | some old =>
      simp only [hg, keep, Option.filter_eq_some_iff, Bool.or_eq_true, bne_iff_ne] at hmap ⊢
      obtain ⟨hmap, hcond⟩ := hmap
      by_cases hf : f = frame
      · subst hf
        exact ⟨rights, Function.update_self .., hcond.resolve_left (fun hne => hne rfl)⟩
      · rw [Function.update_of_ne hf]
        exact h iova f r hmap
    | none =>
      simp only [hg] at hmap ⊢
      split_ifs at hmap ⊢ with hroom
      · obtain ⟨have_, hgr, hc⟩ := h iova f r hmap
        refine ⟨have_, ?_, hc⟩
        -- the frame just granted had no mapping
        have hf : f ≠ frame := by rintro rfl; rw [hg] at hgr; exact absurd hgr (by simp)
        exact (Function.update_of_ne hf ..).trans hgr
      · exact h iova f r hmap
  | revoke frame =>
    simp only [Reach.step, keep, Option.filter_eq_some_iff, bne_iff_ne] at hmap ⊢
    rw [Function.update_of_ne hmap.2]
    exact h iova f r hmap.1
  | map iova' frame rights =>
    unfold Reach.step at hmap ⊢
    cases hg : a.grants frame with
    | none => simp only [hg] at hmap ⊢; exact h iova f r hmap
    | some have_ =>
      simp only [hg] at hmap ⊢
      split_ifs at hmap ⊢ with hc hused hroom
      · exact h iova f r hmap
      · exact h iova f r hmap
      · simp only at hmap ⊢
        by_cases hi : iova = iova'
        · subst hi
          rw [Function.update_self, Option.some.injEq, Prod.mk.injEq] at hmap
          obtain ⟨rfl, rfl⟩ := hmap
          exact ⟨have_, hg, by simpa using hc⟩
        · rw [Function.update_of_ne hi] at hmap
          exact h iova f r hmap
      · exact h iova f r hmap
  | unmap iova' =>
    simp only [Reach.step] at hmap ⊢
    by_cases hi : iova = iova'
    · subst hi
      rw [Function.update_self] at hmap
      exact absurd hmap (by simp)
    · rw [Function.update_of_ne hi] at hmap
      exact h iova f r hmap

end Reach

namespace Domain

/-- the translation of `iova` -/
def mapped (d : Domain G M) (iova : ℕ) : Option (ℕ × CapRights) :=
  (find Mapping.live Mapping.iova M d.maps iova).map fun m => (m.frame, m.rights)

/-- the pair of maps a domain stands for -/
def reach (d : Domain G M) : Reach := ⟨d.granted, d.mapped⟩

/-- one grant a frame, one mapping an address, every mapping within the grant of its frame -/
structure Ok (d : Domain G M) : Prop where
  grants : Keyed Grant.live Grant.frame G d.grants
  maps : Keyed Mapping.live Mapping.iova M d.maps
  covered : d.reach.Covered

variable {d : Domain G M}

theorem granted_eq (d : Domain G M) (frame : ℕ) :
    d.granted frame = (find Grant.live Grant.frame G d.grants frame).map Grant.rights := by
  unfold granted grantIdx find
  rw [Option.map_map]
  rfl

theorem reach_new : (new : Domain G M).reach = Reach.empty := by
  have hg : ∀ frame, (new : Domain G M).granted frame = none := by
    intro frame
    rw [granted_eq, find_none.2 fun i _ hl => absurd hl Bool.false_ne_true]
    rfl
  have hm : ∀ iova, (new : Domain G M).mapped iova = none := by
    intro iova
    unfold mapped
    rw [find_none.2 fun i _ hl => absurd hl Bool.false_ne_true]
    rfl
  unfold reach Reach.empty
  rw [funext hg, funext hm]

theorem ok_new : Ok (new : Domain G M) := by
  refine ⟨fun i _ j _ hl => absurd hl Bool.false_ne_true, fun i _ j _ hl => absurd hl Bool.false_ne_true, ?_⟩
  rw [reach_new]
  intro iova frame rights h
  exact absurd h (by simp [Reach.empty])

/-- a domain none of whose entries is live -/
theorem ok_dead (hg : ∀ i, (d.grants i).live = false) (hm : ∀ i, (d.maps i).live = false) : Ok d ∧ d.reach = Reach.empty := by
  have hreach : d.reach = Reach.empty := by
    refine congrArg₂ Reach.mk (funext fun frame => ?_) (funext fun iova => ?_)
    · rw [granted_eq, find_none.2 fun i _ hl => absurd (hl.symm.trans (hg i)) (by decide)]
      rfl
    · unfold mapped
      rw [find_none.2 fun i _ hl => absurd (hl.symm.trans (hm i)) (by decide)]
      rfl
  refine ⟨⟨fun i _ j _ hl => absurd (hl.symm.trans (hg i)) (by decide),
    fun i _ j _ hl => absurd (hl.symm.trans (hm i)) (by decide), ?_⟩,
    hreach⟩
  rw [hreach]
  intro iova frame rights h
  exact absurd h (by simp [Reach.empty])

/-- the source's containment check is the invariant's -/
theorem Ok.contained (h : Ok d) : d.contained = true := by
  unfold Domain.contained reachable
  rw [List.all_eq_true]
  intro m hm
  obtain ⟨hm, hl⟩ := List.mem_filter.1 hm
  obtain ⟨i, hi, rfl⟩ := List.mem_map.1 hm
  have hi := List.mem_range.1 hi
  have hmap : d.mapped (d.maps i).iova = some ((d.maps i).frame, (d.maps i).rights) := by
    unfold mapped
    rw [h.maps.find_live hi hl]
    rfl
  obtain ⟨have_, hg, hc⟩ := h.covered _ _ _ hmap
  have hg : d.granted (d.maps i).frame = some have_ := hg
  rw [hg]
  exact hc

/-- the sizes of the two maps are the numbers of live entries -/
theorem Ok.sizes (h : Ok d) :
    Reach.size d.reach.grants = used Grant.live G d.grants ∧ Reach.size d.reach.maps = used Mapping.live M d.maps := by
  rw [h.grants.used_eq, h.maps.used_eq]
  unfold Reach.size reach mapped
  simp only [granted_eq, Option.isSome_map, and_self]

/-! ## The operations -/

theorem withdrawUncovered_eq (d : Domain G M) (frame : ℕ) (rights : CapRights) :
    (d.withdrawUncovered frame rights).maps =
      clear Mapping.live M Mapping.EMPTY (fun m => m.frame == frame && !rights.contains m.rights) d.maps := by
  funext i
  simp only [withdrawUncovered, clear, Bool.and_eq_true, beq_iff_eq, Bool.not_eq_true']

theorem revoke_eq (d : Domain G M) (frame : ℕ) :
    (d.revoke frame).grants = clear Grant.live G Grant.EMPTY (fun g => g.frame == frame) d.grants ∧
      (d.revoke frame).maps = clear Mapping.live M Mapping.EMPTY (fun m => m.frame == frame) d.maps := by
  constructor <;> funext i <;> simp only [revoke, clear, beq_iff_eq]

/-- clearing mappings keeps those that are left -/
theorem Ok.clear (h : Ok d) (p : Mapping → Bool) (q : ℕ × CapRights → Bool) (hpq : ∀ m, q (m.frame, m.rights) = !p m) :
    Keyed Mapping.live Mapping.iova M (clear Mapping.live M Mapping.EMPTY p d.maps) ∧
      ∀ iova, (find Mapping.live Mapping.iova M (Slots.clear Mapping.live M Mapping.EMPTY p d.maps) iova).map
        (fun m => (m.frame, m.rights)) = (d.mapped iova).filter q := by
  obtain ⟨hkeyed, hfind⟩ := h.maps.clear Mapping.EMPTY rfl p
  refine ⟨hkeyed, fun iova => ?_⟩
  unfold mapped
  rw [hfind]
  cases find Mapping.live Mapping.iova M d.maps iova with
  | none => rfl
  | some m =>
    simp only [Option.filter_some, Option.map_some, hpq]
    cases p m <;> rfl

/-- a call answers and changes as the pair of maps does, and the tables stay maps -/
structure Refines (d : Domain G M) (op : Op) : Prop where
  step : Reach.step G M d.reach op = ((d.step op).1, (d.step op).2.reach)
  grants : Keyed Grant.live Grant.frame G (d.step op).2.grants
  maps : Keyed Mapping.live Mapping.iova M (d.step op).2.maps

theorem Refines.ok {op : Op} (h : Ok d) (hr : Refines d op) : Ok (d.step op).2 := by
  have hcov := h.covered.step (G := G) (M := M) op
  rw [hr.step] at hcov
  exact ⟨hr.grants, hr.maps, hcov⟩

theorem grantIdx_some {frame i : ℕ} (h : d.grantIdx frame = some i) :
    i < G ∧ (d.grants i).live = true ∧ (d.grants i).frame = frame ∧ d.granted frame = some (d.grants i).rights := by
  obtain ⟨hi, hp, -⟩ := firstIdx_some h
  rw [Bool.and_eq_true, beq_iff_eq] at hp
  refine ⟨hi, hp.1, hp.2, ?_⟩
  unfold granted
  rw [h]
  rfl

theorem grantIdx_none {frame : ℕ} (h : d.grantIdx frame = none) : d.granted frame = none := by
  unfold granted
  rw [h]
  rfl

theorem Ok.refines_grant (h : Ok d) (frame : ℕ) (rights : CapRights) : Refines d (.grant frame rights) := by
  cases hidx : d.grantIdx frame with
  | some i =>
    obtain ⟨hi, hl, hf, hgranted⟩ := grantIdx_some hidx
    set e : Grant := { d.grants i with rights := rights }
    set d₁ : Domain G M := { d with grants := d.grants.put i e }
    have hstep : d.step (.grant frame rights) = (.granted true, d₁.withdrawUncovered frame rights) := by
      simp only [Domain.step, Domain.grant, hidx]
      rfl
    obtain ⟨hkeyed, hfind⟩ := h.grants.put_same hi hl (e := e) hl rfl
    obtain ⟨hmaps, hkept⟩ := h.clear (fun m => m.frame == frame && !rights.contains m.rights)
      (fun m => m.1 != frame || rights.contains m.2) (fun m => by simp [bne])
    have hgrants : ∀ k, (d₁.withdrawUncovered frame rights).granted k = Function.update d.granted frame (some rights) k := by
      intro k
      rw [granted_eq]
      show (find Grant.live Grant.frame G (d.grants.put i e) k).map Grant.rights = _
      rw [hfind]
      by_cases hk : k = frame
      · subst hk
        rw [if_pos hf.symm, Function.update_self]
        rfl
      · rw [if_neg (fun h0 => hk (h0.trans hf)), Function.update_of_ne hk, granted_eq]
    refine ⟨?_, ?_, ?_⟩
    · rw [hstep, Reach.step_regrant (a := d.reach) hgranted]
      congr 2
      · exact (funext hgrants).symm
      · funext iova
        refine (hkept iova).symm.trans ?_
        show _ = (find Mapping.live Mapping.iova M (d₁.withdrawUncovered frame rights).maps iova).map _
        rw [withdrawUncovered_eq]
    · rw [hstep]; exact hkeyed
    · rw [hstep, withdrawUncovered_eq]; exact hmaps
  | none =>
    have hnone := grantIdx_none hidx
    have hfresh : find Grant.live Grant.frame G d.grants frame = none := by
      rw [granted_eq, Option.map_eq_none_iff] at hnone
      exact hnone
    cases hfree : firstIdx G fun i => !(d.grants i).live with
    | some i =>
      obtain ⟨hi, hdead, -⟩ := firstIdx_some hfree
      rw [Bool.not_eq_true'] at hdead
      have hroom : Reach.size d.granted < G := by
        rw [show Reach.size d.granted = used Grant.live G d.grants from h.sizes.1]
        exact (firstFree d.grants).1 ⟨i, hfree⟩
      have hstep : d.step (.grant frame rights) =
          (.granted true, { d with grants := d.grants.put i ⟨true, frame, rights⟩ }) := by
        simp only [Domain.step, Domain.grant, hidx, hfree]
      obtain ⟨hkeyed, hfind⟩ := h.grants.put_free hi hdead (e := ⟨true, frame, rights⟩) rfl hfresh
      refine ⟨?_, ?_, ?_⟩
      · rw [hstep, Reach.step_grant (a := d.reach) hnone hroom]
        congr 2
        funext k
        rw [granted_eq, hfind]
        by_cases hk : k = frame
        · subst hk; rw [Function.update_self, if_pos rfl]; rfl
        · rw [Function.update_of_ne hk, if_neg hk]
          exact granted_eq d k
      · rw [hstep]; exact hkeyed
      · rw [hstep]; exact h.maps
    | none =>
      have hfull : ¬Reach.size d.granted < G := by
        rw [show Reach.size d.granted = used Grant.live G d.grants from h.sizes.1]
        intro hlt
        obtain ⟨i, hi⟩ := (firstFree d.grants).2 hlt
        rw [hfree] at hi
        exact absurd hi (by simp)
      have hstep : d.step (.grant frame rights) = (.granted false, d) := by
        simp only [Domain.step, Domain.grant, hidx, hfree]
      refine ⟨?_, ?_, ?_⟩
      · rw [hstep, Reach.step_grant_full (a := d.reach) hnone hfull]
      · rw [hstep]; exact h.grants
      · rw [hstep]; exact h.maps

theorem revokeCount_eq (h : Ok d) (frame : ℕ) :
    d.revokeCount frame = {iova | ∃ rights, d.mapped iova = some (frame, rights)}.ncard := by
  have hset : {iova | ∃ rights, d.mapped iova = some (frame, rights)} =
      {iova | ∃ m, find Mapping.live Mapping.iova M d.maps iova = some m ∧ (m.frame == frame) = true} := by
    ext iova
    simp only [Set.mem_ofPred_eq, mapped, Option.map_eq_some_iff, Prod.mk.injEq, beq_iff_eq]
    constructor
    · rintro ⟨rights, m, hm, hf, -⟩
      exact ⟨m, hm, hf⟩
    · rintro ⟨m, hm, hf⟩
      exact ⟨m.rights, m, hm, hf, rfl⟩
  rw [hset, ← h.maps.card_eq]
  unfold revokeCount
  rw [← List.toFinset_card_of_nodup (List.nodup_range.filter _), List.toFinset_filter, List.toFinset_range]
  simp only [Bool.and_eq_true]

theorem Ok.refines_revoke (h : Ok d) (frame : ℕ) : Refines d (.revoke frame) := by
  obtain ⟨hg, hm⟩ := revoke_eq d frame
  obtain ⟨hgrants, hfind⟩ := h.grants.clear Grant.EMPTY rfl fun g => g.frame == frame
  obtain ⟨hmaps, hkept⟩ := h.clear (fun m => m.frame == frame) (fun m => m.1 != frame) fun m => rfl
  refine ⟨?_, ?_, ?_⟩
  · show _ = (Reply.revoked (d.revokeCount frame), (d.revoke frame).reach)
    rw [revokeCount_eq h, Reach.step_revoke]
    congr 2
    · funext k
      show Function.update d.granted frame none k = (d.revoke frame).granted k
      rw [granted_eq, hg, hfind]
      by_cases hk : k = frame
      · subst hk
        rw [Function.update_self]
        cases hf : find Grant.live Grant.frame G d.grants k with
        | none => rfl
        | some g =>
          obtain ⟨-, -, -, -, he⟩ := find_some hf
          simp [he]
      · rw [Function.update_of_ne hk, granted_eq]
        cases hf : find Grant.live Grant.frame G d.grants k with
        | none => rfl
        | some g =>
          obtain ⟨-, -, -, -, he⟩ := find_some hf
          simp [he, hk]
    · funext iova
      refine (hkept iova).symm.trans ?_
      show _ = (find Mapping.live Mapping.iova M (d.revoke frame).maps iova).map _
      rw [hm]
  · show Keyed _ _ _ (d.revoke frame).grants
    rw [hg]
    exact hgrants
  · show Keyed _ _ _ (d.revoke frame).maps
    rw [hm]
    exact hmaps

/-- the source's search for a device address in use is the map's -/
theorem iovaInUse_iff (d : Domain G M) (iova : ℕ) :
    (anyIdx M fun i => (d.maps i).live && (d.maps i).iova == iova) = true ↔ (d.mapped iova).isSome := by
  rw [anyIdx_iff, mapped, Option.isSome_map]
  cases hf : find Mapping.live Mapping.iova M d.maps iova with
  | none =>
    rw [find_none] at hf
    simp only [Option.isSome_none, Bool.false_eq_true, iff_false, Bool.and_eq_true, beq_iff_eq]
    rintro ⟨i, hi, hl, he⟩
    exact hf i hi hl he
  | some m =>
    obtain ⟨i, hi, rfl, hl, he⟩ := find_some hf
    simp only [Option.isSome_some, iff_true]
    exact ⟨i, hi, by rw [hl, he, beq_self_eq_true]; rfl⟩

/-- a refused map: the domain stays as it is -/
theorem Ok.refines_refused (h : Ok d) {iova frame : ℕ} {rights : CapRights} {e : MapErr}
    (hmap : d.map iova frame rights = .error e)
    (hstep : Reach.step G M d.reach (.map iova frame rights) = (.mapped (some e), d.reach)) :
    Refines d (.map iova frame rights) := by
  have hd : d.step (.map iova frame rights) = (.mapped (some e), d) := by simp only [Domain.step, hmap]
  refine ⟨?_, ?_, ?_⟩ <;> rw [hd]
  · exact hstep
  · exact h.grants
  · exact h.maps

theorem Ok.refines_map (h : Ok d) (iova frame : ℕ) (rights : CapRights) : Refines d (.map iova frame rights) := by
  cases hg : d.granted frame with
  | none =>
    refine h.refines_refused (e := .notGranted) ?_ (Reach.step_map_none (a := d.reach) hg)
    simp only [Domain.map, hg]
  | some have_ =>
    by_cases hc : have_.contains rights = false
    · refine h.refines_refused (e := .rightsExceedGrant) ?_ (Reach.step_map_wide (a := d.reach) hg hc)
      simp only [Domain.map, hg, if_pos hc]
    by_cases hu : (d.mapped iova).isSome
    · refine h.refines_refused (e := .iovaInUse) ?_ (Reach.step_map_used (a := d.reach) hg hc hu)
      simp only [Domain.map, hg, if_neg hc, if_pos ((iovaInUse_iff d iova).2 hu)]
    have hunused : ¬(anyIdx M fun i => (d.maps i).live && (d.maps i).iova == iova) = true :=
      fun h0 => hu ((iovaInUse_iff d iova).1 h0)
    cases hfree : firstIdx M fun i => !(d.maps i).live with
    | none =>
      have hfull : ¬Reach.size d.mapped < M := by
        rw [show Reach.size d.mapped = used Mapping.live M d.maps from h.sizes.2]
        intro hlt
        obtain ⟨i, hi⟩ := (firstFree d.maps).2 hlt
        rw [hfree] at hi
        exact absurd hi (by simp)
      refine h.refines_refused (e := .full) ?_ (Reach.step_map_full (a := d.reach) hg hc hu hfull)
      simp only [Domain.map, hg, if_neg hc, if_neg hunused, hfree]
    | some i =>
      obtain ⟨hi, hdead, -⟩ := firstIdx_some hfree
      rw [Bool.not_eq_true'] at hdead
      have hroom : Reach.size d.mapped < M := by
        rw [show Reach.size d.mapped = used Mapping.live M d.maps from h.sizes.2]
        exact (firstFree d.maps).1 ⟨i, hfree⟩
      have hfresh : find Mapping.live Mapping.iova M d.maps iova = none := by
        unfold mapped at hu
        rw [Option.isSome_map, Bool.not_eq_true, Option.isSome_eq_false_iff, Option.isNone_iff_eq_none] at hu
        exact hu
      obtain ⟨hkeyed, hfind⟩ := h.maps.put_free hi hdead (e := ⟨true, iova, frame, rights⟩) rfl hfresh
      have hstep : d.step (.map iova frame rights) =
          (.mapped none, { d with maps := d.maps.put i ⟨true, iova, frame, rights⟩ }) := by
        simp only [Domain.step, Domain.map, hg, if_neg hc, if_neg hunused, hfree]
      refine ⟨?_, ?_, ?_⟩
      · rw [hstep, Reach.step_map (a := d.reach) hg hc hu hroom]
        congr 2
        funext k
        show _ = (find Mapping.live Mapping.iova M (d.maps.put i ⟨true, iova, frame, rights⟩) k).map _
        rw [hfind]
        by_cases hk : k = iova
        · subst hk; rw [Function.update_self, if_pos rfl]; rfl
        · rw [Function.update_of_ne hk, if_neg hk]; rfl
      · rw [hstep]; exact h.grants
      · rw [hstep]; exact hkeyed

theorem Ok.refines_unmap (h : Ok d) (iova : ℕ) : Refines d (.unmap iova) := by
  have hhit : d.unmapHit iova = (d.mapped iova).isSome := by
    unfold unmapHit mapped find
    rw [Option.isSome_map, Option.isSome_map]
  -- removing the translation found is clearing every one of that address: there is one
  have hmaps : (d.unmap iova).grants = d.grants ∧
      (d.unmap iova).maps = Slots.clear Mapping.live M Mapping.EMPTY (fun m => m.iova == iova) d.maps := by
    unfold unmap
    cases hf : firstIdx M fun i => (d.maps i).live && (d.maps i).iova == iova with
    | none =>
      refine ⟨rfl, ?_⟩
      funext i
      unfold Slots.clear
      split_ifs with hc
      · obtain ⟨hi, hl, he⟩ := hc
        have := firstIdx_none hf i hi
        rw [hl, Bool.true_and] at this
        exact absurd (this.symm.trans he) (by decide)
      · rfl
    | some i =>
      obtain ⟨hi, hp, -⟩ := firstIdx_some hf
      rw [Bool.and_eq_true, beq_iff_eq] at hp
      refine ⟨rfl, ?_⟩
      funext j
      show d.maps.put i Mapping.EMPTY j = _
      unfold Slots.clear
      by_cases hj : j = i
      · subst hj
        rw [Table.put_self, if_pos ⟨hi, hp.1, beq_iff_eq.2 hp.2⟩]
      · rw [Table.put_of_ne _ hj, if_neg]
        rintro ⟨hj', hl, he⟩
        exact hj (h.maps j hj' i hi hl hp.1 ((beq_iff_eq.1 he).trans hp.2.symm))
  obtain ⟨hkeyed, hfind⟩ := h.maps.clear Mapping.EMPTY rfl fun m => m.iova == iova
  refine ⟨?_, ?_, ?_⟩
  · show _ = (Reply.unmapped (d.unmapHit iova), (d.unmap iova).reach)
    rw [hhit, Reach.step_unmap]
    congr 2
    · funext k
      show d.granted k = (d.unmap iova).granted k
      rw [granted_eq, granted_eq, hmaps.1]
    · funext k
      show Function.update d.mapped iova none k = (find Mapping.live Mapping.iova M (d.unmap iova).maps k).map _
      rw [hmaps.2, hfind]
      by_cases hk : k = iova
      · subst hk
        rw [Function.update_self]
        cases hf : find Mapping.live Mapping.iova M d.maps k with
        | none => rfl
        | some m =>
          obtain ⟨-, -, -, -, he⟩ := find_some hf
          simp [he]
      · rw [Function.update_of_ne hk]
        unfold mapped
        cases hf : find Mapping.live Mapping.iova M d.maps k with
        | none => rfl
        | some m =>
          obtain ⟨-, -, -, -, he⟩ := find_some hf
          simp [he, hk]
  · show Keyed _ _ _ (d.unmap iova).grants
    rw [hmaps.1]
    exact h.grants
  · show Keyed _ _ _ (d.unmap iova).maps
    rw [hmaps.2]
    exact hkeyed

/-- **One call** on a domain is the call on its pair of maps. -/
theorem Ok.refines (h : Ok d) (op : Op) : Refines d op := by
  cases op with
  | grant frame rights => exact h.refines_grant frame rights
  | revoke frame => exact h.refines_revoke frame
  | map iova frame rights => exact h.refines_map iova frame rights
  | unmap iova => exact h.refines_unmap iova

theorem Ok.run (h : Ok d) (ops : List Op) :
    Ok (run Domain.step d ops).2 ∧
      Iommu.run (Reach.step G M) d.reach ops = ((run Domain.step d ops).1, (run Domain.step d ops).2.reach) := by
  induction ops generalizing d with
  | nil => exact ⟨h, rfl⟩
  | cons op ops ih =>
    have hop := h.refines op
    obtain ⟨hok, hrun⟩ := ih (hop.ok h)
    refine ⟨hok, ?_⟩
    simp only [Iommu.run, hop.step, hrun]

/-! ## Which frames are granted -/

/-- `frame` is granted, with whatever rights -/
theorem granted_isSome {frame : ℕ} :
    (d.granted frame).isSome = true ↔ ∃ i < G, (d.grants i).live = true ∧ (d.grants i).frame = frame := by
  rw [granted_eq, Option.isSome_map]
  cases hf : find Grant.live Grant.frame G d.grants frame with
  | none =>
    rw [find_none] at hf
    simp only [Option.isSome_none, Bool.false_eq_true, false_iff]
    rintro ⟨i, hi, hl, he⟩
    exact hf i hi hl he
  | some g =>
    obtain ⟨i, hi, rfl, hl, he⟩ := find_some hf
    simp only [Option.isSome_some, true_iff]
    exact ⟨i, hi, hl, he⟩

/-- a revocation leaves every other frame as it is -/
theorem granted_revoke {frame pfn : ℕ} :
    ((d.revoke frame).granted pfn).isSome = true ↔ (d.granted pfn).isSome = true ∧ pfn ≠ frame := by
  rw [granted_isSome, granted_isSome]
  constructor
  · rintro ⟨i, hi, hl, he⟩
    simp only [revoke] at hl he
    split_ifs at hl he with hc
    · exact absurd hl (by decide)
    · exact ⟨⟨i, hi, hl, he⟩, fun hp => hc ⟨hi, hl, he.trans hp⟩⟩
  · rintro ⟨⟨i, hi, hl, he⟩, hne⟩
    have hkeep : (d.revoke frame).grants i = d.grants i := if_neg fun hc => hne (he.symm.trans hc.2.2)
    exact ⟨i, hi, by rw [hkeep]; exact hl, by rw [hkeep]; exact he⟩

/-- a grant adds one frame at most -/
theorem granted_grant {frame pfn : ℕ} {rights : CapRights} (h : ((d.grant frame rights).2.granted pfn).isSome = true) :
    (d.granted pfn).isSome = true ∨ pfn = frame := by
  have hput : ∀ (i : ℕ) (e : Grant), e.frame = frame →
        (∃ j < G, (d.grants.put i e j).live = true ∧ (d.grants.put i e j).frame = pfn) →
      (d.granted pfn).isSome = true ∨ pfn = frame := by
    rintro i e he ⟨j, hj, hl, hp⟩
    rw [Table.put_apply] at hl hp
    split_ifs at hl hp with hji
    · exact Or.inr (hp.symm.trans he)
    · exact Or.inl (granted_isSome.2 ⟨j, hj, hl, hp⟩)
  rw [granted_isSome] at h
  unfold grant at h
  cases hidx : d.grantIdx frame with
  | some i =>
    rw [hidx] at h
    exact hput i { d.grants i with rights := rights } (grantIdx_some hidx).2.2.1 h
  | none =>
    rw [hidx] at h
    cases hfree : firstIdx G fun i => !(d.grants i).live with
    | some i =>
      rw [hfree] at h
      exact hput i ⟨true, frame, rights⟩ rfl h
    | none =>
      rw [hfree] at h
      exact Or.inl (granted_isSome.2 h)

/-- translations come and go without the grants -/
theorem granted_unmap (iova pfn : ℕ) : (d.unmap iova).granted pfn = d.granted pfn := by
  unfold unmap
  split <;> rfl

theorem granted_map {d' : Domain G M} {iova frame : ℕ} {rights : CapRights} (h : d.map iova frame rights = .ok d') (pfn : ℕ) :
    d'.granted pfn = d.granted pfn := by
  unfold map at h
  cases hg : d.granted frame with
  | none => rw [hg] at h; exact absurd h (by simp)
  | some have_ =>
    rw [hg] at h
    simp only at h
    split_ifs at h
    cases hfree : firstIdx M fun i => !(d.maps i).live with
    | none => rw [hfree] at h; exact absurd h (by simp)
    | some i =>
      rw [hfree] at h
      obtain rfl := Except.ok.inj h
      rfl

/-! ## What each operation does to the translations -/

theorem Ok.grant (h : Ok d) (frame : ℕ) (rights : CapRights) : Ok (d.grant frame rights).2 :=
  (h.refines (.grant frame rights)).ok h

theorem Ok.revoke (h : Ok d) (frame : ℕ) : Ok (d.revoke frame) := (h.refines (.revoke frame)).ok h

theorem Ok.unmap (h : Ok d) (iova : ℕ) : Ok (d.unmap iova) := (h.refines (.unmap iova)).ok h

theorem Ok.map (h : Ok d) {d' : Domain G M} {iova frame : ℕ} {rights : CapRights} (hmap : d.map iova frame rights = .ok d') :
    Ok d' := by
  have hok := (h.refines (.map iova frame rights)).ok h
  rw [Domain.step, hmap] at hok
  exact hok

/-- narrowing a grant takes the translations it no longer covers -/
theorem Ok.mapped_grant (h : Ok d) (frame : ℕ) (rights : CapRights) (iova : ℕ) :
    (d.grant frame rights).2.mapped iova = (d.mapped iova).filter fun m => m.1 != frame || rights.contains m.2 := by
  have hstep := congrArg (fun r : Reply × Reach => r.2.maps iova) (h.refines (.grant frame rights)).step
  show (d.step (.grant frame rights)).2.reach.maps iova = _
  rw [← hstep]
  cases hg : d.granted frame with
  | some old =>
    rw [Reach.step_regrant (a := d.reach) hg]
    rfl
  | none =>
    -- nothing of an ungranted frame is translated
    have hsame : d.mapped iova = (d.mapped iova).filter fun m => m.1 != frame || rights.contains m.2 := by
      cases hm : d.mapped iova with
      | none => rfl
      | some m =>
        obtain ⟨have_, hgr, -⟩ := h.covered iova m.1 m.2 hm
        have hgr' : d.granted m.1 = some have_ := hgr
        have hne : m.1 ≠ frame := by
          intro he
          rw [he, hg] at hgr'
          exact absurd hgr' (by simp)
        have hp : (m.1 != frame || rights.contains m.2) = true := by
          rw [bne_iff_ne.2 hne]
          rfl
        rw [Option.filter_some, if_pos hp]
    by_cases hroom : Reach.size d.reach.grants < G
    · rw [Reach.step_grant (a := d.reach) hg hroom]
      exact hsame
    · rw [Reach.step_grant_full (a := d.reach) hg hroom]
      exact hsame

theorem Ok.mapped_revoke (h : Ok d) (frame iova : ℕ) :
    (d.revoke frame).mapped iova = (d.mapped iova).filter fun m => m.1 != frame :=
  (congrArg (fun r : Reply × Reach => r.2.maps iova) (h.refines (.revoke frame)).step).symm

theorem Ok.mapped_unmap (h : Ok d) (iova x : ℕ) : (d.unmap iova).mapped x = if x = iova then none else d.mapped x := by
  have hstep := congrArg (fun r : Reply × Reach => r.2.maps x) (h.refines (.unmap iova)).step
  refine hstep.symm.trans ?_
  show Function.update d.mapped iova none x = _
  rw [Function.update_apply]

theorem Ok.mapped_map (h : Ok d) {d' : Domain G M} {iova frame : ℕ} {rights : CapRights}
    (hmap : d.map iova frame rights = .ok d') (x : ℕ) : d'.mapped x = if x = iova then some (frame, rights) else d.mapped x := by
  have hstep := (h.refines (.map iova frame rights)).step
  simp only [Domain.step, hmap] at hstep
  have hreply := congrArg Prod.fst hstep
  have hmaps : (Reach.step G M d.reach (.map iova frame rights)).2.maps =
        Function.update d.mapped iova (some (frame, rights)) := by
    simp only [Reach.step] at hreply ⊢
    cases hg : d.reach.grants frame with
    | none => rw [hg] at hreply; exact absurd hreply (by simp)
    | some have_ =>
      simp only [hg] at hreply ⊢
      split_ifs at hreply ⊢
      · exact absurd hreply (by simp)
      · exact absurd hreply (by simp)
      · rfl
      · exact absurd hreply (by simp)
  rw [hstep] at hmaps
  show d'.reach.maps x = _
  rw [hmaps, Function.update_apply]

/-- the live translations, by device address -/
theorem Ok.mem_reachable (h : Ok d) {m : Mapping} :
    m ∈ d.reachable ↔ m.live = true ∧ d.mapped m.iova = some (m.frame, m.rights) := by
  unfold reachable mapped
  rw [List.mem_filter, List.mem_map]
  constructor
  · rintro ⟨⟨i, hi, rfl⟩, hl⟩
    refine ⟨hl, ?_⟩
    rw [h.maps.find_live (List.mem_range.1 hi) hl]
    rfl
  · rintro ⟨hl, hm⟩
    obtain ⟨e, he, heq⟩ := Option.map_eq_some_iff.1 hm
    obtain ⟨i, hi, rfl, hli, hki⟩ := find_some he
    rw [Prod.mk.injEq] at heq
    refine ⟨⟨i, List.mem_range.2 hi, ?_⟩, hl⟩
    cases hmi : d.maps i
    rw [hmi] at hli hki heq
    cases m
    simp only at *
    rw [hki, heq.1, heq.2, hli, hl]

theorem Ok.mapped_iff (h : Ok d) {iova frame : ℕ} {rights : CapRights} :
    d.mapped iova = some (frame, rights) ↔ ⟨true, iova, frame, rights⟩ ∈ d.reachable := by
  rw [h.mem_reachable]
  exact ⟨fun hm => ⟨rfl, hm⟩, And.right⟩

/-- a grant that is accepted is the grant of its frame from then on -/
theorem Ok.granted_grant_eq (h : Ok d) (frame : ℕ) (rights : CapRights) (f : ℕ) :
    (d.grant frame rights).2.granted f = if (d.grant frame rights).1 = true ∧ f = frame then some rights else d.granted f := by
  have hstep := (h.refines (.grant frame rights)).step
  have hreply : (Reach.step G M d.reach (.grant frame rights)).1 = .granted (d.grant frame rights).1 := congrArg Prod.fst hstep
  have hgrants : (Reach.step G M d.reach (.grant frame rights)).2.grants f = (d.grant frame rights).2.granted f :=
    congrArg (fun r : Reply × Reach => r.2.grants f) hstep
  have hupdate : Function.update d.reach.grants frame (some rights) f = if f = frame then some rights else d.granted f :=
    Function.update_apply _ _ _ _
  rw [← hgrants]
  cases hg : d.granted frame with
  | some old =>
    rw [Reach.step_regrant (a := d.reach) hg] at hreply ⊢
    rw [← Reply.granted.inj hreply]
    simpa using hupdate
  | none =>
    by_cases hroom : Reach.size d.reach.grants < G
    · rw [Reach.step_grant (a := d.reach) hg hroom] at hreply ⊢
      rw [← Reply.granted.inj hreply]
      simpa using hupdate
    · rw [Reach.step_grant_full (a := d.reach) hg hroom] at hreply ⊢
      rw [← Reply.granted.inj hreply, if_neg (by simp)]
      rfl

theorem Ok.granted_revoke_eq (h : Ok d) (frame f : ℕ) : (d.revoke frame).granted f = if f = frame then none else d.granted f := by
  have hstep := congrArg (fun r : Reply × Reach => r.2.grants f) (h.refines (.revoke frame)).step
  refine hstep.symm.trans ?_
  show Function.update d.granted frame none f = _
  rw [Function.update_apply]

/-- the frames `Q` selects lose their grants and their translations, and the others keep theirs -/
structure Dropped (Q : ℕ → Prop) (d d' : Domain G M) : Prop where
  ok : Ok d'
  maps : ∀ iova, (∃ frame rights, d.mapped iova = some (frame, rights) ∧ Q frame) ∧ d'.mapped iova = none ∨
    (∀ frame rights, d.mapped iova = some (frame, rights) → ¬Q frame) ∧ d'.mapped iova = d.mapped iova
  gone : ∀ f, Q f → d'.granted f = none
  kept : ∀ f, ¬Q f → d'.granted f = d.granted f

def Drops (Q : ℕ → Prop) (d d' : Domain G M) : Prop := Ok d → Dropped Q d d'

namespace Drops

variable {Q Q' : ℕ → Prop} {d' d'' : Domain G M}

theorem refl (d : Domain G M) : Drops (fun _ => False) d d :=
  fun h => ⟨h, fun _ => Or.inr ⟨fun _ _ _ => id, rfl⟩, fun _ hq => hq.elim, fun _ _ => rfl⟩

theorem congr (h : Drops Q d d') (hQ : ∀ f, Q f ↔ Q' f) : Drops Q' d d' := by
  obtain rfl : Q = Q' := funext fun f => propext (hQ f)
  exact h

theorem trans (h : Drops Q d d') (h' : Drops Q' d' d'') : Drops (fun f => Q f ∨ Q' f) d d'' := by
  intro hok
  have h1 := h hok
  have h2 := h' h1.ok
  refine ⟨h2.ok, fun iova => ?_, fun f hq => ?_, fun f hn => ?_⟩
  · rcases h1.maps iova with ⟨⟨f, r, hm, hq⟩, hgone⟩ | ⟨hkeep, hsame⟩
    · refine Or.inl ⟨⟨f, r, hm, Or.inl hq⟩, ?_⟩
      rcases h2.maps iova with ⟨-, hnone⟩ | ⟨-, hsame⟩
      · exact hnone
      · rw [hsame, hgone]
    · rcases h2.maps iova with ⟨⟨f, r, hm, hq⟩, hnone⟩ | ⟨hkeep', hsame'⟩
      · exact Or.inl ⟨⟨f, r, hsame ▸ hm, Or.inr hq⟩, hnone⟩
      · refine Or.inr ⟨fun f r hm hc => ?_, hsame'.trans hsame⟩
        exact hc.elim (hkeep f r hm) (hkeep' f r (hsame.trans hm))
  · by_cases hq' : Q' f
    · exact h2.gone f hq'
    · rw [h2.kept f hq']
      exact h1.gone f (hq.resolve_right hq')
  · rw [h2.kept f fun hc => hn (Or.inr hc)]
    exact h1.kept f fun hc => hn (Or.inl hc)

theorem revoke (d : Domain G M) (frame : ℕ) : Drops (· = frame) d (d.revoke frame) := by
  intro hok
  refine ⟨hok.revoke frame, fun iova => ?_, fun f hf => ?_, fun f hf => ?_⟩
  · rw [hok.mapped_revoke]
    cases hm : d.mapped iova with
    | none => exact Or.inr ⟨fun _ _ hc => absurd hc (by simp), rfl⟩
    | some m =>
      rw [Option.filter_some]
      by_cases hf : m.1 = frame
      · exact Or.inl ⟨⟨m.1, m.2, rfl, hf⟩, if_neg (by simp [hf])⟩
      · refine Or.inr ⟨fun f r he hc => hf ?_, if_pos (bne_iff_ne.2 hf)⟩
        rw [Option.some.inj he]
        exact hc
  · rw [hok.granted_revoke_eq, if_pos hf]
  · rw [hok.granted_revoke_eq, if_neg hf]

end Drops

/-- unmapping translations of one frame one by one, and then revoking it, is revoking it -/
theorem drops_unmaps {frame : ℕ} (iovas : List ℕ) (hio : ∀ iova ∈ iovas, Ok d → ∀ m, d.mapped iova = some m → m.1 = frame) :
    Drops (· = frame) d ((iovas.foldl unmap d).revoke frame) := by
  suffices hfold : ∀ (l : List ℕ) (e : Domain G M), (∀ iova ∈ l, Ok e → ∀ m, e.mapped iova = some m → m.1 = frame) → Ok e →
      Ok (l.foldl unmap e) ∧ ∀ x, (l.foldl unmap e).mapped x = e.mapped x ∨
        (∃ rights, e.mapped x = some (frame, rights)) ∧ (l.foldl unmap e).mapped x = none by
    intro hok
    obtain ⟨hok1, h1⟩ := hfold iovas d hio hok
    have h2 := Drops.revoke (iovas.foldl unmap d) frame hok1
    have hgr : ∀ f, (iovas.foldl unmap d).granted f = d.granted f := fun f =>
      List.foldlRecOn (motive := fun e : Domain G M => e.granted f = d.granted f) iovas _ rfl fun e he x _ =>
        (granted_unmap x f).trans he
    refine ⟨h2.ok, fun x => ?_, h2.gone, fun f hf => (h2.kept f hf).trans (hgr f)⟩
    rcases h1 x with hsame | ⟨⟨r, hm⟩, hgone⟩
    · have hx := h2.maps x
      rw [hsame] at hx
      exact hx
    · refine Or.inl ⟨⟨frame, r, hm, rfl⟩, ?_⟩
      rcases h2.maps x with ⟨-, hnone⟩ | ⟨-, hsame⟩
      · exact hnone
      · rw [hsame, hgone]
  intro l
  induction l with
  | nil => exact fun e _ he => ⟨he, fun _ => Or.inl rfl⟩
  | cons iova l ih =>
    intro e hl he
    have hun : ∀ x, (e.unmap iova).mapped x = if x = iova then none else e.mapped x := he.mapped_unmap iova
    have hl' : ∀ x ∈ l, Ok (e.unmap iova) → ∀ m, (e.unmap iova).mapped x = some m → m.1 = frame := by
      intro x hx _ m hm
      rw [hun] at hm
      split_ifs at hm
      exact hl x (List.mem_cons_of_mem _ hx) he m hm
    obtain ⟨hok1, h1⟩ := ih (e.unmap iova) hl' (he.unmap iova)
    refine ⟨hok1, fun x => ?_⟩
    by_cases hx : x = iova
    · -- the translation that went
      have hnone : (l.foldl unmap (e.unmap iova)).mapped x = none := by
        rcases h1 x with hsame | ⟨-, hgone⟩
        · rw [hsame, hun, if_pos hx]
        · exact hgone
      cases hm : e.mapped x with
      | none => exact Or.inl hnone
      | some m =>
        have hframe := hl iova List.mem_cons_self he m (hx ▸ hm)
        exact Or.inr ⟨⟨m.2, by rw [← hframe]⟩, hnone⟩
    · rcases h1 x with hsame | ⟨⟨r, hm⟩, hgone⟩
      · exact Or.inl (hsame.trans (by rw [hun, if_neg hx]))
      · rw [hun, if_neg hx] at hm
        exact Or.inr ⟨⟨r, hm⟩, hgone⟩

/-- a refused call leaves the domain as it is -/
theorem refused_same (d : Domain G M) (op : Op) (h : (d.step op).1.refused = true) : (d.step op).2 = d := by
  cases op with
  | grant frame rights =>
    simp only [Domain.step, Domain.grant] at h ⊢
    cases hidx : d.grantIdx frame with
    | some i => rw [hidx] at h; exact absurd h Bool.false_ne_true
    | none =>
      cases hfree : firstIdx G fun i => !(d.grants i).live with
      | some i => rw [hidx, hfree] at h; exact absurd h Bool.false_ne_true
      | none => rfl
  | revoke frame => exact absurd h (by simp [Domain.step, Reply.refused])
  | map iova frame rights =>
    simp only [Domain.step] at h ⊢
    cases hmap : d.map iova frame rights with
    | ok d' => rw [hmap] at h; exact absurd h (by simp [Reply.refused])
    | error e => rfl
  | unmap iova => exact absurd h (by simp [Domain.step, Reply.refused])

/-- both maps are finite, and as large as their tables at most -/
theorem Ok.finite (h : Ok d) :
    ({frame | (d.granted frame).isSome}.Finite ∧ Reach.size d.granted ≤ G) ∧
      {iova | (d.mapped iova).isSome}.Finite ∧ Reach.size d.mapped ≤ M := by
  obtain ⟨hg, hm⟩ := h.sizes
  refine ⟨⟨?_, hg.trans_le (used_le _)⟩, ?_, hm.trans_le (used_le _)⟩
  · simp only [granted_eq, Option.isSome_map]
    exact finite_find _
  · simp only [mapped, Option.isSome_map]
    exact finite_find _

/-! ## Room -/

theorem reachable_length (d : Domain G M) : d.reachable.length = used Mapping.live M d.maps := by
  rw [reachable, List.filter_map, List.length_map, ← List.toFinset_card_of_nodup (List.nodup_range.filter _), used]
  congr 1
  ext i
  simp

theorem reachable_length_le (d : Domain G M) : d.reachable.length ≤ M := (reachable_length d).trans_le (used_le _)

theorem Ok.reachable_length (h : Ok d) : d.reachable.length = Reach.size d.mapped :=
  (Domain.reachable_length d).trans h.sizes.2.symm

/-- grants that all have a mapping are no more than the mappings -/
theorem Ok.grants_le (h : Ok d) (hused : ∀ f r, d.granted f = some r → ∃ x, d.mapped x = some (f, r)) :
    used Grant.live G d.grants ≤ d.reachable.length := by
  rw [← h.sizes.1, h.reachable_length, Reach.size, Reach.size]
  have hchoose : ∀ f, ∃ x, (d.granted f).isSome → ∃ r, d.mapped x = some (f, r) := by
    intro f
    cases hg : d.granted f with
    | none => exact ⟨0, fun hc => absurd hc (by simp)⟩
    | some r =>
      obtain ⟨x, hx⟩ := hused f r hg
      exact ⟨x, fun _ => ⟨r, hx⟩⟩
  choose x hx using hchoose
  refine Set.ncard_le_ncard_of_injOn x (fun f hf => ?_) (fun f hf g hg he => ?_) h.finite.2.1
  · obtain ⟨r, hr⟩ := hx f hf
    exact Option.isSome_iff_exists.2 ⟨_, hr⟩
  · -- an address is translated to one frame
    obtain ⟨r, hr⟩ := hx f hf
    obtain ⟨r', hr'⟩ := hx g hg
    rw [he, hr'] at hr
    exact (Prod.mk.inj (Option.some.inj hr)).1.symm

/-- a grant is refused only if every slot is in use -/
theorem grant_room {frame : ℕ} {rights : CapRights} (hroom : used Grant.live G d.grants < G) :
    (d.grant frame rights).1 = true := by
  obtain ⟨i, hi⟩ := (firstFree d.grants).2 hroom
  unfold grant
  cases d.grantIdx frame with
  | some j => rfl
  | none => rw [hi]

/-- a mapping of an address that is free, within its grant, fails only for want of room -/
theorem Ok.map_room (h : Ok d) {iova frame : ℕ} {rights : CapRights} (hg : d.granted frame = some rights)
    (hfree : d.mapped iova = none) : (∃ d', d.map iova frame rights = .ok d') ↔ d.reachable.length < M := by
  have hunused : ¬(d.reach.maps iova).isSome = true := by
    show ¬(d.mapped iova).isSome = true
    rw [hfree]
    simp
  have hcov : ¬rights.contains rights = false := by rw [CapRights.contains_refl]; simp
  have hsize : Reach.size d.reach.maps = d.reachable.length := h.reachable_length.symm
  have hstep := (h.refines (.map iova frame rights)).step
  rw [Domain.step] at hstep
  by_cases hroom : Reach.size d.reach.maps < M
  · rw [Reach.step_map (a := d.reach) hg hcov hunused hroom] at hstep
    refine iff_of_true ?_ (hsize ▸ hroom)
    cases hm : d.map iova frame rights with
    | ok d' => exact ⟨d', rfl⟩
    | error e =>
      rw [hm] at hstep
      exact absurd (congrArg Prod.fst hstep) (by simp)
  · rw [Reach.step_map_full (a := d.reach) hg hcov hunused hroom] at hstep
    refine iff_of_false ?_ (hsize ▸ hroom)
    rintro ⟨d', hm⟩
    rw [hm] at hstep
    exact absurd (congrArg Prod.fst hstep) (by simp)

/-- no two live grants on one frame, no two live mappings of one device address -/
def Single (d : Domain G M) : Prop :=
  (∀ i < G, ∀ j < G, (d.grants i).live = true → (d.grants j).live = true → (d.grants i).frame = (d.grants j).frame → i = j) ∧
  ∀ i < M, ∀ j < M, (d.maps i).live = true → (d.maps j).live = true → (d.maps i).iova = (d.maps j).iova → i = j

end Domain

/-- the domain after a sequence of calls -/
def after (G M : ℕ) (ops : List Op) : Domain G M := (run Domain.step Domain.new ops).2

/-- **A domain is a pair of finite maps, and its reach stays inside its grants.** Over every sequence of calls: what is mapped
is granted, one grant a frame and one mapping an address, as many as there are slots at most; every answer and every change is
that of `Reach.step`; and the next call, if it is refused, leaves the domain as it is. -/
theorem domain_refines (G M : ℕ) (ops : List Op) :
    (after G M ops).contained = true ∧ (after G M ops).Single ∧
    ({frame | ((after G M ops).granted frame).isSome}.Finite ∧ Reach.size (after G M ops).granted ≤ G) ∧
    ({iova | ((after G M ops).mapped iova).isSome}.Finite ∧ Reach.size (after G M ops).mapped ≤ M) ∧
    run (Reach.step G M) Reach.empty ops =
      ((run Domain.step (Domain.new : Domain G M) ops).1, (after G M ops).reach) ∧
    ∀ op, Reach.step G M (after G M ops).reach op =
        (((after G M ops).step op).1, ((after G M ops).step op).2.reach) ∧
      (((after G M ops).step op).1.refused = true → ((after G M ops).step op).2 = after G M ops) := by
  obtain ⟨hok, hrun⟩ := Domain.ok_new.run (G := G) (M := M) ops
  rw [Domain.reach_new] at hrun
  refine ⟨hok.contained, ⟨hok.grants, hok.maps⟩, hok.finite.1, hok.finite.2, hrun, fun op => ⟨(hok.refines op).step, ?_⟩⟩
  exact Domain.refused_same _ op

end Rustproof.Iommu
