/-
Where authority comes from.

Every capability of a live process is one of the boot's grants, part of one another process held, or names a region
`MAKE_REGION` created: `Move.holds` says so of one move, `Step.holds` of one input. Along a run nothing else is ever added.
- `Bounded`: what is not a region capability is within a grant of the boot.
- `Grounded`: a region capability names a live region, and is within the mint source that region was created from.
- `authority_bounded`: both, and the ledger, in every state of every run.
-/
import Rustproof.Crates.Derivations
import Rustproof.Kernel.Lineage

namespace Rustproof.Kernel

open Lib Prog

variable {A : Arch} {C : Config} {G : Gate} {me : ℕ} {k : Trap} {s t : KState}

/-! ## Holding, and where it comes from -/

/-- `b` confers all that `c` does -/
def Confers (b c : Capabilities.CapSlot) : Prop :=
  c.capType = b.capType ∧ c.object = b.object ∧ b.rights.contains c.rights = true

/-- the live process `p` has the capability in some slot -/
def KState.Holds (s : KState) (p : ℕ) (c : Capabilities.CapSlot) : Prop := s.Alive p ∧ ∃ i, (s.procs p).caps.lookup i = some c

/-- the boot grants `b` to an initial process, `Mmio` objects resolved -/
def Granted (A : Arch) (C : Config) (b : Capabilities.CapSlot) : Prop :=
  ∃ i < NUM_PROCS, ∃ slot, (mintGrants A C (bootRole i)).lookup slot = some b

theorem Confers.refl (c : Capabilities.CapSlot) : Confers c c := ⟨rfl, rfl, CapRights.contains_refl _⟩

theorem Confers.trans {a b c : Capabilities.CapSlot} (h : Confers a b) (h' : Confers b c) : Confers a c :=
  ⟨h'.1.trans h.1, h'.2.1.trans h.2.1, CapRights.contains_trans h.2.2 h'.2.2⟩

/-- a capability somebody has after a move: it was held before, by the same process or by one that delegates it, it is
granted by the boot, or it is for the region a `MAKE_REGION` has just created -/
inductive Obtained (A : Arch) (C : Config) (k : Trap) (s t : KState) (c : Capabilities.CapSlot) : Prop where
  | held {q : ℕ} {b : Capabilities.CapSlot} : s.Holds q b → Confers b c → Obtained A C k s t c
  | granted : Granted A C c → Obtained A C k s t c
  | minted {f : UserFrame} : k = .syscall f → A.frameNum f = sysno.MAKE_REGION → c.capType = .region →
      (t.regionIndex c.object).isSome = true → Obtained A C k s t c

/-- a step that gives nobody a capability -/
def Shrinks (s t : KState) : Prop := ∀ p c, t.Holds p c → s.Holds p c

namespace Shrinks

theorem trans {u : KState} (h : Shrinks s t) (h' : Shrinks t u) : Shrinks s u := fun p c hc => h p c (h' p c hc)

theorem of_authority (h : ∀ p, (t.procs p).authority = (s.procs p).authority) : Shrinks s t := by
  rintro p c ⟨⟨hp, hl⟩, i, hi⟩
  rw [Process.caps_eq (h p)] at hi
  exact ⟨⟨hp, (Process.live_eq (h p)).symm.trans hl⟩, i, hi⟩

/-- a step after which every process lives only if it did, with no capability it did not have -/
theorem of_lookup (hl : ∀ p, t.live p = true → s.live p = true)
    (hc : ∀ p i c, (t.procs p).caps.lookup i = some c → (s.procs p).caps.lookup i = some c) : Shrinks s t := by
  rintro p c ⟨⟨hp, hlive⟩, i, hi⟩
  exact ⟨⟨hp, hl p hlive⟩, i, hc p i c hi⟩

theorem obtained {p : ℕ} {c : Capabilities.CapSlot} (h : Shrinks s t) (hc : t.Holds p c) : Obtained A C k s t c :=
  .held (h p c hc) (.refl c)

end Shrinks

theorem Obtained.same {p : ℕ} {c : Capabilities.CapSlot} (h : ∀ p, (t.procs p).authority = (s.procs p).authority)
    (hc : t.Holds p c) : Obtained A C k s t c := (Shrinks.of_authority h).obtained hc

/-! ## Steps that take capabilities away -/

theorem shrinks_revokeCap (s : KState) (p c : ℕ) : Shrinks s (s.modProc p fun q => { q with caps := q.caps.revoke c }) := by
  refine .of_lookup (fun q hq => ?_) fun q i x hx => ?_
  · rw [KState.live, KState.modProc_procs, Table.put_apply] at hq
    split_ifs at hq with h
    · rw [h]; exact hq
    · exact hq
  · rw [KState.modProc_procs, Table.put_apply] at hx
    split_ifs at hx with h
    · rw [Capabilities.CapSpace.lookup_revoke] at hx
      split_ifs at hx
      rw [h]; exact hx
    · exact hx

theorem shrinks_forgetCaps (region : ℕ) (s : KState) : Shrinks s (forgetCaps region s) := by
  have hcap : ∀ p c (t : KState), Shrinks s t → Shrinks s (forgetCap region p t c) := by
    intro p c t ht
    rw [forgetCap]
    split_ifs
    · exact ht.trans (shrinks_revokeCap t p c)
    · exact ht
  rw [forgetCaps]
  refine List.foldlRecOn (motive := Shrinks s) _ _ (fun _ _ h => h) fun t ht p _ => ?_
  split_ifs
  · exact List.foldlRecOn (motive := Shrinks s) _ _ ht fun u hu c _ => hcap p c u hu
  · exact ht

/-- the capability names the region -/
def Names (region : ℕ) (c : Capabilities.CapSlot) : Prop := c.capType = .region ∧ c.object = region

theorem lookup_forgetCap {region p c q i : ℕ} {x : Capabilities.CapSlot}
    (h : ((forgetCap region p s c).procs q).caps.lookup i = some x) :
    (s.procs q).caps.lookup i = some x ∧ (q = p → i = c → ¬Names region x) := by
  rw [forgetCap] at h
  split_ifs at h with hc
  · -- the slot named the region, and is empty now
    have h' : ((s.procs.put p { s.procs p with caps := (s.procs p).caps.revoke c }) q).caps.lookup i = some x := h
    rw [Table.put_apply] at h'
    split_ifs at h' with hq
    · rw [Capabilities.CapSpace.lookup_revoke] at h'
      split_ifs at h' with hi
      exact ⟨by rw [hq]; exact h', fun _ hic => absurd hic hi⟩
    · exact ⟨h', fun hqp => absurd hqp hq⟩
  · refine ⟨h, fun hq hi hn => hc ?_⟩
    rw [← hq, ← hi, h]
    simp [hn.1, hn.2]

theorem live_forgetCap (region p q c : ℕ) (s : KState) : (forgetCap region p s c).live q = s.live q := by
  obtain ⟨_, hc⟩ := (capsOnly_forgetCap region p s c).proc q
  rw [KState.live, KState.live, hc]
  rfl

theorem lookup_forgetSlots {region p q i : ℕ} {x : Capabilities.CapSlot} (cs : List ℕ)
    (h : ((cs.foldl (forgetCap region p) s).procs q).caps.lookup i = some x) :
    (s.procs q).caps.lookup i = some x ∧ (q = p → i ∈ cs → ¬Names region x) := by
  induction cs generalizing s with
  | nil => exact ⟨h, fun _ hi => absurd hi List.not_mem_nil⟩
  | cons c cs ih =>
    obtain ⟨h1, h2⟩ := ih h
    obtain ⟨h3, h4⟩ := lookup_forgetCap h1
    refine ⟨h3, fun hq hi => ?_⟩
    rcases List.mem_cons.1 hi with hi | hi
    · exact h4 hq hi
    · exact h2 hq hi

theorem live_forgetSlots (region p q : ℕ) (cs : List ℕ) (s : KState) :
    (cs.foldl (forgetCap region p) s).live q = s.live q :=
  List.foldlRecOn (motive := fun t : KState => t.live q = s.live q) cs _ rfl fun t ht c _ =>
    (live_forgetCap region p q c t).trans ht

/-- one process of the loop -/
theorem lookup_forgetProc {region p q i : ℕ} {x : Capabilities.CapSlot} {u : KState}
    (hu : u = if s.live q then (List.range CAP_SLOTS).foldl (forgetCap region q) s else s) (hl : u.live p = true)
    (hi : (u.procs p).caps.lookup i = some x) :
    s.live p = true ∧ (s.procs p).caps.lookup i = some x ∧ (p = q → ¬Names region x) := by
  subst hu
  split_ifs at hl hi with hq
  · obtain ⟨h1, h2⟩ := lookup_forgetSlots _ hi
    rw [live_forgetSlots] at hl
    exact ⟨hl, h1, fun hp => h2 hp (List.mem_range.2 (Capabilities.CapSpace.lookup_some hi).1)⟩
  · exact ⟨hl, hi, fun hp => absurd (hp ▸ hl) hq⟩

/-- **No capability for a region survives `forgetCaps`.** -/
theorem forgetCaps_gone {region p : ℕ} {c : Capabilities.CapSlot} (h : (forgetCaps region s).Holds p c) :
    ¬Names region c := by
  have loop : ∀ (ps : List ℕ) (t : KState) (i : ℕ) (u : KState), u = ps.foldl (fun u q =>
        if u.live q then (List.range CAP_SLOTS).foldl (forgetCap region q) u else u) t → u.live p = true →
      (u.procs p).caps.lookup i = some c → t.live p = true ∧ (t.procs p).caps.lookup i = some c ∧
        (p ∈ ps → ¬Names region c) := by
    intro ps
    induction ps with
    | nil =>
      intro t i u hu hl hi
      obtain rfl : u = t := hu
      exact ⟨hl, hi, fun h => absurd h List.not_mem_nil⟩
    | cons q ps ih =>
      intro t i u hu hl hi
      obtain ⟨h1, h2, h3⟩ := ih _ i u hu hl hi
      obtain ⟨h4, h5, h6⟩ := lookup_forgetProc rfl h1 h2
      refine ⟨h4, h5, fun hp => ?_⟩
      rcases List.mem_cons.1 hp with hp | hp
      · exact h6 hp
      · exact h3 hp
  obtain ⟨⟨hp, hl⟩, i, hi⟩ := h
  exact (loop _ s i _ rfl hl hi).2.2 (List.mem_range.2 hp)

theorem shrinks_strip (d : Deleg.Endpoint) (s : KState) : wp (strip A C d) (fun _ t => Shrinks s t) (· = .ringFull) s := by
  refine wp_mono (strip_spec d s) fun _ t ht => ?_
  rcases ht with rfl | ⟨-, -, v, hv, rfl⟩
  · exact fun _ _ h => h
  refine (shrinks_revokeCap s d.proc d.cap).trans (.of_lookup (fun p hp => ?_) fun p i c hc => ?_)
  · rw [live_settle] at hp
    rwa [← hv.toStill.live p]
  · rwa [caps_settle, hv.caps_eq] at hc

theorem shrinks_revoke {cap : ℕ} (h : revokeDelegations A C me cap s = .ok ((), t)) : Shrinks s t := by
  refine wp_ok (wp_revoke (I := Shrinks s) (E := (· = .ringFull)) (fun _ _ h => h) fun d _ u hu => ?_) h
  exact wp_mono (shrinks_strip d u) fun _ v hv => hu.trans hv

theorem shrinks_reap (s : KState) (p : ℕ) : Shrinks s (refusePeers A (reap p s)) := by
  refine .of_lookup (fun q hq => ?_) fun q i c hc => ?_
  · rw [live_refusePeers, KState.live, procs_reap, Table.put_apply] at hq
    split_ifs at hq with h
    · exact absurd hq (by simp [Process.live])
    · exact hq
  · rw [caps_refusePeers, procs_reap, Table.put_apply] at hc
    split_ifs at hc with h
    · rw [h]; exact hc
    · exact hc

/-! ## Steps that add capabilities -/

/-- a space one capability was put in -/
theorem lookup_insert {caps caps' : Caps} {ty : CapType} {r : CapRights} {o idx i : ℕ} {c : Capabilities.CapSlot}
    (hins : caps.insert ty r o = some (idx, caps')) (h : caps'.lookup i = some c) :
    c = ⟨ty, r, o⟩ ∨ caps.lookup i = some c := by
  obtain ⟨-, -, -, -, -, hput, hold⟩ := Capabilities.CapSpace.insert_some hins
  by_cases hi : i = idx
  · rw [hi, hput] at h
    exact Or.inl (Option.some.inj h).symm
  · rw [hold i hi] at h
    exact Or.inr h

/-- what a process has that was loaded in slot `slot`, and what the others have -/
theorem holds_loaded {slot id p : ℕ} {role : Role} {ok : Bool} {c : Capabilities.CapSlot}
    (hrun : loadProcess A C slot id role s = .ok (ok, t)) (h : t.Holds p c) :
    s.Holds p c ∨ ∃ i, (mintGrants A C role).lookup i = some c := by
  rcases wp_ok (loadProcess_spec slot id role s) hrun with ⟨-, rfl | ⟨r, -, rfl⟩⟩ | ⟨-, token, entry, r, -, rfl⟩
  · exact Or.inl h
  · exact Or.inl h
  · obtain ⟨⟨hp, hl⟩, i, hi⟩ := h
    rw [KState.live, KState.record_procs, KState.modProc_procs, Table.put_apply] at hl
    rw [KState.record_procs, KState.modProc_procs, Table.put_apply] at hi
    split_ifs at hl hi with hslot
    · exact Or.inr ⟨i, hi⟩
    · exact Or.inl ⟨⟨hp, hl⟩, i, hi⟩

/-- a child starts with nothing -/
theorem mintGrants_child : mintGrants A C .child = Capabilities.CapSpace.new := rfl

/-- what a child has that was handed one capability -/
theorem holds_handOver {slot arg childId p : ℕ} {b c : Capabilities.CapSlot}
    (h : (handOver me slot arg childId b s).Holds p c) : c = b ∨ s.Holds p c := by
  rw [handOver] at h
  cases hins : (s.procs slot).caps.insert b.capType b.rights b.object with
  | none =>
    rw [hins] at h
    exact Or.inr h
  | some out =>
    rw [hins] at h
    obtain ⟨⟨hp, hl⟩, i, hi⟩ := h
    have hi' : ((s.procs.put slot { s.procs slot with caps := out.2 }) p).caps.lookup i = some c := hi
    have hl' : ((s.procs.put slot { s.procs slot with caps := out.2 }) p).live = true := hl
    rw [Table.put_apply] at hi' hl'
    split_ifs at hi' hl' with hslot
    · rcases lookup_insert hins hi' with hc | hc
      · exact Or.inl hc
      · refine Or.inr ⟨⟨hp, ?_⟩, i, by rw [hslot]; exact hc⟩
        rw [KState.live, hslot]
        exact hl'
    · exact Or.inr ⟨⟨hp, hl'⟩, i, hi'⟩

/-- a created region is there, and its capability is the only new one -/
theorem holds_makeRegion {pages v p : ℕ} {rights : CapRights} {c : Capabilities.CapSlot}
    (hrun : makeRegion me pages rights s = .ok (v, t)) (h : t.Holds p c) :
    s.Holds p c ∨ c = ⟨.region, rights, s.nextRegionId⟩ ∧ (t.regionIndex s.nextRegionId).isSome = true := by
  rcases wp_ok (makeRegion_spec me pages rights s) hrun with
    ⟨-, rfl | ⟨w, -, rfl⟩ | ⟨frames, w, -, rfl⟩⟩ | ⟨idx, frames, w, cap, caps, hidx, -, hins, -, rfl⟩
  · exact Or.inl h
  · exact Or.inl h
  · exact Or.inl h
  · obtain ⟨⟨hp, hl⟩, i, hi⟩ := h
    have hi' : ((s.procs.put me { s.procs me with caps := caps }) p).caps.lookup i = some c := hi
    have hl' : ((s.procs.put me { s.procs me with caps := caps }) p).live = true := hl
    rw [Table.put_apply] at hi' hl'
    split_ifs at hi' hl' with hme
    · rcases lookup_insert hins hi' with hc | hc
      · refine Or.inr ⟨hc, ?_⟩
        obtain ⟨j, hj⟩ := firstIdx_isSome (firstIdx_some hidx).1
          (p := fun i => ((s.regions.put idx ⟨true, s.nextRegionId, (s.procs me).id, frames⟩) i).live &&
            ((s.regions.put idx ⟨true, s.nextRegionId, (s.procs me).id, frames⟩) i).id == s.nextRegionId) (by simp)
        exact Option.isSome_iff_exists.2 ⟨j, hj⟩
      · refine Or.inl ⟨⟨hp, ?_⟩, i, by rw [hme]; exact hc⟩
        rw [KState.live, hme]
        exact hl'
    · exact Or.inl ⟨⟨hp, hl'⟩, i, hi'⟩

/-! ## Every move -/

/-- **What anybody has after a move**, the boot granted, somebody had, or a `MAKE_REGION` created. -/
theorem Move.holds (h : Move A C G me k s t) {p : ℕ} {c : Capabilities.CapSlot} (hc : t.Holds p c) :
    Obtained A C k s t c := by
  cases h with
  | control hctl => exact .same hctl.quiet.authority hc
  | @receive q =>
    obtain ⟨⟨f, hf⟩, -⟩ := takeMessage_spec (A := A) q s
    refine .same (fun p => ?_) hc
    rw [hf, Table.put_apply]
    split_ifs with hp
    · rw [hp]; rfl
    · rfl
  | store | copy => exact .same (fun _ => rfl) hc
  | mapRegion => exact .same (spaceOnly_mapRegion A s me _ _).authority hc
  | mapDevice _ hcur => exact .same (spaceOnly_mapDevice A C s hcur _ _ _).authority hc
  | unmapDevice => exact .same (spaceOnly_unmapDeviceWindow A s me).authority hc
  | unmapRegion => exact .same (spaceOnly_unmapRegionFrom A s me _).authority hc
  | unmapShare => exact .same (spaceOnly_unmapShareSlot A s _ _).authority hc
  | make _ _ _ hf _ hrun =>
    rcases holds_makeRegion hrun hc with hold | ⟨rfl, hreg⟩
    · exact .held hold (.refl c)
    · exact .minted hf.1 hf.2 rfl hreg
  | mapDma => exact .same (dmaOnly_mapDma me _ _ _ s).authority hc
  | unmapDma _ _ hrun => exact .same (wp_ok (dmaOnly_unmapDma me _ _ s) hrun).authority hc
  | withdrawAll _ _ hrun => exact .same (wp_ok (dmaOnly_withdrawAllDmaOf me s) hrun).authority hc
  | @retire _ region i _ hsl _ _ hrun =>
    have hcaps := capsOnly_forgetCaps region s
    have hsl' : (forgetCaps region s).regionSlot region = some i := by rw [regionSlot_congr hcaps.regions]; exact hsl
    obtain ⟨u, hdma, -, rfl⟩ := wp_ok (releaseRegion_spec (A := A) (C := C) hsl') hrun
    have hu : Shrinks (forgetCaps region s) (freeRegion i u) := .of_authority fun p => hdma.authority p
    exact ((shrinks_forgetCaps region s).trans hu).obtained hc
  | revoke _ _ _ hrun => exact (shrinks_revoke hrun).obtained hc
  | reap => exact (shrinks_reap s me).obtained hc
  | loadFailed _ _ _ hrun =>
    rcases wp_ok (loadProcess_spec _ _ _ _) hrun with ⟨-, rfl | ⟨r, -, rfl⟩⟩ | ⟨hf, -⟩
    · exact .held hc (.refl c)
    · exact .same (fun _ => rfl) hc
    · exact absurd hf (by decide)
  | @boot u i _ hi _ hrun =>
    rcases holds_loaded hrun (t := u) hc with hold | ⟨j, hj⟩
    · exact .held hold (.refl c)
    · exact .granted ⟨i, hi, j, hj⟩
  | @spawn u slot arg requested childId cap hme _ _ _ _ hcap _ hrun =>
    have hold : ∀ x, u.Holds p x → s.Holds p x := fun x hx => by
      rcases holds_loaded hrun hx with hx | ⟨j, hj⟩
      · exact hx
      · rw [mintGrants_child, Capabilities.CapSpace.lookup_new] at hj
        exact absurd hj (by simp)
    cases cap with
    | none => exact .held (hold c hc) (.refl c)
    | some b =>
      rcases holds_handOver (s := u) hc with rfl | hu
      · -- the child has what the caller delegates
        split_ifs at hcap with harg
        obtain ⟨own, hown, hw⟩ := delegated_some hcap.symm
        exact .held ⟨hme, arg, hown⟩ hw
      · exact .held (hold c hu) (.refl c)

/-- what a sequence of moves leaves of region capabilities, unless it is that of a `MAKE_REGION` -/
theorem Moves.holds_region (hgr : ∀ b, Granted A C b → b.capType ≠ .region) (h : Moves A C G me k s t) {p : ℕ}
    {c : Capabilities.CapSlot} (hc : t.Holds p c) (hreg : c.capType = .region) :
    (∃ q b, s.Holds q b ∧ Confers b c) ∨ ∃ f, k = .syscall f ∧ A.frameNum f = sysno.MAKE_REGION := by
  induction h generalizing p c with
  | refl => exact Or.inl ⟨p, c, hc, .refl c⟩
  | tail _ hm ih =>
    cases hm.holds hc with
    | held hq hw =>
      refine (ih hq (hw.1.symm.trans hreg)).imp_left ?_
      rintro ⟨q, a, ha, hab⟩
      exact ⟨q, a, ha, hab.trans hw⟩
    | granted hg => exact absurd hreg (hgr _ hg)
    | minted hk hf => exact Or.inr ⟨_, hk, hf⟩

/-! ## The boot's grants -/

theorem mintGrants_lookup {role : Role} {i : ℕ} {c : Capabilities.CapSlot} (h : (mintGrants A C role).lookup i = some c) :
    ∃ g ∈ grantsFor C role, c = ⟨(resolveGrant A C g).1, (resolveGrant A C g).2.1, (resolveGrant A C g).2.2⟩ := by
  have loop : ∀ (gs : List (CapType × CapRights × ℕ)) (caps : Caps), (gs.foldl (fun caps g =>
      let g := resolveGrant A C g
      (caps.insert g.1 g.2.1 g.2.2).elim caps Prod.snd) caps).lookup i = some c →
      caps.lookup i = some c ∨
        ∃ g ∈ gs, c = ⟨(resolveGrant A C g).1, (resolveGrant A C g).2.1, (resolveGrant A C g).2.2⟩ := by
    intro gs
    induction gs with
    | nil => exact fun caps h => Or.inl h
    | cons g gs ih =>
      intro caps h
      rcases ih _ h with h | ⟨g', hg', hc⟩
      · simp only at h
        cases hins : caps.insert (resolveGrant A C g).1 (resolveGrant A C g).2.1 (resolveGrant A C g).2.2 with
        | none =>
          rw [hins] at h
          exact Or.inl h
        | some out =>
          rw [hins] at h
          rcases lookup_insert hins h with h | h
          · exact Or.inr ⟨g, List.mem_cons_self, h⟩
          · exact Or.inl h
      · exact Or.inr ⟨g', List.mem_cons_of_mem _ hg', hc⟩
  rcases loop _ _ h with h | h
  · rw [Capabilities.CapSpace.lookup_new] at h
    exact absurd h (by simp)
  · exact h

/-- resolving an `Mmio` object makes no region of it -/
theorem granted_not_region (hgr : ∀ role, ∀ g ∈ grantsFor C role, g.1 ≠ .region) {b : Capabilities.CapSlot}
    (h : Granted A C b) : b.capType ≠ .region := by
  obtain ⟨i, -, slot, hb⟩ := h
  obtain ⟨g, hg, rfl⟩ := mintGrants_lookup hb
  have hne := hgr _ g hg
  show (resolveGrant A C g).1 ≠ .region
  rw [resolveGrant]
  split_ifs
  · decide
  · exact hne
  · exact hne

/-! ## The invariants of every move -/

/-- what is not a region capability is within a grant of the boot -/
def Bounded (A : Arch) (C : Config) (s : KState) : Prop :=
  ∀ p c, s.Holds p c → c.capType ≠ .region → ∃ b, Granted A C b ∧ Confers b c

/-- a region capability names a live region -/
def NamesLive (s : KState) : Prop := ∀ p c, s.Holds p c → c.capType = .region → (s.regionIndex c.object).isSome = true

theorem Bounded.move (h : Bounded A C s) (hm : Move A C G me k s t) : Bounded A C t := by
  intro p c hc hne
  cases hm.holds hc with
  | held hq hw =>
    obtain ⟨a, ha, hab⟩ := h _ _ hq fun hb => hne (hw.1.trans hb)
    exact ⟨a, ha, hab.trans hw⟩
  | granted hg => exact ⟨c, hg, .refl c⟩
  | minted _ _ hreg => exact absurd hreg hne

theorem regionIndex_isSome {id : ℕ} : (s.regionIndex id).isSome = true ↔
    ∃ i < MAX_REGIONS, (s.regions i).live = true ∧ (s.regions i).id = id := by
  constructor
  · intro h
    obtain ⟨i, hi⟩ := Option.isSome_iff_exists.1 h
    exact ⟨i, regionIndex_some hi⟩
  · rintro ⟨i, hlt, hl, hid⟩
    obtain ⟨j, hj⟩ := firstIdx_isSome (p := fun i => (s.regions i).live && (s.regions i).id == id) hlt (by simp [hl, hid])
    exact Option.isSome_iff_exists.2 ⟨j, hj⟩

theorem NamesLive.move (hgr : ∀ b, Granted A C b → b.capType ≠ .region) (h : NamesLive s) (hm : Move A C G me k s t) :
    NamesLive t := by
  intro p c hc hreg
  cases hm.holds hc with
  | @held q b hq hw =>
    obtain ⟨i, hi, hl, hid⟩ := regionIndex_isSome.1 (h q b hq (hw.1.symm.trans hreg))
    rw [regionIndex_isSome]
    rw [← hw.2.1] at hid
    rcases hm.regions with ⟨hr, -⟩ | ⟨idx, r, hdead, -, hr, -⟩ | ⟨region, j, hsl, hr, -, hauth⟩
    · exact ⟨i, hi, by rw [hr]; exact hl, by rw [hr]; exact hid⟩
    · -- the region made took another slot
      have hne : i ≠ idx := fun e => by
        rw [e, hdead] at hl
        exact absurd hl (by decide)
      exact ⟨i, hi, by rw [hr, Table.put_of_ne _ hne]; exact hl, by rw [hr, Table.put_of_ne _ hne]; exact hid⟩
    · -- nobody has a capability for the region that ended
      have hnot : ¬Names region c := forgetCaps_gone (Shrinks.of_authority hauth p c hc)
      have hne : i ≠ j := fun e => hnot ⟨hreg, by rw [← hid, e, (regionSlot_some hsl).2.2.2]⟩
      exact ⟨i, hi, by rw [hr, Table.put_of_ne _ hne]; exact hl, by rw [hr, Table.put_of_ne _ hne]; exact hid⟩
  | granted hg => exact absurd hreg (hgr _ hg)
  | minted _ _ _ hlive => exact hlive

/-! ## Runs -/

/-- one of the inputs was a `MAKE_REGION` that presented `u` and created region `r` -/
def Minted (A : Arch) (C : Config) (past : List (KState × Input)) (r : ℕ) (u : Capabilities.CapSlot) : Prop :=
  ∃ s frame t, (s, .syscall frame) ∈ past ∧ syscallTrap A C frame s = .ok ((), t) ∧
    A.frameNum (snapshot A frame UserFrame.ZERO) = sysno.MAKE_REGION ∧
    capsMint (s.procs s.current).caps (A.frameArg (snapshot A frame UserFrame.ZERO) 0) = some u ∧
    s.regionIndex r = none ∧ (t.regionIndex r).isSome = true

theorem Minted.later {past : List (KState × Input)} {r : ℕ} {u : Capabilities.CapSlot} (h : Minted A C past r u)
    (x : KState × Input) : Minted A C (past ++ [x]) r u := by
  obtain ⟨s, frame, t, hmem, h⟩ := h
  exact ⟨s, frame, t, List.mem_append_left _ hmem, h⟩

/-- returning to user mode changes nobody's authority -/
theorem resumeProcess_keeps (x : ℕ) (s : KState) : (∀ p, ((resumeProcess A x s).procs p).authority = (s.procs p).authority) ∧
    (resumeProcess A x s).regions = s.regions := by
  rw [resumeProcess_eq]
  split_ifs
  · obtain ⟨⟨f, hf⟩, -⟩ := takeMessage_spec (A := A) x s
    refine ⟨fun p => ?_, ?_⟩
    · rw [KState.record_procs, KState.setCr3_procs, hf, Table.put_apply]
      split_ifs with hp
      · rw [hp]; rfl
      · rfl
    · rw [KState.record_regions, KState.setCr3_regions, takeMessage]
      split <;> rfl
  · exact ⟨fun _ => rfl, rfl⟩

/-- a `MAKE_REGION` gives its caller one capability at most: the region's, with the rights of the mint source -/
theorem syscallTrap_make {frame : UserFrame} (hnum : A.frameNum (snapshot A frame UserFrame.ZERO) = sysno.MAKE_REGION)
    (hrun : syscallTrap A C frame s = .ok ((), t)) {p : ℕ} {c : Capabilities.CapSlot} (hc : t.Holds p c) :
    s.Holds p c ∨ ∃ u, capsMint (s.procs s.current).caps (A.frameArg (snapshot A frame UserFrame.ZERO) 0) = some u ∧
      c = ⟨.region, u.rights, s.nextRegionId⟩ ∧ (t.regionIndex s.nextRegionId).isSome = true := by
  set f := snapshot A frame UserFrame.ZERO with hf
  have hserv : service A C s.current f = sysMakeRegion A s.current f := by
    rw [service, hnum]
    rfl
  -- what the handler leaves, the tail keeps
  have hmake : wp (sysMakeRegion A s.current f) (fun out v => ∃ f', out = some f' ∧ (v = s ∨
      ∃ u n, capsMint (s.procs s.current).caps (A.frameArg f 0) = some u ∧
        makeRegion s.current (A.frameArg f 1) u.rights s = .ok (n, v))) (· = .grantedAtMint) s := by
    rw [sysMakeRegion, wp_bind, wp_get]
    cases hcap : capsMint (s.procs s.current).caps (A.frameArg f 0) with
    | none => exact ⟨_, rfl, Or.inl rfl⟩
    | some u =>
      refine wp_ite (fun _ => ?_) fun _ => ⟨_, rfl, Or.inl rfl⟩
      rw [wp_bind]
      exact wp_imp (makeRegion_spec s.current (A.frameArg f 1) u.rights s)
        (fun n v hn _ => ⟨_, rfl, Or.inr ⟨u, n, rfl, hn⟩⟩) fun _ => id
  have htrap : wp (syscallTrap A C frame) (fun _ t => ∃ v, (v = s ∨
      ∃ u n, capsMint (s.procs s.current).caps (A.frameArg f 0) = some u ∧
        makeRegion s.current (A.frameArg f 1) u.rights s = .ok (n, v)) ∧
      (∀ p, (t.procs p).authority = (v.procs p).authority) ∧ t.regions = v.regions) (· = .grantedAtMint) s := by
    rw [← hserv] at hmake
    refine wp_mono (wp_answered hmake) fun _ t ht => ?_
    obtain ⟨f', v, hv, rfl⟩ := ht
    obtain ⟨h1, h2⟩ := resumeProcess_keeps (A := A) v.current (v.modProc s.current fun p => { p with frame := f' })
    refine ⟨v, hv, fun p => (h1 p).trans ?_, h2⟩
    rw [KState.modProc_procs, Table.put_apply]
    split_ifs with hp
    · rw [hp]; rfl
    · rfl
  obtain ⟨v, hv, hauth, hregs⟩ := wp_ok htrap hrun
  have hcv := Shrinks.of_authority hauth p c hc
  rcases hv with rfl | ⟨u, n, hu, hn⟩
  · exact Or.inl hcv
  · refine (holds_makeRegion hn hcv).imp_right fun hnew => ?_
    obtain ⟨hceq, hlive⟩ := hnew
    refine ⟨u, hu, hceq, ?_⟩
    rwa [KState.regionIndex, hregs]

/-- region capabilities after one input -/
theorem Step.holds_region (hgr : ∀ b, Granted A C b → b.capType ≠ .region) (hr : Ready s) {i : Input}
    (hstep : Step A C s i t) {p : ℕ} {c : Capabilities.CapSlot} (hc : t.Holds p c) (hreg : c.capType = .region) :
    (∃ q b, s.Holds q b ∧ Confers b c) ∨ ∃ u, u.rights = c.rights ∧ Minted A C [(s, i)] c.object u := by
  have hm := (hstep.moves (G := Gate.all) hr (Gate.admits_all _ _ _)).1
  rcases hm.holds_region hgr hc hreg with hold | ⟨f, hk, hnum⟩
  · exact Or.inl hold
  · cases i with
    | syscall frame =>
      obtain rfl : snapshot A frame UserFrame.ZERO = f := by injection hk
      rcases syscallTrap_make hnum hstep.2 hc with hold | ⟨u, hu, rfl, hlive⟩
      · exact Or.inl ⟨p, c, hold, .refl c⟩
      · refine Or.inr ⟨u, rfl, s, frame, t, List.mem_singleton_self _, hstep.2, hnum, hu, ?_, hlive⟩
        -- identities given out before are smaller
        rw [← Option.not_isSome_iff_eq_none]
        intro hsome
        obtain ⟨j, hj, hl, hid⟩ := regionIndex_isSome.1 hsome
        exact absurd hid (hr.ids.below j hj hl).ne
    | timer | device | fault | store => exact absurd hk (by simp [Input.trap])

/-- what is presented as a mint source is an `Untyped` -/
theorem capsMint_untyped {caps : Caps} {cap : ℕ} {u : Capabilities.CapSlot} (h : capsMint caps cap = some u) :
    u.capType = .untyped := by
  rw [capsMint] at h
  cases hl : caps.lookup cap with
  | none => simp [hl] at h
  | some x =>
    rw [hl] at h
    simp only at h
    split_ifs at h with hc
    · obtain rfl := Option.some.inj h
      simpa [isMintSource] using hc.1

/-- a region capability names a live region, and carries rights of the mint source that region was created from -/
def Grounded (A : Arch) (C : Config) (past : List (KState × Input)) (s : KState) : Prop :=
  ∀ p c, s.Holds p c → c.capType = .region →
    (s.regionIndex c.object).isSome = true ∧
    ∃ u, u.capType = .untyped ∧ u.rights.contains c.rights = true ∧ Minted A C past c.object u

/-- ledger and capability spaces agree, and nobody has more than the boot gave out -/
structure Coherent (A : Arch) (C : Config) (past : List (KState × Input)) (s : KState) : Prop where
  /-- both ends of an edge are capabilities live processes have, and the child's confers nothing the parent's does not -/
  edges : ∀ i < MAX_DELEGATIONS, (s.ledger.edges i).live = true →
    (s.ledger.edges i).parent.proc < MAX_PROCS ∧ (s.ledger.edges i).child.proc < MAX_PROCS ∧
    ∃ b c, s.capOf (s.ledger.edges i).parent = some b ∧ s.capOf (s.ledger.edges i).child = some c ∧ Confers b c
  /-- no capability is delegated twice, and no chain of delegations comes back -/
  forest : s.ledger.IsForest
  bounded : Bounded A C s
  grounded : Grounded A C past s

theorem Reachable.bounded {s₀ : KState} (h₀ : PreUserland A C s₀) (h : Reachable A C s₀ s) : Bounded A C s := by
  refine Reachable.keep h₀ (fun p c hc => ?_) (fun hm hb => hb.move hm) h
  have hl := hc.1.2
  rw [KState.live, h₀.noProcs] at hl
  exact absurd hl (by decide)

theorem Trace.grounded {s₀ : KState} {past : List (KState × Input)} (h₀ : PreUserland A C s₀)
    (hgr : ∀ b, Granted A C b → b.capType ≠ .region) (h : Trace A C s₀ past s) : Grounded A C past s := by
  have hnone : ∀ p c, ¬s₀.Holds p c := fun p c hc => by
    have hl := hc.1.2
    rw [KState.live, h₀.noProcs] at hl
    exact absurd hl (by decide)
  have hlive : NamesLive s := Reachable.keep h₀ (fun p c hc => absurd hc (hnone p c)) (fun hm hn => hn.move hgr hm) h.reachable
  refine fun p c hc hreg => ⟨hlive p c hc hreg, ?_⟩
  clear hlive
  induction h generalizing p c with
  | boot hboot =>
    -- the boot makes no region
    have hm := (wp_ok (boot_moves (G := Gate.all) (k := .fresh UserFrame.ZERO) h₀) hboot).1
    rcases hm.holds_region hgr hc hreg with ⟨q, b, hq, -⟩ | ⟨f, hk, -⟩
    · exact absurd hq (hnone q b)
    · exact absurd hk (by simp)
  | step h hstep ih =>
    rcases hstep.holds_region hgr (h.reachable.ready h₀) hc hreg with ⟨q, b, hq, hw⟩ | ⟨u, hu, hm⟩
    · obtain ⟨u, hty, hr, hmint⟩ := ih q b hq (hw.1.symm.trans hreg)
      rw [← hw.2.1] at hmint
      exact ⟨u, hty, CapRights.contains_trans hr hw.2.2, hmint.later _⟩
    · obtain ⟨s', frame, t, hmem, h1, h2, h3, h4⟩ := hm
      refine ⟨u, ?_, by rw [hu]; exact CapRights.contains_refl _, s', frame, t, List.mem_append_right _ hmem, h1, h2, h3, h4⟩
      exact capsMint_untyped h3

/-- **Ledger and capability spaces stay coherent, and authority never grows**: in every state of every run each edge joins
two capabilities of live processes, edges form a forest, what is not a region capability is within a grant of the boot,
and a region capability names a live region and is within the mint source that region was created from. -/
theorem authority_bounded {s₀ : KState} {past : List (KState × Input)} (h₀ : PreUserland A C s₀)
    (hgrants : ∀ role, ∀ g ∈ grantsFor C role, g.1 ≠ .region) (h : Trace A C s₀ past s) : Coherent A C past s := by
  have hl := h.reachable.lineage h₀
  have hslots := (h.reachable.ready h₀).sched.slots
  refine ⟨fun i hi hlive => ?_, Deleg.Ledger.Forest.isForest hl, h.reachable.bounded h₀,
    h.grounded h₀ fun b hb => granted_not_region hgrants hb⟩
  obtain ⟨b, c, hb, hc, h1, h2, h3⟩ := Deleg.Ledger.Forest.edge hl i hi hlive
  exact ⟨hslots _ (capOf_some hb).1, hslots _ (capOf_some hc).1, b, c, hb, hc, h1, h2, h3⟩

/-- the worker that has lent its memory capability makes a region -/
def lentRegion : KState := fedTo oneUnitConfig workerLent (.syscall (callFrame sysno.MAKE_REGION 2 1))

/-- with the grants of this kernel, none of which is a region; there is an edge, and a region capability -/
theorem lentRegion_coherent : (∃ past, Trace X86 oneUnitConfig oneUnitState past lentRegion ∧
      Coherent X86 oneUnitConfig past lentRegion) ∧
    (∃ i < MAX_DELEGATIONS, lentRegion.ledger.edges i = ⟨lentRegion.endpointAt 2 2, lentRegion.endpointAt 0 0, true⟩) ∧
    ((lentRegion.procs 2).caps.lookup 13).map (·.capType) = some .region := by
  have hreach : Reachable X86 oneUnitConfig oneUnitState lentRegion := workerLent_reachable.called (by decide +kernel)
  obtain ⟨past, htrace⟩ := hreach.trace
  exact ⟨⟨past, htrace, authority_bounded oneUnitConfig_ready (roleGrants_apart rfl) htrace⟩,
    by decide +kernel, by decide +kernel⟩

end Rustproof.Kernel
