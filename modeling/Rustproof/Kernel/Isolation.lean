/-
Memory isolation.

Every move keeps the spaces of all processes in order (`Spaced.move`): what a mapping path adds is backed by the
capability it was asked with, a revocation takes away every leaf that rested on a capability it strips, and a region's
frames go back only when nobody maps them.
- `spaces_apart`: in every reachable state, what a user-accessible leaf may map, and that no frame is listed twice, if the page
  `DEVICE_BAR` names is none of memory's.
- `window_in_memory`: it may be one, the upper half of the device's BAR being dropped, and then a process reaches another's page
  table as its device.
-/
import Rustproof.Kernel.DeviceWindow
import Rustproof.Kernel.Spaces

namespace Rustproof.Kernel

open Lib Prog Mm Vspace

variable {A : Arch} {C : Config} {G : Gate} {me : ℕ} {k : Trap} {s t : KState} {F : Multiset ℕ} {m₀ : Mem} {p : ℕ}

/-! ## Capabilities presented -/

theorem capNamed_some {caps : Caps} {ty : CapType} {cap : ℕ} {needed : CapRights} {c : Capabilities.CapSlot}
    (h : capNamed caps ty cap needed = some c) :
    caps.lookup cap = some c ∧ c.capType = ty ∧ c.rights.contains needed = true := by
  rw [capNamed] at h
  cases hl : caps.lookup cap with
  | none => rw [hl] at h; simp at h
  | some x =>
    rw [hl] at h
    simp only at h
    split_ifs at h with hc
    obtain rfl := Option.some.inj h
    exact ⟨rfl, hc⟩

/-- a presented region capability allows its own rights -/
theorem allows_region {caps : Caps} {cap id : ℕ} {rights : CapRights} (h : capsRegion caps cap CapRights.READ = some (id, rights))
    {w : Bool} (hw : w = true → rights.contains CapRights.WRITE = true) : Allows caps .region id w := by
  rw [capsRegion] at h
  obtain ⟨c, hc, he⟩ := Option.map_eq_some_iff.1 h
  obtain ⟨rfl, rfl⟩ := Prod.mk.inj he
  obtain ⟨h1, h2, h3⟩ := capNamed_some hc
  exact ⟨cap, c, h1, h2, rfl, h3, hw⟩

theorem allows_mmio {caps : Caps} {cap : ℕ} {c : Capabilities.CapSlot} (h : capNamed caps .mmio cap CapRights.READ = some c)
    {w : Bool} (hw : w = true → c.rights.contains CapRights.WRITE = true) : Allows caps .mmio c.object w := by
  obtain ⟨h1, h2, h3⟩ := capNamed_some h
  exact ⟨cap, c, h1, h2, rfl, h3, hw⟩

/-! ## Mappings -/

theorem absent_of_unmaps {S : Set ℕ} (hT : A.Tree s.w.mem (A.root (s.procs p).token)) (hu : Unmaps A p S s t) :
    Absent A t.w.mem (A.root (s.procs p).token) S := (hu.mem hT).gone

namespace Spaced

/-- **`MAP_REGION`**: the pages of one share slot show the region, as far as the capability allows. -/
theorem mapRegion (h : Spaced A C m₀ s) (hg : Ground A C F m₀) (ha : Accounted F s) (hp : s.Alive p) {cap id : ℕ}
    {rights : CapRights} (hcap : capsRegion (s.procs p).caps cap CapRights.READ = some (id, rights)) :
    Spaced A C m₀ (mapRegion A p id rights s).2 := by
  rw [Kernel.mapRegion]
  cases hslot : s.regionSlot id with
  | none => exact h
  | some idx =>
    simp only
    cases hfind : (firstIdx SHARE_SLOTS fun i => (s.procs p).shares i == id).or
        (firstIdx SHARE_SLOTS fun i => (s.procs p).shares i == 0) with
    | none => exact h
    | some slot =>
      simp only
      have hlt : slot < SHARE_SLOTS := by
        rcases Option.or_eq_some_iff.1 hfind with hf | ⟨-, hf⟩
        · exact (firstIdx_some hf).1
        · exact (firstIdx_some hf).1
      obtain ⟨-, hidx, -, -⟩ := regionSlot_some hslot
      have hun := unmaps_sharePages A s p hlt
      have hu := h.unmaps hg ha hp hun
      have hau := ha.unmaps hun
      have habs : Absent A (s.unmapPages A p (shareVa A slot) REGION_MAX_PAGES).w.mem (A.root (s.procs p).token)
          (sharePages A slot) := absent_of_unmaps (h.at_ p hp).tree hun
      set u := s.unmapPages A p (shareVa A slot) REGION_MAX_PAGES
      have hpu : u.Alive p := hp
      set perms := if rights.contains CapRights.WRITE then Perms.USER_RW else Perms.USER_RO with hperms
      have hwrite : perms.write = true → rights.contains CapRights.WRITE = true := by
        rw [hperms]
        split_ifs with hw
        · exact fun _ => hw
        · exact fun hc => absurd hc (by decide)
      have hfs : ∀ f ∈ (u.regions idx).frames, f < 2 ^ 52 := fun f hf => (hau.out (Accounted.region_held hidx hf)).2.2.2
      obtain ⟨hgrown, hrest, hres⟩ := mapShare_spec (P := supply A F (heldBut u p)) hlt hfs (hau.small idx)
        List.drop_zero (hu.built hau hpu) (habs.shows hlt _ perms.write)
        fun k _ hk => habs _ (sharePage_own A hlt hk) ⟨k, hk, rfl⟩
      rcases hm : mapShare A (A.root (u.procs p).token) (shareVa A slot) perms (u.regions idx).frames 0 (u.allocFor p) with
        ⟨_ | _, r⟩
      · -- nothing is mapped in the slot
        rw [hm] at hgrown hrest hres
        rw [if_neg Bool.false_ne_true] at hres
        set v := (u.afterAlloc p r).activateIfCurrent p
        have hprocs : v.procs = u.procs.put p { u.procs p with frames := r.frames, shares := (u.procs p).shares } := rfl
        refine grow hau hpu hgrown.toWithin rfl hu hg hprocs rfl fun x hx hpres => Or.inl ?_
        have hleaf : v.leaf A p x = A.leaf r.w.mem (A.root (u.procs p).token) x := by
          rw [KState.leaf, hprocs, Table.put_self]; rfl
        have hout : x ∉ sharePages A slot := fun hs => by
          rw [hleaf, hres x hx hs] at hpres
          exact absurd hpres (by decide)
        exact ⟨hleaf.trans (hrest x hx hout), fun _ _ => rfl⟩
      · rw [hm] at hgrown hrest hres
        rw [if_pos rfl] at hres
        set v := ((u.afterAlloc p r).modProc p fun q => { q with shares := q.shares.put slot id }).activateIfCurrent p
        have hprocs : v.procs =
            u.procs.put p { u.procs p with frames := r.frames, shares := (u.procs p).shares.put slot id } := by
          funext q
          simp only [v, KState.activateIfCurrent_procs, KState.modProc_procs, KState.afterAlloc, Table.put_apply, if_true]
          split_ifs <;> rfl
        have hproc : v.procs p = { u.procs p with frames := r.frames, shares := (u.procs p).shares.put slot id } := by
          rw [hprocs, Table.put_self]
        refine grow hau hpu hgrown.toWithin rfl hu hg hprocs rfl fun x hx hpres => ?_
        have hleaf : v.leaf A p x = A.leaf r.w.mem (A.root (u.procs p).token) x := by
          rw [KState.leaf, hproc]; rfl
        by_cases hs : x ∈ sharePages A slot
        · obtain ⟨j, hj, rfl⟩ := hs
          rw [hleaf] at hpres
          obtain ⟨frame, hget, haddr, hwr⟩ := hres j hj hpres
          have hshares : (v.procs p).shares slot = id := by rw [hproc]; exact Table.put_self _ _ _
          refine Or.inr (.share hlt hj rfl (i := idx) (by rw [hshares]; exact hslot) (by rw [hleaf, haddr]; exact hget) ?_)
          rw [hleaf, hshares, hproc]
          exact allows_region hcap fun hwt => hwrite (hwr hwt)
        · refine Or.inl ⟨hleaf.trans (hrest x hx hs), fun slot' hs' => ?_⟩
          exact Table.put_of_ne _ (fun hsl : slot' = slot => hs (hsl ▸ hs')) _

/-- **`MAP_BAR`**: the device window shows the page the capability is for. -/
theorem mapDevice (h : Spaced A C m₀ s) (hg : Ground A C F m₀) (ha : Accounted F s) (hp : s.Alive p) {cap : ℕ}
    {c : Capabilities.CapSlot} (hcap : capNamed (s.procs p).caps .mmio cap CapRights.READ = some c) :
    Spaced A C m₀ (mapDevice A C p c.object DEVICE_PAGES (c.rights.contains CapRights.WRITE) s).2 := by
  rw [Kernel.mapDevice]
  split_ifs with hrefused
  · exact h
  have hdev : Admitted A C c.object := not_not.1 (not_or.1 hrefused).1
  have hphys := hdev.lt hg
  have hun := unmaps_unmapPages_device (A := A) s p
  have hu := h.unmaps hg ha hp hun
  have hau := ha.unmaps hun
  have habs : Absent A (s.unmapPages A p A.userMmioBase DEVICE_PAGES).w.mem (A.root (s.procs p).token) {devicePage A} :=
    absent_of_unmaps (h.at_ p hp).tree hun
  simp only
  set u := s.unmapPages A p A.userMmioBase DEVICE_PAGES
  have hpu : u.Alive p := hp
  have hspec : Grown (supply A F (heldBut u p)) (A.root (u.procs p).token) (u.allocFor p)
      (mapWindow A (A.root (u.procs p).token) c.object ⟨c.rights.contains CapRights.WRITE, false, true, isDevice A C c.object⟩
        (List.range DEVICE_PAGES) (u.allocFor p)).2 ∧ _ := mapWindow_spec hphys (hu.built hau hpu)
  obtain ⟨hgrown, hrest, hres⟩ := hspec
  -- whatever the loop answers, the state differs in the machine and in the frames of `p` only
  suffices key : ∀ (r : RecordingAlloc) (v : KState), (mapWindow A (A.root (u.procs p).token) c.object
      ⟨c.rights.contains CapRights.WRITE, false, true, isDevice A C c.object⟩ (List.range DEVICE_PAGES) (u.allocFor p)).2 = r →
      v.procs = u.procs.put p { u.procs p with frames := r.frames, shares := (u.procs p).shares } → v.w.mem = r.w.mem →
      v.regions = u.regions → Spaced A C m₀ v by
    rcases hm : mapWindow A (A.root (u.procs p).token) c.object
      ⟨c.rights.contains CapRights.WRITE, false, true, isDevice A C c.object⟩ (List.range DEVICE_PAGES) (u.allocFor p) with
      ⟨_ | _, r⟩
    · exact key r _ (by rw [hm]) rfl rfl rfl
    · exact key r _ (by rw [hm]) rfl rfl rfl
  intro r v hr hprocs hmem hregs
  simp only [hr] at hgrown hrest hres
  have hproc := congrFun hprocs p
  rw [Table.put_self] at hproc
  refine grow hau hpu hgrown.toWithin hmem hu hg hprocs hregs fun x hx hpres => ?_
  have hleaf : v.leaf A p x = A.leaf v.w.mem (A.root (u.procs p).token) x := by rw [KState.leaf, hproc]
  rw [hmem] at hleaf
  by_cases hd : x = devicePage A
  · subst hd
    rcases hres with hold | ⟨haddr, hal, hwr⟩
    · -- the window was cleared
      have hgone : A.fmt.present (A.leaf u.w.mem (A.root (u.procs p).token) (devicePage A)) = false := habs _ hx rfl
      rw [hleaf] at hpres
      exact absurd (hpres.symm.trans ((congrArg A.fmt.present hold).trans hgone)) (by decide)
    · refine Or.inr (.device rfl (by rw [hleaf, haddr]; exact hdev) (by rw [hleaf, haddr]; exact hal) ?_)
      rw [hleaf, haddr, hproc]
      exact allows_mmio hcap hwr
  · exact Or.inl ⟨hleaf.trans (hrest x hx hd), fun _ _ => rfl⟩

end Spaced

/-! ## Regions that come and go -/

/-- a live region is found where it was, if no other took its identity -/
theorem regionSlot_keep {id i : ℕ} (h : s.regionSlot id = some i) (hi : t.regions i = s.regions i)
    (hother : ∀ j, (t.regions j).live = true → (t.regions j).id = id → (s.regions j).live = true ∧ (s.regions j).id = id) :
    t.regionSlot id = some i := by
  obtain ⟨h0, hlt, hl, hid⟩ := regionSlot_some h
  rw [KState.regionSlot, if_neg h0] at h ⊢
  obtain ⟨-, -, hmin⟩ := firstIdx_some h
  refine firstIdx_eq hlt (by simp [hi, hl, hid]) fun j hj => ?_
  have := hmin j hj
  simp only [Bool.and_eq_false_iff, beq_eq_false_iff_ne] at this ⊢
  by_contra hc
  rw [not_or, not_not, Bool.not_eq_false] at hc
  obtain ⟨h1, h2⟩ := hother j hc.1 hc.2
  rcases this with h | h
  · exact absurd (h1.symm.trans h) (by decide)
  · exact h h2

/-- `forgetCaps` takes the capabilities for the region and no others -/
theorem forgetCaps_keep {region i : ℕ} {x : Capabilities.CapSlot} (hx : ¬Names region x)
    (h : (s.procs p).caps.lookup i = some x) : ((forgetCaps region s).procs p).caps.lookup i = some x := by
  have hstep : ∀ q c (u : KState), (u.procs p).caps.lookup i = some x →
      ((forgetCap region q u c).procs p).caps.lookup i = some x := by
    intro q c u hu
    rw [forgetCap]
    split_ifs with hc
    · show ((u.procs.put q { u.procs q with caps := (u.procs q).caps.revoke c }) p).caps.lookup i = some x
      rw [Table.put_apply]
      split_ifs with hq
      · subst hq
        rw [Capabilities.CapSpace.lookup_revoke, if_neg]
        · exact hu
        · rintro rfl
          rw [hu] at hc
          simp only [Option.elim_some, Bool.and_eq_true, beq_iff_eq] at hc
          exact hx hc
      · exact hu
    · exact hu
  rw [forgetCaps]
  refine List.foldlRecOn (motive := fun u : KState => (u.procs p).caps.lookup i = some x) _ _ h fun u hu q _ => ?_
  split_ifs
  · exact List.foldlRecOn (motive := fun u : KState => (u.procs p).caps.lookup i = some x) _ _ hu fun w hw c _ => hstep q c w hw
  · exact hu

theorem allows_forgetCaps {region o : ℕ} {ty : CapType} {w : Bool} (hne : ty = .region → o ≠ region)
    (h : Allows (s.procs p).caps ty o w) : Allows ((forgetCaps region s).procs p).caps ty o w := by
  obtain ⟨i, c, hl, hty, ho, hr⟩ := h
  exact ⟨i, c, forgetCaps_keep (fun hn => hne (hty ▸ hn.1) (ho ▸ hn.2)) hl, hty, ho, hr⟩

namespace Spaced

/-- **A region ends** when nobody maps it any more. -/
theorem retire (h : Spaced A C m₀ s) (hg : Ground A C F m₀) (ha : Accounted F s) {region i : ℕ}
    (hsl : s.regionSlot region = some i)
    (hnone : ∀ p, s.Alive p → ∀ slot < SHARE_SLOTS, (s.procs p).shares slot ≠ region)
    (hrun : releaseRegion A C region (forgetCaps region s) = .ok ((), t)) : Spaced A C m₀ t := by
  have hcaps := capsOnly_forgetCaps region s
  have hproc : ∀ p, ((forgetCaps region s).procs p).token = (s.procs p).token ∧
      ((forgetCaps region s).procs p).frames = (s.procs p).frames ∧
      ((forgetCaps region s).procs p).shares = (s.procs p).shares ∧ (forgetCaps region s).live p = s.live p := fun p => by
    obtain ⟨c, hc⟩ := hcaps.proc p
    rw [KState.live, hc]
    exact ⟨rfl, rfl, rfl, rfl⟩
  have h1 : Spaced A C m₀ (forgetCaps region s) := by
    refine ⟨fun p hp => ?_, fun a hx => ?_⟩
    · obtain ⟨htok, hfr, hsh, hlive⟩ := hproc p
      have hp' : s.Alive p := ⟨hp.1, hlive ▸ hp.2⟩
      refine (h.at_ p hp').same htok hfr (fun a _ => by rw [hcaps.w]) (fun slot hs j hj => ?_) fun _ o w hw => ?_
      · refine ⟨congrFun hsh slot, ?_, by rw [hcaps.regions], fun w hw => ?_⟩
        · rw [regionSlot_congr hcaps.regions]
          exact hj
        · exact allows_forgetCaps (fun _ => hnone p hp' slot hs) hw
      · exact allows_forgetCaps (fun hc => absurd hc (by decide)) hw
    · rw [hcaps.w]
      exact h.kernel a hx
  have hsl' : (forgetCaps region s).regionSlot region = some i := by
    rw [regionSlot_congr hcaps.regions]; exact hsl
  obtain ⟨u, hdma, -, rfl⟩ := wp_ok (releaseRegion_spec (A := A) (C := C) hsl') hrun
  have hu := h1.dma hg (ha.caps hcaps.proc (by rw [hcaps.w]) hcaps.regions) hdma
  have hregs : u.regions = s.regions := hdma.regions.trans hcaps.regions
  obtain ⟨-, -, -, hid⟩ := regionSlot_some hsl
  have hmem : (freeRegion i u).w.mem = u.w.mem := Machine.mem_freeFrames _ _
  refine ⟨fun p hp => ?_, fun a hx => ?_⟩
  case refine_2 =>
    rw [hmem]
    exact hu.kernel a hx
  have hpu : u.Alive p := hp
  refine (hu.at_ p hpu).same rfl rfl (fun a _ => by rw [hmem]) (fun slot hs j hj => ?_) fun _ _ _ hw => hw
  -- the slot holds another region
  have hshares : (u.procs p).shares slot ≠ region := by
    have hlive : s.live p = true := by
      rw [← (hproc p).2.2.2]
      exact (Process.live_eq (hdma.authority p)).symm.trans hpu.2
    rw [Process.shares_eq (hdma.space p), (hproc p).2.2.1]
    exact hnone p ⟨hpu.1, hlive⟩ slot hs
  have hji : j ≠ i := fun e => by
    obtain ⟨-, -, -, hj'⟩ := regionSlot_some hj
    rw [hregs, e, hid] at hj'
    exact hshares hj'.symm
  have hkeep : (freeRegion i u).regions j = u.regions j := Table.put_of_ne _ hji _
  refine ⟨rfl, regionSlot_keep hj hkeep fun l hl hlid => ?_, by rw [hkeep], fun _ hw => hw⟩
  have hput : (freeRegion i u).regions l = if l = i then Region.EMPTY else u.regions l := Table.put_apply _ _ _ _
  rw [hput] at hl hlid
  split_ifs at hl hlid
  · exact absurd hl (by decide)
  · exact ⟨hl, hlid⟩

end Spaced

/-- frames from the arena are scrubbed, and they were free -/
theorem takeDmaFrames_off (n : ℕ) (got : List ℕ) {H : Multiset ℕ} {w : Machine} (h : Account F w.fa (got + H)) {a : ℕ}
    (hx : a ∉ freeAddrs w.fa) : (takeDmaFrames n got w).2.mem a = w.mem a := by
  induction n generalizing got w with
  | zero => rfl
  | succ n ih =>
    rw [takeDmaFrames]
    rcases hal : w.fa.allocDmaFrame with ⟨_ | frame, fa⟩
    · exact congrFun (Machine.mem_freeFrames _ _) a
    · obtain ⟨hfree, hsome⟩ := h.allocDmaFrame (p := frame) (by rw [hal])
      rw [hal] at hsome
      have hgot : Account F fa ((got ++ [frame] : List ℕ) + H) := hsome.enlist
      have hne : a ≠ frame := fun e => hx (e ▸ hfree)
      have hxfa : a ∉ freeAddrs fa := fun hc => hx (h.free_taken hsome hc)
      set u := ({ w.handOut with fa := fa } : Machine).zeroFrame frame
      have hu : u.mem a = w.mem a := RadixTree.Store.fill_of_ne _ hne 0
      have hfa : u.fa = fa := rfl
      rw [← hfa] at hgot hxfa
      exact (ih (got ++ [frame]) hgot hxfa).trans hu

/-- a step that changes the machine and the capabilities of processes, and leaves their spaces alone -/
theorem Spaced.machine (h : Spaced A C m₀ s) (hg : Ground A C F m₀) (ha : Accounted F s) {w : Machine}
    (hoff : ∀ a, a ∉ freeAddrs s.w.fa → w.mem a = s.w.mem a) : Spaced A C m₀ { s with w := w } := by
  have hmem : ∀ a ∈ Fixed A C m₀ s, w.mem a = s.w.mem a := fun a hx => hoff a (h.fixed_apart hg ha hx).1
  refine ⟨fun p hp => ?_, fun a hx => (hmem a (Or.inl hx)).trans (h.kernel a hx)⟩
  have hp' : s.Alive p := hp
  exact (h.at_ p hp').calm rfl rfl rfl fun a hx => hmem a (Or.inr ⟨p, hp', hx⟩)

theorem Spaced.make (h : Spaced A C m₀ s) (hg : Ground A C F m₀) (ha : Accounted F s) (hids : RegionIds s) {pages v : ℕ}
    {rights : CapRights} (hrun : makeRegion p pages rights s = .ok (v, t)) : Spaced A C m₀ t := by
  have hnil : Account F s.w.fa (([] : List ℕ) + held s) := ha.account.congr (zero_add _).symm
  rcases wp_ok (makeRegion_spec p pages rights s) hrun with
    ⟨-, rfl | ⟨w, hw, rfl⟩ | ⟨frames, w, hw, rfl⟩⟩ | ⟨idx, frames, w, cap, caps, hidx, hw, hins, -, rfl⟩
  · exact h
  · refine h.machine hg ha fun a hx => ?_
    rw [← takeDmaFrames_off pages [] hnil hx, hw]
  · refine h.machine hg ha fun a hx => ?_
    rw [Machine.mem_freeFrames, ← takeDmaFrames_off pages [] hnil hx, hw]
  have h1 : Spaced A C m₀ { s with w := w } := h.machine hg ha fun a hx => by
    rw [← takeDmaFrames_off pages [] hnil hx, hw]
  obtain ⟨-, -, hnone, -, -, -, hold⟩ := Capabilities.CapSpace.insert_some hins
  obtain ⟨-, hdead, -⟩ := firstIdx_some hidx
  refine ⟨fun q hq => ?_, h1.kernel⟩
  set u : KState := { s with w := w }
  -- the same process, but for the capability added to `p`
  have hq' : u.Alive q ∧ ∃ cs, (({ s.modProc p (fun q => { q with caps := caps }) with
        w := w
        nextRegionId := s.nextRegionId + 1
        regions := s.regions.put idx ⟨true, s.nextRegionId, (s.procs p).id, frames⟩ } : KState).record
          (.minted p cap s.nextRegionId rights)).procs q = { s.procs q with caps := cs } ∧
      ∀ j x, (s.procs q).caps.lookup j = some x → cs.lookup j = some x := by
    obtain ⟨hlt, hl⟩ := hq
    simp only [KState.live, KState.record_procs, KState.modProc_procs, Table.put_apply] at hl ⊢
    split_ifs at hl ⊢ with hqp
    · subst hqp
      refine ⟨⟨hlt, hl⟩, caps, rfl, fun j x hx => ?_⟩
      rw [hold j fun e => ?_]
      · exact hx
      · rw [e, hnone] at hx
        exact absurd hx (by simp)
    · exact ⟨⟨hlt, hl⟩, (s.procs q).caps, rfl, fun _ _ hx => hx⟩
  obtain ⟨halive, cs, hproc, hkeep⟩ := hq'
  have hall : ∀ ty o w, Allows (s.procs q).caps ty o w → Allows cs ty o w := by
    intro ty o w hw
    obtain ⟨j, x, hx, hr⟩ := hw
    exact ⟨j, x, hkeep j x hx, hr⟩
  refine (h1.at_ q halive).same (by rw [hproc]) (by rw [hproc]) (fun _ _ => rfl) (fun slot hs j hj => ?_) fun _ o w hw => ?_
  · obtain ⟨-, hjlt, hjl, hjid⟩ := regionSlot_some hj
    have hjne : j ≠ idx := fun e => by
      rw [e] at hjl
      exact absurd (show (s.regions idx).live = true from hjl) (by simpa using hdead)
    refine ⟨by rw [hproc], regionSlot_keep hj (Table.put_of_ne _ hjne _) fun l hl hlid => ?_, ?_, fun w hw => ?_⟩
    · have hput : ∀ r, (Table.put s.regions idx r) l = if l = idx then r else s.regions l := fun r => Table.put_apply _ _ _ _
      simp only [KState.record_regions, hput] at hl hlid
      split_ifs at hl hlid
      · -- its identity is new
        have := hids.below j hjlt hjl
        rw [show (s.regions j).id = (u.regions j).id from rfl, hjid] at this
        exact absurd hlid (by simpa using this.ne')
      · exact ⟨hl, hlid⟩
    · exact congrArg Region.frames (Table.put_of_ne _ hjne _)
    · rw [hproc]
      exact hall _ _ _ hw
  · rw [hproc]
    exact hall _ _ _ hw

/-! ## Capabilities taken away -/

/-- unmapping asks for no capability -/
theorem Unmaps.restore {S : Set ℕ} {caps : Caps} (h : Unmaps A p S (s.modProc p fun q => { q with caps := caps }) t) :
    Unmaps A p S s (t.modProc p fun q => { q with caps := (s.procs p).caps }) := by
  obtain ⟨⟨sh, hp, hsh⟩, hfa, hho, hregs, hcur, hcr3, hmem⟩ := h
  simp only [KState.modProc_procs, Table.put_self] at hp hsh hcr3 hmem
  refine ⟨⟨sh, ?_, hsh⟩, hfa, hho, hregs, hcur, hcr3, hmem⟩
  rw [KState.modProc_procs, hp]
  funext q
  simp only [Table.put_apply]
  split_ifs <;> rfl

/-- a holder left with a capability of the same kind did not hold it through the sole one that is taken -/
theorem allows_revoke {d : Deleg.Endpoint} {ty : CapType} {o : ℕ} {w : Bool} (hsole : SoleAt s d)
    (hlive : s.live d.proc = true) (hid : (s.procs d.proc).id = d.id)
    (hother : ∃ j b, ((s.procs d.proc).caps.revoke d.cap).lookup j = some b ∧
      (b.capType = .region → ty = .region ∧ b.object = o))
    (hw : Allows (s.procs d.proc).caps ty o w) : Allows ((s.procs d.proc).caps.revoke d.cap) ty o w := by
  obtain ⟨i, c, hl, hty, ho, hr⟩ := hw
  by_cases hi : i = d.cap
  · exfalso
    have hcap : s.capOf d = some c := by
      rw [KState.capOf, if_pos ⟨hlive, hid⟩, ← hi]
      exact hl
    obtain ⟨j, b, hb, hkind⟩ := hother
    rw [Capabilities.CapSpace.lookup_revoke] at hb
    split_ifs at hb with hj
    obtain ⟨hreg, hne⟩ := hsole c hcap j hj b hb
    obtain ⟨hty', ho'⟩ := hkind hreg
    exact hne (hty.trans hty') (ho'.trans ho.symm)
  · refine ⟨i, c, ?_, hty, ho, hr⟩
    rw [Capabilities.CapSpace.lookup_revoke, if_neg hi]
    exact hl

namespace Spaced

/-- once the windows that rested on a capability are gone, so may it be -/
theorem stripped (h : Spaced A C m₀ s) (hg : Ground A C F m₀) (ha : Accounted F s) {d : Deleg.Endpoint} (hsole : SoleAt s d)
    (hp : s.Alive d.proc) (hid : (s.procs d.proc).id = d.id) {S : Set ℕ}
    (hS : Unmaps A d.proc S (s.modProc d.proc fun p => { p with caps := p.caps.revoke d.cap }) t)
    (hwindow : capsHoldMmio ((s.procs d.proc).caps.revoke d.cap) = false → devicePage A ∈ S)
    (hshares : ∀ k < SHARE_SLOTS, (t.procs d.proc).shares k ≠ 0 →
      capsHoldRegion ((s.procs d.proc).caps.revoke d.cap) ((t.procs d.proc).shares k) CapRights.READ = true) :
    Spaced A C m₀ t := by
  have hcaps : (t.procs d.proc).caps = (s.procs d.proc).caps.revoke d.cap := by
    rw [Process.caps_eq (hS.authority d.proc), KState.modProc_procs, Table.put_self]
  -- the space with the capability put back
  have hS' : Unmaps A d.proc S s (t.modProc d.proc fun q => { q with caps := (s.procs d.proc).caps }) := hS.restore
  have hu : Spaced A C m₀ (t.modProc d.proc fun q => { q with caps := (s.procs d.proc).caps }) := h.unmaps hg ha hp hS'
  generalize hdef : t.modProc d.proc (fun q => { q with caps := (s.procs d.proc).caps }) = u at hS' hu
  have hproc : u.procs d.proc = { t.procs d.proc with caps := (s.procs d.proc).caps } := by
    rw [← hdef, KState.modProc_procs, Table.put_self]
  have hother : ∀ q, q ≠ d.proc → t.procs q = u.procs q := fun q hq => by
    rw [← hdef, KState.modProc_procs, Table.put_of_ne _ hq]
  have hmem : t.w.mem = u.w.mem := by rw [← hdef]; rfl
  have hregs : t.regions = u.regions := by rw [← hdef]; rfl
  refine ⟨fun q hq => ?_, fun a hx => by rw [hmem]; exact hu.kernel a hx⟩
  by_cases hqd : q = d.proc
  · rw [hqd] at hq ⊢
    have hq' : u.Alive d.proc := ⟨hq.1, by rw [KState.live, hproc]; exact hq.2⟩
    refine (hu.at_ _ hq').same (by rw [hproc]) (by rw [hproc]) (fun a _ => by rw [hmem]) (fun slot hs i hi => ?_)
      fun hpres o w hw => ?_
    · have hsh : (t.procs d.proc).shares slot = (u.procs d.proc).shares slot := by rw [hproc]
      refine ⟨hsh, by rw [regionSlot_congr hregs]; exact hi, by rw [hregs], fun w hw => ?_⟩
      obtain ⟨h0, -⟩ := regionSlot_some hi
      rw [← hsh] at h0 hw ⊢
      obtain ⟨j, b, hb, hkind⟩ := holdsCap_iff.1 (hshares slot hs h0)
      obtain ⟨-, ho, -⟩ := forObject_iff.1 hkind
      rw [hproc] at hw
      rw [hcaps]
      exact allows_revoke hsole hp.2 hid ⟨j, b, hb, fun _ => ⟨rfl, ho⟩⟩ hw
    · -- the window is still there, so a device capability is
      rcases hmm : capsHoldMmio ((s.procs d.proc).caps.revoke d.cap) with _ | _
      · have hgone := absent_of_unmaps (h.at_ _ hp).tree hS' _ (devicePage_own A) (hwindow hmm)
        rw [KState.leaf, hS'.token, hgone] at hpres
        exact absurd hpres (by decide)
      · obtain ⟨j, b, hb, hkind⟩ := holdsCap_iff.1 hmm
        rw [Bool.and_eq_true, beq_iff_eq] at hkind
        rw [hproc] at hw
        rw [hcaps]
        exact allows_revoke hsole hp.2 hid ⟨j, b, hb, fun hc => absurd (hkind.1.symm.trans hc) (by decide)⟩ hw
  · have hq' : u.Alive q := ⟨hq.1, by rw [KState.live, ← hother q hqd]; exact hq.2⟩
    exact (hu.at_ q hq').calm (by rw [hother q hqd]) (by rw [hother q hqd]) hregs fun a _ => by rw [hmem]

/-- **One capability is taken away.** What is left mapped rests on another. -/
theorem strip (h : Spaced A C m₀ s) (hg : Ground A C F m₀) (ha : Accounted F s)
    (hslots : ∀ i, s.live i = true → i < MAX_PROCS) {d : Deleg.Endpoint} (hsole : SoleAt s d) :
    wp (strip A C d) (fun _ t => Spaced A C m₀ t) (· = .ringFull) s := by
  refine wp_mono (strip_parts d s) fun _ t ht => ?_
  rcases ht with rfl | ⟨hlive, hid, v, hv, rfl⟩
  · exact h
  obtain ⟨S, hS, hwindow, hshares, -⟩ :=
    unmaps_detach (A := A) (s.modProc d.proc fun p => { p with caps := p.caps.revoke d.cap }) d.proc
  rw [KState.modProc_procs, Table.put_self] at hwindow hshares
  have hau : Accounted F (s.modProc d.proc fun p => { p with caps := p.caps.revoke d.cap }) := by
    refine ha.caps (fun q => ?_) rfl rfl
    rw [KState.modProc_procs, Table.put_apply]
    split_ifs with hq
    · rw [hq]; exact ⟨_, rfl⟩
    · exact ⟨_, rfl⟩
  have hu := h.stripped hg ha hsole ⟨hslots _ hlive, hlive⟩ hid hS hwindow hshares
  have hq := quiet_settle (A := A) d.proc v
  exact (hu.dma hg (hau.unmaps hS) hv).calm hq.calm fun a _ => by rw [hq.mem]

theorem revoke (h : Spaced A C m₀ s) (hg : Ground A C F m₀) (ha : Accounted F s)
    (hslots : ∀ i, s.live i = true → i < MAX_PROCS) (hsole : Sole s) {cap : ℕ}
    (hrun : revokeDelegations A C me cap s = .ok ((), t)) : Spaced A C m₀ t := by
  let I : KState → Prop := fun u => Spaced A C m₀ u ∧ Accounted F u ∧ (∀ i, u.live i = true → i < MAX_PROCS) ∧
    ∀ d ∈ (s.ledger.revokeFrom (s.endpointAt me cap) MAX_DELEGATIONS).2, SoleAt u d
  have hstart : I { s with ledger := (s.ledger.revokeFrom (s.endpointAt me cap) MAX_DELEGATIONS).1 } := by
    refine ⟨h.calm ⟨fun _ => rfl, fun _ => rfl, rfl, rfl, rfl⟩ fun _ _ => rfl, ha.caps (fun q => ⟨_, rfl⟩) rfl rfl, hslots,
      fun d hd => ?_⟩
    obtain ⟨i, hi, hl, he⟩ := reached_child hd
    have := hsole i hi hl
    rw [he] at this
    exact (Fewer.of_authority fun _ => rfl).soleAt this
  have hstep : ∀ d ∈ (s.ledger.revokeFrom (s.endpointAt me cap) MAX_DELEGATIONS).2, ∀ u, I u →
      wp (Kernel.strip A C d) (fun _ => I) (· = .ringFull) u := by
    rintro d hd u ⟨hu, hau, hsl, hso⟩
    refine wp_imp (wp_and (hu.strip hg hau hsl (hso d hd)) (wp_and (hau.strip d) (fewer_strip d u))) ?_ fun _ he => he.1
    rintro _ v - ⟨h1, h2, h3⟩
    exact ⟨h1, h2, fun i hi => hsl i (h3.live i hi), fun e he => h3.soleAt (hso e he)⟩
  exact (wp_ok (wp_revoke hstart hstep) hrun).1

/-- a process goes, with its space -/
theorem reap (h : Spaced A C m₀ s) : Spaced A C m₀ (refusePeers A (reap me s)) := by
  have hmem : (Kernel.reap me s).w.mem = s.w.mem := Machine.mem_freeFrames _ _
  have hr : Spaced A C m₀ (Kernel.reap me s) := by
    refine ⟨fun q hq => ?_, fun a hx => by rw [hmem]; exact h.kernel a hx⟩
    have hne : q ≠ me := fun e => by
      have hl := hq.2
      rw [KState.live, procs_reap, e, Table.put_self] at hl
      exact absurd hl (by simp [Process.live])
    have hproc : (Kernel.reap me s).procs q = s.procs q := by rw [procs_reap, Table.put_of_ne _ hne]
    have hq' : s.Alive q := ⟨hq.1, by rw [KState.live, ← hproc]; exact hq.2⟩
    exact (h.at_ q hq').calm (by rw [hproc]) (by rw [hproc]) rfl fun a _ => by rw [hmem]
  have hquiet := quiet_refusePeers (A := A) (Kernel.reap me s)
  exact hr.calm hquiet.calm fun a _ => by rw [hquiet.mem]

/-! ## Processes that come -/

/-- the kernel's root is one of its page tables -/
theorem kroot_fixed (hg : Ground A C F m₀) : A.root C.ktoken ∈ kernelTables A C m₀ ∧ A.root C.ktoken ∉ F := by
  have hroot : A.root C.ktoken ∈ kernelTables A C m₀ := RadixTree.root_mem_tables _ _
  exact ⟨hroot, (hg.tables _ hroot).1⟩

/-- what loading an image leaves -/
theorem built_space (hin : Loader.Inside A C.userElf) (hg : Ground A C F m₀) (ha : Accounted F s) :
    Drawn (supply A F (held s)) ⟨s.w, []⟩ (buildSpace A C ⟨s.w, []⟩).2 ∧
      ∀ token entry, (buildSpace A C ⟨s.w, []⟩).1 = some (token, entry) →
        ∃ root, token = A.token root ∧ NewSpace A C (supply A F (held s)) root ⟨s.w, []⟩ (buildSpace A C ⟨s.w, []⟩).2 := by
  refine buildSpace_spec hin (ha.account.congr (zero_add _).symm) fun hf => ?_
  exact (kroot_fixed hg).2 (ha.account.free_mem hf)

theorem loadFailed (h : Spaced A C m₀ s) (hin : Loader.Inside A C.userElf) (hg : Ground A C F m₀) (ha : Accounted F s)
    {slot id : ℕ} {role : Role} (hrun : loadProcess A C slot id role s = .ok (false, t)) : Spaced A C m₀ t := by
  rcases wp_ok (loadProcess_spec slot id role s) hrun with ⟨-, rfl | ⟨r, hb, rfl⟩⟩ | ⟨hf, -⟩
  · exact h
  · obtain ⟨hdrawn, -⟩ := built_space hin hg ha
    rw [hb] at hdrawn
    refine h.machine hg ha fun a hx => ?_
    rw [Machine.mem_freeFrames]
    exact hdrawn.off a hx
  · exact absurd hf (by decide)

/-- **A process that was loaded** has a space of its own frames, and the kernel's entries. -/
theorem loaded (h : Spaced A C m₀ s) (hin : Loader.Inside A C.userElf) (hg : Ground A C F m₀) (ha : Accounted F s)
    {slot id : ℕ} {role : Role} (hfree : s.live slot = false) (hrun : loadProcess A C slot id role s = .ok (true, t)) :
    Spaced A C m₀ t := by
  rcases wp_ok (loadProcess_spec slot id role s) hrun with ⟨hf, -⟩ | ⟨-, token, entry, r, hb, rfl⟩
  · exact absurd hf (by decide)
  obtain ⟨hdrawn, hnew⟩ := built_space hin hg ha
  rw [hb] at hdrawn hnew
  obtain ⟨root, rfl, hnew⟩ := hnew token entry rfl
  have hok : (⟨s.w, []⟩ : RecordingAlloc).Ok F (held s) := ha.account.congr (zero_add _).symm
  have hr : r.Ok F (held s) := hdrawn.ok
  -- what was free and is handed out is listed
  have hlisted : ∀ f, f ∈ freeAddrs s.w.fa → f ∉ freeAddrs r.w.fa → f ∈ r.frames := fun f h1 h2 =>
    listed_of_taken hok hr h1 h2
  have hoff : ∀ a ∈ Fixed A C m₀ s, r.w.mem a = s.w.mem a := fun a hx => hdrawn.off a (h.fixed_apart hg ha hx).1
  have hroot : A.root (A.token root) = root := by
    obtain ⟨-, hal, hlt⟩ : root ∈ F ∧ root % PAGE_SIZE = 0 ∧ root < 2 ^ 52 :=
      ⟨ha.account.free_mem hnew.root_free, ha.account.tracked_lt (ha.account.free_mem hnew.root_free)⟩
    exact A.root_token root hal hlt
  generalize hfresh : freshProcess A C (s.procs slot) (A.token root) entry id role r.frames = q₀
  have hq₀ : q₀.token = A.token root ∧ q₀.frames = r.frames := by rw [← hfresh]; exact ⟨rfl, rfl⟩
  set u : KState := ({ s with w := r.w }.modProc slot fun p =>
    freshProcess A C p (A.token root) entry id role r.frames).record (.loaded slot)
  have hself : u.procs slot = q₀ := by
    rw [← hfresh, KState.record_procs, KState.modProc_procs, Table.put_self]
  have hother : ∀ q, q ≠ slot → u.procs q = s.procs q := fun q hq => by
    rw [KState.record_procs, KState.modProc_procs, Table.put_of_ne _ hq]
  have hmem : u.w.mem = r.w.mem := rfl
  refine ⟨fun q hq => ?_, fun a hx => (hoff a (Or.inl hx)).trans (h.kernel a hx)⟩
  by_cases hqs : q = slot
  · subst hqs
    have htables : u.tables A q = A.tables r.w.mem root := by
      rw [KState.tables, hself, hq₀.1, hroot, hmem]
    have hleaf : ∀ v, u.leaf A q v = A.leaf r.w.mem root v := fun v => by
      rw [KState.leaf, hself, hq₀.1, hroot, hmem]
    refine ⟨?_, fun a hx => ?_, fun i hi => ?_, fun v hv hpres => ?_⟩
    · rw [hself, hq₀.1, hroot, hmem]
      exact hnew.built.tree
    · rw [htables] at hx
      rw [hself, hq₀.2]
      exact hlisted a (hnew.tables a hx) (hnew.built.apart a hx)
    · rw [hself, hq₀.1, hroot, hmem]
      obtain ⟨hk, -⟩ := kroot_fixed hg
      exact (hnew.shared i hi).trans (congrFun (h.kernel _ hk) i)
    · rw [hleaf] at hpres
      obtain ⟨⟨-, hgot⟩, hgone, htab⟩ := hnew.leaves v hv hpres
      refine .own ?_ ?_
      · rw [hleaf, hself, hq₀.2]
        exact hlisted _ hgot hgone
      · rw [hleaf, htables]
        exact htab
  · have hq' : s.Alive q := ⟨hq.1, by rw [KState.live, ← hother q hqs]; exact hq.2⟩
    exact (h.at_ q hq').calm (by rw [hother q hqs]) (by rw [hother q hqs]) rfl fun a hx => hoff a (Or.inr ⟨q, hq', hx⟩)

/-- a capability more -/
theorem handOver (h : Spaced A C m₀ s) (slot arg childId : ℕ) (c : Capabilities.CapSlot) :
    Spaced A C m₀ (handOver me slot arg childId c s) := by
  rw [Kernel.handOver]
  cases hins : (s.procs slot).caps.insert c.capType c.rights c.object with
  | none => exact h
  | some out =>
    obtain ⟨childCap, caps⟩ := out
    obtain ⟨-, -, hnone, -, -, -, hold⟩ := Capabilities.CapSpace.insert_some hins
    have hkeep : ∀ j x, (s.procs slot).caps.lookup j = some x → caps.lookup j = some x := fun j x hx => by
      rw [hold j fun e => ?_]
      · exact hx
      · rw [e, hnone] at hx
        exact absurd hx (by simp)
    have hall : ∀ ty o w, Allows (s.procs slot).caps ty o w → Allows caps ty o w := by
      intro ty o w hw
      obtain ⟨j, x, hx, hr⟩ := hw
      exact ⟨j, x, hkeep j x hx, hr⟩
    set u : KState := s.modProc slot fun p => { p with caps := caps }
    suffices hu : Spaced A C m₀ u from hu.calm ⟨fun _ => rfl, fun _ => rfl, rfl, rfl, rfl⟩ fun _ _ => rfl
    refine ⟨fun q hq => ?_, h.kernel⟩
    by_cases hqs : q = slot
    · subst hqs
      have hproc : u.procs q = { s.procs q with caps := caps } := by rw [KState.modProc_procs, Table.put_self]
      have hq' : s.Alive q := ⟨hq.1, by have := hq.2; rwa [KState.live, hproc] at this⟩
      refine (h.at_ q hq').same (by rw [hproc]) (by rw [hproc]) (fun _ _ => rfl) (fun k _ j hj => ?_) fun _ o w hw => ?_
      · refine ⟨by rw [hproc], hj, rfl, fun w hw => ?_⟩
        rw [hproc]
        exact hall _ _ _ hw
      · rw [hproc]
        exact hall _ _ _ hw
    · have hproc : u.procs q = s.procs q := by rw [KState.modProc_procs, Table.put_of_ne _ hqs]
      have hq' : s.Alive q := ⟨hq.1, by rw [KState.live, ← hproc]; exact hq.2⟩
      exact (h.at_ q hq').calm (by rw [hproc]) (by rw [hproc]) rfl fun _ _ => rfl

/-! ## Every move -/

theorem move (h : Spaced A C m₀ s) (hin : Loader.Inside A C.userElf) (hg : Ground A C F m₀) (ha : Accounted F s)
    (hids : RegionIds s) (hslots : ∀ i, s.live i = true → i < MAX_PROCS) (hsole : Sole s) (hm : Move A C G me k s t) :
    Spaced A C m₀ t := by
  cases hm with
  | control hc => exact h.calm hc.quiet.calm fun a _ => by rw [hc.quiet.mem]
  | receive hp => exact h.takeMessage hg ha hp
  | store hp hv => exact h.store hg ha hp _ hv
  | copy hp hcopy => exact h.copy hg ha hp hcopy
  | mapRegion hp _ hcap => exact h.mapRegion hg ha hp hcap
  | mapDevice hp _ _ hcap => exact h.mapDevice hg ha hp hcap
  | unmapDevice hp => exact h.unmaps hg ha hp (unmaps_deviceWindow A s me)
  | unmapRegion hp => exact h.unmapRegionFrom hg ha hp _
  | unmapShare hp hslot =>
    obtain ⟨⟨S, hS⟩, -⟩ := unmaps_shareSlot A s _ hslot
    exact h.unmaps hg ha hp hS
  | make _ _ _ _ _ hrun => exact h.make hg ha hids hrun
  | mapDma => exact h.dma hg ha (dmaOnly_mapDma me _ _ _ s)
  | unmapDma _ _ hrun => exact h.dma hg ha (wp_ok (dmaOnly_unmapDma me _ _ s) hrun)
  | withdrawAll _ _ hrun => exact h.dma hg ha (wp_ok (dmaOnly_withdrawAllDmaOf me s) hrun)
  | retire _ hsl _ hnone hrun => exact h.retire hg ha hsl hnone hrun
  | revoke _ _ _ hrun => exact h.revoke hg ha hslots hsole hrun
  | reap => exact h.reap
  | loadFailed _ _ _ hrun => exact h.loadFailed hin hg ha hrun
  | boot _ _ hfree hrun =>
    exact (h.loaded hin hg ha hfree hrun).calm ⟨fun _ => rfl, fun _ => rfl, rfl, rfl, rfl⟩ fun _ _ => rfl
  | @spawn u slot arg requested childId cap _ _ _ _ hfree _ _ hrun =>
    have hu := h.loaded hin hg ha hfree hrun
    suffices hdone : Spaced A C m₀ (cap.elim u fun c => Kernel.handOver me slot arg childId c u) from
      hdone.calm ⟨fun _ => rfl, fun _ => rfl, rfl, rfl, rfl⟩ fun _ _ => rfl
    cases cap with
    | none => exact hu
    | some c => exact hu.handOver slot arg childId c

end Spaced

/-! ## Every reachable state -/

/-- what the spaces rest on -/
structure Sound (A : Arch) (C : Config) (F : Multiset ℕ) (m₀ : Mem) (s : KState) : Prop where
  spaced : Spaced A C m₀ s
  accounted : Accounted F s
  sole : Sole s
  named : NamesLive s
  lineage : Lineage s
  ids : RegionIds s
  slots : ∀ i, s.live i = true → i < MAX_PROCS

theorem Sound.move (h : Sound A C F m₀ s) (hin : Loader.Inside A C.userElf)
    (hgrants : ∀ role, ∀ g ∈ grantsFor C role, g.1 ≠ .region) (hg : Ground A C F m₀) (hm : Move A C G me k s t) :
    Sound A C F m₀ t :=
  ⟨h.spaced.move hin hg h.accounted h.ids h.slots h.sole hm, h.accounted.move hm, h.sole.move h.ids h.named h.lineage hm,
    h.named.move (fun _ hb => granted_not_region hgrants hb) hm, h.lineage.move hm, h.ids.move hm, hm.change.slots h.slots⟩

theorem PreUserland.sound {s₀ : KState} (h₀ : PreUserland A C s₀) :
    Sound A C (freeAddrs s₀.w.fa) s₀.w.mem s₀ := by
  have hdead : ∀ p, s₀.live p = false := fun p => by rw [KState.live, h₀.noProcs]; rfl
  have hnone : ∀ {i}, (s₀.regions i).live = true → False := fun {i} hl => by
    rw [h₀.noRegions] at hl
    exact absurd hl (by decide)
  refine ⟨⟨fun p hp => ?_, fun _ _ => rfl⟩, h₀.accounted, fun i _ hl => ?_, fun p c hc => ?_, ?_, ?_, h₀.scheduled.slots⟩
  · exact absurd (hp.2.symm.trans (hdead p)) (by decide)
  · rw [h₀.noEdges] at hl
    exact absurd (show Deleg.DEAD.live = true from hl) (by decide)
  · exact absurd (hc.1.2.symm.trans (hdead p)) (by decide)
  · rw [Lineage, h₀.noEdges]
    exact Deleg.Ledger.forest_new
  · exact ⟨by rw [h₀.ids.2]; decide, fun i _ hl => (hnone hl).elim, fun i _ hl => (hnone hl).elim,
      fun i _ j _ hl => (hnone hl).elim⟩

theorem Reachable.sound {s₀ : KState} (h₀ : PreUserland A C s₀) (hbar : BarOutside A C s₀) (hin : Loader.Inside A C.userElf)
    (hgrants : ∀ role, ∀ g ∈ grantsFor C role, g.1 ≠ .region) (h : Reachable A C s₀ s) :
    Sound A C (freeAddrs s₀.w.fa) s₀.w.mem s :=
  Reachable.keep h₀ h₀.sound (fun hm hs => hs.move hin hgrants (h₀.ground hbar) hm) h

/-- what user mode can reach through the window of a live process is the process's own, or conferred on it -/
structure Apart (A : Arch) (s : KState) : Prop where
  leaves : ∀ p, s.Alive p → ∀ va l e, A.userBase ≤ va → va < A.userLimit →
    RadixTree.walk A.fmt s.w.mem (va / PAGE_SIZE) A.depth (A.root (s.procs p).token) = some (l, e) → A.UserLeaf e →
    l = 0 ∧
    ((A.fmt.addr e ∈ (s.procs p).frames ∧ A.fmt.addr e ∉ s.tables A p) ∨
      (∃ slot < SHARE_SLOTS, ∃ n < REGION_MAX_PAGES, ∃ i < MAX_REGIONS, va / PAGE_SIZE = sharePage A slot n ∧
        (s.regions i).live = true ∧ (s.regions i).id = (s.procs p).shares slot ∧
        (s.regions i).frames[n]? = some (A.fmt.addr e) ∧
        Allows (s.procs p).caps .region (s.regions i).id (A.writable e)) ∨
      va / PAGE_SIZE = devicePage A ∧ Allows (s.procs p).caps .mmio (A.fmt.addr e) (A.writable e))
  procs : ∀ p q, s.Alive p → s.Alive q → p ≠ q → ∀ f ∈ (s.procs p).frames, f ∉ (s.procs q).frames
  mixed : ∀ p, s.Alive p → ∀ i < MAX_REGIONS, (s.regions i).live = true → ∀ f ∈ (s.regions i).frames, f ∉ (s.procs p).frames
  regions : ∀ i < MAX_REGIONS, ∀ j < MAX_REGIONS, i ≠ j → (s.regions i).live = true → (s.regions j).live = true →
    ∀ f ∈ (s.regions i).frames, f ∉ (s.regions j).frames

/-- **Processes are kept apart.** With an image inside the user window, whatever a user-accessible entry for an address of
the window of a live process maps is a frame charged to the process and no page table of its, or a page of the region its
share slot holds, or the device's page, the last two as far as capabilities the process has allow. No frame is charged to
two of the live processes and regions. -/
theorem spaces_apart {s₀ : KState} (h₀ : PreUserland A C s₀) (hbar : BarOutside A C s₀) (hin : Loader.Inside A C.userElf)
    (hgrants : ∀ role, ∀ g ∈ grantsFor C role, g.1 ≠ .region) (h : Reachable A C s₀ s) : Apart A s := by
  obtain ⟨hs, ha, -⟩ := h.sound h₀ hbar hin hgrants
  refine ⟨fun p hp va l e h1 h2 hwalk huser => ?_, fun p q hp hq hne f hf => ha.procs_apart hp.1 hq.1 hne hf,
    fun p hp i hi _ f hf => ha.region_apart hp.1 hi hf, fun i hi j hj hne _ _ f hf => ha.regions_apart hi hj hne hf⟩
  have hv := A.user_own va h1 h2
  -- the walk ends at the leaf
  rw [RadixTree.walk_eq_leaf (hs.at_ p hp).tree (A.window_path hv)] at hwalk
  split_ifs at hwalk with hpres
  obtain ⟨rfl, rfl⟩ := Prod.mk.inj (Option.some.inj hwalk)
  refine ⟨rfl, ?_⟩
  cases (hs.at_ p hp).backed _ hv hpres.1 with
  | own hf ht => exact Or.inl ⟨hf, ht⟩
  | @share slot n i hslot hn hpage hsl hf hall =>
    obtain ⟨-, hi, hl, hid⟩ := regionSlot_some hsl
    exact Or.inr (Or.inl ⟨slot, hslot, n, hn, i, hi, hpage, hl, hid, hf, hid ▸ hall⟩)
  | device hpage _ _ hall => exact Or.inr (Or.inr ⟨hpage, hall⟩)

/-- an image without segments lies inside any window -/
theorem emptyImage_inside : Loader.Inside Riscv emptyImage := by
  rintro g ⟨hd, hhead, i, hi, -⟩
  have hnum : (Loader.readHeader Riscv emptyImage).map (·.phnum) = .ok 0 := by decide +kernel
  rw [hhead] at hnum
  have hz : hd.phnum = 0 := Except.ok.inj hnum
  omega

theorem emptyX86_inside : Loader.Inside X86 emptyX86 := by
  rintro g ⟨hd, hhead, i, hi, -⟩
  have hnum : (Loader.readHeader X86 emptyX86).map (·.phnum) = .ok 0 := by decide +kernel
  rw [hhead] at hnum
  have hz : hd.phnum = 0 := Except.ok.inj hnum
  omega

/-! ## A card behind the unit -/

/-- the machine with a unit, the registers of its device at `bar` -/
def cardConfig (bar : ℕ) : Config := { oneUnitConfig with deviceBar := bar }

theorem cardConfig_ready {bar : ℕ} (hbar : bar < 2 ^ 32) : PreUserland X86 (cardConfig bar) oneUnitState :=
  { oneUnitConfig_ready with
    bar := hbar
    domainsOk := ⟨oneUnitConfig_ready.domainsOk.named, oneUnitConfig_ready.domainsOk.apart,
      oneUnitConfig_ready.domainsOk.others⟩ }

/-- registers past the pages the machine has -/
theorem cardConfig_apart {bar : ℕ} (h : 67 * PAGE_SIZE ≤ bar) : BarApart X86 (cardConfig bar) oneUnitState := by
  have hpage : ∀ p, isDevice X86 (cardConfig bar) p = true → 67 * PAGE_SIZE ≤ p := fun p hp => (isDevice_eq hp).1 ▸ h
  refine ⟨⟨fun p hp _ hf => ?_, fun p hp _ ht => ?_⟩, fun i _ _ => ?_⟩
  · have := (smallPool_free hf).2
    have := hpage p hp
    simp only [PAGE_SIZE] at *
    omega
  · have := oneUnitState_tables ht
    have := hpage p hp
    simp only [PAGE_SIZE] at *
    omega
  · rw [Bool.eq_false_iff]
    intro hp
    have hle := hpage _ hp
    have hl1 : ((cardConfig bar).domainSlots i).l1 ≤ 66 * PAGE_SIZE := by
      show (if i = 0 then (⟨1, 40, 66 * PAGE_SIZE⟩ : DomainSlot) else DomainSlot.EMPTY).l1 ≤ 66 * PAGE_SIZE
      split_ifs
      · exact le_rfl
      · exact Nat.zero_le _
    simp only [PAGE_SIZE] at *
    omega

/-- `MAP_BAR` of the card's registers, with the response on the stack -/
def cardFrame : UserFrame := (callFrame sysno.MAP_BAR 12 0).put 11 (BitVec.ofNat 64 (X86.userStackTop - 256))

def cardBoot (bar : ℕ) : KState := outcome (bootUserland X86 (cardConfig bar) oneUnitState) oneUnitState

/-- the producer is gone, the worker runs -/
def cardWorker (bar : ℕ) : KState :=
  fedTo (cardConfig bar) (fedTo (cardConfig bar) (cardBoot bar) (.syscall exitFrame)) (.timer UserFrame.ZERO)

/-- and has mapped the card's registers -/
def cardMapped (bar : ℕ) : KState := fedTo (cardConfig bar) (cardWorker bar) (.syscall cardFrame)

/-- the machine takes the inputs so far -/
def CardRuns (bar : ℕ) : Prop :=
  (bootUserland X86 (cardConfig bar) oneUnitState).toBool = true ∧
    ((cardBoot bar).idling = false ∧ (handle X86 (cardConfig bar) (.syscall exitFrame) (cardBoot bar)).toBool = true) ∧
    (cardWorker bar).idling = false ∧ (handle X86 (cardConfig bar) (.syscall cardFrame) (cardWorker bar)).toBool = true

instance (bar : ℕ) : Decidable (CardRuns bar) := inferInstanceAs (Decidable (_ ∧ _))

theorem cardMapped_reachable {bar : ℕ} (h : CardRuns bar) : Reachable X86 (cardConfig bar) oneUnitState (cardMapped bar) := by
  obtain ⟨h₀, h₁, h₂⟩ := h
  have hexit : Reachable X86 (cardConfig bar) oneUnitState (fedTo (cardConfig bar) (cardBoot bar) (.syscall exitFrame)) :=
    (Reachable.boot (outcome_eq h₀)).called h₁
  have hworker : Reachable X86 (cardConfig bar) oneUnitState (cardWorker bar) :=
    hexit.fedTo (i := .timer UserFrame.ZERO) trivial rfl
  exact hworker.called h₂

/-- registers below 4 GiB; the worker has made a region of its own too, and mapped it -/
def cardShared : KState :=
  fedTo (cardConfig 0xFEBC0000) (fedTo (cardConfig 0xFEBC0000) (cardMapped 0xFEBC0000)
    (.syscall (callFrame sysno.MAKE_REGION 2 1)))
    (.syscall (callFrame sysno.MAP_REGION 13 0))

theorem cardShared_reachable : Reachable X86 (cardConfig 0xFEBC0000) oneUnitState cardShared := by
  have hmade : Reachable X86 (cardConfig 0xFEBC0000) oneUnitState
      (fedTo (cardConfig 0xFEBC0000) (cardMapped 0xFEBC0000) (.syscall (callFrame sysno.MAKE_REGION 2 1))) :=
    (cardMapped_reachable (by decide +kernel)).called (by decide +kernel)
  exact hmade.called (by decide +kernel)

/-- the worker sees its stack, a page of its region, and the card -/
theorem cardShared_apart : Apart X86 cardShared ∧ cardShared.Alive 2 ∧
    X86.UserLeaf (cardShared.leaf X86 2 ((X86.userStackTop - 1) / PAGE_SIZE)) ∧
    X86.UserLeaf (cardShared.leaf X86 2 (sharePage X86 0 0)) ∧ X86.UserLeaf (cardShared.leaf X86 2 (devicePage X86)) := by
  have hready : PreUserland X86 (cardConfig 0xFEBC0000) oneUnitState := cardConfig_ready (by decide)
  have hbar : BarApart X86 (cardConfig 0xFEBC0000) oneUnitState := cardConfig_apart (by decide)
  refine ⟨spaces_apart hready hbar.toBarOutside emptyX86_inside (roleGrants_apart rfl) cardShared_reachable,
    ⟨by decide, by decide +kernel⟩, by decide +kernel⟩

/-- registers above 4 GiB, whose lower half is the address of a page: the worker has stored a byte to its window -/
def cardStored : KState := fedTo (cardConfig (28 * PAGE_SIZE)) (cardMapped (28 * PAGE_SIZE)) (.store (X86.userMmioBase + 4090) 3)

theorem cardStored_reachable : Reachable X86 (cardConfig (28 * PAGE_SIZE)) oneUnitState cardStored := by
  have hpage : (X86.userMmioBase + 4090) / PAGE_SIZE = devicePage X86 := by decide
  have hmapped : Reachable X86 (cardConfig (28 * PAGE_SIZE)) oneUnitState (cardMapped (28 * PAGE_SIZE)) :=
    cardMapped_reachable (by decide +kernel)
  exact hmapped.stores (hpage ▸ devicePage_own X86) (by decide +kernel)

/-- **Without the premise isolation fails.** A card has its registers at 4 GiB + 28 pages, apart from all memory. `DEVICE_BAR`
is the lower half, a page that comes to be a page table of the consumer; the worker maps it as its device and stores one byte,
and the consumer's stack is a page of the worker's. -/
theorem window_in_memory :
    DeviceWindow.BarsApart (DeviceWindow.cardWith 0x1C004 1) (fun _ => PAGE_SIZE) [⟨0, ⟨0, 64 * PAGE_SIZE, .usable⟩⟩] ∧
      Boot.Pci.deviceBar (DeviceWindow.cardWith 0x1C004 1) = (cardConfig (28 * PAGE_SIZE)).deviceBar ∧
      PreUserland X86 (cardConfig (28 * PAGE_SIZE)) oneUnitState ∧ Loader.Inside X86 (cardConfig (28 * PAGE_SIZE)).userElf ∧
      (∀ role, ∀ g ∈ grantsFor (cardConfig (28 * PAGE_SIZE)) role, g.1 ≠ .region) ∧
      Reachable X86 (cardConfig (28 * PAGE_SIZE)) oneUnitState cardStored ∧
      X86.fmt.addr (cardStored.leaf X86 1 ((X86.userStackTop - 1) / PAGE_SIZE)) ∈ (cardStored.procs 2).frames ∧
      ¬Apart X86 cardStored := by
  have halive : cardStored.Alive 1 := ⟨by decide, by decide +kernel⟩
  have hforeign : X86.fmt.addr (cardStored.leaf X86 1 ((X86.userStackTop - 1) / PAGE_SIZE)) ∉ (cardStored.procs 1).frames ∧
      X86.fmt.addr (cardStored.leaf X86 1 ((X86.userStackTop - 1) / PAGE_SIZE)) ∈ (cardStored.procs 2).frames ∧
      ∀ i < MAX_REGIONS, (cardStored.regions i).live = false := by
    decide +kernel
  have hwalk : RadixTree.walk X86.fmt cardStored.w.mem ((X86.userStackTop - 1) / PAGE_SIZE) X86.depth
      (X86.root (cardStored.procs 1).token) = some (0, cardStored.leaf X86 1 ((X86.userStackTop - 1) / PAGE_SIZE)) := by
    decide +kernel
  have huser : X86.UserLeaf (cardStored.leaf X86 1 ((X86.userStackTop - 1) / PAGE_SIZE)) := by decide +kernel
  refine ⟨DeviceWindow.cardWith_apart (rfl : _ = some 0x10001C000) (by decide), by decide +kernel, cardConfig_ready (by decide),
    emptyX86_inside, roleGrants_apart rfl, cardStored_reachable, hforeign.2.1, fun h => ?_⟩
  obtain ⟨-, ⟨hown, -⟩ | ⟨_, _, _, _, i, hi, -, hlive, -⟩ | ⟨hpage, -⟩⟩ :=
    h.leaves 1 halive (X86.userStackTop - 1) 0 _ (by decide) (by decide) hwalk huser
  · exact hforeign.1 hown
  · exact absurd (hlive.symm.trans (hforeign.2.2 i hi)) (by decide)
  · exact absurd hpage (by decide)

end Rustproof.Kernel
