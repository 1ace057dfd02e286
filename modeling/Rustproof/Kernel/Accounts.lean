/-
Where the frames are.

`held s` is the frames charged to a process or a region, as a multiset; `Accounted F s` says that they and the free ones are
the frames `F` that were free when userland started, that only live processes and regions are charged any, and that every
live region has a live owner. Every move keeps it (`Accounted.move`), whatever fails midway.
- `frames_conserved`: the count, and that every frame that is out has one place.
- `never_leaks`: the leak check at shutdown never fails.
-/
import Rustproof.Kernel.Mapping
import Rustproof.Kernel.Parked

namespace Rustproof.Kernel

open Lib Prog Mm

variable {A : Arch} {C : Config} {G : Gate} {me : ℕ} {k : Trap} {s t : KState} {F : Multiset ℕ}

/-! ## Steps that move no frame -/

/-- what the frames and the spaces of processes are about is left alone, but for the memory -/
structure Calm (s t : KState) : Prop where
  authority : ∀ p, (t.procs p).authority = (s.procs p).authority
  space : ∀ p, (t.procs p).space = (s.procs p).space
  fa : t.w.fa = s.w.fa
  handouts : t.w.handouts = s.w.handouts
  regions : t.regions = s.regions

theorem Quiet.calm (h : Quiet s t) : Calm s t := ⟨h.authority, h.space, h.fa, h.handouts, h.regions⟩

theorem DmaOnly.calm (h : DmaOnly C s t) : Calm s t := ⟨h.authority, h.space, h.fa, h.handouts, h.regions⟩

theorem calm_setMem (s : KState) (m : Mem) : Calm s (s.setMem m) := ⟨fun _ => rfl, fun _ => rfl, rfl, rfl, rfl⟩

theorem calm_takeMessage (p : ℕ) (s : KState) : Calm s (takeMessage A p s) := by
  have hproc : ∀ q, ((takeMessage A p s).procs q).authority = (s.procs q).authority ∧
      ((takeMessage A p s).procs q).space = (s.procs q).space := by
    intro q
    obtain ⟨⟨f, hf⟩, -⟩ := takeMessage_spec (A := A) p s
    rw [hf, Table.put_apply]
    split_ifs with hq
    · rw [hq]; exact ⟨rfl, rfl⟩
    · exact ⟨rfl, rfl⟩
  refine ⟨fun q => (hproc q).1, fun q => (hproc q).2, ?_, ?_, ?_⟩
  all_goals rw [takeMessage]; split <;> rfl

/-- dropping credits and waking whoever was stranded -/
theorem quiet_settle (p : ℕ) (s : KState) : Quiet s (settle A p s) := by
  have h1 : Quiet s (dropCredits p s) := by
    refine Quiet.modProc s p _ rfl rfl rfl fun line hne => Or.inl ?_
    intro hz
    apply hne
    show (if line < MAX_IRQ_LINES ∧ capsHoldIrq (s.procs p).caps line = false then 0 else (s.procs p).irqPending line) = 0
    rw [hz, ite_self]
  rw [settle]
  split_ifs with hst
  · exact h1.trans (Quiet.ready _ _ (stranded_parked hst).2 rfl rfl rfl rfl rfl)
  · exact h1

theorem quiet_refusePeers (s : KState) : Quiet s (refusePeers A s) := by
  unfold refusePeers
  refine List.foldlRecOn (motive := Quiet s) _ _ (Quiet.refl s) fun t ht i _ => ?_
  unfold refuseUnanswerable
  cases ha : awaited t i with
  | none => exact ht
  | some en =>
    simp only
    split_ifs
    · exact ht
    · exact ht.trans (Quiet.ready _ _ (awaited_parked ha).2 rfl rfl rfl rfl rfl)

/-! ## The frames that are out -/

/-- the frames charged to the processes -/
def procFrames (s : KState) : Multiset ℕ := ∑ p ∈ Finset.range MAX_PROCS, ((s.procs p).frames : Multiset ℕ)

/-- the frames of the regions -/
def regionFrames (s : KState) : Multiset ℕ := ∑ i ∈ Finset.range MAX_REGIONS, ((s.regions i).frames : Multiset ℕ)

/-- the frames that are out -/
def held (s : KState) : Multiset ℕ := procFrames s + regionFrames s

/-- those not charged to process `p`, and those not of region `i` -/
def heldBut (s : KState) (p : ℕ) : Multiset ℕ :=
  ∑ q ∈ (Finset.range MAX_PROCS).erase p, ((s.procs q).frames : Multiset ℕ) + regionFrames s

def heldApart (s : KState) (i : ℕ) : Multiset ℕ :=
  procFrames s + ∑ j ∈ (Finset.range MAX_REGIONS).erase i, ((s.regions j).frames : Multiset ℕ)

theorem held_proc {p : ℕ} (hp : p < MAX_PROCS) : held s = ((s.procs p).frames : Multiset ℕ) + heldBut s p := by
  unfold held heldBut procFrames
  rw [← Finset.add_sum_erase _ _ (Finset.mem_range.2 hp), add_assoc]

theorem held_region {i : ℕ} (hi : i < MAX_REGIONS) :
    held s = ((s.regions i).frames : Multiset ℕ) + heldApart s i := by
  unfold held heldApart regionFrames
  rw [← Finset.add_sum_erase _ _ (Finset.mem_range.2 hi), add_left_comm]

theorem heldBut_congr {p : ℕ} (hp : ∀ q, q ≠ p → (t.procs q).frames = (s.procs q).frames) (hr : t.regions = s.regions) :
    heldBut t p = heldBut s p := by
  have hsum : ∑ q ∈ (Finset.range MAX_PROCS).erase p, ((t.procs q).frames : Multiset ℕ) =
      ∑ q ∈ (Finset.range MAX_PROCS).erase p, ((s.procs q).frames : Multiset ℕ) :=
    Finset.sum_congr rfl fun q hq => by rw [hp q (Finset.ne_of_mem_erase hq)]
  unfold heldBut regionFrames
  rw [hsum, hr]

theorem heldApart_congr {i : ℕ} (hp : ∀ q, (t.procs q).frames = (s.procs q).frames)
    (hr : ∀ j, j ≠ i → t.regions j = s.regions j) : heldApart t i = heldApart s i := by
  have hsum : ∑ j ∈ (Finset.range MAX_REGIONS).erase i, ((t.regions j).frames : Multiset ℕ) =
      ∑ j ∈ (Finset.range MAX_REGIONS).erase i, ((s.regions j).frames : Multiset ℕ) :=
    Finset.sum_congr rfl fun j hj => by rw [hr j (Finset.ne_of_mem_erase hj)]
  have hprocs : procFrames t = procFrames s := Finset.sum_congr rfl fun q _ => by rw [hp q]
  unfold heldApart
  rw [hsum, hprocs]

theorem held_congr (hp : ∀ q, (t.procs q).frames = (s.procs q).frames) (hr : t.regions = s.regions) : held t = held s := by
  have hprocs : procFrames t = procFrames s := Finset.sum_congr rfl fun q _ => by rw [hp q]
  unfold held regionFrames
  rw [hprocs, hr]

/-- the frames `F` are free, or charged to a live process or region -/
structure Accounted (F : Multiset ℕ) (s : KState) : Prop where
  account : Account F s.w.fa (held s)
  procs : ∀ p, s.live p = false → (s.procs p).frames = []
  regions : ∀ i, (s.regions i).live = false → (s.regions i).frames = []
  small : ∀ i, (s.regions i).frames.length ≤ REGION_MAX_PAGES
  owned : ∀ i < MAX_REGIONS, (s.regions i).live = true → ∃ p, s.Alive p ∧ (s.procs p).id = (s.regions i).ownerId

namespace Accounted

theorem calm (h : Accounted F s) (hc : Calm s t) : Accounted F t := by
  have hframes : ∀ p, (t.procs p).frames = (s.procs p).frames := fun p => Process.frames_eq (hc.space p)
  have hlive : ∀ p, t.live p = s.live p := fun p => Process.live_eq (hc.authority p)
  refine ⟨?_, fun p hp => ?_, ?_, ?_, fun i hi hl => ?_⟩
  · rw [hc.fa, held_congr hframes hc.regions]; exact h.account
  · rw [hframes]; exact h.procs p (by rwa [← hlive])
  · rw [hc.regions]; exact h.regions
  · rw [hc.regions]; exact h.small
  · rw [hc.regions] at hl ⊢
    obtain ⟨p, hp, hid⟩ := h.owned i hi hl
    exact ⟨p, ⟨hp.1, by rw [hlive]; exact hp.2⟩, (Process.id_eq (hc.authority p)).trans hid⟩

/-- a step that changes the frames of process `p` and the allocator -/
theorem charge (h : Accounted F s) {p : ℕ} (hp : s.Alive p) (hlive : ∀ q, t.live q = s.live q)
    (hid : ∀ q, (t.procs q).id = (s.procs q).id) (hother : ∀ q, q ≠ p → (t.procs q).frames = (s.procs q).frames)
    (hr : t.regions = s.regions) (hacc : Account F t.w.fa ((t.procs p).frames + heldBut s p)) : Accounted F t := by
  refine ⟨?_, fun q hq => ?_, ?_, ?_, fun i hi hl => ?_⟩
  · rw [held_proc hp.1, heldBut_congr hother hr]; exact hacc
  · by_cases hqp : q = p
    · rw [hqp, hlive, hp.2] at hq
      exact absurd hq (by decide)
    · rw [hother q hqp]; exact h.procs q (by rwa [← hlive])
  · rw [hr]; exact h.regions
  · rw [hr]; exact h.small
  · rw [hr] at hl ⊢
    obtain ⟨q, hq, hqid⟩ := h.owned i hi hl
    exact ⟨q, ⟨hq.1, by rw [hlive]; exact hq.2⟩, (hid q).trans hqid⟩

theorem unmaps (h : Accounted F s) {p : ℕ} {S : Set ℕ} (hu : Unmaps A p S s t) : Accounted F t := by
  have hlive : ∀ q, t.live q = s.live q := fun q => Process.live_eq (hu.authority q)
  refine ⟨?_, fun q hq => ?_, ?_, ?_, fun i hi hl => ?_⟩
  · rw [hu.fa, held_congr hu.frames hu.regions]; exact h.account
  · rw [hu.frames]; exact h.procs q (by rwa [← hlive])
  · rw [hu.regions]; exact h.regions
  · rw [hu.regions]; exact h.small
  · rw [hu.regions] at hl ⊢
    obtain ⟨q, hq, hid⟩ := h.owned i hi hl
    exact ⟨q, ⟨hq.1, by rw [hlive]; exact hq.2⟩, (Process.id_eq (hu.authority q)).trans hid⟩

/-- capabilities and the ledger are no frames -/
theorem caps (h : Accounted F s) (hp : ∀ q, ∃ c, t.procs q = { s.procs q with caps := c }) (hw : t.w.fa = s.w.fa)
    (hr : t.regions = s.regions) : Accounted F t := by
  have hframes : ∀ q, (t.procs q).frames = (s.procs q).frames := by
    intro q
    obtain ⟨c, hc⟩ := hp q
    rw [hc]
  have hlive : ∀ q, t.live q = s.live q := by
    intro q
    obtain ⟨c, hc⟩ := hp q
    rw [KState.live, hc]; rfl
  refine ⟨?_, fun q hq => ?_, ?_, ?_, fun i hi hl => ?_⟩
  · rw [hw, held_congr hframes hr]; exact h.account
  · rw [hframes]; exact h.procs q (by rwa [← hlive])
  · rw [hr]; exact h.regions
  · rw [hr]; exact h.small
  · rw [hr] at hl ⊢
    obtain ⟨q, hq, hid⟩ := h.owned i hi hl
    obtain ⟨c, hc⟩ := hp q
    exact ⟨q, ⟨hq.1, by rw [hlive]; exact hq.2⟩, by rw [hc]; exact hid⟩

/-- the account of process `p`'s own allocator -/
theorem ok (h : Accounted F s) {p : ℕ} (hp : p < MAX_PROCS) : (s.allocFor p).Ok F (heldBut s p) := by
  have := h.account
  rw [held_proc hp] at this
  exact this

end Accounted

theorem ok_alloc {rest : Multiset ℕ} : ∀ r : RecordingAlloc, r.Ok F rest → r.allocFrame.2.Ok F rest := by
  intro r h
  cases hp : r.allocFrame.1 with
  | none => exact (RecordingAlloc.allocFrame_none h hp).1
  | some p => exact (RecordingAlloc.allocFrame_some h hp).2.1

theorem ok_write {rest : Multiset ℕ} :
    ∀ (r : RecordingAlloc) m, r.Ok F rest → RecordingAlloc.Ok F rest { r with w := { r.w with mem := m } } :=
  fun _ _ h => h

/-! ## The moves -/

theorem unmaps_unmapPages_device (s : KState) (p : ℕ) :
    Unmaps A p {devicePage A} s (s.unmapPages A p A.userMmioBase DEVICE_PAGES) := by
  refine (unmaps_pages A s p A.mmio_aligned fun i hi => ?_).congr ?_
  · obtain rfl : i = 0 := Nat.lt_one_iff.1 hi
    exact devicePage_own A
  · ext v
    simp [DEVICE_PAGES, devicePage]

/-- after a capability is gone, the device window and the slots still in use rest on others; the rest of the space stays -/
theorem unmaps_detach (s : KState) (p : ℕ) : ∃ S, Unmaps A p S s (detach A p s) ∧
    (capsHoldMmio (s.procs p).caps = false → devicePage A ∈ S) ∧
    (∀ k < SHARE_SLOTS, ((detach A p s).procs p).shares k ≠ 0 →
      capsHoldRegion (s.procs p).caps (((detach A p s).procs p).shares k) CapRights.READ = true) ∧
    ∀ v ∈ S, capsHoldMmio (s.procs p).caps = false ∧ v = devicePage A ∨
      v ∈ heldPages A s p SHARE_SLOTS fun id => id ≠ 0 ∧ capsHoldRegion (s.procs p).caps id CapRights.READ = false := by
  rw [detach]
  split_ifs with hm
  · obtain ⟨S, hS, hsub, hslots⟩ := unmaps_unheld A s p
    exact ⟨S, hS, fun hc => absurd (hm.symm.trans hc) (by decide), hslots, fun v hv => Or.inr (hsub v hv)⟩
  · have hd := unmaps_deviceWindow A s p
    obtain ⟨S, hS, hsub, hslots⟩ := unmaps_unheld A (unmapDeviceWindow A p s) p
    refine ⟨_, hd.trans hS, fun _ => Or.inl rfl, fun k hk h0 => ?_, fun v hv => ?_⟩
    · have := hslots k hk h0
      rwa [Process.caps_eq (hd.authority p)] at this
    · exact hv.imp (fun hv => ⟨Bool.eq_false_iff.2 hm, hv⟩) fun hv => hsub v hv

theorem Accounted.mapRegion (h : Accounted F s) {p id : ℕ} (hp : s.Alive p) (rights : CapRights) :
    Accounted F (mapRegion A p id rights s).2 := by
  have hso := spaceOnly_mapRegion A s p id rights
  refine h.charge hp (fun q => Process.live_eq (hso.authority q)) (fun q => Process.id_eq (hso.authority q))
    (fun q hq => by rw [hso.other hq]) hso.regions ?_
  rw [Kernel.mapRegion]
  cases s.regionSlot id with
  | none => exact h.ok hp.1
  | some idx =>
    simp only
    cases (firstIdx SHARE_SLOTS fun i => (s.procs p).shares i == id).or
        (firstIdx SHARE_SLOTS fun i => (s.procs p).shares i == 0) with
    | none => exact h.ok hp.1
    | some slot =>
      simp only
      have hok : ((s.unmapPages A p (shareVa A slot) REGION_MAX_PAGES).allocFor p).Ok F (heldBut s p) := h.ok hp.1
      set t := s.unmapPages A p (shareVa A slot) REGION_MAX_PAGES
      have h1 := mapShare_keep (A := A) ok_alloc ok_write (A.root (t.procs p).token) (shareVa A slot)
        (if rights.contains CapRights.WRITE then Perms.USER_RW else Perms.USER_RO) (t.regions idx).frames 0 hok
      rcases hm : mapShare A (A.root (t.procs p).token) (shareVa A slot)
        (if rights.contains CapRights.WRITE then Perms.USER_RW else Perms.USER_RO) (t.regions idx).frames 0
        (t.allocFor p) with ⟨_ | _, r⟩
      · rw [hm] at h1
        have h2 : Account F r.w.fa (r.frames + heldBut s p) := h1
        simpa [KState.afterAlloc] using h2
      · rw [hm] at h1
        have h2 : Account F r.w.fa (r.frames + heldBut s p) := h1
        simpa [KState.afterAlloc] using h2

theorem Accounted.mapDevice (h : Accounted F s) {p : ℕ} (hp : s.Alive p) (hcur : p = s.current) (phys pages : ℕ)
    (writable : Bool) : Accounted F (mapDevice A C p phys pages writable s).2 := by
  have hso := spaceOnly_mapDevice A C s hcur phys pages writable
  refine h.charge hp (fun q => Process.live_eq (hso.authority q)) (fun q => Process.id_eq (hso.authority q))
    (fun q hq => by rw [hso.other hq]) hso.regions ?_
  rw [Kernel.mapDevice]
  split_ifs
  · exact h.ok hp.1
  have hok : ((s.unmapPages A p A.userMmioBase DEVICE_PAGES).allocFor p).Ok F (heldBut s p) := h.ok hp.1
  simp only
  set t := s.unmapPages A p A.userMmioBase DEVICE_PAGES
  have h1 := mapWindow_keep (A := A) ok_alloc ok_write (A.root (t.procs p).token) phys
    ⟨writable, false, true, isDevice A C phys⟩ (List.range pages) hok
  rcases hm : mapWindow A (A.root (t.procs p).token) phys ⟨writable, false, true, isDevice A C phys⟩
    (List.range pages) (t.allocFor p) with ⟨_ | _, r⟩
  · rw [hm] at h1
    have h2 : Account F r.w.fa (r.frames + heldBut s p) := h1
    simpa [KState.afterAlloc] using h2
  · rw [hm] at h1
    have h2 : Account F r.w.fa (r.frames + heldBut s p) := h1
    simpa [KState.afterAlloc] using h2

/-- frames of the arena come out of the free ones, and go back if there are too few -/
theorem takeDmaFrames_account (n : ℕ) (got : List ℕ) {H : Multiset ℕ} {w w' : Machine} {out : Option (List ℕ)}
    (h : Account F w.fa (got + H)) (hrun : takeDmaFrames n got w = (out, w')) :
    (out = none → Account F w'.fa H) ∧
      ∀ frames, out = some frames → Account F w'.fa (frames + H) ∧ frames.length = got.length + n := by
  induction n generalizing got w with
  | zero =>
    obtain ⟨rfl, rfl⟩ := Prod.mk.inj hrun
    refine ⟨fun he => by simp at he, fun frames he => ?_⟩
    obtain rfl := Option.some.inj he
    exact ⟨h, rfl⟩
  | succ n ih =>
    rw [takeDmaFrames] at hrun
    rcases ha : w.fa.allocDmaFrame with ⟨_ | frame, fa⟩
    · have hnone := h.allocDmaFrame_none (by rw [ha])
      rw [ha] at hnone hrun
      obtain ⟨rfl, rfl⟩ := Prod.mk.inj hrun
      refine ⟨fun _ => ?_, fun frames he => by simp at he⟩
      rw [Machine.fa_freeFrames]
      exact hnone.freeAll
    · obtain ⟨-, hsome⟩ := h.allocDmaFrame (p := frame) (by rw [ha])
      rw [ha] at hsome hrun
      have hgot : Account F fa ((got ++ [frame] : List ℕ) + H) := hsome.enlist
      obtain ⟨h1, h2⟩ := ih (got ++ [frame]) (w := { w.handOut with fa := fa }.zeroFrame frame) hgot hrun
      refine ⟨h1, fun frames he => ⟨(h2 frames he).1, ?_⟩⟩
      rw [(h2 frames he).2, List.length_append, List.length_singleton]
      omega

namespace Accounted

/-- the allocator alone moved, and came back -/
theorem machine (h : Accounted F s) {w : Machine} (hw : Account F w.fa (held s)) : Accounted F { s with w := w } :=
  ⟨hw, h.procs, h.regions, h.small, h.owned⟩

theorem make (h : Accounted F s) {p pages v : ℕ} {rights : CapRights} (hp : s.Alive p) (hpages : pages ≤ REGION_MAX_PAGES)
    (hrun : makeRegion p pages rights s = .ok (v, t)) : Accounted F t := by
  have hnil : Account F s.w.fa (([] : List ℕ) + held s) := h.account.congr (zero_add _).symm
  rcases wp_ok (makeRegion_spec p pages rights s) hrun with
    ⟨-, rfl | ⟨w, hw, rfl⟩ | ⟨frames, w, hw, rfl⟩⟩ | ⟨idx, frames, w, cap, caps, hidx, hw, -, -, ht⟩
  · exact h
  · exact h.machine ((takeDmaFrames_account pages [] hnil hw).1 rfl)
  · refine h.machine ?_
    rw [Machine.fa_freeFrames]
    exact ((takeDmaFrames_account pages [] hnil hw).2 frames rfl).1.freeAll
  obtain ⟨hacc, hlen⟩ := (takeDmaFrames_account pages [] hnil hw).2 frames rfl
  obtain ⟨hlt, hfree, -⟩ := firstIdx_some hidx
  have hdead : (s.regions idx).live = false := by simpa using hfree
  have hfa : t.w.fa = w.fa := by rw [ht]; rfl
  have hregs : t.regions = s.regions.put idx ⟨true, s.nextRegionId, (s.procs p).id, frames⟩ := by rw [ht]; rfl
  have hprocs : ∀ q, ∃ c, t.procs q = { s.procs q with caps := c } := by
    intro q
    rw [ht, KState.record_procs, KState.modProc_procs, Table.put_apply]
    split_ifs with hq
    · rw [hq]; exact ⟨_, rfl⟩
    · exact ⟨_, rfl⟩
  have hframes : ∀ q, (t.procs q).frames = (s.procs q).frames := by
    intro q
    obtain ⟨c, hc⟩ := hprocs q
    rw [hc]
  have hlive : ∀ q, t.live q = s.live q := by
    intro q
    obtain ⟨c, hc⟩ := hprocs q
    rw [KState.live, hc]; rfl
  have hpid : ∀ q, (t.procs q).id = (s.procs q).id := by
    intro q
    obtain ⟨c, hc⟩ := hprocs q
    rw [hc]
  refine ⟨?_, fun q hq => ?_, fun i hi => ?_, fun i => ?_, fun i hi hl => ?_⟩
  · -- the slot was empty, so its frames are all that is new
    have hapart : heldApart t idx = heldApart s idx :=
      heldApart_congr hframes fun j hj => by rw [hregs, Table.put_of_ne _ hj]
    rw [held_region hlt, hapart, hfa, hregs, Table.put_self]
    refine hacc.congr ?_
    rw [held_region hlt, h.regions idx hdead]
    simp
  · rw [hframes]
    exact h.procs q (by rw [← hlive]; exact hq)
  · rw [hregs, Table.put_apply] at hi ⊢
    split_ifs at hi ⊢
    exact h.regions i hi
  · rw [hregs, Table.put_apply]
    split_ifs
    · show frames.length ≤ _
      rw [hlen]; simpa using hpages
    · exact h.small i
  · rw [hregs, Table.put_apply] at hl ⊢
    split_ifs at hl ⊢
    · exact ⟨p, ⟨hp.1, (hlive p).trans hp.2⟩, hpid p⟩
    · obtain ⟨q, hq, hid⟩ := h.owned i hi hl
      exact ⟨q, ⟨hq.1, (hlive q).trans hq.2⟩, (hpid q).trans hid⟩

theorem freeRegion (h : Accounted F s) {i : ℕ} (hi : i < MAX_REGIONS) : Accounted F (freeRegion i s) := by
  have hregs : (Kernel.freeRegion i s).regions = s.regions.put i Region.EMPTY := rfl
  refine ⟨?_, h.procs, fun j hj => ?_, fun j => ?_, fun j hj hl => ?_⟩
  · have hapart : heldApart (Kernel.freeRegion i s) i = heldApart s i :=
      heldApart_congr (fun q => rfl) fun j hj => by rw [hregs, Table.put_of_ne _ hj]
    have hacc := h.account
    rw [held_region hi] at hacc
    have hfa : (Kernel.freeRegion i s).w.fa = (s.regions i).frames.foldl BitmapAllocator.freeFrame s.w.fa :=
      Machine.fa_freeFrames _ _
    rw [held_region hi, hapart, hfa, hregs, Table.put_self]
    exact hacc.freeAll.congr (zero_add _)
  · rw [hregs, Table.put_apply] at hj ⊢
    split_ifs at hj ⊢
    · rfl
    · exact h.regions j hj
  · rw [hregs, Table.put_apply]
    split_ifs
    · exact Nat.zero_le _
    · exact h.small j
  · rw [hregs, Table.put_apply] at hl ⊢
    split_ifs at hl ⊢
    · exact absurd hl (by decide)
    · exact h.owned j hj hl

theorem retire (h : Accounted F s) {region i : ℕ} (hsl : s.regionSlot region = some i)
    (hrun : releaseRegion A C region (forgetCaps region s) = .ok ((), t)) : Accounted F t := by
  have hcaps := capsOnly_forgetCaps region s
  have hsl' : (Kernel.forgetCaps region s).regionSlot region = some i := by
    rw [regionSlot_congr hcaps.regions]; exact hsl
  obtain ⟨u, hdma, -, rfl⟩ := wp_ok (releaseRegion_spec (A := A) (C := C) hsl') hrun
  have h1 : Accounted F (forgetCaps region s) := h.caps hcaps.proc (by rw [hcaps.w]) hcaps.regions
  exact (h1.calm hdma.calm).freeRegion (regionSlot_some hsl).2.1

theorem unmapRegionFrom (h : Accounted F s) (p id : ℕ) : Accounted F (unmapRegionFrom A p id s).2 := by
  rw [Kernel.unmapRegionFrom, forAny_snd]
  refine List.foldlRecOn (motive := Accounted F) _ _ h fun t ht slot hslot => ?_
  split_ifs
  · exact ht
  · exact ht.unmaps (unmaps_emptySlot A t p (List.mem_range.1 hslot))

theorem strip {u : KState} (h : Accounted F u) (d : Deleg.Endpoint) :
    wp (strip A C d) (fun _ t => Accounted F t) (· = .ringFull) u := by
  refine wp_mono (strip_parts d u) fun _ t ht => ?_
  rcases ht with rfl | ⟨-, -, v, hv, rfl⟩
  · exact h
  have h1 : Accounted F (u.modProc d.proc fun p => { p with caps := p.caps.revoke d.cap }) := by
    refine h.caps (fun q => ?_) rfl rfl
    rw [KState.modProc_procs, Table.put_apply]
    split_ifs with hq
    · rw [hq]; exact ⟨_, rfl⟩
    · exact ⟨_, rfl⟩
  obtain ⟨S, hS, -⟩ := unmaps_detach (A := A) (u.modProc d.proc fun p => { p with caps := p.caps.revoke d.cap }) d.proc
  exact ((h1.unmaps hS).calm hv.calm).calm (quiet_settle d.proc v).calm

theorem revoke (h : Accounted F s) {cap : ℕ} (hrun : revokeDelegations A C me cap s = .ok ((), t)) : Accounted F t := by
  refine wp_ok (wp_revoke (I := Accounted F) (E := (· = .ringFull)) ?_ fun d _ u hu => hu.strip d) hrun
  exact h.caps (fun q => ⟨_, rfl⟩) rfl rfl

theorem reap (h : Accounted F s) (hp : me < MAX_PROCS)
    (hnone : ∀ i < MAX_REGIONS, (s.regions i).live = true → (s.regions i).ownerId ≠ (s.procs me).id) :
    Accounted F (reap me s) := by
  have hprocs : ∀ q, q ≠ me → (Kernel.reap me s).procs q = s.procs q := by
    intro q hq
    simp [Kernel.reap, Table.put_of_ne _ hq]
  have hme : ((Kernel.reap me s).procs me).frames = [] ∧ (Kernel.reap me s).live me = false := by
    constructor
    · simp [Kernel.reap]
    · simp [Kernel.reap, KState.live, Process.live]
  refine ⟨?_, fun q hq => ?_, h.regions, h.small, fun i hi hl => ?_⟩
  · have hbut : heldBut (Kernel.reap me s) me = heldBut s me := heldBut_congr (fun q hq => by rw [hprocs q hq]) rfl
    rw [held_proc hp, hme.1, hbut]
    have hacc := h.account
    rw [held_proc hp] at hacc
    show Account F (s.w.freeFrames (s.procs me).frames).fa (([] : List ℕ) + heldBut s me)
    rw [Machine.fa_freeFrames]
    exact hacc.freeAll.congr (zero_add _)
  · by_cases hqm : q = me
    · rw [hqm]; exact hme.1
    · rw [KState.live, hprocs q hqm] at hq
      rw [hprocs q hqm]
      exact h.procs q hq
  · obtain ⟨q, hq, hid⟩ := h.owned i hi hl
    have hqm : q ≠ me := fun e => hnone i hi hl (by rw [← hid, e])
    exact ⟨q, ⟨hq.1, by rw [KState.live, hprocs q hqm]; exact hq.2⟩, by rw [hprocs q hqm]; exact hid⟩

theorem buildSpace (h : Accounted F s) : (buildSpace A C ⟨s.w, []⟩).2.Ok F (held s) :=
  buildSpace_keep ok_alloc ok_write (h.account.congr (zero_add _).symm)

theorem loadFailed (h : Accounted F s) {slot id : ℕ} {role : Role}
    (hrun : loadProcess A C slot id role s = .ok (false, t)) : Accounted F t := by
  rcases wp_ok (loadProcess_spec slot id role s) hrun with ⟨-, rfl | ⟨r, hb, rfl⟩⟩ | ⟨hf, -⟩
  · exact h
  · have hok := h.buildSpace (A := A) (C := C)
    rw [hb] at hok
    refine h.machine ?_
    rw [Machine.fa_freeFrames]
    exact Account.freeAll hok
  · exact absurd hf (by decide)

theorem loaded (h : Accounted F s) {slot id : ℕ} {role : Role} (hslot : slot < MAX_PROCS) (hfree : s.live slot = false)
    (hrun : loadProcess A C slot id role s = .ok (true, t)) : Accounted F t := by
  rcases wp_ok (loadProcess_spec slot id role s) hrun with ⟨hf, -⟩ | ⟨-, token, entry, r, hb, ht⟩
  · exact absurd hf (by decide)
  have hok := h.buildSpace (A := A) (C := C)
  rw [hb] at hok
  have hslot' : t.procs slot = freshProcess A C (s.procs slot) token entry id role r.frames := by
    rw [ht, KState.record_procs, KState.modProc_procs, Table.put_self]
  have hother : ∀ q, q ≠ slot → t.procs q = s.procs q := by
    intro q hq
    rw [ht, KState.record_procs, KState.modProc_procs, Table.put_of_ne _ hq]
  have hfa : t.w.fa = r.w.fa := by rw [ht]; rfl
  have hregs : t.regions = s.regions := by rw [ht]; rfl
  refine ⟨?_, fun q hq => ?_, ?_, ?_, fun i hi hl => ?_⟩
  · have hheld : held s = heldBut s slot := by
      rw [held_proc hslot, h.procs slot hfree]
      exact zero_add _
    have hbut : heldBut t slot = heldBut s slot := heldBut_congr (fun q hq => by rw [hother q hq]) hregs
    rw [held_proc hslot, hbut, ← hheld, hslot', hfa]
    exact hok
  · by_cases hqs : q = slot
    · rw [hqs, KState.live, hslot'] at hq
      exact absurd hq (by simp [freshProcess, Process.live])
    · rw [KState.live, hother q hqs] at hq
      rw [hother q hqs]
      exact h.procs q hq
  · rw [hregs]; exact h.regions
  · rw [hregs]; exact h.small
  · rw [hregs] at hl ⊢
    obtain ⟨q, hq, hid⟩ := h.owned i hi hl
    have hqs : q ≠ slot := fun e => by
      have := hq.2
      rw [e, hfree] at this
      exact absurd this (by decide)
    exact ⟨q, ⟨hq.1, by rw [KState.live, hother q hqs]; exact hq.2⟩, by rw [hother q hqs]; exact hid⟩

theorem handOver (h : Accounted F s) (cur slot arg childId : ℕ) (c : Capabilities.CapSlot) :
    Accounted F (handOver cur slot arg childId c s) := by
  rw [Kernel.handOver]
  rcases (s.procs slot).caps.insert c.capType c.rights c.object with _ | ⟨childCap, caps⟩
  · exact h
  · refine h.caps (fun q => ?_) rfl rfl
    simp only [KState.record_procs, KState.modProc_procs, Table.put_apply]
    split_ifs with hq
    · rw [hq]; exact ⟨_, rfl⟩
    · exact ⟨_, rfl⟩

/-- **Every move keeps the account.** -/
theorem move (h : Accounted F s) (hm : Move A C G me k s t) : Accounted F t := by
  cases hm with
  | control hc => exact h.calm hc.quiet.calm
  | @receive p => exact h.calm (calm_takeMessage p s)
  | store | copy => exact h.calm (calm_setMem s _)
  | mapRegion hme => exact h.mapRegion hme _
  | mapDevice hme hcur => exact h.mapDevice hme hcur _ _ _
  | unmapDevice => exact h.unmaps (unmaps_deviceWindow A s me)
  | unmapRegion => exact h.unmapRegionFrom me _
  | unmapShare _ hslot =>
    obtain ⟨⟨S, hS⟩, -⟩ := unmaps_shareSlot A s _ hslot
    exact h.unmaps hS
  | make hme _ hpages _ _ hrun => exact h.make hme hpages hrun
  | mapDma => exact h.calm (dmaOnly_mapDma me _ _ _ s).calm
  | unmapDma _ _ hrun => exact h.calm (wp_ok (dmaOnly_unmapDma me _ _ s) hrun).calm
  | withdrawAll _ _ hrun => exact h.calm (wp_ok (dmaOnly_withdrawAllDmaOf me s) hrun).calm
  | retire _ hsl _ _ hrun => exact h.retire hsl hrun
  | revoke _ _ _ hrun => exact h.revoke hrun
  | reap hme _ hnone => exact (h.reap hme.1 hnone).calm (quiet_refusePeers _).calm
  | loadFailed _ _ _ hrun => exact h.loadFailed hrun
  | boot _ hi hfree hrun => exact (h.loaded (hi.trans_le (by decide)) hfree hrun).caps (fun q => ⟨_, rfl⟩) rfl rfl
  | @spawn u slot arg requested childId cap _ _ _ hslot hfree _ _ hrun =>
    have hu := h.loaded hslot hfree hrun
    suffices hdone : Accounted F (cap.elim u fun c => Kernel.handOver me slot arg childId c u) from
      hdone.caps (fun q => ⟨_, rfl⟩) rfl rfl
    cases cap with
    | none => exact hu
    | some c => exact hu.handOver me slot arg childId c

end Accounted

/-! ## Every reachable state -/

theorem PreUserland.accounted {s₀ : KState} (h₀ : PreUserland A C s₀) : Accounted (freeAddrs s₀.w.fa) s₀ := by
  have hdead : ∀ i, (s₀.regions i).live = true → False := fun i hl => by
    rw [h₀.noRegions] at hl; exact absurd hl (by decide)
  refine ⟨h₀.account.congr ?_, fun p _ => by rw [h₀.noProcs]; rfl, fun i _ => by rw [h₀.noRegions]; rfl,
    fun i => by rw [h₀.noRegions]; exact Nat.zero_le _, fun i _ hl => (hdead i hl).elim⟩
  have hp : procFrames s₀ = 0 := Finset.sum_eq_zero fun p _ => by rw [h₀.noProcs]; rfl
  have hr : regionFrames s₀ = 0 := Finset.sum_eq_zero fun i _ => by rw [h₀.noRegions]; rfl
  rw [held, hp, hr, add_zero]

theorem Reachable.accounted {s₀ : KState} (h₀ : PreUserland A C s₀) (h : Reachable A C s₀ s) :
    Accounted (freeAddrs s₀.w.fa) s :=
  Reachable.keep h₀ h₀.accounted (fun hm ha => ha.move hm) h

def liveProcs (s : KState) : Finset ℕ := (Finset.range MAX_PROCS).filter fun p => s.live p = true

def liveRegions (s : KState) : Finset ℕ := (Finset.range MAX_REGIONS).filter fun i => (s.regions i).live = true

/-- how often the frame lists of the live processes and regions name `f` -/
def listings (s : KState) (f : ℕ) : ℕ :=
  ∑ p ∈ liveProcs s, (s.procs p).frames.count f + ∑ i ∈ liveRegions s, (s.regions i).frames.count f

namespace Accounted

/-- a sum over the frame lists is one over those of the living -/
theorem sum_held (h : Accounted F s) {g : List ℕ → ℕ} (hg : g [] = 0) :
    ∑ p ∈ Finset.range MAX_PROCS, g (s.procs p).frames = ∑ p ∈ liveProcs s, g (s.procs p).frames ∧
      ∑ i ∈ Finset.range MAX_REGIONS, g (s.regions i).frames = ∑ i ∈ liveRegions s, g (s.regions i).frames := by
  constructor
  · refine (Finset.sum_filter_of_ne fun p _ hne => ?_).symm
    by_contra hl
    exact hne (by rw [h.procs p (by simpa using hl), hg])
  · refine (Finset.sum_filter_of_ne fun i _ hne => ?_).symm
    by_contra hl
    exact hne (by rw [h.regions i (by simpa using hl), hg])

theorem count_held (h : Accounted F s) (f : ℕ) : (held s).count f = listings s f := by
  obtain ⟨hp, hr⟩ := h.sum_held (g := fun l => l.count f) rfl
  rw [held, procFrames, regionFrames, Multiset.count_add, Multiset.count_sum', Multiset.count_sum', listings, ← hp, ← hr]
  simp only [Multiset.coe_count]

theorem card_held (h : Accounted F s) : (held s).card =
    ∑ p ∈ liveProcs s, (s.procs p).frames.length + ∑ i ∈ liveRegions s, (s.regions i).frames.length := by
  obtain ⟨hp, hr⟩ := h.sum_held (g := List.length) rfl
  rw [held, procFrames, regionFrames, Multiset.card_add, Multiset.card_sum, Multiset.card_sum, ← hp, ← hr]
  rfl

/-- with nobody left, everything is free again -/
theorem all_free (h : Accounted F s) (hdead : ∀ p, ¬ s.Alive p) : s.w.fa.free = F.card := by
  have hp : liveProcs s = ∅ :=
    Finset.filter_eq_empty_iff.2 fun p hp hl => hdead p ⟨Finset.mem_range.1 hp, hl⟩
  have hr : liveRegions s = ∅ := Finset.filter_eq_empty_iff.2 fun i hi hl => by
    obtain ⟨p, hp, -⟩ := h.owned i (Finset.mem_range.1 hi) hl
    exact hdead p hp
  have hcard := h.account.count
  rw [h.card_held, hp, hr] at hcard
  simpa using hcard

end Accounted

/-- the shutdown reports a leak only if the free count is off -/
theorem finalVerdict_leak (h : finalVerdict A C s = .leak) : s.w.fa.free ≠ C.freeAtStart := by
  have hdomain : ∀ di, domainVerdict C s di ≠ some .leak := by
    intro di hd
    rw [domainVerdict] at hd
    split_ifs at hd <;> simp at hd
  rw [finalVerdict] at h
  by_cases hstale : A.iommu = true ∧ anyIdx MAX_DOMAINS (staleIn C s) = true
  · rw [if_pos hstale] at h
    simp at h
  rw [if_neg hstale] at h
  cases hv : (List.range MAX_DOMAINS).findSome? (domainVerdict C s) with
  | some v =>
    rw [hv] at h
    obtain ⟨di, -, hdi⟩ := List.exists_of_findSome?_eq_some hv
    exact absurd (h ▸ hdi) (hdomain di)
  | none =>
    rw [hv] at h
    by_cases hleak : C.freeAtStart ≠ 0 ∧ s.w.fa.free ≠ C.freeAtStart
    · exact hleak.2
    · simp only [if_neg hleak] at h
      split_ifs at h

/-- **Frames are conserved.** What is free and what the living list adds up to what was free when userland started, every
frame taken since is listed once, and the leak check at shutdown never fails. -/
theorem frames_conserved {s₀ : KState} (h₀ : PreUserland A C s₀) :
    (∀ s, Reachable A C s₀ s →
      s.w.fa.free + (∑ p ∈ liveProcs s, (s.procs p).frames.length +
        ∑ i ∈ liveRegions s, (s.regions i).frames.length) = C.freeAtStart ∧
      ∀ f ∈ freeAddrs s₀.w.fa, f ∉ freeAddrs s.w.fa → listings s f = 1) ∧
    bootUserland A C s₀ ≠ .error .leak ∧
    ∀ s i, Reachable A C s₀ s → Enabled A s i → handle A C i s ≠ .error .leak := by
  have hstart : (freeAddrs s₀.w.fa).card = C.freeAtStart := by
    have := h₀.account.count
    rw [h₀.sampled, ← this, Multiset.card_zero, add_zero]
  refine ⟨fun s h => ⟨?_, fun f hf hnot => ?_⟩, fun hb => ?_, fun s i h hen hrun => ?_⟩
  · have ha := h.accounted h₀
    rw [← ha.card_held, ha.account.count, hstart]
  · have ha := h.accounted h₀
    have hmem : f ∈ held s := by
      have hf' := hf
      rw [← ha.account.balance, Multiset.mem_add] at hf'
      exact hf'.resolve_left hnot
    rw [← ha.count_held]
    exact Multiset.count_eq_one_of_mem ha.account.held_nodup hmem
  · rcases wp_error (boot_moves (G := Gate.all) (k := .fresh UserFrame.ZERO) h₀) hb with he | he
    all_goals simp at he
  · obtain ⟨t, hm, hdead, hv⟩ := wp_error (handle_moves (h.ready h₀) hen (Gate.admits_all _ _ _)) hrun |>.leak rfl
    have ha : Accounted (freeAddrs s₀.w.fa) t := Moves.keep (fun _ _ hstep hs => hs.move hstep) hm (h.accounted h₀)
    exact finalVerdict_leak hv ((ha.all_free hdead).trans hstart)

/-- the small machine gives back what it takes -/
theorem smallRun_conserves :
    (∀ s, Reachable Riscv (smallConfig emptyImage ROLE_GRANTS 0) (smallState 0) s →
      s.w.fa.free + (∑ p ∈ liveProcs s, (s.procs p).frames.length +
        ∑ i ∈ liveRegions s, (s.regions i).frames.length) = (smallConfig emptyImage ROLE_GRANTS 0).freeAtStart ∧
      ∀ f ∈ freeAddrs (smallState 0).w.fa, f ∉ freeAddrs s.w.fa → listings s f = 1) ∧
    bootUserland Riscv (smallConfig emptyImage ROLE_GRANTS 0) (smallState 0) ≠ .error .leak ∧
    ∀ s i, Reachable Riscv (smallConfig emptyImage ROLE_GRANTS 0) (smallState 0) s → Enabled Riscv s i →
      handle Riscv (smallConfig emptyImage ROLE_GRANTS 0) i s ≠ .error .leak :=
  frames_conserved (smallState_ready emptyImage ROLE_GRANTS 0)

end Rustproof.Kernel
