/-
What `Control` steps leave alone, and the region table.

`Control.quiet`: a control step is `Quiet`. `Move.regions`: what a move may do to the region table. `RegionIds.move`: live
regions keep distinct identities, because `make_region` takes the next one and nothing else makes a region.
-/
import Rustproof.Kernel.Saved

namespace Rustproof.Kernel

open Lib Prog

variable {A : Arch} {C : Config} {G : Gate} {me : ℕ} {k : Trap} {s s' : KState}

/-! ## Control steps -/

namespace Quiet

theorem refl (s : KState) : Quiet s s :=
  ⟨fun _ => rfl, fun _ => rfl, fun _ => rfl, fun _ _ => Or.inl, rfl, rfl, rfl, ⟨[], by simp⟩, rfl, rfl, rfl, rfl, rfl, rfl⟩

theorem trans {t : KState} (h : Quiet s t) (h' : Quiet t s') : Quiet s s' := by
  refine ⟨fun p => (h'.authority p).trans (h.authority p), fun p => (h'.space p).trans (h.space p),
    fun p => (h'.dma p).trans (h.dma p), fun p line hne => ?_, h'.mem.trans h.mem, h'.fa.trans h.fa,
    h'.handouts.trans h.handouts, ?_, h'.regions.trans h.regions, h'.nextRegionId.trans h.nextRegionId,
    h'.ledger.trans h.ledger, h'.domains.trans h.domains, h'.cmdTail.trans h.cmdTail, h'.timeouts.trans h.timeouts⟩
  · rcases h'.irq p line hne with h1 | h1
    · exact h.irq p line h1
    · rw [Process.caps_eq (h.authority p)] at h1; exact Or.inr h1
  · obtain ⟨x, hx, hsx⟩ := h.history
    obtain ⟨y, hy, hsy⟩ := h'.history
    exact ⟨x ++ y, by rw [hy, hx, List.append_assoc], fun e he => (List.mem_append.1 he).elim (hsx e) (hsy e)⟩

/-- a step that changes one process's registers, rendezvous state or credits -/
theorem modProc (s : KState) (i : ℕ) (f : Process → Process) (ha : (f (s.procs i)).authority = (s.procs i).authority)
    (hsp : (f (s.procs i)).space = (s.procs i).space) (hd : (f (s.procs i)).dma = (s.procs i).dma)
    (hirq : ∀ line, (f (s.procs i)).irqPending line ≠ 0 →
      (s.procs i).irqPending line ≠ 0 ∨ capsHoldIrq (s.procs i).caps line = true) : Quiet s (s.modProc i f) := by
  have key : ∀ p, (s.modProc i f).procs p = if p = i then f (s.procs i) else s.procs p := fun _ => rfl
  refine ⟨fun p => ?_, fun p => ?_, fun p => ?_, fun p line hne => ?_, rfl, rfl, rfl, ⟨[], by simp⟩, rfl, rfl, rfl, rfl,
    rfl, rfl⟩
  · rw [key]; split_ifs with h
    · rw [h]; exact ha
    · rfl
  · rw [key]; split_ifs with h
    · rw [h]; exact hsp
    · rfl
  · rw [key]; split_ifs with h
    · rw [h]; exact hd
    · rfl
  · rw [key] at hne
    split_ifs at hne with h
    · rw [h]; exact hirq line hne
    · exact Or.inl hne

theorem enqueue (s : KState) (i : ℕ) : Quiet s (s.enqueue i) :=
  ⟨fun _ => rfl, fun _ => rfl, fun _ => rfl, fun _ _ => Or.inl, rfl, rfl, rfl, ⟨[_], rfl, by simp [Event.scheduling]⟩, rfl, rfl,
    rfl, rfl, rfl, rfl⟩

theorem dequeue (s : KState) (i : ℕ) : Quiet s (s.dequeue i) :=
  ⟨fun _ => rfl, fun _ => rfl, fun _ => rfl, fun _ _ => Or.inl, rfl, rfl, rfl, ⟨[], by simp⟩, rfl, rfl, rfl, rfl, rfl, rfl⟩

/-- waking a parked process -/
theorem ready (s : KState) {i : ℕ} (f : Process → Process) (hwas : (s.procs i).state ≠ .free)
    (hstate : (f (s.procs i)).state = .ready)
    (ha : ((f (s.procs i)).id, (f (s.procs i)).role, (f (s.procs i)).caps) =
      ((s.procs i).id, (s.procs i).role, (s.procs i).caps))
    (hsp : (f (s.procs i)).space = (s.procs i).space) (hd : (f (s.procs i)).dma = (s.procs i).dma)
    (hirq : (f (s.procs i)).irqPending = (s.procs i).irqPending) : Quiet s ((s.modProc i f).enqueue i) := by
  refine (modProc s i f ?_ hsp hd fun line hne => Or.inl (by rwa [hirq] at hne)).trans (enqueue _ i)
  have hl : (f (s.procs i)).live = (s.procs i).live := by
    rw [Process.live, Process.live, hstate, (bne_iff_ne (b := ProcState.free)).2 hwas]; rfl
  exact congrArg₂ Prod.mk hl ha

end Quiet

theorem Control.quiet (h : Control A me k s s') : Quiet s s' := by
  cases h with
  | count | switch => exact ⟨fun _ => rfl, fun _ => rfl, fun _ => rfl, fun _ _ => Or.inl, rfl, rfl, rfl, ⟨[], by simp⟩, rfl, rfl,
      rfl, rfl, rfl, rfl⟩
  | resumed => exact ⟨fun _ => rfl, fun _ => rfl, fun _ => rfl, fun _ _ => Or.inl, rfl, rfl, rfl,
      ⟨[_], rfl, by simp [Event.scheduling]⟩, rfl, rfl, rfl, rfl, rfl, rfl⟩
  | credit _ hirq => exact Quiet.modProc s _ _ rfl rfl rfl hirq
  | wakeIrq _ hst => exact Quiet.ready s _ (by simp [hst]) rfl rfl rfl rfl rfl
  | deliver _ _ _ hst => exact Quiet.ready s _ (by simp [hst]) rfl rfl rfl rfl rfl
  | release _ _ _ hst => exact Quiet.ready s _ (by simp [hst]) rfl rfl rfl rfl rfl
  | message | persist => exact Quiet.modProc s _ _ rfl rfl rfl fun _ => Or.inl
  | block hme _ hpark =>
    refine (Quiet.modProc s me _ ?_ rfl rfl fun _ => Or.inl).trans (Quiet.dequeue _ me)
    rename_i st _ _
    have hl : (s.procs me).live = true := hme.2
    have hst : (st != ProcState.free) = true := (bne_iff_ne (b := ProcState.free)).2 hpark.live
    rw [Process.authority, Process.authority, hl, Process.live, hst]

/-! ## The region table -/

theorem RegionIds.congr (h : RegionIds s) (hr : s'.regions = s.regions) (hn : s'.nextRegionId = s.nextRegionId) :
    RegionIds s' :=
  ⟨by rw [hn]; exact h.next, by rw [hr, hn]; exact h.below, by rw [hr]; exact h.pos, by rw [hr]; exact h.inj⟩

/-- `make_region` gives the next identity out -/
theorem RegionIds.make (h : RegionIds s) {idx : ℕ} {r : Region} (hid : r.id = s.nextRegionId)
    (hr : s'.regions = s.regions.put idx r) (hn : s'.nextRegionId = s.nextRegionId + 1) :
    RegionIds s' := by
  have old : ∀ i, (s'.regions i).live = true → i ≠ idx → s'.regions i = s.regions i := fun i _ hne => by
    rw [hr, Table.put_of_ne _ hne]
  have new : (s'.regions idx).id = s.nextRegionId := by rw [hr, Table.put_self]; exact hid
  refine ⟨by rw [hn]; exact Nat.succ_ne_zero _, fun i hi hl => ?_, fun i hi hl => ?_, fun i hi j hj hli hlj he => ?_⟩
  · rw [hn]
    by_cases hx : i = idx
    · rw [hx, new]; exact Nat.lt_succ_self _
    · have he := old i hl hx
      rw [he] at hl ⊢
      exact (h.below i hi hl).trans (Nat.lt_succ_self _)
  · by_cases hx : i = idx
    · rw [hx, new]; exact h.next
    · have he := old i hl hx
      rw [he] at hl ⊢
      exact h.pos i hi hl
  · by_cases hx : i = idx <;> by_cases hy : j = idx
    · rw [hx, hy]
    · have hj' := old j hlj hy
      rw [hx, new, hj'] at he
      exact absurd he (h.below j hj (hj' ▸ hlj)).ne'
    · have hi' := old i hli hx
      rw [hy, new, hi'] at he
      exact absurd he (h.below i hi (hi' ▸ hli)).ne
    · have hi' := old i hli hx
      have hj' := old j hlj hy
      rw [hi', hj'] at he
      exact h.inj i hi j hj (hi' ▸ hli) (hj' ▸ hlj) he

/-- the end of a region -/
theorem RegionIds.empty (h : RegionIds s) (idx : ℕ) (hr : s'.regions = s.regions.put idx Region.EMPTY)
    (hn : s'.nextRegionId = s.nextRegionId) : RegionIds s' := by
  have old : ∀ i, (s'.regions i).live = true → s'.regions i = s.regions i := fun i hl => by
    rw [hr, Table.put_apply] at hl ⊢
    split_ifs at hl ⊢
    · exact absurd hl (by decide)
    · rfl
  refine ⟨by rw [hn]; exact h.next, fun i hi hl => ?_, fun i hi hl => ?_, fun i hi j hj hli hlj he => ?_⟩
  · rw [old i hl, hn]; exact h.below i hi (by rwa [old i hl] at hl)
  · rw [old i hl]; exact h.pos i hi (by rwa [old i hl] at hl)
  · rw [old i hli, old j hlj] at he
    exact h.inj i hi j hj (by rwa [old i hli] at hli) (by rwa [old j hlj] at hlj) he

theorem regions_settle (p : ℕ) (s : KState) :
    (settle A p s).regions = s.regions ∧ (settle A p s).nextRegionId = s.nextRegionId := by
  rw [settle]
  split_ifs <;> exact ⟨rfl, rfl⟩

theorem regions_refusePeers (s : KState) :
    (refusePeers A s).regions = s.regions ∧ (refusePeers A s).nextRegionId = s.nextRegionId := by
  rw [refusePeers]
  refine List.foldlRecOn (motive := fun t : KState => t.regions = s.regions ∧ t.nextRegionId = s.nextRegionId) _ _
    ⟨rfl, rfl⟩ fun t ht i _ => ?_
  rw [refuseUnanswerable]
  cases awaited t i with
  | none => exact ht
  | some en =>
    simp only
    split_ifs <;> exact ht

theorem regions_strip (d : Deleg.Endpoint) (s : KState) :
    wp (strip A C d) (fun _ t => t.regions = s.regions ∧ t.nextRegionId = s.nextRegionId) (· = .ringFull) s := by
  refine wp_mono (strip_spec d s) fun _ t ht => ?_
  rcases ht with rfl | ⟨-, -, v, hv, rfl⟩
  · exact ⟨rfl, rfl⟩
  · obtain ⟨h1, h2⟩ := regions_settle (A := A) d.proc v
    exact ⟨h1.trans hv.regions, h2.trans hv.nextRegionId⟩

/-- **What a move may do to the region table**: nothing, make a region under the next identity in an empty slot for an owner
below its quota, or end one whose capabilities are gone by then. -/
theorem Move.regions (h : Move A C G me k s s') :
    s'.regions = s.regions ∧ s'.nextRegionId = s.nextRegionId ∨
    (∃ idx r, (s.regions idx).live = false ∧ r.id = s.nextRegionId ∧ s'.regions = s.regions.put idx r ∧
      s'.nextRegionId = s.nextRegionId + 1 ∧ (s.owned r.ownerId).length < REGION_QUOTA) ∨
    ∃ region i, s.regionSlot region = some i ∧ s'.regions = s.regions.put i Region.EMPTY ∧
      s'.nextRegionId = s.nextRegionId ∧ ∀ p, (s'.procs p).authority = ((forgetCaps region s).procs p).authority := by
  cases h with
  | control hc => exact Or.inl ⟨hc.quiet.regions, hc.quiet.nextRegionId⟩
  | receive =>
    refine Or.inl ⟨?_, ?_⟩
    all_goals rw [takeMessage]; split <;> rfl
  | store | copy | unmapDevice => exact Or.inl ⟨rfl, rfl⟩
  | mapRegion => exact Or.inl ⟨(spaceOnly_mapRegion A s me _ _).regions, (spaceOnly_mapRegion A s me _ _).nextRegionId⟩
  | mapDevice _ hcur =>
    exact Or.inl ⟨(spaceOnly_mapDevice A C s hcur _ _ _).regions, (spaceOnly_mapDevice A C s hcur _ _ _).nextRegionId⟩
  | unmapRegion =>
    exact Or.inl ⟨(spaceOnly_unmapRegionFrom A s me _).regions, (spaceOnly_unmapRegionFrom A s me _).nextRegionId⟩
  | unmapShare => exact Or.inl ⟨(spaceOnly_unmapShareSlot A s _ _).regions, (spaceOnly_unmapShareSlot A s _ _).nextRegionId⟩
  | make _ _ _ _ _ hrun =>
    rcases wp_ok (makeRegion_spec me _ _ s) hrun with
      ⟨-, rfl | ⟨w, -, rfl⟩ | ⟨frames, w, -, rfl⟩⟩ | ⟨idx, frames, w, cap, caps, hidx, -, -, ⟨-, -, hquota⟩, rfl⟩
    · exact Or.inl ⟨rfl, rfl⟩
    · exact Or.inl ⟨rfl, rfl⟩
    · exact Or.inl ⟨rfl, rfl⟩
    · have hfree := (firstIdx_some hidx).2.1
      exact Or.inr (Or.inl ⟨idx, _, by simpa using hfree, rfl, rfl, rfl, hquota⟩)
  | mapDma => exact Or.inl ⟨(dmaOnly_mapDma me _ _ _ s).regions, (dmaOnly_mapDma me _ _ _ s).nextRegionId⟩
  | unmapDma _ _ hrun =>
    have hd := wp_ok (dmaOnly_unmapDma me _ _ s) hrun
    exact Or.inl ⟨hd.regions, hd.nextRegionId⟩
  | withdrawAll _ _ hrun =>
    have hd := wp_ok (dmaOnly_withdrawAllDmaOf me s) hrun
    exact Or.inl ⟨hd.regions, hd.nextRegionId⟩
  | @retire _ region i _ hsl _ _ hrun =>
    have hcaps := capsOnly_forgetCaps region s
    have hsl' : (forgetCaps region s).regionSlot region = some i := by rw [regionSlot_congr hcaps.regions]; exact hsl
    obtain ⟨t, hdma, -, rfl⟩ := wp_ok (releaseRegion_spec (A := A) (C := C) hsl') hrun
    obtain ⟨_, _, hrest⟩ := hcaps.rest
    refine Or.inr (Or.inr ⟨region, i, hsl, ?_, hdma.nextRegionId.trans (by rw [hrest]), fun p => hdma.authority p⟩)
    show t.regions.put i Region.EMPTY = _
    rw [hdma.regions, hcaps.regions]
  | revoke _ _ _ hrun =>
    have hstrip : ∀ (d : Deleg.Endpoint) (t : KState), t.regions = s.regions ∧ t.nextRegionId = s.nextRegionId →
        wp (strip A C d) (fun _ u => u.regions = s.regions ∧ u.nextRegionId = s.nextRegionId) (· = .ringFull) t :=
      fun d t ht => wp_mono (regions_strip d t) fun _ u hu => ⟨hu.1.trans ht.1, hu.2.trans ht.2⟩
    exact Or.inl (wp_ok (wp_revoke ⟨rfl, rfl⟩ fun d _ => hstrip d) hrun)
  | reap => exact Or.inl (regions_refusePeers (Kernel.reap me s))
  | loadFailed _ _ _ hrun =>
    rcases wp_ok (loadProcess_spec _ _ _ _) hrun with ⟨-, rfl | ⟨r, -, rfl⟩⟩ | ⟨hf, -⟩
    · exact Or.inl ⟨rfl, rfl⟩
    · exact Or.inl ⟨rfl, rfl⟩
    · exact absurd hf (by decide)
  | boot _ hi hfree hrun =>
    have hnew := arrives_load (hi.trans_le (by decide)) hfree hrun
    exact Or.inl ⟨hnew.regions, hnew.nextRegionId⟩
  | @spawn u slot arg requested childId cap _ _ _ hslot hfree _ _ hrun =>
    have hnew := (arrives_load hslot hfree hrun).given me arg childId cap
    exact Or.inl ⟨hnew.regions, hnew.nextRegionId⟩

theorem RegionIds.move (h : RegionIds s) (hm : Move A C G me k s s') : RegionIds s' := by
  rcases hm.regions with ⟨hr, hn⟩ | ⟨idx, r, -, hid, hr, hn, -⟩ | ⟨region, i, -, hr, hn, -⟩
  · exact h.congr hr hn
  · exact h.make hid hr hn
  · exact h.empty i hr hn

end Rustproof.Kernel
