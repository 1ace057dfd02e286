/-
What a move changes, as far as scheduling and rendezvous can see.

`Move.change` sorts the moves into the few kinds such an invariant has to be checked for: a `Control` step, a message
taken, a `Still` step, a revocation, the death of the caller, the arrival of a process. A revocation is a loop over the
ends it reaches; `wp_revoke` is its rule, and `strip_spec` says what one iteration does.
-/
import Rustproof.Kernel.Still

namespace Rustproof.Kernel

open Lib Prog

variable {A : Arch} {C : Config} {G : Gate} {me : ℕ} {k : Trap}

/-! ## The end of a region -/

theorem still_retire {s s' : KState} {region i : ℕ} (hsl : s.regionSlot region = some i)
    (h : releaseRegion A C region (forgetCaps region s) = .ok ((), s')) : Still s s' := by
  have hcaps := capsOnly_forgetCaps region s
  have hsl' : (forgetCaps region s).regionSlot region = some i := by rw [regionSlot_congr hcaps.regions]; exact hsl
  obtain ⟨t, hdma, -, rfl⟩ := wp_ok (releaseRegion_spec (A := A) (C := C) hsl') h
  exact ((still_forgetCaps region s).trans hdma.still).trans (Still.of_procs rfl rfl rfl rfl)

/-! ## Loading -/

/-- what an allocator keeps, building a space with it keeps -/
theorem buildIn_keep {α : Type} [FrameAllocator α] {I : α → Prop} (halloc : ∀ r, I r → I (FrameAllocator.allocFrame r).2)
    (hmem : ∀ r m, I r → I (FrameAllocator.setMem r m)) {r : α} (h : I r) : I (buildIn A C r).2 := by
  have h1 := Vspace.create_keep (U := A.toMmu) halloc hmem h
  rw [buildIn]
  rcases hc : Vspace.create A.toMmu r with ⟨_ | root, r1⟩
  · rw [hc] at h1; exact h1
  rw [hc] at h1
  have h2 := Loader.loadElf_keep (A := A) halloc hmem C.userElf root
    (hmem r1 (Vspace.shareKernel A.toMmu (FrameAllocator.mem r1) root C.ktoken) h1)
  simp only
  split
  · rename_i he
    rw [he] at h2; exact h2
  · rename_i r2 he
    rw [he] at h2
    have h3 := Loader.loadStack_keep (A := A) halloc hmem root (List.range' 1 A.userStackPages) h2
    rcases hst : Loader.loadStack A root (List.range' 1 A.userStackPages) r2 with ⟨_ | _, r3⟩
    all_goals rw [hst] at h3; exact h3

theorem buildSpace_keep {I : RecordingAlloc → Prop} (halloc : ∀ r, I r → I r.allocFrame.2)
    (hmem : ∀ (r : RecordingAlloc) m, I r → I { r with w := { r.w with mem := m } }) {r : RecordingAlloc} (h : I r) :
    I (buildSpace A C r).2 := by
  rw [buildSpace_eq]
  exact buildIn_keep halloc hmem h

/-- a space that was built is entered where the image says -/
theorem buildSpace_entry {r r' : RecordingAlloc} {token entry : ℕ} (h : buildSpace A C r = (some (token, entry), r')) :
    ∃ hd, Loader.readHeader A C.userElf = .ok hd ∧ hd.entry = entry := by
  rw [buildSpace] at h
  rcases hc : Vspace.create A.toMmu r with ⟨_ | root, r1⟩
  · rw [hc] at h; simp at h
  rw [hc] at h
  simp only at h
  split at h
  · simp at h
  · rename_i e r2 he
    rcases hst : Loader.loadStack A root (List.range' 1 A.userStackPages) r2 with ⟨_ | _, r3⟩
    · rw [hst] at h; simp at h
    rw [hst] at h
    obtain ⟨⟨-, rfl⟩, -⟩ : (A.token root = token ∧ e = entry) ∧ r3 = r' := by simpa using h
    rw [Loader.loadElf] at he
    cases hd : Loader.readHeader A C.userElf with
    | error err => rw [hd] at he; simp at he
    | ok hdr =>
      rw [hd] at he
      simp only at he
      split at he
      · simp at he
      · exact ⟨hdr, rfl, by simpa using (Prod.mk.inj he).1⟩

/-- what loading leaves: nothing but the allocator moved, or a fresh process in the slot -/
theorem loadProcess_spec (slot idArg : ℕ) (role : Role) (s : KState) :
    wp (loadProcess A C slot idArg role) (fun ok t =>
      (ok = false ∧ (t = s ∨ ∃ r, buildSpace A C ⟨s.w, []⟩ = (none, r) ∧ t = { s with w := r.w.freeFrames r.frames })) ∨
      ok = true ∧ ∃ token entry r, buildSpace A C ⟨s.w, []⟩ = (some (token, entry), r) ∧
        t = ({ s with w := r.w }.modProc slot fun p => freshProcess A C p token entry idArg role r.frames).record
          (.loaded slot)) (· = .mintSourceExtent) s := by
  rw [loadProcess]
  refine wp_ite (fun _ => Or.inl ⟨rfl, Or.inl rfl⟩) fun _ => ?_
  rw [wp_bind, wp_get]
  rcases hb : buildSpace A C ⟨s.w, []⟩ with ⟨_ | ⟨token, entry⟩, r⟩
  · exact Or.inl ⟨rfl, Or.inr ⟨r, rfl, rfl⟩⟩
  · simp only
    exact wp_ite (fun _ => rfl) fun _ => Or.inr ⟨rfl, token, entry, r, rfl, rfl⟩

/-- a child has no grants, so no mint source of it names an extent -/
theorem loadProcess_child (slot idArg : ℕ) (s : KState) :
    wp (loadProcess A C slot idArg .child) (fun _ _ => True) (fun _ => False) s := by
  rw [loadProcess]
  refine wp_ite (fun _ => trivial) fun _ => ?_
  rw [wp_bind, wp_get]
  rcases buildSpace A C ⟨s.w, []⟩ with ⟨_ | ⟨token, entry⟩, r⟩
  · exact trivial
  · exact wp_ite (fun hc => absurd hc (by simp [grantsFor])) fun _ => trivial

/-- the machine while a process could not be loaded -/
theorem steady_loadFailed {s t : KState} (h : t = s ∨ ∃ r, buildSpace A C ⟨s.w, []⟩ = (none, r) ∧
    t = { s with w := r.w.freeFrames r.frames }) : Steady s t ∧ Still s t := by
  rcases h with rfl | ⟨r, hb, rfl⟩
  · exact ⟨Steady.refl _, Still.refl _⟩
  · have hf : FreedOnly ⟨s.w, []⟩ (buildSpace A C ⟨s.w, []⟩).2 :=
      buildSpace_keep FreedOnly.alloc FreedOnly.write (FreedOnly.refl _)
    rw [hb] at hf
    obtain ⟨hcr3, fs, hh⟩ := hf
    refine ⟨Steady.of_control rfl rfl rfl rfl ((Machine.cr3_freeFrames _ _).trans hcr3) fun i hi => ?_,
      Still.of_procs rfl rfl rfl rfl⟩
    have hi' : Event.queued i false ∈ (r.w.freeFrames r.frames).history := hi
    rw [Machine.history_freeFrames, hh] at hi'
    simpa using hi'

/-! ## Arrivals -/

/-- slot `slot` got a fresh occupant, which is not on the queue yet -/
structure Arrives (A : Arch) (C : Config) (slot : ℕ) (s t : KState) : Prop where
  lt : slot < MAX_PROCS
  free : s.live slot = false
  proc : ∃ token hd idArg role frames caps, Loader.readHeader A C.userElf = .ok hd ∧ t.procs = s.procs.put slot
    { freshProcess A C (s.procs slot) token hd.entry idArg role frames with caps := caps }
  sched : t.sched = s.sched
  current : t.current = s.current
  idling : t.idling = s.idling
  cr3 : t.cr3 = s.cr3
  regions : t.regions = s.regions
  nextRegionId : t.nextRegionId = s.nextRegionId
  added : ∀ i, .queued i false ∈ t.w.history → .queued i false ∈ s.w.history

theorem arrives_load {s s' : KState} {slot id : ℕ} {role : Role} (hslot : slot < MAX_PROCS) (hfree : s.live slot = false)
    (h : loadProcess A C slot id role s = .ok (true, s')) : Arrives A C slot s s' := by
  rcases wp_ok (loadProcess_spec slot id role s) h with ⟨hf, -⟩ | ⟨-, token, entry, r, hb, rfl⟩
  · exact absurd hf (by decide)
  obtain ⟨hd, hhd, rfl⟩ := buildSpace_entry hb
  have hf : FreedOnly ⟨s.w, []⟩ (buildSpace A C ⟨s.w, []⟩).2 :=
    buildSpace_keep FreedOnly.alloc FreedOnly.write (FreedOnly.refl _)
  rw [hb] at hf
  obtain ⟨hcr3, fs, hh⟩ := hf
  refine ⟨hslot, hfree, ⟨token, hd, id, role, r.frames, _, hhd, rfl⟩, rfl, rfl, rfl, hcr3, rfl, rfl, fun i hi => ?_⟩
  have hi' : Event.queued i false ∈ r.w.history ++ [.loaded slot] := hi
  rw [hh] at hi'
  simpa using hi'

/-- what the child was handed is its own as well -/
theorem Arrives.handOver {s t : KState} {slot : ℕ} (h : Arrives A C slot s t) (cur arg childId : ℕ)
    (c : Capabilities.CapSlot) : Arrives A C slot s (handOver cur slot arg childId c t) := by
  rw [Kernel.handOver]
  rcases (t.procs slot).caps.insert c.capType c.rights c.object with _ | ⟨childCap, caps⟩
  · exact h
  obtain ⟨token, hd, idArg, role, frames, _, hhd, hproc⟩ := h.proc
  refine ⟨h.lt, h.free, ⟨token, hd, idArg, role, frames, caps, hhd, ?_⟩, h.sched, h.current, h.idling, h.cr3, h.regions,
    h.nextRegionId, fun i hi => h.added i ?_⟩
  · show t.procs.put slot { t.procs slot with caps := caps } = _
    rw [hproc, Table.put_self]
    funext j
    simp only [Table.put_apply]
    split_ifs <;> rfl
  · have hi' : Event.queued i false ∈ t.w.history ++ [.delegated cur arg slot childCap] := hi
    simpa using hi'

theorem Arrives.given {s t : KState} {slot : ℕ} (h : Arrives A C slot s t) (cur arg childId : ℕ)
    (cap : Option Capabilities.CapSlot) :
    Arrives A C slot s (cap.elim t fun c => Kernel.handOver cur slot arg childId c t) := by
  cases cap with
  | none => exact h
  | some c => exact h.handOver cur arg childId c

/-- the newcomer is put on the queue -/
theorem Arrives.scheduled {s t : KState} {slot : ℕ} (h : Arrives A C slot s t) (hs : Scheduled s) :
    Scheduled (t.enqueue slot) := by
  obtain ⟨token, hd, idArg, role, frames, caps, -, hproc⟩ := h.proc
  refine hs.enqueue h.lt (fun hr => ?_) h.sched h.added (fun p hp => ?_) ?_
  · have := h.free
    rw [KState.live, Process.live, hr] at this
    exact absurd this (by decide)
  · rw [hproc, Table.put_of_ne _ hp]
  · rw [hproc, Table.put_self]; rfl

theorem Arrives.other {s t : KState} {slot : ℕ} (h : Arrives A C slot s t) {p : ℕ} (hp : p ≠ slot) :
    (t.enqueue slot).procs p = s.procs p := by
  obtain ⟨token, hd, idArg, role, frames, caps, -, hproc⟩ := h.proc
  rw [KState.enqueue_procs, hproc, Table.put_of_ne _ hp]

/-! ## Revocation -/

/-- what process `p` cannot reach any more is unmapped and withdrawn -/
structure Detached (s t : KState) : Prop extends Still s t where
  steady : Steady s t
  caps_eq : ∀ p, (t.procs p).caps = (s.procs p).caps
  regions : t.regions = s.regions
  nextRegionId : t.nextRegionId = s.nextRegionId
  ledger : t.ledger = s.ledger

namespace Detached

theorem trans {s t u : KState} (h : Detached s t) (h' : Detached t u) : Detached s u :=
  ⟨h.toStill.trans h'.toStill, h.steady.trans h'.steady, fun p => (h'.caps_eq p).trans (h.caps_eq p),
    h'.regions.trans h.regions, h'.nextRegionId.trans h.nextRegionId, h'.ledger.trans h.ledger⟩

end Detached

theorem DmaOnly.detached {s t : KState} (h : DmaOnly C s t) : Detached s t :=
  ⟨h.still, h.steady, fun p => Process.caps_eq (h.authority p), h.regions, h.nextRegionId, h.ledger⟩

theorem SpaceOnly.detached {s t : KState} {p : ℕ} (h : SpaceOnly s p t) : Detached s t :=
  ⟨h.still, h.steady, h.caps, h.regions, h.nextRegionId, h.ledger⟩

/-- the end of a revocation's iteration: credits are dropped, and whoever it stranded is woken -/
def settle (A : Arch) (p : ℕ) (s : KState) : KState :=
  let s := dropCredits p s
  if stranded s p then refuse A p s else s

/-- the windows of `p` that no capability of its own covers are unmapped -/
def detach (A : Arch) (p : ℕ) (s : KState) : KState :=
  unmapUnheld A p (if capsHoldMmio (s.procs p).caps then s else unmapDeviceWindow A p s)

theorem spaceOnly_detach (s : KState) (p : ℕ) : SpaceOnly s p (detach A p s) := by
  unfold detach
  split_ifs
  · exact spaceOnly_unmapUnheld A s p
  · exact (spaceOnly_unmapDeviceWindow A s p).trans (spaceOnly_unmapUnheld A _ p)

/-- a process whose capability in slot `cap` is gone, and with it the windows that no other covers -/
def bereave (A : Arch) (d : Deleg.Endpoint) (s : KState) : KState :=
  detach A d.proc (s.modProc d.proc fun p => { p with caps := p.caps.revoke d.cap })

/-- one iteration takes the capability, then the windows, then the device's reach, then the credits and the wait -/
theorem strip_run (d : Deleg.Endpoint) (s : KState) :
    wp (strip A C d) (fun _ t => ¬(s.live d.proc = true ∧ (s.procs d.proc).id = d.id) ∧ t = s ∨
      (s.live d.proc = true ∧ (s.procs d.proc).id = d.id) ∧ ∃ v, t = settle A d.proc v ∧
        (A.iommu = true → RingOnly C (withdrawUnheld C d.proc (bereave A d s)).2 v) ∧
        (A.iommu = false → v = bereave A d s)) (· = .ringFull) s := by
  rw [strip, wp_bind, wp_get]
  refine wp_ite (fun hl => ?_) fun hl => Or.inl ⟨hl, rfl⟩
  simp only [wp_bind, wp_modify]
  change wp _ _ _ (bereave A d s)
  refine wp_onlyIf (fun hio => ?_) fun hio => ?_
  · rw [wp_bind, wp_run]
    refine wp_mono (ringOnly_flushIf _ _) fun _ t ht => Or.inr ⟨hl, t, rfl, fun _ => ht, fun hc => ?_⟩
    exact absurd (hc.symm.trans hio) (by decide)
  · exact Or.inr ⟨hl, _, rfl, fun hc => absurd hc hio, fun _ => rfl⟩

theorem strip_parts (d : Deleg.Endpoint) (s : KState) :
    wp (strip A C d) (fun _ t => t = s ∨ s.live d.proc = true ∧ (s.procs d.proc).id = d.id ∧
      ∃ v, DmaOnly C (bereave A d s) v ∧ t = settle A d.proc v) (· = .ringFull) s := by
  refine wp_mono (strip_run d s) fun _ t ht => ?_
  rcases ht with ⟨-, rfl⟩ | ⟨hl, v, rfl, hio, hnone⟩
  · exact Or.inl rfl
  refine Or.inr ⟨hl.1, hl.2, v, ?_, rfl⟩
  rcases hA : A.iommu with _ | _
  · rw [hnone hA]
    exact DmaOnly.refl _
  · exact (dmaOnly_withdrawUnheld d.proc _).trans (hio hA).dmaOnly

theorem strip_spec (d : Deleg.Endpoint) (s : KState) :
    wp (strip A C d) (fun _ t => t = s ∨ s.live d.proc = true ∧ (s.procs d.proc).id = d.id ∧
      ∃ v, Detached (s.modProc d.proc fun p => { p with caps := p.caps.revoke d.cap }) v ∧ t = settle A d.proc v)
      (· = .ringFull) s := by
  refine wp_mono (strip_parts d s) fun _ t ht => ht.imp_right ?_
  rintro ⟨hl, hid, v, hv, rfl⟩
  exact ⟨hl, hid, v, (spaceOnly_detach _ d.proc).detached.trans hv.detached, rfl⟩

theorem stranded_parked {s : KState} {p : ℕ} (h : stranded s p = true) :
    (s.procs p).state ≠ .ready ∧ (s.procs p).state ≠ .free := by
  rw [stranded] at h
  constructor <;> intro hst <;> rw [hst] at h <;> simp at h

theorem steady_settle {s : KState} {p : ℕ} (hp : s.Alive p) : Steady s (settle A p s) := by
  have h1 : Steady s (dropCredits p s) := Steady.modProc s p _ rfl rfl rfl
  rw [settle]
  split_ifs with hst
  · exact h1.trans (steady_refuse A (h1.alive.2 hp) (stranded_parked hst).1)
  · exact h1

/-- stripping a capability wakes its holder at most -/
theorem steady_strip (d : Deleg.Endpoint) {s : KState} (hs : ∀ i, s.live i = true → i < MAX_PROCS) :
    wp (strip A C d) (fun _ => Steady s) (· = .ringFull) s := by
  refine wp_mono (strip_spec d s) fun _ t ht => ?_
  rcases ht with rfl | ⟨hl, -, v, hv, rfl⟩
  · exact Steady.refl _
  have h1 : Steady s (s.modProc d.proc fun p => { p with caps := p.caps.revoke d.cap }) := Steady.modProc s d.proc _ rfl rfl rfl
  have h2 := h1.trans hv.steady
  exact h2.trans (steady_settle (h2.alive.2 ⟨hs _ hl, hl⟩))

/-- **The rule for revocations.** What dropping edges keeps, and stripping one capability keeps, a revocation keeps. -/
theorem wp_revoke {I : KState → Prop} {root cap : ℕ} {s : KState} {E : Halt → Prop}
    (hedges : I { s with ledger := (s.ledger.revokeFrom (s.endpointAt root cap) MAX_DELEGATIONS).1 })
    (hstrip : ∀ d ∈ (s.ledger.revokeFrom (s.endpointAt root cap) MAX_DELEGATIONS).2, ∀ t, I t →
      wp (strip A C d) (fun _ => I) E t) :
    wp (revokeDelegations A C root cap) (fun _ => I) E s := by
  rw [revokeDelegations, wp_bind, wp_get]
  simp only [wp_bind, wp_modify]
  exact wp_forEach hstrip hedges

/-! ## The kinds of change -/

/-- what a move for `me`, trapped as `k` says, may change -/
inductive Change (A : Arch) (C : Config) (me : ℕ) (k : Trap) : KState → KState → Prop where
  | control {s s' : KState} : Control A me k s s' → Change A C me k s s'
  | receive {s : KState} {t : ℕ} : s.Alive t → (s.procs t).state = .ready → 0 < (s.procs t).pendingLen →
      Change A C me k s (takeMessage A t s)
  | still {s s' : KState} : Still s s' → Change A C me k s s'
  | revoke {s s' : KState} {cap : ℕ} : s.Alive me → (s.procs me).state = .ready →
      revokeDelegations A C me cap s = .ok ((), s') → Change A C me k s s'
  | reap {s : KState} : s.Alive me → (s.procs me).state = .ready → Change A C me k s (refusePeers A (reap me s))
  | arrive {s t : KState} {slot : ℕ} : me = NOBODY ∨ s.Alive me → Arrives A C slot s t →
      Change A C me k s (t.enqueue slot)

theorem Move.change {s s' : KState} (h : Move A C G me k s s') : Change A C me k s s' := by
  cases h with
  | control h => exact .control h
  | receive h1 h2 h3 => exact .receive h1 h2 h3
  | store | copy => exact .still (Still.of_procs rfl rfl rfl rfl)
  | mapRegion => exact .still (spaceOnly_mapRegion A _ me _ _).still
  | mapDevice _ hcur => exact .still (spaceOnly_mapDevice A C _ hcur _ _ _).still
  | unmapDevice => exact .still (spaceOnly_unmapDeviceWindow A _ me).still
  | unmapRegion => exact .still (spaceOnly_unmapRegionFrom A _ me _).still
  | unmapShare => exact .still (spaceOnly_unmapShareSlot A _ _ _).still
  | make _ _ _ _ _ h => exact .still (still_makeRegion h)
  | mapDma => exact .still (dmaOnly_mapDma me _ _ _ _).still
  | unmapDma _ _ h => exact .still (wp_ok (dmaOnly_unmapDma me _ _ _) h).still
  | withdrawAll _ _ h => exact .still (wp_ok (dmaOnly_withdrawAllDmaOf me _) h).still
  | retire _ hsl _ _ h => exact .still (still_retire hsl h)
  | revoke h1 h2 _ h3 => exact .revoke h1 h2 h3
  | reap h1 h2 => exact .reap h1 h2
  | loadFailed _ _ _ h =>
    rcases wp_ok (loadProcess_spec _ _ _ _) h with ⟨-, ht⟩ | ⟨hf, -⟩
    · exact .still (steady_loadFailed ht).2
    · exact absurd hf (by decide)
  | boot hme hi hfree h => exact .arrive (Or.inl hme) (arrives_load (hi.trans_le (by decide)) hfree h)
  | @spawn u slot arg requested childId cap hme _ _ hslot hfree _ _ h =>
    exact .arrive (Or.inr hme) ((arrives_load hslot hfree h).given me arg childId cap)

end Rustproof.Kernel
