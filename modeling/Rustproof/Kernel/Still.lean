/-
What most moves leave alone.

`Still s s'`: nothing changed that scheduling and rendezvous look at: of a process at most its memory, its mapping records
and its `Region` capabilities. `Move.cases` says that a move is a `Control` step, a message taken, a `Still` step, a
revocation, or a process that comes or goes.
-/
import Rustproof.Kernel.Handlers

namespace Rustproof.Kernel

open Lib Prog

structure Still (s s' : KState) : Prop where
  proc : ∀ p, ∃ c fr sh d, s'.procs p = { s.procs p with caps := c, frames := fr, shares := sh, dma := d }
  caps : ∀ p i sl, sl.capType ≠ .region →
    ((s'.procs p).caps.lookup i = some sl ↔ (s.procs p).caps.lookup i = some sl)
  sched : s'.sched = s.sched
  current : s'.current = s.current
  idling : s'.idling = s.idling

/-- what a space holds of a type depends on its capabilities of that type -/
theorem holdsCap_congr {c c' : Caps} {p : Capabilities.CapSlot → Bool}
    (h : ∀ i sl, p sl = true → (c'.lookup i = some sl ↔ c.lookup i = some sl)) : holdsCap c' p = holdsCap c p := by
  refine anyIdx_congr fun i _ => ?_
  rw [Bool.eq_iff_iff]
  have key : ∀ d : Caps, ((d.lookup i).elim false p = true ↔ ∃ sl, d.lookup i = some sl ∧ p sl = true) := fun d => by
    cases d.lookup i <;> simp
  rw [key, key]
  exact exists_congr fun sl => ⟨fun hc => ⟨(h i sl hc.2).1 hc.1, hc.2⟩, fun hc => ⟨(h i sl hc.2).2 hc.1, hc.2⟩⟩

theorem holdsCap_iff {c : Caps} {p : Capabilities.CapSlot → Bool} :
    holdsCap c p = true ↔ ∃ i sl, c.lookup i = some sl ∧ p sl = true := by
  rw [holdsCap, anyIdx_iff]
  constructor
  · rintro ⟨i, -, h⟩
    cases hl : c.lookup i with
    | none => rw [hl] at h; simp at h
    | some sl => rw [hl] at h; exact ⟨i, sl, hl, h⟩
  · rintro ⟨i, sl, hl, h⟩
    exact ⟨i, (Capabilities.CapSpace.lookup_some hl).1, by rw [hl]; exact h⟩

theorem forObject_iff {t : CapType} {object : ℕ} {needed : CapRights} {sl : Capabilities.CapSlot} :
    forObject t object needed sl = true ↔ sl.capType = t ∧ sl.object = object ∧ sl.rights.contains needed = true := by
  simp [forObject, and_assoc]

namespace Still

theorem refl (s : KState) : Still s s := ⟨fun _ => ⟨_, _, _, _, rfl⟩, fun _ _ _ _ => Iff.rfl, rfl, rfl, rfl⟩

theorem trans {s t u : KState} (h : Still s t) (h' : Still t u) : Still s u := by
  refine ⟨fun p => ?_, fun p i sl hsl => (h'.caps p i sl hsl).trans (h.caps p i sl hsl), h'.sched.trans h.sched,
    h'.current.trans h.current, h'.idling.trans h.idling⟩
  obtain ⟨c, fr, sh, d, hp⟩ := h.proc p
  obtain ⟨c', fr', sh', d', hp'⟩ := h'.proc p
  exact ⟨c', fr', sh', d', by rw [hp', hp]⟩

/-- a step that changes no process -/
theorem of_procs {s t : KState} (hp : t.procs = s.procs) (hs : t.sched = s.sched) (hc : t.current = s.current)
    (hi : t.idling = s.idling) : Still s t :=
  ⟨fun p => ⟨_, _, _, _, by rw [hp]⟩, fun p i sl _ => by rw [hp], hs, hc, hi⟩

variable {s s' : KState} (h : Still s s')

include h

theorem state (p : ℕ) : (s'.procs p).state = (s.procs p).state := by
  obtain ⟨c, fr, sh, d, hp⟩ := h.proc p; rw [hp]

theorem frame (p : ℕ) : (s'.procs p).frame = (s.procs p).frame := by
  obtain ⟨c, fr, sh, d, hp⟩ := h.proc p; rw [hp]

theorem pendingLen (p : ℕ) : (s'.procs p).pendingLen = (s.procs p).pendingLen := by
  obtain ⟨c, fr, sh, d, hp⟩ := h.proc p; rw [hp]

theorem live (p : ℕ) : s'.live p = s.live p := by
  rw [KState.live, KState.live, Process.live, Process.live, h.state]

theorem id (p : ℕ) : (s'.procs p).id = (s.procs p).id := by
  obtain ⟨c, fr, sh, d, hp⟩ := h.proc p; rw [hp]

/-- the capabilities scheduling and rendezvous ask for are the ones there were -/
theorem holds (p : ℕ) {t : CapType} (ht : t ≠ .region) (object : ℕ) (needed : CapRights) :
    holdsCap (s'.procs p).caps (forObject t object needed) = holdsCap (s.procs p).caps (forObject t object needed) :=
  holdsCap_congr fun i sl hp => h.caps p i sl fun hc => ht ((forObject_iff.1 hp).1 ▸ hc)

theorem endpoint (p ep : ℕ) (needed : CapRights) :
    capsHoldEndpoint (s'.procs p).caps ep needed = capsHoldEndpoint (s.procs p).caps ep needed :=
  h.holds p (by decide) ep needed

theorem irq (p line : ℕ) : capsHoldIrq (s'.procs p).caps line = capsHoldIrq (s.procs p).caps line :=
  h.holds p (by decide) line CapRights.READ

end Still

variable {A : Arch} {C : Config}

theorem DmaOnly.still {s t : KState} (h : DmaOnly C s t) : Still s t := by
  refine ⟨fun p => ?_, fun p i sl _ => ?_, h.sched, h.current, h.idling⟩
  · obtain ⟨d, hd⟩ := h.proc p
    exact ⟨_, _, _, d, hd⟩
  · obtain ⟨d, hd⟩ := h.proc p; rw [hd]

theorem SpaceOnly.still {s t : KState} {p : ℕ} (h : SpaceOnly s p t) : Still s t := by
  refine ⟨fun q => ?_, fun q i sl _ => by rw [h.caps], h.sched, h.current, h.idling⟩
  obtain ⟨fr, sh, hp⟩ := h.procs_apply q
  exact ⟨_, fr, sh, _, hp⟩

/-- the capabilities of type `Region` alone are forgotten -/
theorem still_forgetCap (region p : ℕ) (s : KState) (c : ℕ) : Still s (forgetCap region p s c) := by
  have hcaps := capsOnly_forgetCap region p s c
  refine ⟨fun q => ?_, fun q i sl hsl => ?_, ?_, ?_, ?_⟩
  · obtain ⟨d, hd⟩ := hcaps.proc q
    exact ⟨d, _, _, _, hd⟩
  · rw [forgetCap]
    split_ifs with hf
    · rw [KState.modProc_procs, Table.put_apply]
      split_ifs with hq
      · subst hq
        rw [Capabilities.CapSpace.lookup_revoke]
        split_ifs with hi
        · subst hi
          -- the slot that was emptied held a region
          refine ⟨fun hn => by simp at hn, fun hl => absurd hf ?_⟩
          rw [hl]
          simp [hsl]
        · exact Iff.rfl
      · exact Iff.rfl
    · exact Iff.rfl
  all_goals obtain ⟨_, _, h⟩ := hcaps.rest; rw [h]

theorem still_forgetCaps (region : ℕ) (s : KState) : Still s (forgetCaps region s) := by
  rw [forgetCaps]
  refine List.foldlRecOn (motive := Still s) _ _ (Still.refl s) fun t ht p _ => ht.trans ?_
  split_ifs
  · exact List.foldlRecOn (motive := Still t) _ _ (Still.refl t) fun u hu c _ => hu.trans (still_forgetCap region p u c)
  · exact Still.refl t

/-! ## Creating a region -/

theorem takeDmaFrames_spec (n : ℕ) (got : List ℕ) (w : Machine) :
    (takeDmaFrames n got w).2.cr3 = w.cr3 ∧
      ∃ fs : List ℕ, (takeDmaFrames n got w).2.history = w.history ++ fs.map Event.freed := by
  induction n generalizing got w with
  | zero => exact ⟨rfl, [], by simp [takeDmaFrames]⟩
  | succ n ih =>
    rw [takeDmaFrames]
    rcases w.fa.allocDmaFrame with ⟨_ | frame, fa⟩
    · simp only
      exact ⟨Machine.cr3_freeFrames _ _, got, Machine.history_freeFrames _ _⟩
    · exact ih _ _

/-- the live regions identity `id` owns -/
def KState.owned (s : KState) (id : ℕ) : List ℕ :=
  (List.range MAX_REGIONS).filter fun i => (s.regions i).live && (s.regions i).ownerId == id

/-- what `make_region` leaves: a refusal, with the machine moved at most, or a region and its capability -/
theorem makeRegion_spec (p pages : ℕ) (rights : CapRights) (s : KState) :
    wp (makeRegion p pages rights) (fun v t =>
      (v = syserr.NO_MEM ∧ (t = s ∨ (∃ w, takeDmaFrames pages [] s.w = (none, w) ∧ t = { s with w := w }) ∨
        ∃ frames w, takeDmaFrames pages [] s.w = (some frames, w) ∧ t = { s with w := w.freeFrames frames })) ∨
      ∃ idx frames w cap caps, firstIdx MAX_REGIONS (fun i => !(s.regions i).live) = some idx ∧
        takeDmaFrames pages [] s.w = (some frames, w) ∧ (s.procs p).caps.insert .region rights s.nextRegionId = some (cap, caps) ∧
        (v = cap ∧ s.nextRegionId + 1 < U64 ∧ (s.owned (s.procs p).id).length < REGION_QUOTA) ∧
        t = ({ s.modProc p (fun q => { q with caps := caps }) with
              w := w
              nextRegionId := s.nextRegionId + 1
              regions := s.regions.put idx ⟨true, s.nextRegionId, (s.procs p).id, frames⟩ }).record
            (.minted p cap s.nextRegionId rights)) (· = .grantedAtMint) s := by
  rw [makeRegion, wp_bind, wp_get]
  refine wp_ite (fun _ => Or.inl ⟨rfl, Or.inl rfl⟩) fun hquota => ?_
  cases hidx : firstIdx MAX_REGIONS fun i => !(s.regions i).live with
  | none => exact Or.inl ⟨rfl, Or.inl rfl⟩
  | some idx =>
    simp only
    refine wp_ite (fun _ => Or.inl ⟨rfl, Or.inl rfl⟩) fun hn => ?_
    rcases ht : takeDmaFrames pages [] s.w with ⟨_ | frames, w⟩
    · exact Or.inl ⟨rfl, Or.inr (Or.inl ⟨w, rfl, rfl⟩)⟩
    · simp only
      rcases hins : (s.procs p).caps.insert .region rights s.nextRegionId with _ | ⟨cap, caps⟩
      · exact Or.inl ⟨rfl, Or.inr (Or.inr ⟨frames, w, rfl, rfl⟩)⟩
      · simp only
        refine wp_ite (fun _ => rfl) fun _ => ?_
        exact Or.inr ⟨idx, frames, w, cap, caps, rfl, rfl, rfl, ⟨rfl, by omega, not_le.1 hquota⟩, rfl⟩

theorem still_makeRegion {p pages v : ℕ} {rights : CapRights} {s t : KState}
    (h : makeRegion p pages rights s = .ok (v, t)) : Still s t := by
  rcases wp_ok (makeRegion_spec p pages rights s) h with
    ⟨-, rfl | ⟨w, -, rfl⟩ | ⟨frames, w, -, rfl⟩⟩ | ⟨idx, frames, w, cap, caps, -, -, hins, -, rfl⟩
  · exact Still.refl _
  · exact Still.of_procs rfl rfl rfl rfl
  · exact Still.of_procs rfl rfl rfl rfl
  · obtain ⟨-, -, hnone, -, -, hnew, hold⟩ := Capabilities.CapSpace.insert_some hins
    refine ⟨fun q => ?_, fun q i sl hsl => ?_, rfl, rfl, rfl⟩
    · simp only [KState.record_procs, KState.modProc_procs, Table.put_apply]
      split_ifs with hq
      · subst hq; exact ⟨_, _, _, _, rfl⟩
      · exact ⟨_, _, _, _, rfl⟩
    · simp only [KState.record_procs, KState.modProc_procs, Table.put_apply]
      split_ifs with hq
      · subst hq
        by_cases hi : i = cap
        · subst hi
          rw [hnew, hnone]
          refine ⟨fun he => absurd ?_ hsl, fun he => by simp at he⟩
          rw [← Option.some.inj he]
        · rw [hold i hi]
      · exact Iff.rfl

end Rustproof.Kernel
