/-
What the moves hand back to the allocator.

A move outside DMA stores no entry of a unit's table and waits for no invalidation; it may pass frames to `free_frame`: those of a
space that could not be built, a region that could not be made, or a process that is gone. `Sparing` says that none of these is a
frame of a live region.
-/
import Rustproof.Kernel.Isolation

namespace Rustproof.Kernel

open Lib Prog Mm

variable {A : Arch} {C : Config} {G : Gate} {me : ℕ} {k : Trap} {s t u : KState} {F : Multiset ℕ} {p f : ℕ}

/-- a frame the kernel gives out, and no live region lists -/
def Spare (F : Multiset ℕ) (s : KState) (f : ℕ) : Prop :=
  f ∈ F ∧ ∀ i < MAX_REGIONS, (s.regions i).live = true → f ∉ (s.regions i).frames

/-- an event that tells the units nothing, and frees no frame of a region -/
def Event.Spares (F : Multiset ℕ) (s : KState) (e : Event) : Prop := Event.io e = false ∧ ∀ f, e = .freed f → Spare F s f

/-- a step whose events all are such -/
def Sparing (F : Multiset ℕ) (s t : KState) : Prop :=
  ∃ h, t.w.history = s.w.history ++ h ∧ ∀ e ∈ h, Event.Spares F s e

theorem spare_free (ha : Accounted F s) (hf : f ∈ freeAddrs s.w.fa) : Spare F s f :=
  ⟨ha.account.free_mem hf, fun _ hi _ hc => (ha.out (Accounted.region_held hi hc)).2.1 hf⟩

theorem spare_frame (ha : Accounted F s) (hp : p < MAX_PROCS) (hf : f ∈ (s.procs p).frames) : Spare F s f :=
  ⟨(ha.out (Accounted.frame_held hp hf)).1, fun _ hi _ hc => ha.region_apart hp hi hc hf⟩

theorem Event.Spares.of_scheduling {e : Event} (h : Event.scheduling e = true) : Event.Spares F s e := by
  refine ⟨?_, fun f hf => ?_⟩
  · cases e with
    | resumed => rfl
    | queued => rfl
    | _ => exact absurd h (by simp [Event.scheduling])
  · rw [hf] at h
    exact absurd h (by simp [Event.scheduling])

theorem Event.Spares.freed (h : Spare F s f) : Event.Spares F s (.freed f) :=
  ⟨rfl, fun g hg => by rw [← Event.freed.inj hg]; exact h⟩

namespace Sparing

theorem same (h : t.w.history = s.w.history) : Sparing F s t := ⟨[], by rw [h, List.append_nil], by simp⟩

theorem of_frames (fs : List ℕ) (h : t.w.history = s.w.history ++ fs.map Event.freed) (hfs : ∀ f ∈ fs, Spare F s f) :
    Sparing F s t := by
  refine ⟨_, h, fun e he => ?_⟩
  obtain ⟨f, hf, rfl⟩ := List.mem_map.1 he
  exact .freed (hfs f hf)

/-- a second step, while the live regions stay -/
theorem trans (h : Sparing F s t) (h' : Sparing F t u)
    (hregions : ∀ i < MAX_REGIONS, (s.regions i).live = true → t.regions i = s.regions i) : Sparing F s u := by
  obtain ⟨x, hx, hsx⟩ := h
  obtain ⟨y, hy, hsy⟩ := h'
  refine ⟨x ++ y, by rw [hy, hx, List.append_assoc], fun e he => ?_⟩
  rcases List.mem_append.1 he with he | he
  · exact hsx e he
  · obtain ⟨hio, hfree⟩ := hsy e he
    refine ⟨hio, fun f hf => ⟨(hfree f hf).1, fun i hi hl => ?_⟩⟩
    have hnot := (hfree f hf).2 i hi
    rw [hregions i hi hl] at hnot
    exact hnot hl

/-- one event more -/
theorem record {e : Event} (h : Sparing F s t) (he : Event.io e = false) (hfree : ∀ f, e ≠ .freed f) :
    Sparing F s (t.record e) := by
  obtain ⟨x, hx, hsx⟩ := h
  refine ⟨x ++ [e], ?_, fun e' he' => ?_⟩
  · show t.w.history ++ [e] = _
    rw [hx, List.append_assoc]
  · rcases List.mem_append.1 he' with he' | he'
    · exact hsx e' he'
    · rw [List.mem_singleton.1 he']
      exact ⟨he, fun f hf => absurd hf (hfree f)⟩

end Sparing

theorem Quiet.sparing (h : Quiet s t) : Sparing F s t := by
  obtain ⟨x, hx, hs⟩ := h.history
  exact ⟨x, hx, fun e he => .of_scheduling (hs e he)⟩

/-! ## Building a space -/

/-- what an allocator has done since `r`: it has taken free frames, and handed some back -/
structure Took (F rest : Multiset ℕ) (r r' : RecordingAlloc) : Prop where
  ok : r'.Ok F rest
  free : ∀ f ∈ freeAddrs r'.w.fa, f ∈ freeAddrs r.w.fa
  frames : ∀ f ∈ r'.frames, f ∈ r.frames ∨ f ∈ freeAddrs r.w.fa
  history : ∃ fs : List ℕ, r'.w.history = r.w.history ++ fs.map Event.freed ∧ ∀ f ∈ fs, f ∈ freeAddrs r.w.fa

namespace Took

variable {rest : Multiset ℕ} {r : RecordingAlloc}

theorem refl (h : r.Ok F rest) : Took F rest r r := ⟨h, fun _ hf => hf, fun _ hf => Or.inl hf, [], by simp, by simp⟩

theorem alloc : ∀ r', Took F rest r r' → Took F rest r r'.allocFrame.2 := by
  intro r' h
  obtain ⟨fs, hfs, hfree⟩ := h.history
  cases hp : r'.allocFrame.1 with
  | some p =>
    obtain ⟨hmem, hok, hframes, -, hcons, hhist⟩ := RecordingAlloc.allocFrame_some h.ok hp
    refine ⟨hok, fun f hf => h.free f ?_, fun f hf => ?_, fs, hhist.trans hfs, hfree⟩
    · rw [hcons]
      exact Multiset.mem_cons_of_mem hf
    · rw [hframes] at hf
      rcases List.mem_append.1 hf with hf | hf
      · exact h.frames f hf
      · rw [List.mem_singleton.1 hf]
        exact Or.inr (h.free p hmem)
  | none =>
    obtain ⟨hok, hframes, -, hsame, gs, hgs, hhist⟩ := RecordingAlloc.allocFrame_none h.ok hp
    refine ⟨hok, fun f hf => h.free f (hsame ▸ hf), fun f hf => h.frames f (hframes ▸ hf), fs ++ gs, ?_, fun f hf => ?_⟩
    · rw [hhist, hfs, List.map_append, List.append_assoc]
    · exact (List.mem_append.1 hf).elim (hfree f) fun hg => h.free f (hgs f hg)

theorem write (r' : RecordingAlloc) (m : Mem) (h : Took F rest r r') : Took F rest r { r' with w := { r'.w with mem := m } } :=
  ⟨h.ok, h.free, h.frames, h.history⟩

end Took

/-- charging an allocator's use to a process -/
theorem sparing_afterAlloc (ha : Accounted F s) {r : RecordingAlloc} (h : Took F (heldBut s p) (s.allocFor p) r) :
    Sparing F s (s.afterAlloc p r) := by
  obtain ⟨fs, hfs, hfree⟩ := h.history
  exact .of_frames fs hfs fun f hf => spare_free ha (hfree f hf)

/-- so does mapping, once the pages are clear -/
theorem Sparing.charged {r : RecordingAlloc} (ha : Accounted F t) (hregions : t.regions = s.regions)
    (hhist : t.w.history = s.w.history) (h : Took F (heldBut t p) (t.allocFor p) r) : Sparing F s (t.afterAlloc p r) :=
  (Sparing.same hhist).trans (sparing_afterAlloc ha h) fun _ _ _ => by rw [hregions]

theorem sparing_mapRegion (ha : Accounted F s) (hp : p < MAX_PROCS) (id : ℕ) (rights : CapRights) :
    Sparing F s (mapRegion A p id rights s).2 := by
  rw [mapRegion]
  cases s.regionSlot id with
  | none => exact .same rfl
  | some idx =>
    simp only
    cases hfind : (firstIdx SHARE_SLOTS fun i => (s.procs p).shares i == id).or
        (firstIdx SHARE_SLOTS fun i => (s.procs p).shares i == 0) with
    | none => exact .same rfl
    | some slot =>
      simp only
      have hlt : slot < SHARE_SLOTS := by
        rcases Option.or_eq_some_iff.1 hfind with hf | ⟨-, hf⟩
        · exact (firstIdx_some hf).1
        · exact (firstIdx_some hf).1
      have ht := ha.unmaps (unmaps_sharePages A s p hlt)
      set t := s.unmapPages A p (shareVa A slot) REGION_MAX_PAGES
      have htook := mapShare_keep (A := A) Took.alloc Took.write (A.root (t.procs p).token) (shareVa A slot)
        (if rights.contains CapRights.WRITE then Perms.USER_RW else Perms.USER_RO) (t.regions idx).frames 0
        (Took.refl (ht.ok hp))
      have hcharged := Sparing.charged (s := s) ht rfl rfl htook
      rcases hm : mapShare A (A.root (t.procs p).token) (shareVa A slot)
        (if rights.contains CapRights.WRITE then Perms.USER_RW else Perms.USER_RO) (t.regions idx).frames 0
        (t.allocFor p) with ⟨_ | _, r⟩
      · rw [hm] at hcharged
        exact hcharged
      · rw [hm] at hcharged
        exact hcharged

theorem sparing_mapDevice (ha : Accounted F s) (hp : p < MAX_PROCS) (phys : ℕ) (writable : Bool) :
    Sparing F s (mapDevice A C p phys DEVICE_PAGES writable s).2 := by
  rw [mapDevice]
  split_ifs
  · exact .same rfl
  have ht := ha.unmaps (unmaps_unmapPages_device (A := A) s p)
  simp only
  set t := s.unmapPages A p A.userMmioBase DEVICE_PAGES
  have htook := mapWindow_keep (A := A) Took.alloc Took.write (A.root (t.procs p).token) phys
    ⟨writable, false, true, isDevice A C phys⟩ (List.range DEVICE_PAGES) (Took.refl (ht.ok hp))
  have hcharged := Sparing.charged (s := s) ht rfl rfl htook
  rcases hm : mapWindow A (A.root (t.procs p).token) phys ⟨writable, false, true, isDevice A C phys⟩
    (List.range DEVICE_PAGES) (t.allocFor p) with ⟨_ | _, r⟩
  · rw [hm] at hcharged
    exact hcharged
  · rw [hm] at hcharged
    exact hcharged

theorem history_unmapRegionFrom (p id : ℕ) (s : KState) : (unmapRegionFrom A p id s).2.w.history = s.w.history := by
  rw [unmapRegionFrom]
  refine forAny_rel (R := fun u v : KState => v.w.history = u.w.history) (fun _ => rfl) (fun _ _ _ h h' => h'.trans h)
    (fun slot _ u => ?_) s
  split_ifs <;> rfl

theorem history_unmapShareSlot (p slot : ℕ) (s : KState) : (unmapShareSlot A p slot s).w.history = s.w.history := by
  rw [unmapShareSlot]
  split_ifs <;> rfl

theorem sparing_load (ha : Accounted F s) {slot id : ℕ} {role : Role} {ok : Bool}
    (hrun : loadProcess A C slot id role s = .ok (ok, t)) : Sparing F s t := by
  have hnil : (⟨s.w, []⟩ : RecordingAlloc).Ok F (held s) := ha.account.congr (zero_add _).symm
  have htook := buildSpace_keep (A := A) (C := C) Took.alloc Took.write (Took.refl hnil)
  rcases wp_ok (loadProcess_spec slot id role s) hrun with
    ⟨-, rfl | ⟨r, hb, rfl⟩⟩ | ⟨-, token, entry, r, hb, rfl⟩
  · exact .same rfl
  · -- the space's frames go back
    rw [hb] at htook
    obtain ⟨fs, hfs, hfree⟩ := htook.history
    refine .of_frames (fs ++ r.frames) ?_ fun f hf => spare_free ha ?_
    · show (r.w.freeFrames r.frames).history = _
      rw [Machine.history_freeFrames, hfs, List.map_append, List.append_assoc]
    · rcases List.mem_append.1 hf with hf | hf
      · exact hfree f hf
      · exact (htook.frames f hf).resolve_left (by simp)
  · rw [hb] at htook
    obtain ⟨fs, hfs, hfree⟩ := htook.history
    exact (Sparing.of_frames fs hfs fun f hf => spare_free ha (hfree f hf)).record rfl (by simp)

/-! ## Making a region -/

/-- the frames taken for a region were free, and go back if there are too few -/
theorem takeDmaFrames_took (n : ℕ) (got : List ℕ) {H : Multiset ℕ} {w w' : Machine} {out : Option (List ℕ)}
    (h : Account F w.fa (got + H)) (hrun : takeDmaFrames n got w = (out, w')) :
    (∀ frames, out = some frames → w'.history = w.history ∧ ∀ f ∈ frames, f ∈ got ∨ f ∈ freeAddrs w.fa) ∧
      (out = none → ∃ fs : List ℕ, w'.history = w.history ++ fs.map Event.freed ∧ ∀ f ∈ fs, f ∈ got ∨ f ∈ freeAddrs w.fa) := by
  induction n generalizing got w with
  | zero =>
    obtain ⟨rfl, rfl⟩ := Prod.mk.inj hrun
    refine ⟨fun frames he => ?_, fun he => by simp at he⟩
    obtain rfl := Option.some.inj he
    exact ⟨rfl, fun f hf => Or.inl hf⟩
  | succ n ih =>
    rw [takeDmaFrames] at hrun
    rcases ha : w.fa.allocDmaFrame with ⟨_ | frame, fa⟩
    · rw [ha] at hrun
      obtain ⟨rfl, rfl⟩ := Prod.mk.inj hrun
      refine ⟨fun frames he => by simp at he, fun _ => ⟨got, ?_, fun f hf => Or.inl hf⟩⟩
      rw [Machine.history_freeFrames]
    · obtain ⟨hmem, hsome⟩ := h.allocDmaFrame (p := frame) (by rw [ha])
      rw [ha] at hsome hrun
      have hgot : Account F fa ((got ++ [frame] : List ℕ) + H) := hsome.enlist
      have hfree : ∀ f, f ∈ got ++ [frame] ∨ f ∈ freeAddrs fa → f ∈ got ∨ f ∈ freeAddrs w.fa := by
        intro f hf
        rcases hf with hf | hf
        · rcases List.mem_append.1 hf with hf | hf
          · exact Or.inl hf
          · rw [List.mem_singleton.1 hf]
            exact Or.inr hmem
        · exact Or.inr (h.free_taken hsome hf)
      obtain ⟨h1, h2⟩ := ih (got ++ [frame]) (w := { w.handOut with fa := fa }.zeroFrame frame) hgot hrun
      refine ⟨fun frames he => ?_, fun he => ?_⟩
      · obtain ⟨hh, hf⟩ := h1 frames he
        exact ⟨hh, fun f hm => hfree f (hf f hm)⟩
      · obtain ⟨fs, hh, hf⟩ := h2 he
        exact ⟨fs, hh, fun f hm => hfree f (hf f hm)⟩

theorem sparing_make (ha : Accounted F s) {pages v : ℕ} {rights : CapRights} (hrun : makeRegion p pages rights s = .ok (v, t)) :
    Sparing F s t := by
  have hnil : Account F s.w.fa (([] : List ℕ) + held s) := ha.account.congr (zero_add _).symm
  have hspare : ∀ f, f ∈ ([] : List ℕ) ∨ f ∈ freeAddrs s.w.fa → Spare F s f := fun f hf =>
    spare_free ha (hf.resolve_left (by simp))
  rcases wp_ok (makeRegion_spec p pages rights s) hrun with
    ⟨-, rfl | ⟨w, hw, rfl⟩ | ⟨frames, w, hw, rfl⟩⟩ | ⟨idx, frames, w, cap, caps, hidx, hw, hins, -, rfl⟩
  · exact .same rfl
  · obtain ⟨fs, hfs, hf⟩ := (takeDmaFrames_took pages [] hnil hw).2 rfl
    exact .of_frames fs hfs fun f hm => hspare f (hf f hm)
  · obtain ⟨hsame, hf⟩ := (takeDmaFrames_took pages [] hnil hw).1 frames rfl
    refine .of_frames frames ?_ fun f hm => hspare f (hf f hm)
    show (w.freeFrames frames).history = _
    rw [Machine.history_freeFrames, hsame]
  · obtain ⟨hsame, -⟩ := (takeDmaFrames_took pages [] hnil hw).1 frames rfl
    have hw' : Sparing F s ({ s with w := w } : KState) := .same hsame
    exact hw'.record rfl (by simp)

/-! ## Coming and going -/

theorem sparing_handOver (slot arg childId : ℕ) (c : Capabilities.CapSlot) (s : KState) :
    Sparing F s (handOver me slot arg childId c s) := by
  rw [handOver]
  cases (s.procs slot).caps.insert c.capType c.rights c.object with
  | none => exact .same rfl
  | some out =>
    have hs : Sparing F s s := .same rfl
    exact hs.record rfl (by simp)

theorem sparing_reap (ha : Accounted F s) (hp : p < MAX_PROCS) : Sparing F s (refusePeers A (reap p s)) := by
  have hr : Sparing F s (reap p s) := by
    refine .of_frames (s.procs p).frames ?_ fun f hf => spare_frame ha hp hf
    show (s.w.freeFrames (s.procs p).frames).history = _
    rw [Machine.history_freeFrames]
  have hq := quiet_refusePeers (A := A) (reap p s)
  exact hr.trans hq.sparing fun _ _ _ => rfl

end Rustproof.Kernel
