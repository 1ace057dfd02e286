/-
What the mapping paths leave alone.

`SpaceOnly s p s'`: the step changed the memory, the allocator, and the frame list and share slots of process `p`, and
nothing else.
-/
import Rustproof.Kernel.DmaEffect

namespace Rustproof.Kernel

open Lib Prog

structure SpaceOnly (s : KState) (p : ℕ) (s' : KState) : Prop where
  proc : ∃ fr sh, s'.procs = s.procs.put p { s.procs p with frames := fr, shares := sh }
  history : ∃ fs : List ℕ, s'.w.history = s.w.history ++ fs.map Event.freed
  cr3 : s'.cr3 = s.cr3 ∨ s'.cr3 = (s.procs s.current).token
  regions : s'.regions = s.regions
  nextRegionId : s'.nextRegionId = s.nextRegionId
  ledger : s'.ledger = s.ledger
  domains : s'.domains = s.domains
  cmdTail : s'.cmdTail = s.cmdTail
  sched : s'.sched = s.sched
  current : s'.current = s.current
  idling : s'.idling = s.idling

namespace SpaceOnly

variable {s t u : KState} {p : ℕ}

theorem refl (s : KState) (p : ℕ) : SpaceOnly s p s :=
  ⟨⟨(s.procs p).frames, (s.procs p).shares, (Table.put_eq_self s.procs p).symm⟩, ⟨[], by simp⟩, Or.inl rfl, rfl, rfl, rfl,
    rfl, rfl, rfl, rfl, rfl⟩

theorem procs_apply (h : SpaceOnly s p t) (q : ℕ) :
    ∃ fr sh, t.procs q = { s.procs q with frames := fr, shares := sh } := by
  obtain ⟨fr, sh, hp⟩ := h.proc
  rw [hp, Table.put_apply]
  by_cases hq : q = p
  · subst hq; rw [if_pos rfl]; exact ⟨fr, sh, rfl⟩
  · rw [if_neg hq]; exact ⟨(s.procs q).frames, (s.procs q).shares, rfl⟩

theorem other (h : SpaceOnly s p t) {q : ℕ} (hq : q ≠ p) : t.procs q = s.procs q := by
  obtain ⟨fr, sh, hp⟩ := h.proc
  rw [hp, Table.put_of_ne _ hq]

theorem token (h : SpaceOnly s p t) (q : ℕ) : (t.procs q).token = (s.procs q).token := by
  obtain ⟨fr, sh, hp⟩ := h.procs_apply q; rw [hp]

theorem authority (h : SpaceOnly s p t) (q : ℕ) : (t.procs q).authority = (s.procs q).authority := by
  obtain ⟨fr, sh, hp⟩ := h.procs_apply q; rw [hp]; rfl

theorem state (h : SpaceOnly s p t) (q : ℕ) : (t.procs q).state = (s.procs q).state := by
  obtain ⟨fr, sh, hp⟩ := h.procs_apply q; rw [hp]

theorem dma (h : SpaceOnly s p t) (q : ℕ) : (t.procs q).dma = (s.procs q).dma := by
  obtain ⟨fr, sh, hp⟩ := h.procs_apply q; rw [hp]

theorem caps (h : SpaceOnly s p t) (q : ℕ) : (t.procs q).caps = (s.procs q).caps := Process.caps_eq (h.authority q)

theorem steady (h : SpaceOnly s p t) : Steady s t := by
  refine Steady.of_same h.state h.token h.sched h.current h.idling h.cr3 ?_ fun i hi => ?_
  · obtain ⟨fr, sh, hp⟩ := h.procs_apply s.current; rw [hp]
  · obtain ⟨fs, hf⟩ := h.history
    rw [hf] at hi
    rcases List.mem_append.1 hi with hi | hi
    · exact hi
    · simp at hi

theorem trans (h : SpaceOnly s p t) (h' : SpaceOnly t p u) : SpaceOnly s p u := by
  obtain ⟨fr, sh, hp⟩ := h.proc
  obtain ⟨fr', sh', hp'⟩ := h'.proc
  obtain ⟨fs, hf⟩ := h.history
  obtain ⟨fs', hf'⟩ := h'.history
  refine ⟨⟨fr', sh', ?_⟩, ⟨fs ++ fs', by rw [hf', hf, List.map_append, List.append_assoc]⟩, ?_,
    h'.regions.trans h.regions, h'.nextRegionId.trans h.nextRegionId, h'.ledger.trans h.ledger,
    h'.domains.trans h.domains, h'.cmdTail.trans h.cmdTail, h'.sched.trans h.sched, h'.current.trans h.current,
    h'.idling.trans h.idling⟩
  · rw [hp', hp]
    funext q
    by_cases hq : q = p
    · subst hq; simp
    · rw [Table.put_of_ne _ hq, Table.put_of_ne _ hq, Table.put_of_ne _ hq]
  · rcases h'.cr3 with hc | hc
    · rw [hc]; exact h.cr3
    · exact Or.inr (by rw [hc, h.current, h.token])

/-- a change to the memory and to one process's frames and share slots -/
theorem of_mem (s : KState) (p : ℕ) (f : Process → Process) (m : Mem)
    (hf : ∃ fr sh, f (s.procs p) = { s.procs p with frames := fr, shares := sh }) :
    SpaceOnly s p ((s.setMem m).modProc p f) := by
  obtain ⟨fr, sh, h⟩ := hf
  exact ⟨⟨fr, sh, by simp [h]⟩, ⟨[], by simp⟩, Or.inl rfl, rfl, rfl, rfl, rfl, rfl, rfl, rfl, rfl⟩

theorem activate (s : KState) (p q : ℕ) : SpaceOnly s p (s.activateIfCurrent q) := by
  refine ⟨⟨_, _, (Table.put_eq_self s.procs p).symm⟩, ⟨[], by simp⟩, ?_, rfl, rfl, rfl, rfl, rfl, rfl, rfl, rfl⟩
  show (if q = s.current then _ else _) = _ ∨ (if q = s.current then _ else _) = _
  split_ifs with h
  · rw [h]; exact Or.inr rfl
  · exact Or.inl rfl

theorem forAny {α : Type} {f : α → KState → Bool × KState} {bs : List α} (hf : ∀ b ∈ bs, ∀ s, SpaceOnly s p (f b s).2)
    (s : KState) : SpaceOnly s p (Prog.forAny f bs s).2 :=
  forAny_rel (fun s => refl s p) (fun _ _ _ => trans) hf s

theorem foldl {α : Type} {f : KState → α → KState} {bs : List α} (hf : ∀ b ∈ bs, ∀ s, SpaceOnly s p (f s b)) (s : KState) :
    SpaceOnly s p (bs.foldl f s) := by
  induction bs generalizing s with
  | nil => exact refl s p
  | cons b bs ih =>
    exact (hf b List.mem_cons_self s).trans (ih (fun c hc => hf c (List.mem_cons_of_mem _ hc)) _)

end SpaceOnly

variable (A : Arch) (C : Config)

/-! ## Unmapping -/

theorem spaceOnly_unmapPages (s : KState) (p q base n : ℕ) : SpaceOnly s p (s.unmapPages A q base n) :=
  ⟨⟨_, _, (Table.put_eq_self s.procs p).symm⟩, ⟨[], by simp⟩, Or.inl rfl, rfl, rfl, rfl, rfl, rfl, rfl, rfl, rfl⟩

theorem spaceOnly_emptySlot (s : KState) (p slot : ℕ) : SpaceOnly s p (emptySlot A p slot s) :=
  ((spaceOnly_unmapPages A s p p _ _).trans (SpaceOnly.of_mem (s.unmapPages A p (shareVa A slot) REGION_MAX_PAGES) p _
    (s.unmapPages A p (shareVa A slot) REGION_MAX_PAGES).w.mem ⟨_, _, rfl⟩)).trans (SpaceOnly.activate _ p p)

theorem spaceOnly_unmapShareSlot (s : KState) (p slot : ℕ) : SpaceOnly s p (unmapShareSlot A p slot s) := by
  rw [unmapShareSlot]
  split_ifs
  · exact SpaceOnly.refl s p
  · exact spaceOnly_emptySlot A s p slot

theorem spaceOnly_unmapRegionFrom (s : KState) (p id : ℕ) : SpaceOnly s p (unmapRegionFrom A p id s).2 := by
  refine SpaceOnly.forAny (fun slot _ s => ?_) s
  split_ifs
  · exact SpaceOnly.refl s p
  · exact spaceOnly_emptySlot A s p slot

theorem spaceOnly_unmapDeviceWindow (s : KState) (p : ℕ) : SpaceOnly s p (unmapDeviceWindow A p s) :=
  (spaceOnly_unmapPages A s p p _ _).trans (SpaceOnly.activate _ p p)

theorem spaceOnly_unmapUnheld (s : KState) (p : ℕ) : SpaceOnly s p (unmapUnheld A p s) := by
  refine SpaceOnly.foldl (fun slot _ s => ?_) s
  simp only
  split_ifs
  · exact spaceOnly_unmapRegionFrom A s p _
  · exact SpaceOnly.refl s p

/-! ## Mapping

An allocator charged to a process moves the machine's memory and allocator; its events are frames handed back. -/

/-- an allocator's use leaves the paging base alone, and its events are frames freed -/
def FreedOnly (r r' : RecordingAlloc) : Prop :=
  r'.w.cr3 = r.w.cr3 ∧ ∃ fs : List ℕ, r'.w.history = r.w.history ++ fs.map Event.freed

theorem FreedOnly.refl (r : RecordingAlloc) : FreedOnly r r := ⟨rfl, [], by simp⟩

theorem FreedOnly.trans {r r' r'' : RecordingAlloc} (h : FreedOnly r r') (h' : FreedOnly r' r'') : FreedOnly r r'' := by
  obtain ⟨hc, fs, hf⟩ := h
  obtain ⟨hc', fs', hf'⟩ := h'
  exact ⟨hc'.trans hc, fs ++ fs', by rw [hf', hf, List.map_append, List.append_assoc]⟩

theorem freedOnly_allocFrame (r : RecordingAlloc) : FreedOnly r r.allocFrame.2 := by
  rw [RecordingAlloc.allocFrame]
  rcases r.w.fa.allocFrame with ⟨_ | q, fa⟩
  · exact ⟨rfl, [], by simp⟩
  · simp only
    split_ifs
    · exact ⟨rfl, [q], rfl⟩
    · exact ⟨rfl, [], by simp [Machine.zeroFrame, Machine.handOut]⟩

/-- what page-table code keeps of an allocator -/
theorem FreedOnly.alloc {r : RecordingAlloc} : ∀ r', FreedOnly r r' → FreedOnly r (FrameAllocator.allocFrame r').2 :=
  fun r' h => h.trans (freedOnly_allocFrame r')

theorem FreedOnly.write {r : RecordingAlloc} : ∀ r' m, FreedOnly r r' → FreedOnly r (FrameAllocator.setMem r' m) :=
  fun _ _ h => h

section Keep

variable {A} {I : RecordingAlloc → Prop} (halloc : ∀ r, I r → I r.allocFrame.2)
  (hmem : ∀ (r : RecordingAlloc) m, I r → I { r with w := { r.w with mem := m } })

include halloc hmem

/-- what an allocator keeps, the mapping loop of `map_region` keeps -/
theorem mapShare_keep (root base : ℕ) (perms : Perms) (frames : List ℕ) (i : ℕ) {r : RecordingAlloc} (h : I r) :
    I (mapShare A root base perms frames i r).2 := by
  induction frames generalizing i r with
  | nil => exact h
  | cons frame frames ih =>
    rw [mapShare]
    have h1 := Vspace.mapPage_keep (U := A.toMmu) halloc hmem root (base + i * PAGE_SIZE) frame perms h
    rcases hr : Vspace.mapPage A.toMmu root (base + i * PAGE_SIZE) frame perms r with ⟨_ | _, r'⟩
    · rw [hr] at h1; exact hmem _ _ h1
    · rw [hr] at h1; exact ih _ h1

/-- and that of `map_device` -/
theorem mapWindow_keep (root phys : ℕ) (perms : Perms) (is : List ℕ) {r : RecordingAlloc} (h : I r) :
    I (mapWindow A root phys perms is r).2 := by
  induction is generalizing r with
  | nil => exact h
  | cons i is ih =>
    rw [mapWindow]
    have h1 := Vspace.mapPage_keep (U := A.toMmu) halloc hmem root (A.userMmioBase + i * PAGE_SIZE) (phys + i * PAGE_SIZE)
      perms h
    rcases hr : Vspace.mapPage A.toMmu root (A.userMmioBase + i * PAGE_SIZE) (phys + i * PAGE_SIZE) perms r with ⟨_ | _, r'⟩
    · rw [hr] at h1; exact h1
    · rw [hr] at h1; exact ih h1

end Keep

/-- charging an allocator's use to process `p` -/
theorem spaceOnly_afterAlloc (s : KState) (p : ℕ) {r : RecordingAlloc} (h : FreedOnly (s.allocFor p) r) :
    SpaceOnly s p (s.afterAlloc p r) :=
  ⟨⟨r.frames, (s.procs p).shares, rfl⟩, h.2, Or.inl h.1, rfl, rfl, rfl, rfl, rfl, rfl, rfl, rfl⟩

theorem spaceOnly_mapRegion (s : KState) (p id : ℕ) (rights : CapRights) : SpaceOnly s p (mapRegion A p id rights s).2 := by
  rw [mapRegion]
  cases s.regionSlot id with
  | none => exact SpaceOnly.refl s p
  | some idx =>
    simp only
    cases (firstIdx SHARE_SLOTS fun i => (s.procs p).shares i == id).or
        (firstIdx SHARE_SLOTS fun i => (s.procs p).shares i == 0) with
    | none => exact SpaceOnly.refl s p
    | some slot =>
      simp only
      have h0 := spaceOnly_unmapPages A s p p (shareVa A slot) REGION_MAX_PAGES
      set t := s.unmapPages A p (shareVa A slot) REGION_MAX_PAGES
      have hf := mapShare_keep (A := A) FreedOnly.alloc FreedOnly.write (A.root (t.procs p).token) (shareVa A slot)
        (if rights.contains CapRights.WRITE then Perms.USER_RW else Perms.USER_RO) (t.regions idx).frames 0
        (FreedOnly.refl (t.allocFor p))
      rcases hm : mapShare A (A.root (t.procs p).token) (shareVa A slot)
        (if rights.contains CapRights.WRITE then Perms.USER_RW else Perms.USER_RO) (t.regions idx).frames 0
        (t.allocFor p) with ⟨_ | _, r⟩
      · rw [hm] at hf
        exact (h0.trans (spaceOnly_afterAlloc t p hf)).trans (SpaceOnly.activate _ p p)
      · rw [hm] at hf
        have h2 := SpaceOnly.of_mem (t.afterAlloc p r) p (fun q => { q with shares := q.shares.put slot id })
          (t.afterAlloc p r).w.mem ⟨_, _, rfl⟩
        exact ((h0.trans (spaceOnly_afterAlloc t p hf)).trans h2).trans (SpaceOnly.activate _ p p)


theorem spaceOnly_mapDevice (s : KState) {p : ℕ} (hp : p = s.current) (phys pages : ℕ) (writable : Bool) :
    SpaceOnly s p (mapDevice A C p phys pages writable s).2 := by
  rw [mapDevice]
  split_ifs
  · exact SpaceOnly.refl s p
  · have h0 := spaceOnly_unmapPages A s p p A.userMmioBase DEVICE_PAGES
    simp only
    set t := s.unmapPages A p A.userMmioBase DEVICE_PAGES
    have hf := mapWindow_keep (A := A) FreedOnly.alloc FreedOnly.write (A.root (t.procs p).token) phys
      ⟨writable, false, true, isDevice A C phys⟩ (List.range pages) (FreedOnly.refl (t.allocFor p))
    rcases hm : mapWindow A (A.root (t.procs p).token) phys ⟨writable, false, true, isDevice A C phys⟩
      (List.range pages) (t.allocFor p) with ⟨_ | _, r⟩
    · rw [hm] at hf
      exact h0.trans (spaceOnly_afterAlloc t p hf)
    · rw [hm] at hf
      have h1 := h0.trans (spaceOnly_afterAlloc t p hf)
      exact ⟨h1.proc, h1.history, Or.inr (by rw [← hp]; rfl), h1.regions, h1.nextRegionId, h1.ledger, h1.domains,
        h1.cmdTail, h1.sched, h1.current, h1.idling⟩

end Rustproof.Kernel
