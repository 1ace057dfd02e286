/-
What the units see of a step.

The history of a machine holds every store to a table of the units and every invalidation they acknowledge. `accesses di` reads
it as the log of domain `di`'s table, and `Step` says that a step's share of it tells how the tables have changed. Withdrawing
only clears entries, and reports it if it has (`Clears`); a flush empties the cache of every domain there is, if the unit is
armed and answers (`Flushes`).
-/
import Rustproof.Kernel.DmaAuthority
import Rustproof.Lib.TranslationCache

namespace Rustproof.Kernel

open Lib Prog Mm

variable {A : Arch} {C : Config} {s t u : KState} {h h' : List Event} {D D' : ℕ → Prop}

/-- what an event is to the unit of domain `di` -/
def accessOf (di : ℕ) : Event → Option (Access ℕ Word)
  | .leaf dj slot pte => if dj = di then some (.write slot pte) else none
  | .invalidated dj => if dj = di then some .flush else none
  | _ => none

/-- the log of domain `di`'s table -/
def accesses (di : ℕ) (h : List Event) : List (Access ℕ Word) := h.filterMap (accessOf di)

theorem accesses_append (di : ℕ) (h h' : List Event) : accesses di (h ++ h') = accesses di h ++ accesses di h' :=
  List.filterMap_append

theorem accessOf_none {e : Event} (he : Event.io e = false) (di : ℕ) : accessOf di e = none := by
  cases e with
  | leaf => exact absurd he (by simp [Event.io])
  | invalidated => exact absurd he (by simp [Event.io])
  | _ => rfl

theorem accesses_nil (hh : ∀ e ∈ h, Event.io e = false) (di : ℕ) : accesses di h = [] :=
  List.filterMap_eq_nil_iff.2 fun e he => accessOf_none (hh e he) di

/-! ## Steps -/

/-- the step appended `h`, and `h` is how the tables have changed -/
structure Tells (C : Config) (s : KState) (h : List Event) (t : KState) : Prop where
  history : t.w.history = s.w.history ++ h
  table : ∀ di, Published C di →
    Access.table (s.w.mem (C.domainSlots di).l1) (accesses di h) = t.w.mem (C.domainSlots di).l1

namespace Tells

theorem silent (hhist : t.w.history = s.w.history)
    (hmem : ∀ di, Published C di → t.w.mem (C.domainSlots di).l1 = s.w.mem (C.domainSlots di).l1) : Tells C s [] t :=
  ⟨by rw [hhist, List.append_nil], fun di hdi => (hmem di hdi).symm⟩

theorem refl (s : KState) : Tells C s [] s := silent rfl fun _ _ => rfl

theorem trans (hs : Tells C s h t) (ht : Tells C t h' u) : Tells C s (h ++ h') u := by
  refine ⟨by rw [ht.history, hs.history, List.append_assoc], fun di hdi => ?_⟩
  rw [accesses_append, Access.table_append, hs.table di hdi, ht.table di hdi]

/-- the same step, looked at from and to states with the same machine -/
theorem same (hs : Tells C s h t) (hu : u.w = t.w) : Tells C s h u :=
  ⟨by rw [hu, hs.history], fun di hdi => by rw [hu, hs.table di hdi]⟩

theorem storeLeaf (hC : DomainsOk C) {di : ℕ} (hdi : Published C di) (s : KState) (slot : ℕ) (pte : Word) :
    Tells C s [.leaf di slot pte] (s.storeLeaf C di slot pte) := by
  refine ⟨rfl, fun dj hdj => ?_⟩
  funext x
  have hleaf := leafAt_storeLeaf hC hdi hdj s slot x pte
  rw [KState.leafAt, KState.leafAt] at hleaf
  rw [hleaf]
  by_cases hd : di = dj
  · subst hd
    have hlog : accesses di [.leaf di slot pte] = [.write slot pte] := by simp [accesses, accessOf]
    rw [hlog]
    show Function.update (s.w.mem (C.domainSlots di).l1) slot pte x = _
    rw [Function.update_apply]
    simp only [true_and]
  · have hne : ¬(dj = di ∧ x = slot) := fun hc => hd hc.1.symm
    simp only [accesses, List.filterMap_cons, accessOf, if_neg hd, List.filterMap_nil, Access.table, if_neg hne]

end Tells

/-! ## Withdrawing -/

/-- entries of the tables of `D` are cleared, and the flag says so if any is -/
def Clears (C : Config) (D : ℕ → Prop) (s : KState) (r : Bool × KState) : Prop :=
  ∃ h, Tells C s h r.2 ∧ (r.1 = false → h = []) ∧ ∀ e ∈ h, ∃ di slot, D di ∧ e = .leaf di slot 0

namespace Clears

theorem none (ht : t.w = s.w) : Clears C D s (false, t) :=
  ⟨[], (Tells.refl s).same ht, fun _ => rfl, fun _ he => absurd he List.not_mem_nil⟩

theorem mono {r : Bool × KState} (hr : Clears C D s r) (hD : ∀ di, D di → D' di) : Clears C D' s r := by
  obtain ⟨h, ht, hf, hl⟩ := hr
  refine ⟨h, ht, hf, fun e he => ?_⟩
  obtain ⟨di, slot, hdi, he'⟩ := hl e he
  exact ⟨di, slot, hD di hdi, he'⟩

/-- from and to states with the same machine -/
theorem same {r : Bool × KState} (hr : Clears C D s r) (hs : s.w = u.w) (ht : t.w = r.2.w) : Clears C D u (r.1, t) := by
  obtain ⟨h, ⟨h1, h2⟩, hf, hl⟩ := hr
  rw [hs] at h1 h2
  exact ⟨h, Tells.same ⟨h1, h2⟩ ht, hf, hl⟩

theorem forAny {α : Type} {f : α → KState → Bool × KState} {bs : List α} (hf : ∀ b ∈ bs, ∀ s, Clears C D s (f b s))
    (s : KState) : Clears C D s (Prog.forAny f bs s) := by
  induction bs generalizing s with
  | nil => exact none rfl
  | cons b bs ih =>
    obtain ⟨x, hx, hfx, hlx⟩ := hf b List.mem_cons_self s
    obtain ⟨y, hy, hfy, hly⟩ := ih (fun c hc => hf c (List.mem_cons_of_mem _ hc)) (f b s).2
    refine ⟨x ++ y, hx.trans hy, fun hflag => ?_, fun e he => (List.mem_append.1 he).elim (hlx e) (hly e)⟩
    obtain ⟨h1, h2⟩ := Bool.or_eq_false_iff.1 hflag
    rw [hfx h1, hfy h2, List.append_nil]

end Clears

theorem clears_in (hC : DomainsOk C) {di : ℕ} (hdi : di < MAX_DOMAINS) (pfn : ℕ) (s : KState) :
    Clears C (· = di) s (clearIoMappingsIn C di pfn s) := by
  rw [clearIoMappingsIn]
  split_ifs with hl1
  · exact .none rfl
  refine Clears.forAny (fun slot _ s => ?_) s
  rw [clearSlot]
  split_ifs
  · exact ⟨_, Tells.storeLeaf hC ⟨hdi, hl1⟩ s slot 0, fun hc => absurd hc (by simp),
      fun e he => ⟨di, slot, rfl, List.mem_singleton.1 he⟩⟩
  · exact .none rfl

theorem clears_page (hC : DomainsOk C) {di : ℕ} (hdi : di < MAX_DOMAINS) (pfn : ℕ) (s : KState) :
    Clears C (· = di) s (withdrawPage C di pfn s) := (clears_in hC hdi pfn s).same rfl rfl

theorem clears_region (hC : DomainsOk C) {di : ℕ} (hdi : di < MAX_DOMAINS) (ri : ℕ) (s : KState) :
    Clears C (· = di) s (withdrawRegionFromDomain C di ri s) := Clears.forAny (fun _ _ s => clears_page hC hdi _ s) s

theorem clears_slot (hC : DomainsOk C) (who slot : ℕ) (s : KState) :
    Clears C (fun _ => True) s (withdrawDmaSlot C who slot s) := by
  rw [withdrawDmaSlot]
  simp only
  split_ifs
  · exact .none rfl
  cases hd : domainLookup C ((s.procs who).dma slot).2 with
  | none => exact .none rfl
  | some di =>
    simp only
    split
    · exact .none rfl
    · exact ((clears_region hC (domainLookup_lt C hd).1 _ _).mono fun _ _ => trivial).same rfl rfl

theorem clears_slots (hC : DomainsOk C) (who : ℕ) (s : KState) : Clears C (fun _ => True) s (withdrawSlots C who s) := by
  refine Clears.forAny (fun slot _ s => ?_) s
  rw [withdrawSlotAtExit]
  exact (clears_slot hC who slot s).same rfl rfl

theorem clears_unheld (hC : DomainsOk C) (p : ℕ) (s : KState) : Clears C (fun _ => True) s (withdrawUnheld C p s) := by
  refine Clears.forAny (fun slot _ s => ?_) s
  rw [withdrawUnheldSlot]
  simp only
  split_ifs
  · exact .none rfl
  · exact .none rfl
  · exact clears_slot hC p slot s

theorem clears_everywhere (hC : DomainsOk C) (frames : List ℕ) (s : KState) :
    Clears C (fun _ => True) s (withdrawRegionEverywhere A C frames s) := by
  refine Clears.forAny (fun frame _ s => ?_) s
  have hmodels : ∀ (u : KState) (pfn : ℕ),
      ((List.range MAX_DOMAINS).foldl (fun s di => s.modDomain di fun d => d.revoke pfn) u).w = u.w := fun u pfn =>
    List.foldlRecOn (motive := fun v : KState => v.w = u.w) _ _ rfl fun _ h _ _ => h
  rw [withdrawFrame]
  refine Clears.same (r := if A.iommu then clearIoMappingsOf C (frame / PAGE_SIZE) s else (false, s)) ?_ rfl (hmodels _ _)
  split_ifs
  · exact Clears.forAny (fun di hdi s => (clears_in hC (List.mem_range.1 hdi) _ s).mono fun _ _ => trivial) s
  · exact .none rfl

/-! ## Flushing -/

/-- the unit listens to the ring and answers everything it is told -/
structure Armed (C : Config) : Prop where
  base : C.amdviBase ≠ 0
  ring : C.cmdBuf ≠ 0
  word : C.cmdStore ≠ 0
  answers : ∀ n, C.completes n = true

/-- a step of the ring: commands, and answers for domains of `D` -/
structure Flushes (C : Config) (D : ℕ → Prop) (s t : KState) (h : List Event) : Prop where
  tells : Tells C s h t
  events : ∀ e ∈ h, (∃ v, e = .tail v) ∨ ∃ di, D di ∧ e = .invalidated di

namespace Flushes

theorem silent (hw : t.w.history = s.w.history)
    (hmem : ∀ di, Published C di → t.w.mem (C.domainSlots di).l1 = s.w.mem (C.domainSlots di).l1) : Flushes C D s t [] :=
  ⟨.silent hw hmem, fun _ he => absurd he List.not_mem_nil⟩

theorem trans (hs : Flushes C D s t h) (ht : Flushes C D t u h') : Flushes C D s u (h ++ h') :=
  ⟨hs.tells.trans ht.tells, fun e he => (List.mem_append.1 he).elim (hs.events e) (ht.events e)⟩

theorem mono (hs : Flushes C D s t h) (hD : ∀ di, D di → D' di) : Flushes C D' s t h :=
  ⟨hs.tells, fun e he => (hs.events e he).imp_right fun ⟨di, hdi, he'⟩ => ⟨di, hD di hdi, he'⟩⟩

/-- to a domain it says at most that the cache is empty -/
theorem idle (hs : Flushes C D s t h) (di : ℕ) : ∀ a ∈ accesses di h, a = .flush := by
  intro a ha
  obtain ⟨e, he, hacc⟩ := List.mem_filterMap.1 ha
  rcases hs.events e he with ⟨v, rfl⟩ | ⟨dj, -, rfl⟩
  · exact absurd hacc (by simp [accessOf])
  · by_cases hd : dj = di
    · rw [accessOf, if_pos hd] at hacc
      exact (Option.some.inj hacc).symm
    · rw [accessOf, if_neg hd] at hacc
      exact absurd hacc (by simp)

/-- and it says it, if the domain is answered for -/
theorem nonempty {di : ℕ} (hmem : .invalidated di ∈ h) : accesses di h ≠ [] := by
  intro hnil
  have hnone := List.filterMap_eq_nil_iff.1 hnil _ hmem
  rw [accessOf, if_pos rfl] at hnone
  exact absurd hnone (by simp)

end Flushes

theorem DomainsOk.ring_apart (hC : DomainsOk C) {di : ℕ} (hdi : Published C di) :
    (C.domainSlots di).l1 ≠ C.cmdBuf ∧ (C.domainSlots di).l1 ≠ C.cmdStore :=
  ⟨(hC.others di hdi.1 hdi.2).1, (hC.others di hdi.1 hdi.2).2.1⟩

theorem flushes_cmd (hC : DomainsOk C) (cmd : Command) (s : KState) :
    wp (iommuCmd C cmd) (fun b t => ∃ h, Flushes C D s t h ∧ (C.cmdBuf ≠ 0 → b = true)) (· = .ringFull) s := by
  rw [iommuCmd, wp_bind, wp_get]
  refine wp_ite (fun h0 => ⟨[], .silent rfl fun _ _ => rfl, fun hc => absurd h0 hc⟩) fun _ => wp_ite (fun _ => rfl) fun _ => ?_
  rw [wp_bind, wp_modify, wp_ret]
  refine ⟨[.tail (s.cmdTail + 16)], ⟨⟨rfl, fun di hdi => ?_⟩, fun e he => Or.inl ⟨_, List.mem_singleton.1 he⟩⟩, fun _ => rfl⟩
  have hne := (hC.ring_apart hdi).1
  exact ((RadixTree.Store.put_of_ne _ hne _ _).trans (RadixTree.Store.put_of_ne _ hne _ _)).symm

theorem flushes_invalidate (hC : DomainsOk C) (di : ℕ) (s : KState) :
    wp (iommuInvalidate C di) (fun _ t => ∃ h, Flushes C (· = di) s t h ∧ (Armed C → .invalidated di ∈ h)) (· = .ringFull) s := by
  rw [iommuInvalidate]
  refine wp_ite (fun h0 => ⟨[], .silent rfl fun _ _ => rfl, fun hA => absurd h0 hA.word⟩) fun _ => ?_
  simp only [wp_bind, wp_modify]
  have hzero : Flushes C (· = di) s (s.setMem (s.w.mem.put C.cmdStore 0 0)) [] :=
    .silent rfl fun dj hdj => RadixTree.Store.put_of_ne _ (hC.ring_apart hdj).2 _ _
  refine wp_mono (flushes_cmd (D := (· = di)) hC _ _) fun a t ht => ?_
  obtain ⟨h1, ht, hb⟩ := ht
  refine wp_ite (fun hc => ?_) fun _ => ?_
  · exact ⟨_, hzero.trans ht, fun hA => absurd ((hb hA.ring).symm.trans hc) (by decide)⟩
  rw [wp_bind]
  refine wp_mono (flushes_cmd (D := (· = di)) hC _ t) fun a u hu => ?_
  obtain ⟨h2, hu, hb⟩ := hu
  refine wp_ite (fun hc => ?_) fun _ => ?_
  · exact ⟨_, (hzero.trans ht).trans hu, fun hA => absurd ((hb hA.ring).symm.trans hc) (by decide)⟩
  rw [wp_bind]
  refine wp_mono (flushes_cmd (D := (· = di)) hC _ u) fun a v hv => ?_
  obtain ⟨h3, hv, hb⟩ := hv
  refine wp_ite (fun hc => ?_) fun _ => ?_
  · exact ⟨_, ((hzero.trans ht).trans hu).trans hv, fun hA => absurd ((hb hA.ring).symm.trans hc) (by decide)⟩
  rw [wp_run, awaitCompletion]
  split_ifs with hans
  · -- the unit writes the completion word, which is in no table
    have hdone : Flushes C (· = di) v ((v.setMem (v.w.mem.put C.cmdStore 0 DONE)).record (.invalidated di))
          [.invalidated di] := by
      refine ⟨⟨rfl, fun dj hdj => ?_⟩, fun e he => Or.inr ⟨di, rfl, List.mem_singleton.1 he⟩⟩
      have hsame : (v.w.mem.put C.cmdStore 0 DONE) (C.domainSlots dj).l1 = v.w.mem (C.domainSlots dj).l1 :=
        RadixTree.Store.put_of_ne _ (hC.ring_apart hdj).2 _ _
      refine (Access.table_idle (fun a ha => ?_) _).trans hsame.symm
      obtain ⟨e, he, hacc⟩ := List.mem_filterMap.1 ha
      rw [List.mem_singleton.1 he, accessOf] at hacc
      split_ifs at hacc
      exact (Option.some.inj hacc).symm
    exact ⟨_, (((hzero.trans ht).trans hu).trans hv).trans hdone, fun _ => List.mem_append_right _ (List.mem_singleton_self _)⟩
  · exact ⟨_, ((hzero.trans ht).trans hu).trans hv, fun hA => absurd (hA.answers _) hans⟩

theorem flushes_counted (hC : DomainsOk C) (di : ℕ) (s : KState) :
    wp (invalidateCounted C di) (fun _ t => ∃ h, Flushes C (· = di) s t h ∧ (Armed C → .invalidated di ∈ h))
      (· = .ringFull) s := by
  rw [invalidateCounted, wp_bind]
  refine wp_mono (flushes_invalidate hC di s) fun a t ht => ?_
  obtain ⟨h, ht, ha⟩ := ht
  refine wp_onlyIf (fun _ => ?_) fun _ => ⟨h, ht, ha⟩
  exact ⟨h, ⟨ht.tells.same rfl, ht.events⟩, ha⟩

/-- **A flush** tells every domain there is, if there is anything to tell. -/
theorem flushes_flushIf (hC : DomainsOk C) (any : Bool) (s : KState) :
    wp (flushIf C any) (fun _ t => ∃ h, Flushes C (fun _ => True) s t h ∧
      (any = true → Armed C → ∀ di, Published C di → .invalidated di ∈ h)) (· = .ringFull) s := by
  rw [flushIf]
  refine wp_onlyIf (fun _ => ?_) fun hno => ⟨[], .silent rfl fun _ _ => rfl, fun hany hA => absurd ⟨hany, hA.base⟩ hno⟩
  have hloop : wp (forEach (List.range MAX_DOMAINS) fun di => onlyIf ((C.domainSlots di).id ≠ 0) (invalidateCounted C di))
      (fun _ t => ∃ h, Flushes C (fun _ => True) s t h ∧
        (Armed C → ∀ di ∈ List.range MAX_DOMAINS, (C.domainSlots di).id ≠ 0 → .invalidated di ∈ h)) (· = .ringFull) s := by
    refine wp_forEach_prefix (I := fun (pre : List ℕ) t => ∃ h, Flushes C (fun _ => True) s t h ∧
      (Armed C → ∀ di ∈ pre, (C.domainSlots di).id ≠ 0 → .invalidated di ∈ h)) (fun pre di post _ t ht => ?_)
      ⟨[], .silent rfl fun _ _ => rfl, fun _ _ hc => absurd hc List.not_mem_nil⟩
    obtain ⟨h, ht, ha⟩ := ht
    refine wp_onlyIf (fun _ => ?_) fun hid => ⟨h, ht, fun hA dj hdj hne => ?_⟩
    · refine wp_mono (flushes_counted hC di t) fun _ u hu => ?_
      obtain ⟨h', hu, ha'⟩ := hu
      refine ⟨h ++ h', ht.trans (hu.mono fun _ _ => trivial), fun hA dj hdj hne => ?_⟩
      rcases List.mem_append.1 hdj with hdj | hdj
      · exact List.mem_append_left _ (ha hA dj hdj hne)
      · rw [List.mem_singleton.1 hdj]
        exact List.mem_append_right _ (ha' hA)
    · rcases List.mem_append.1 hdj with hdj | hdj
      · exact ha hA dj hdj hne
      · exact absurd (List.mem_singleton.1 hdj ▸ hne) hid
  refine wp_mono hloop fun _ t ht => ?_
  obtain ⟨h, ht, ha⟩ := ht
  refine ⟨h, ht, fun _ hA di hdi => ha hA di (List.mem_range.2 hdi.1) ?_⟩
  rcases hC.named di hdi.1 with hempty | ⟨hid, -⟩
  · exact absurd (by rw [hempty]; rfl) hdi.2
  · omega

/-! ## Settled steps -/

/-- a step whose stores the units are told of before it ends, and that hands nothing to the allocator -/
def Settles (C : Config) (s t : KState) : Prop :=
  ∃ h, Tells C s h t ∧ (∀ di, Published C di → Access.Settled (accesses di h)) ∧ ∀ f, .freed f ∉ h

namespace Settles

theorem silent (hhist : t.w.history = s.w.history)
    (hmem : ∀ di, Published C di → t.w.mem (C.domainSlots di).l1 = s.w.mem (C.domainSlots di).l1) : Settles C s t :=
  ⟨[], .silent hhist hmem, fun _ _ _ ha => absurd ha (by simp [accesses]), fun _ => List.not_mem_nil⟩

theorem refl (s : KState) : Settles C s s := silent rfl fun _ _ => rfl

theorem trans (hs : Settles C s t) (ht : Settles C t u) : Settles C s u := by
  obtain ⟨h, h1, h2, h3⟩ := hs
  obtain ⟨h', h1', h2', h3'⟩ := ht
  refine ⟨h ++ h', h1.trans h1', fun di hdi => ?_, fun f hf => (List.mem_append.1 hf).elim (h3 f) (h3' f)⟩
  rw [accesses_append]
  exact (h2 di hdi).append (h2' di hdi)

/-- entries are cleared, and the domains they may be in are told if any was -/
theorem cleared {r : Bool × KState} (hr : Clears C D s r) (hf : Flushes C D' r.2 t h')
    (hall : r.1 = true → ∀ di, Published C di → D di → .invalidated di ∈ h') : Settles C s t := by
  obtain ⟨h, ht, hflag, hl⟩ := hr
  refine ⟨h ++ h', ht.trans hf.tells, fun di hdi => ?_, fun f hm => ?_⟩
  · rw [accesses_append]
    by_cases hD : r.1 = true ∧ D di
    · exact Access.settled_flush (hf.idle di) (Flushes.nonempty (hall hD.1 di hdi hD.2))
    · have hnone : accesses di h = [] := by
        by_cases hflag' : r.1 = true
        · refine List.filterMap_eq_nil_iff.2 fun e he => ?_
          obtain ⟨dj, slot, hdj, rfl⟩ := hl e he
          have hne : dj ≠ di := fun hd => hD ⟨hflag', hd ▸ hdj⟩
          exact if_neg hne
        · rw [hflag (Bool.eq_false_iff.2 hflag')]
          rfl
      rw [hnone]
      exact Access.settled_idle (hf.idle di)
  · rcases List.mem_append.1 hm with hm | hm
    · obtain ⟨dj, slot, -, he⟩ := hl _ hm
      exact absurd he (by simp)
    · rcases hf.events _ hm with ⟨v, he⟩ | ⟨dj, -, he⟩
      · exact absurd he (by simp)
      · exact absurd he (by simp)

end Settles

theorem Quiet.settles (h : Quiet s t) : Settles C s t := by
  obtain ⟨x, hx, hsched⟩ := h.history
  have hio : ∀ e ∈ x, Event.io e = false := fun e he => (Event.Spares.of_scheduling (F := 0) (s := s) (hsched e he)).1
  refine ⟨x, ⟨hx, fun di _ => ?_⟩, fun di _ => ?_, fun f hf => ?_⟩
  · rw [accesses_nil hio, h.mem]
    rfl
  · rw [accesses_nil hio]
    exact Access.settled_idle fun _ ha => absurd ha List.not_mem_nil
  · exact absurd (hsched _ hf) (by simp [Event.scheduling])

theorem settles_flushIf (hC : DomainsOk C) (hA : Armed C) {r : Bool × KState} (hr : Clears C (fun _ => True) s r) :
    wp (flushIf C r.1) (fun _ t => Settles C s t) (· = .ringFull) r.2 := by
  refine wp_mono (flushes_flushIf hC r.1 r.2) fun _ t ht => ?_
  obtain ⟨h, hf, hall⟩ := ht
  exact .cleared hr hf fun hany di hdi _ => hall hany hA di hdi

theorem settles_withdrawAll (hC : DomainsOk C) (hA : Armed C) {who : ℕ} (hrun : withdrawAllDmaOf C who s = .ok ((), t)) :
    Settles C s t := by
  have hwp : wp (withdrawAllDmaOf C who) (fun _ t => Settles C s t) (· = .ringFull) s := by
    rw [withdrawAllDmaOf, wp_bind, wp_run]
    exact settles_flushIf hC hA (clears_slots hC who s)
  exact wp_ok hwp hrun

theorem settles_unmapDma (hC : DomainsOk C) (hA : Armed C) {who domain region v : ℕ}
    (hrun : unmapDma C who domain region s = .ok (v, t)) : Settles C s t := by
  have hwp : wp (unmapDma C who domain region) (fun _ t => Settles C s t) (· = .ringFull) s := by
    rw [unmapDma, wp_bind, wp_get]
    refine wp_ite (fun _ => .refl s) fun _ => ?_
    cases hd : domainLookup C domain with
    | none => exact .refl s
    | some di =>
      simp only
      cases s.regionIndex region with
      | none => exact .refl s
      | some ri =>
        simp only [wp_bind, wp_modify]
        refine wp_onlyIf (fun _ => ?_) fun hno => absurd hA.base hno
        refine wp_mono (flushes_counted hC di _) fun _ u hu => ?_
        obtain ⟨h, hf, hall⟩ := hu
        have hw : Clears C (· = di) s ((withdrawRegionFromDomain C di ri s).1,
            dropRecords who region domain (withdrawRegionFromDomain C di ri s).2) :=
          (clears_region hC (domainLookup_lt C hd).1 ri s).same rfl rfl
        exact .cleared hw hf fun _ dj _ hdj => hdj ▸ hall hA
  exact wp_ok hwp hrun

/-! ### Revocations -/

theorem history_bereave (d : Deleg.Endpoint) (s : KState) : (bereave A d s).w.history = s.w.history := by
  have hfold : ∀ u : KState, (unmapUnheld A d.proc u).w.history = u.w.history := fun u => by
    rw [unmapUnheld]
    refine List.foldlRecOn (motive := fun v : KState => v.w.history = u.w.history) _ _ rfl fun v hv slot _ => ?_
    simp only
    split_ifs
    · exact (history_unmapRegionFrom _ _ v).trans hv
    · exact hv
  rw [bereave, detach, hfold]
  split_ifs <;> rfl

/-- the page tables of a process are no tables of the units -/
theorem settles_bereave (hs : Laid A C s) {d : Deleg.Endpoint} (hd : s.Alive d.proc) : Settles C s (bereave A d s) := by
  refine .silent (history_bereave d s) fun di hdi => ?_
  obtain ⟨S, hS, -⟩ := unmaps_bereave (A := A) d s rfl
  have hproc := KState.modProc_procs s d.proc fun p => { p with caps := p.caps.revoke d.cap }
  have hc := hS.mem (by rw [hproc, Table.put_self]; exact hs.tree _ hd)
  refine hc.off _ fun hmem => ?_
  rw [hproc, Table.put_self] at hmem
  exact hs.io _ hd _ hmem (l1_mem_ioPages C hdi.1)

theorem settles_strip (hs : Laid A C s) (hA : Armed C) (d : Deleg.Endpoint) :
    wp (strip A C d) (fun _ t => Settles C s t) (· = .ringFull) s := by
  rw [strip, wp_bind, wp_get]
  refine wp_ite (fun hl => ?_) fun _ => .refl s
  have hb : Settles C s (bereave A d s) := settles_bereave hs ⟨hs.slots _ hl.1, hl.1⟩
  simp only [wp_bind, wp_modify]
  change wp _ _ _ (bereave A d s)
  refine wp_onlyIf (fun _ => ?_) fun _ => hb.trans (quiet_settle d.proc _).settles
  rw [wp_bind, wp_run]
  refine wp_mono (settles_flushIf hs.domainsOk hA (clears_unheld hs.domainsOk d.proc _)) fun _ t ht => ?_
  exact (hb.trans ht).trans (quiet_settle d.proc t).settles

theorem settles_revoke (hs : Laid A C s) (hA : Armed C) {root cap : ℕ}
    (hrun : revokeDelegations A C root cap s = .ok ((), t)) : Settles C s t := by
  have hedges : Laid A C { s with ledger := (s.ledger.revokeFrom (s.endpointAt root cap) MAX_DELEGATIONS).1 } :=
    ⟨hs.domainsOk, hs.slots, hs.tree, hs.apart, hs.io⟩
  have hwp : wp (revokeDelegations A C root cap) (fun _ u => Laid A C u ∧ Settles C s u)
      (fun e => e = .ringFull ∧ e = .ringFull) s := by
    refine wp_revoke (I := fun u => Laid A C u ∧ Settles C s u) ⟨hedges, .silent rfl fun _ _ => rfl⟩ fun d _ u hu => ?_
    refine wp_mono (wp_and (cut_strip hu.1 d) (settles_strip hu.1 hA d)) fun _ v hv => ?_
    exact ⟨hv.1.1.laid hu.1, hu.2.trans hv.2⟩
  exact (wp_ok hwp hrun).2

end Rustproof.Kernel
