/-
How a run ends.

The kernel stops the machine where it cannot go on. When every process is gone it first checks the allocator, the domains and
their tables, and reports what is wrong with them. `ends_exact` says which reports can come and what holds when one does: a
deadlock is one, and when everybody is gone all memory is back, no device reaches anything, and none of the checks fails but
those the boot or the unit itself can fail.
-/
import Rustproof.Kernel.DmaAuthority

namespace Rustproof.Kernel

open Lib Prog Mm

variable {A : Arch} {C : Config} {s s₀ : KState} {F : Multiset ℕ} {m₀ : Mem}

/-- somebody lives, nobody is ready, and nobody waits for a line it can be credited for -/
structure Deadlocked (s : KState) : Prop where
  alive : ∃ p, s.Alive p
  waits : ∀ p, s.Alive p → (s.procs p).state ≠ .ready ∧
    ∀ line, (s.procs p).state = .blockedIrq line → creditable s p line = false

theorem deadlocked_of_classify (hs : Scheduled s) (hc : s.sched.current = none)
    (h : Runstate.classify (runSlots s) (creditable s) = .deadlock) : Deadlocked s := by
  have hlen : (runSlots s).length = MAX_PROCS := by simp [runSlots]
  rw [Runstate.classify, hlen] at h
  split_ifs at h with hwait hlive
  obtain ⟨x, hx, hl⟩ := List.any_eq_true.1 hlive
  obtain ⟨p, hp, rfl⟩ := List.mem_map.1 hx
  refine ⟨⟨p, List.mem_range.1 hp, ?_⟩, fun q hq => ⟨fun hready => ?_, fun line hline => ?_⟩⟩
  · cases hst : (s.procs p).state with
    | free =>
      rw [hst] at hl
      exact absurd hl (by decide)
    | _ => simp [KState.live, Process.live, hst]
  · -- the run queue holds whoever is ready, and it is empty
    have hmem := (hs.queue q).2 ⟨hq.1, hready⟩
    rw [Sched.Scheduler.current_none hs.ok hc] at hmem
    exact absurd hmem (by simp)
  · by_contra hcred
    rw [Bool.not_eq_false] at hcred
    refine hwait (List.any_eq_true.2 ⟨q, List.mem_range.2 hq.1, ?_⟩)
    rw [Runstate.waitingAt, runSlots, List.getElem?_map, List.getElem?_range hq.1, Option.map_some]
    simp [hline, hcred]

/-! ## When everybody is gone -/

/-- nobody lives, and what they had is back -/
structure Over (C : Config) (s : KState) : Prop where
  dead : ∀ p, ¬ s.Alive p
  frames : s.w.fa.free = C.freeAtStart
  regions : ∀ i < MAX_REGIONS, (s.regions i).live = false
  models : ∀ di < MAX_DOMAINS, (s.domains di).reach = Iommu.Reach.empty
  entries : ∀ di, Published C di → ∀ slot, DMA_IOVA_FIRST_SLOT ≤ slot → slot < 512 → ¬ Present C s di slot

theorem Reaching.over (h : Reaching A C s) (ha : Accounted F s) (hF : F.card = C.freeAtStart) (hdead : ∀ p, ¬ s.Alive p) :
    Over C s := by
  have hmapped : ∀ di < MAX_DOMAINS, ∀ x, (s.domains di).mapped x = none := by
    intro di hdi x
    by_contra hc
    obtain ⟨m, hm⟩ := Option.ne_none_iff_exists'.1 hc
    obtain ⟨-, p, k, i, j, hclaim⟩ := h.claimed di hdi x m.1 m.2 hm
    exact hdead p hclaim.holder.alive
  have hgranted : ∀ di < MAX_DOMAINS, ∀ f, (s.domains di).granted f = none := by
    intro di hdi f
    by_contra hc
    obtain ⟨rights, hr⟩ := Option.ne_none_iff_exists'.1 hc
    obtain ⟨x, hx⟩ := h.used di hdi f rights hr
    rw [hmapped di hdi x] at hx
    exact absurd hx (by simp)
  refine ⟨hdead, (ha.all_free hdead).trans hF, fun i hi => ?_, fun di hdi => ?_, fun di hdi slot hlo hhi => ?_⟩
  · by_contra hl
    rw [Bool.not_eq_false] at hl
    obtain ⟨p, hp, -⟩ := ha.owned i hi hl
    exact hdead p hp
  · rw [Iommu.Domain.reach, funext (hgranted di hdi), funext (hmapped di hdi)]
    rfl
  · exact (h.inStep.matched di hdi slot hlo hhi).absent (hmapped di hdi.1 _)

namespace Over

theorem granted (h : Over C s) {di : ℕ} (hdi : di < MAX_DOMAINS) (f : ℕ) : (s.domains di).granted f = none :=
  congrFun (congrArg Iommu.Reach.grants (h.models di hdi)) f

theorem mapped (h : Over C s) {di : ℕ} (hdi : di < MAX_DOMAINS) (x : ℕ) : (s.domains di).mapped x = none :=
  congrFun (congrArg Iommu.Reach.maps (h.models di hdi)) x

/-- a domain that grants nothing passes every check -/
theorem domainVerdict (h : Over C s) (hr : Reaching A C s) {di : ℕ} (hdi : di < MAX_DOMAINS) : domainVerdict C s di = none := by
  have hnone : ∀ p : Iommu.Grant → Bool, (s.domains di).liveGrants.any p = false := by
    intro p
    rw [List.any_eq_false]
    intro g hg
    obtain ⟨hmem, hl⟩ := List.mem_filter.1 hg
    obtain ⟨i, hi, rfl⟩ := List.mem_map.1 hmem
    have hsome := Iommu.Domain.granted_isSome.2 ⟨i, List.mem_range.1 hi, hl, rfl⟩
    rw [h.granted hdi] at hsome
    exact absurd hsome (by decide)
  simp [Kernel.domainVerdict, hnone, (hr.inStep.ok di hdi).contained]

/-- **The verdict**: the machine passed, unless the unit left an invalidation unanswered, or a table shows an entry that was there
before userland. -/
theorem verdict (h : Over C s) (hr : Reaching A C s) (hlow : LowKept C m₀ s) :
    (finalVerdict A C s = .staleMapping ∧ ∃ di, Published C di ∧ ∃ slot < DMA_IOVA_FIRST_SLOT,
      iopte.present (m₀ (C.domainSlots di).l1 slot) = true) ∨
    finalVerdict A C s = if A.iommu = true ∧ 0 < s.timeouts then .unacknowledged else .bootOk := by
  rw [finalVerdict]
  by_cases hstale : A.iommu = true ∧ anyIdx MAX_DOMAINS (staleIn C s) = true
  · left
    rw [if_pos hstale]
    obtain ⟨di, hdi, hst⟩ := anyIdx_iff.1 hstale.2
    rw [staleIn, Bool.and_eq_true, bne_iff_ne, List.any_eq_true] at hst
    obtain ⟨hl1, slot, hslot, hp⟩ := hst
    rw [Bool.and_eq_true] at hp
    have hlt : slot < DMA_IOVA_FIRST_SLOT := by
      by_contra hge
      exact h.entries di ⟨hdi, hl1⟩ slot (not_lt.1 hge) (List.mem_range.1 hslot) hp.1
    refine ⟨rfl, di, ⟨hdi, hl1⟩, slot, hlt, ?_⟩
    rw [← hlow di ⟨hdi, hl1⟩ slot hlt hp.1]
    exact hp.1
  · right
    rw [if_neg hstale]
    have hnone : (List.range MAX_DOMAINS).findSome? (Kernel.domainVerdict C s) = none :=
      List.findSome?_eq_none_iff.2 fun di hdi => h.domainVerdict hr (List.mem_range.1 hdi)
    rw [hnone]
    simp only
    rw [if_neg (fun hc => hc.2 h.frames)]

end Over

/-! ## Every end -/

/-- **How a run ends.** The boot fails to load a process, or is given a mint source that names an extent. After it, in any state
and for any input, the kernel stops only if the command ring is full, in a deadlock, or when everybody is gone; and then the
machine is `Over` and passes, but for an invalidation the unit never answered or an entry the boot itself left in a table. -/
theorem ends_exact (h₀ : PreUserland A C s₀) (hbar : BarApart A C s₀) (hin : Loader.Inside A C.userElf)
    (hgrants : ∀ role, ∀ g ∈ grantsFor C role, g.1 ≠ .region) :
    (∀ e, bootUserland A C s₀ = .error e → e = .loadFailed ∨ e = .mintSourceExtent) ∧
    ∀ s i e, Reachable A C s₀ s → Enabled A s i → handle A C i s = .error e →
      e = .ringFull ∨
      (e = .deadlock ∧ ∃ t, Moves A C Gate.all s.caller (i.trap A s) s t ∧ Deadlocked t) ∨
      ∃ t, Moves A C Gate.all s.caller (i.trap A s) s t ∧ Over C t ∧
        ((e = .staleMapping ∧ ∃ di, Published C di ∧ ∃ slot < DMA_IOVA_FIRST_SLOT, Present C s₀ di slot) ∨
          e = if A.iommu = true ∧ 0 < t.timeouts then .unacknowledged else .bootOk) := by
  refine ⟨fun e hb => wp_error (boot_moves (G := Gate.all) (k := .fresh UserFrame.ZERO) h₀) hb, fun s i e h hen hrun => ?_⟩
  have hready := h.ready h₀
  have hends := wp_error (handle_moves hready hen (Gate.admits_all _ _ _)) hrun
  rcases hends.known with he | he | he | ⟨t, hm, hdead, hv⟩
  · exact Or.inl he
  · obtain ⟨t, hm, hs, hc, hcl⟩ := hends.deadlock he
    exact Or.inr (Or.inl ⟨he, t, hm, deadlocked_of_classify hs hc hcl⟩)
  · -- the frames of a new region are granted to nobody
    obtain ⟨t, pages, rights, hm, -, hmint⟩ := hends.mint he
    have hat : Accounted (freeAddrs s₀.w.fa) t := Moves.keep (fun _ _ hstep hs => hs.move hstep) hm (h.accounted h₀)
    have hbt : OnRegions t := Moves.keep (fun _ _ hstep hs => hs.move hstep) hm (h.onRegions h₀)
    exact absurd hmint (make_ungranted hbt hat _ _ _)
  · have hinv : Sound A C (freeAddrs s₀.w.fa) s₀.w.mem t ∧ Reaching A C t ∧ LowKept C s₀.w.mem t := by
      refine Moves.keep (I := fun u => Sound A C (freeAddrs s₀.w.fa) s₀.w.mem u ∧ Reaching A C u ∧ LowKept C s₀.w.mem u)
        (fun u v hstep hu => ?_) hm ⟨h.sound h₀ hbar.toBarOutside hin hgrants, h.reaching h₀ hbar hin hgrants⟩
      have hg := h₀.ground hbar.toBarOutside
      have hC := h₀.domainsApart hbar
      obtain ⟨h1, h2, h3⟩ := hu
      exact ⟨h1.move hin hgrants hg hstep, h2.move h1 hC hin hgrants hg hstep, h3.move h1 hC hin hg hstep⟩
    obtain ⟨hs, hr, hlow⟩ := hinv
    have hstart : (freeAddrs s₀.w.fa).card = C.freeAtStart := by
      have := h₀.account.count
      rw [h₀.sampled, ← this, Multiset.card_zero, add_zero]
    have hover := hr.over hs.accounted hstart hdead
    refine Or.inr (Or.inr ⟨t, hm, hover, ?_⟩)
    rw [← hv]
    exact hover.verdict hr hlow

/-! ## The machine with a unit, to its end -/

/-- the worker exits with its mapping in place -/
def twoLeft : KState := outcome (handle X86 oneUnitConfig (.syscall exitFrame) unitMapped) unitMapped

def oneLeft : KState := outcome (handle X86 oneUnitConfig (.syscall exitFrame) twoLeft) twoLeft

theorem oneLeft_reachable : Reachable X86 oneUnitConfig oneUnitState oneLeft := by
  have h₁ : unitMapped.idling = false ∧ (handle X86 oneUnitConfig (.syscall exitFrame) unitMapped).toBool = true := by
    decide +kernel
  have h₂ : twoLeft.idling = false ∧ (handle X86 oneUnitConfig (.syscall exitFrame) twoLeft).toBool = true := by
    decide +kernel
  have ht : Reachable X86 oneUnitConfig oneUnitState twoLeft :=
    unitMapped_reachable.outcome (i := .syscall exitFrame) h₁.1 h₁.2
  exact ht.outcome (i := .syscall exitFrame) h₂.1 h₂.2

/-- how a handler stopped the machine -/
def stopped (r : Except Halt (Unit × KState)) : Option Halt :=
  match r with
  | .error e => some e
  | .ok _ => none

theorem oneLeft_ends : stopped (handle X86 oneUnitConfig (.syscall exitFrame) oneLeft) = some .bootOk ∧
    ∃ t, Over oneUnitConfig t := by
  obtain ⟨hawake, hstop⟩ : oneLeft.idling = false ∧
      stopped (handle X86 oneUnitConfig (.syscall exitFrame) oneLeft) = some .bootOk := by decide +kernel
  refine ⟨hstop, ?_⟩
  have hen : Enabled X86 oneLeft (.syscall exitFrame) := hawake
  cases hrun : handle X86 oneUnitConfig (.syscall exitFrame) oneLeft with
  | ok r =>
    rw [hrun] at hstop
    exact absurd hstop (by simp [stopped])
  | error e =>
    rw [hrun] at hstop
    obtain rfl : e = .bootOk := Option.some.inj hstop
    rcases (ends_exact oneUnitConfig_ready oneUnitConfig_apart emptyX86_inside (roleGrants_apart rfl)).2 _ _ _
      oneLeft_reachable hen hrun with he | ⟨he, -⟩ | ⟨t, -, hover, -⟩
    · exact absurd he (by decide)
    · exact absurd he (by decide)
    · exact ⟨t, hover⟩

end Rustproof.Kernel
