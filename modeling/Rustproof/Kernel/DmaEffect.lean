/-
What the DMA paths leave alone.

`DmaOnly C s s'`: the step changed the domain models, the processes' mapping records, the I/O tables and the command ring,
and nothing else. Every function of `Kernel/Dma` is such a step, and so are the DMA halves of a region's end.
-/
import Rustproof.Kernel.Control

namespace Rustproof.Kernel

open Lib Prog

/-- an event of the unit: a leaf stored, the tail rung, an invalidation acknowledged -/
def Event.io : Event → Bool
  | .leaf .. | .tail _ | .invalidated _ => true
  | _ => false

variable (C : Config)

/-- the pages the DMA paths write -/
def ioPages : List ℕ := [(C.domainSlots 0).l1, (C.domainSlots 1).l1, C.cmdBuf, C.cmdStore]

theorem l1_mem_ioPages {di : ℕ} (h : di < MAX_DOMAINS) : (C.domainSlots di).l1 ∈ ioPages C := by
  have h : di < 2 := h
  have : di = 0 ∨ di = 1 := by omega
  rcases this with rfl | rfl <;> simp [ioPages]

structure DmaOnly (s s' : KState) : Prop where
  proc : ∀ p, ∃ d, s'.procs p = { s.procs p with dma := d }
  fa : s'.w.fa = s.w.fa
  mem : ∀ t, t ∉ ioPages C → s'.w.mem t = s.w.mem t
  history : ∃ h, s'.w.history = s.w.history ++ h ∧ ∀ e ∈ h, Event.io e = true
  regions : s'.regions = s.regions
  nextRegionId : s'.nextRegionId = s.nextRegionId
  ledger : s'.ledger = s.ledger
  sched : s'.sched = s.sched
  current : s'.current = s.current
  idling : s'.idling = s.idling
  cr3 : s'.cr3 = s.cr3
  handouts : s'.w.handouts = s.w.handouts

namespace DmaOnly

variable {C}

theorem refl (s : KState) : DmaOnly C s s :=
  ⟨fun p => ⟨(s.procs p).dma, rfl⟩, rfl, fun _ _ => rfl, ⟨[], by simp⟩, rfl, rfl, rfl, rfl, rfl, rfl, rfl, rfl⟩

theorem trans {s t u : KState} (h : DmaOnly C s t) (h' : DmaOnly C t u) : DmaOnly C s u := by
  refine ⟨fun p => ?_, h'.fa.trans h.fa, fun q hq => (h'.mem q hq).trans (h.mem q hq), ?_, h'.regions.trans h.regions,
    h'.nextRegionId.trans h.nextRegionId, h'.ledger.trans h.ledger, h'.sched.trans h.sched,
    h'.current.trans h.current, h'.idling.trans h.idling, h'.cr3.trans h.cr3, h'.handouts.trans h.handouts⟩
  · obtain ⟨d, hd⟩ := h.proc p
    obtain ⟨d', hd'⟩ := h'.proc p
    exact ⟨d', by rw [hd', hd]⟩
  · obtain ⟨x, hx, hio⟩ := h.history
    obtain ⟨y, hy, hio'⟩ := h'.history
    refine ⟨x ++ y, by rw [hy, hx, List.append_assoc], fun e he => ?_⟩
    exact (List.mem_append.1 he).elim (hio e) (hio' e)

variable {s s' : KState} (h : DmaOnly C s s')

include h

theorem authority (p : ℕ) : (s'.procs p).authority = (s.procs p).authority := by
  obtain ⟨d, hd⟩ := h.proc p; rw [hd]; rfl

theorem space (p : ℕ) : (s'.procs p).space = (s.procs p).space := by
  obtain ⟨d, hd⟩ := h.proc p; rw [hd]; rfl

theorem state (p : ℕ) : (s'.procs p).state = (s.procs p).state := by
  obtain ⟨d, hd⟩ := h.proc p; rw [hd]

theorem alive {p : ℕ} : s'.Alive p ↔ s.Alive p := by
  rw [KState.Alive, KState.Alive, KState.live, KState.live, Process.live_eq (h.authority p)]

theorem steady : Steady s s' := by
  refine Steady.of_same h.state (fun p => Process.token_eq (h.space p)) h.sched h.current h.idling (Or.inl h.cr3) ?_
    fun i hi => ?_
  · obtain ⟨d, hd⟩ := h.proc s.current; rw [hd]
  · obtain ⟨x, hx, hio⟩ := h.history
    rw [hx] at hi
    rcases List.mem_append.1 hi with hi | hi
    · exact hi
    · exact absurd (hio _ hi) (by simp [Event.io])

omit h

theorem foldl {α : Type} {f : KState → α → KState} {bs : List α} (hf : ∀ b ∈ bs, ∀ s, DmaOnly C s (f s b)) (s : KState) :
    DmaOnly C s (bs.foldl f s) := by
  induction bs generalizing s with
  | nil => exact refl s
  | cons b bs ih =>
    exact (hf b List.mem_cons_self s).trans (ih (fun c hc => hf c (List.mem_cons_of_mem _ hc)) _)

/-- a loop that also collects a flag -/
theorem forAny {α : Type} {f : α → KState → Bool × KState} {bs : List α} (hf : ∀ b ∈ bs, ∀ s, DmaOnly C s (f b s).2)
    (s : KState) : DmaOnly C s (Prog.forAny f bs s).2 :=
  forAny_rel refl (fun _ _ _ => trans) hf s

/-- a change to the models, the ring's counters or one process's records -/
theorem of_model {s s' : KState} (hp : ∀ p, ∃ d, s'.procs p = { s.procs p with dma := d }) (hw : s'.w = s.w)
    (hr : s'.regions = s.regions) (hn : s'.nextRegionId = s.nextRegionId) (hl : s'.ledger = s.ledger)
    (hs : s'.sched = s.sched) (hc : s'.current = s.current) (hi : s'.idling = s.idling) : DmaOnly C s s' :=
  ⟨hp, by rw [hw], fun t _ => by rw [hw], ⟨[], by simp [hw]⟩, hr, hn, hl, hs, hc, hi, by rw [KState.cr3, hw], by rw [hw]⟩

theorem modProc (s : KState) (i : ℕ) (f : Process → Process) (hf : ∃ d, f (s.procs i) = { s.procs i with dma := d }) :
    DmaOnly C s (s.modProc i f) := by
  refine of_model (fun p => ?_) rfl rfl rfl rfl rfl rfl rfl
  simp only [KState.modProc_procs, Table.put_apply]
  by_cases h : p = i
  · subst h; rw [if_pos rfl]; exact hf
  · rw [if_neg h]; exact ⟨(s.procs p).dma, rfl⟩

theorem modDomain (s : KState) (di : ℕ) (f : Domain → Domain) : DmaOnly C s (s.modDomain di f) :=
  of_model (fun p => ⟨(s.procs p).dma, rfl⟩) rfl rfl rfl rfl rfl rfl rfl

/-- a store to one of the I/O pages, and its event -/
theorem store (s : KState) {page : ℕ} (hp : page ∈ ioPages C) (i : ℕ) (v : Word) {e : Event} (he : Event.io e = true) :
    DmaOnly C s ((s.setMem (s.w.mem.put page i v)).record e) :=
  ⟨fun p => ⟨(s.procs p).dma, rfl⟩, rfl,
    fun t ht => RadixTree.Store.put_of_ne _ (fun hc => ht (by rw [hc]; exact hp)) _ _,
    ⟨[e], rfl, fun e' he' => by rw [List.mem_singleton.1 he']; exact he⟩, rfl, rfl, rfl, rfl, rfl, rfl, rfl, rfl⟩

theorem storeLeaf (s : KState) {di : ℕ} (hdi : di < MAX_DOMAINS) (slot : ℕ) (pte : Word) :
    DmaOnly C s (s.storeLeaf C di slot pte) :=
  store s (l1_mem_ioPages C hdi) slot pte rfl

end DmaOnly

theorem domainLookup_lt {named di : ℕ} (h : domainLookup C named = some di) :
    di < MAX_DOMAINS ∧ (C.domainSlots di).id ≠ 0 ∧ (C.domainSlots di).id = named := by
  obtain ⟨hlt, hp, -⟩ := firstIdx_some h
  simpa [hlt] using hp

/-! ## The ring -/

variable {C}

/-- a step of the command ring: its two pages, its tail, the count of timeouts -/
structure RingOnly (C : Config) (s s' : KState) : Prop where
  procs : s'.procs = s.procs
  domains : s'.domains = s.domains
  regions : s'.regions = s.regions
  nextRegionId : s'.nextRegionId = s.nextRegionId
  ledger : s'.ledger = s.ledger
  sched : s'.sched = s.sched
  current : s'.current = s.current
  idling : s'.idling = s.idling
  cr3 : s'.cr3 = s.cr3
  fa : s'.w.fa = s.w.fa
  handouts : s'.w.handouts = s.w.handouts
  mem : ∀ t, t ≠ C.cmdBuf → t ≠ C.cmdStore → s'.w.mem t = s.w.mem t
  history : ∃ h, s'.w.history = s.w.history ++ h ∧ ∀ e ∈ h, (∃ v, e = .tail v) ∨ ∃ di, e = .invalidated di

namespace RingOnly

theorem refl (s : KState) : RingOnly C s s :=
  ⟨rfl, rfl, rfl, rfl, rfl, rfl, rfl, rfl, rfl, rfl, rfl, fun _ _ _ => rfl, [], by simp⟩

theorem trans {s t u : KState} (h : RingOnly C s t) (h' : RingOnly C t u) : RingOnly C s u := by
  refine ⟨h'.procs.trans h.procs, h'.domains.trans h.domains, h'.regions.trans h.regions,
    h'.nextRegionId.trans h.nextRegionId, h'.ledger.trans h.ledger, h'.sched.trans h.sched,
    h'.current.trans h.current, h'.idling.trans h.idling, h'.cr3.trans h.cr3, h'.fa.trans h.fa,
    h'.handouts.trans h.handouts, fun q h1 h2 => (h'.mem q h1 h2).trans (h.mem q h1 h2), ?_⟩
  obtain ⟨x, hx, hio⟩ := h.history
  obtain ⟨y, hy, hio'⟩ := h'.history
  refine ⟨x ++ y, by rw [hy, hx, List.append_assoc], fun e he => ?_⟩
  exact (List.mem_append.1 he).elim (hio e) (hio' e)

theorem dmaOnly {s s' : KState} (h : RingOnly C s s') : DmaOnly C s s' := by
  refine ⟨fun p => ⟨(s.procs p).dma, by rw [h.procs]⟩, h.fa, fun t ht => h.mem t (fun e => ht ?_) fun e => ht ?_, ?_,
    h.regions, h.nextRegionId, h.ledger, h.sched, h.current, h.idling, h.cr3, h.handouts⟩
  · rw [e]; simp [ioPages]
  · rw [e]; simp [ioPages]
  · obtain ⟨x, hx, hio⟩ := h.history
    refine ⟨x, hx, fun e he => ?_⟩
    rcases hio e he with ⟨v, rfl⟩ | ⟨di, rfl⟩ <;> rfl

end RingOnly

theorem ringOnly_iommuCmd (cmd : Command) (s : KState) : wp (iommuCmd C cmd) (fun _ => RingOnly C s) (· = .ringFull) s := by
  rw [iommuCmd, wp_bind, wp_get]
  refine wp_ite (fun _ => ?_) fun _ => wp_ite (fun _ => rfl) fun _ => ?_
  · exact RingOnly.refl s
  · rw [wp_bind, wp_modify, wp_ret]
    refine ⟨rfl, rfl, rfl, rfl, rfl, rfl, rfl, rfl, rfl, rfl, rfl, fun t hb _ => ?_, [_], rfl, by simp⟩
    exact (RadixTree.Store.put_of_ne _ hb _ _).trans (RadixTree.Store.put_of_ne _ hb _ _)

theorem ringOnly_iommuInvalidate (di : ℕ) (s : KState) :
    wp (iommuInvalidate C di) (fun _ => RingOnly C s) (· = .ringFull) s := by
  have hzero : RingOnly C s (s.setMem (s.w.mem.put C.cmdStore 0 0)) :=
    ⟨rfl, rfl, rfl, rfl, rfl, rfl, rfl, rfl, rfl, rfl, rfl, fun t _ hs => RadixTree.Store.put_of_ne _ hs _ _, [], by simp⟩
  have hcmd : ∀ (cmd : Command) (t : KState), RingOnly C s t →
      wp (iommuCmd C cmd) (fun _ => RingOnly C s) (· = .ringFull) t := fun cmd t ht =>
    wp_mono (ringOnly_iommuCmd cmd t) fun _ u hu => ht.trans hu
  rw [iommuInvalidate]
  refine wp_ite (fun _ => RingOnly.refl s) fun _ => ?_
  simp only [wp_bind, wp_modify]
  refine wp_mono (hcmd _ _ hzero) fun a t ht => wp_ite (fun _ => ht) fun _ => ?_
  rw [wp_bind]
  refine wp_mono (hcmd _ t ht) fun a t ht => wp_ite (fun _ => ht) fun _ => ?_
  rw [wp_bind]
  refine wp_mono (hcmd _ t ht) fun a t ht => wp_ite (fun _ => ht) fun _ => ?_
  rw [wp_run, awaitCompletion]
  split_ifs
  · exact ht.trans ⟨rfl, rfl, rfl, rfl, rfl, rfl, rfl, rfl, rfl, rfl, rfl,
      fun t _ hs => RadixTree.Store.put_of_ne _ hs _ _, [_], rfl, by simp⟩
  · exact ht

theorem ringOnly_invalidateCounted (di : ℕ) (s : KState) :
    wp (invalidateCounted C di) (fun _ => RingOnly C s) (· = .ringFull) s := by
  rw [invalidateCounted, wp_bind]
  refine wp_mono (ringOnly_iommuInvalidate di s) fun a t ht => wp_onlyIf (fun _ => ?_) fun _ => ht
  exact ht.trans ⟨rfl, rfl, rfl, rfl, rfl, rfl, rfl, rfl, rfl, rfl, rfl, fun _ _ _ => rfl, [], by simp⟩

theorem ringOnly_flushIf (any : Bool) (s : KState) : wp (flushIf C any) (fun _ => RingOnly C s) (· = .ringFull) s := by
  rw [flushIf]
  refine wp_onlyIf (fun _ => ?_) fun _ => RingOnly.refl s
  refine wp_forEach (fun di _ t ht => wp_onlyIf (fun _ => ?_) fun _ => ht) (RingOnly.refl s)
  exact wp_mono (ringOnly_invalidateCounted di t) fun _ u hu => ht.trans hu

/-! ## Giving reach -/

theorem dmaOnly_rollback {di : ℕ} (hdi : di < MAX_DOMAINS) (ri first k : ℕ) (s : KState) :
    DmaOnly C s (rollbackDma C di ri first k s) := by
  rw [rollbackDma]
  refine (DmaOnly.foldl (fun j _ s => ?_) s).trans (DmaOnly.foldl (fun j _ s => ?_) _)
  · exact (DmaOnly.modDomain s _ _).trans (DmaOnly.storeLeaf _ hdi _ _)
  · simp only
    split_ifs
    · exact DmaOnly.refl s
    · exact DmaOnly.modDomain s _ _

theorem dmaOnly_installDma {di : ℕ} (hdi : di < MAX_DOMAINS) (ri first : ℕ) (rights : CapRights) (n k : ℕ) (s : KState) :
    DmaOnly C s (installDma C di ri first rights n k s).2 := by
  induction n generalizing k s with
  | zero => exact DmaOnly.refl s
  | succ n ih =>
    rw [installDma]
    have hg := DmaOnly.modDomain (C := C) s di fun d => (d.grant ((s.regions ri).frames.getD k 0 / PAGE_SIZE) rights).2
    split
    · exact hg.trans (dmaOnly_rollback hdi _ _ _ _)
    · exact hg.trans (((DmaOnly.modDomain _ _ _).trans (DmaOnly.storeLeaf _ hdi _ _)).trans (ih _ _))

theorem dmaOnly_mapDma (who domain region : ℕ) (rights : CapRights) (s : KState) :
    DmaOnly C s (mapDma C who domain region rights s).2 := by
  rw [mapDma]
  split_ifs
  · exact DmaOnly.refl s
  cases hd : domainLookup C domain with
  | none => exact DmaOnly.refl s
  | some di =>
    simp only
    split_ifs
    · exact DmaOnly.refl s
    cases s.regionIndex region with
    | none => exact DmaOnly.refl s
    | some ri =>
      simp only
      cases findRun (s.leafAt C di) (s.regions ri).frames.length DMA_IOVA_SLOTS DMA_IOVA_FIRST_SLOT 0 with
      | none => exact DmaOnly.refl s
      | some first =>
        simp only
        cases firstIdx SHARE_SLOTS fun i => ((s.procs who).dma i).1 == 0 with
        | none => exact DmaOnly.refl s
        | some k =>
          have hin := dmaOnly_installDma (C := C) (domainLookup_lt C hd).1 ri first rights (s.regions ri).frames.length 0 s
          rcases hi : installDma C di ri first rights (s.regions ri).frames.length 0 s with ⟨_ | _, t⟩
          · rw [hi] at hin; exact hin
          · rw [hi] at hin
            have hrec : DmaOnly C t (t.modProc who fun p => { p with dma := p.dma.put k (region, domain) }) :=
              DmaOnly.modProc t who _ ⟨_, rfl⟩
            exact DmaOnly.trans hin hrec

/-! ## Withdrawing reach -/

theorem dmaOnly_clearIoMappingsIn {di : ℕ} (hdi : di < MAX_DOMAINS) (pfn : ℕ) (s : KState) :
    DmaOnly C s (clearIoMappingsIn C di pfn s).2 := by
  rw [clearIoMappingsIn]
  split_ifs
  · exact DmaOnly.refl s
  · refine DmaOnly.forAny (fun slot _ s => ?_) s
    rw [clearSlot]
    split_ifs
    · exact DmaOnly.storeLeaf s hdi _ _
    · exact DmaOnly.refl s

theorem dmaOnly_clearIoMappingsOf (pfn : ℕ) (s : KState) : DmaOnly C s (clearIoMappingsOf C pfn s).2 :=
  DmaOnly.forAny (fun _ hdi s => dmaOnly_clearIoMappingsIn (List.mem_range.1 hdi) pfn s) s

theorem dmaOnly_withdrawPage {di : ℕ} (hdi : di < MAX_DOMAINS) (pfn : ℕ) (s : KState) :
    DmaOnly C s (withdrawPage C di pfn s).2 := by
  simp only [withdrawPage]
  exact (dmaOnly_clearIoMappingsIn hdi pfn s).trans (DmaOnly.modDomain _ _ _)

theorem dmaOnly_withdrawRegionFromDomain {di : ℕ} (hdi : di < MAX_DOMAINS) (ri : ℕ) (s : KState) :
    DmaOnly C s (withdrawRegionFromDomain C di ri s).2 :=
  DmaOnly.forAny (fun _ _ s => dmaOnly_withdrawPage hdi _ s) s

theorem dmaOnly_withdrawDmaSlot (who slot : ℕ) (s : KState) : DmaOnly C s (withdrawDmaSlot C who slot s).2 := by
  rw [withdrawDmaSlot]
  simp only
  split_ifs
  · exact DmaOnly.refl s
  have h1 : DmaOnly C s (s.modProc who fun p => { p with dma := p.dma.put slot (0, 0) }) :=
    DmaOnly.modProc s who _ ⟨_, rfl⟩
  cases hd : domainLookup C ((s.procs who).dma slot).2 with
  | none => exact h1
  | some di =>
    simp only
    split
    · exact h1
    · exact h1.trans (dmaOnly_withdrawRegionFromDomain (domainLookup_lt C hd).1 _ _)

theorem dmaOnly_withdrawSlots (who : ℕ) (s : KState) : DmaOnly C s (withdrawSlots C who s).2 := by
  refine DmaOnly.forAny (fun slot _ s => ?_) s
  rw [withdrawSlotAtExit]
  exact (dmaOnly_withdrawDmaSlot who slot s).trans
    (DmaOnly.of_model (fun p => ⟨_, rfl⟩) rfl rfl rfl rfl rfl rfl rfl)

theorem dmaOnly_withdrawAllDmaOf (who : ℕ) (s : KState) :
    wp (withdrawAllDmaOf C who) (fun _ => DmaOnly C s) (· = .ringFull) s := by
  rw [withdrawAllDmaOf, wp_bind, wp_run]
  exact wp_mono (ringOnly_flushIf _ _) fun _ t ht => (dmaOnly_withdrawSlots who s).trans ht.dmaOnly

theorem dmaOnly_dropRecords (who region domain : ℕ) (s : KState) : DmaOnly C s (dropRecords who region domain s) :=
  DmaOnly.modProc s who _ ⟨_, rfl⟩

theorem dmaOnly_unmapDma (who domain region : ℕ) (s : KState) :
    wp (unmapDma C who domain region) (fun _ => DmaOnly C s) (· = .ringFull) s := by
  rw [unmapDma, wp_bind, wp_get]
  refine wp_ite (fun _ => DmaOnly.refl s) fun _ => ?_
  cases hd : domainLookup C domain with
  | none => exact DmaOnly.refl s
  | some di =>
    simp only
    cases s.regionIndex region with
    | none => exact DmaOnly.refl s
    | some ri =>
      have h1 : DmaOnly C s (dropRecords who region domain (withdrawRegionFromDomain C di ri s).2) :=
        (dmaOnly_withdrawRegionFromDomain (domainLookup_lt C hd).1 ri s).trans (dmaOnly_dropRecords _ _ _ _)
      simp only [wp_bind, wp_modify]
      refine wp_onlyIf (fun _ => ?_) fun _ => h1
      exact wp_mono (ringOnly_invalidateCounted di _) fun _ t ht => h1.trans ht.dmaOnly

theorem dmaOnly_withdrawUnheld (proc : ℕ) (s : KState) : DmaOnly C s (withdrawUnheld C proc s).2 := by
  refine DmaOnly.forAny (fun slot _ s => ?_) s
  rw [withdrawUnheldSlot]
  simp only
  split_ifs
  · exact DmaOnly.refl s
  · exact DmaOnly.refl s
  · exact dmaOnly_withdrawDmaSlot _ _ s

theorem dmaOnly_withdrawRegionEverywhere (A : Arch) (frames : List ℕ) (s : KState) :
    DmaOnly C s (withdrawRegionEverywhere A C frames s).2 := by
  refine DmaOnly.forAny (fun frame _ s => ?_) s
  simp only [withdrawFrame]
  refine DmaOnly.trans (t := (if A.iommu then clearIoMappingsOf C (frame / PAGE_SIZE) s else (false, s)).2) ?_
    (DmaOnly.foldl (fun di _ s => DmaOnly.modDomain s _ _) _)
  split_ifs
  · exact dmaOnly_clearIoMappingsOf _ s
  · exact DmaOnly.refl s

theorem dmaOnly_forgetRecords (region : ℕ) (s : KState) : DmaOnly C s (forgetRecords region s) := by
  refine DmaOnly.of_model (fun p => ?_) rfl rfl rfl rfl rfl rfl rfl
  rw [forgetRecords]
  simp only
  split_ifs
  · exact ⟨_, rfl⟩
  · exact ⟨_, rfl⟩

end Rustproof.Kernel
