/-
What a revocation leaves mapped.

A revocation strips the capabilities it reaches, and re-checks every mapping of the processes it strips: a share window by
"some readable capability for the region", the device window by "some readable `Mmio` capability", a device's reach by a
readable capability for the region and a writable one for the domain. `Cut` says what such a check leaves, exactly.

- `Cut.trans`, `cut_strip`, `revoke_cut`: one endpoint after the other, the mappings left are those the final capabilities
  pass the check for.
- `permitted_iff`: every mapping left is one its holder still has a capability for, with its object and its writability, if
  and only if no stripped process has a mapping that a lesser capability passes the check for (`Answers`).
-/
import Rustproof.Kernel.Isolation
import Rustproof.Kernel.Attribution

namespace Rustproof.Kernel

open Lib Prog Vspace

/-! ## Mappings -/

/-- one page of a share slot, the device window, or one entry of a domain's table that a DMA record covers -/
inductive Mapping where
  | share (slot page : ℕ)
  | device
  | dma (record entry : ℕ)
deriving DecidableEq, Repr

/-- the two capabilities a DMA record rests on -/
def keepsDma (caps : Caps) (r : ℕ × ℕ) : Bool :=
  capsHoldRegion caps r.1 CapRights.READ && capsHoldDomain caps r.2 CapRights.WRITE

namespace KState

variable (A : Arch) (C : Config) (s : KState) (caps : Caps) (p : ℕ)

/-- process `p` has the mapping -/
def Maps : Mapping → Prop
  | .share slot page => slot < SHARE_SLOTS ∧ page < REGION_MAX_PAGES ∧
      A.fmt.present (s.leaf A p (sharePage A slot page)) = true
  | .device => A.fmt.present (s.leaf A p (devicePage A)) = true
  | .dma record entry => A.iommu = true ∧ record < SHARE_SLOTS ∧ entry < 512 ∧ ((s.procs p).dma record).1 ≠ 0 ∧
      ∃ di ri, domainLookup C ((s.procs p).dma record).2 = some di ∧ s.regionIndex ((s.procs p).dma record).1 = some ri ∧
        Present C s di entry ∧ ∃ f ∈ (s.regions ri).frames, iopte.frame (s.leafAt C di entry) = f / PAGE_SIZE

/-- `caps` permits the mapping: its object, and its writability -/
def Permits : Mapping → Prop
  | .share slot page => ∃ i, s.regionSlot ((s.procs p).shares slot) = some i ∧
      (s.regions i).frames[page]? = some (A.fmt.addr (s.leaf A p (sharePage A slot page))) ∧
      Allows caps .region ((s.procs p).shares slot) (A.writable (s.leaf A p (sharePage A slot page)))
  | .device => Allows caps .mmio (A.fmt.addr (s.leaf A p (devicePage A))) (A.writable (s.leaf A p (devicePage A)))
  | .dma record entry => capsHoldDomain caps ((s.procs p).dma record).2 CapRights.WRITE = true ∧
      ∀ di, domainLookup C ((s.procs p).dma record).2 = some di →
        Allows caps .region ((s.procs p).dma record).1 (iopte.writable (s.leafAt C di entry))

/-- the check that lets the mapping stand -/
def passes : Mapping → Bool
  | .share slot _ => (s.procs p).shares slot == 0 || capsHoldRegion caps ((s.procs p).shares slot) CapRights.READ
  | .device => capsHoldMmio caps
  | .dma record _ => keepsDma caps ((s.procs p).dma record)

end KState

/-- every mapping of a live process is one it holds a capability for -/
def Permitted (A : Arch) (C : Config) (s : KState) : Prop :=
  ∀ p, s.Alive p → ∀ m, s.Maps A C p m → s.Permits A C (s.procs p).caps p m

/-! ## What the checks leave -/

variable (A : Arch) (C : Config)

/-- the region is withdrawn from the domain: a checked process has a record of it that fails the check under `caps` -/
def Fails (T : ℕ → Prop) (caps : ℕ → Caps) (s : KState) (region domain : ℕ) : Prop :=
  A.iommu = true ∧ region ≠ 0 ∧ ∃ p, s.Alive p ∧ T p ∧ ∃ k < SHARE_SLOTS, (s.procs p).dma k = (region, domain) ∧
    keepsDma (caps p) (region, domain) = false

/-- the processes in `T` had every mapping checked against the capabilities they are left with -/
structure Cut (T : ℕ → Prop) (s t : KState) : Prop where
  live : ∀ p, t.live p = s.live p
  id : ∀ p, (t.procs p).id = (s.procs p).id
  token : ∀ p, (t.procs p).token = (s.procs p).token
  regions : t.regions = s.regions
  fewer : ∀ p i c, (t.procs p).caps.lookup i = some c → (s.procs p).caps.lookup i = some c
  kept : ∀ p, ¬T p → (t.procs p).caps = (s.procs p).caps
  tree : ∀ p, s.Alive p → A.Tree t.w.mem (A.root (t.procs p).token) ∧ t.tables A p = s.tables A p
  leaf : ∀ p, s.Alive p → ∀ v, A.Own v → A.fmt.present (t.leaf A p v) = true → t.leaf A p v = s.leaf A p v
  device : ∀ p, s.Alive p → (A.fmt.present (t.leaf A p (devicePage A)) = true ↔
    A.fmt.present (s.leaf A p (devicePage A)) = true ∧ (T p → capsHoldMmio (t.procs p).caps = true))
  share : ∀ p, s.Alive p → ∀ k < SHARE_SLOTS, ∀ j < REGION_MAX_PAGES,
    (A.fmt.present (t.leaf A p (sharePage A k j)) = true ↔ A.fmt.present (s.leaf A p (sharePage A k j)) = true ∧
      (T p → (s.procs p).shares k = 0 ∨ capsHoldRegion (t.procs p).caps ((s.procs p).shares k) CapRights.READ = true))
  slots : ∀ p, s.Alive p → ∀ k < SHARE_SLOTS, (t.procs p).shares k = (s.procs p).shares k ∨ (t.procs p).shares k = 0 ∧
    T p ∧ (s.procs p).shares k ≠ 0 ∧ capsHoldRegion (t.procs p).caps ((s.procs p).shares k) CapRights.READ = false
  dma : Withdrawal C (Fails A T (fun p => (t.procs p).caps) s) (fun p k => A.iommu = true ∧ s.Alive p ∧ T p ∧
    k < SHARE_SLOTS ∧ keepsDma (t.procs p).caps ((s.procs p).dma k) = false) s t

variable {A C} {s t u : KState} {T T' : ℕ → Prop} {p : ℕ} {ds : List Deleg.Endpoint}

theorem holdsCap_fewer {caps caps' : Caps} {φ : Capabilities.CapSlot → Bool}
    (h : ∀ i c, caps'.lookup i = some c → caps.lookup i = some c) (hold : holdsCap caps' φ = true) :
    holdsCap caps φ = true := by
  obtain ⟨i, c, hc, hφ⟩ := holdsCap_iff.1 hold
  exact holdsCap_iff.2 ⟨i, c, h i c hc, hφ⟩

theorem keepsDma_fewer {caps caps' : Caps} (h : ∀ i c, caps'.lookup i = some c → caps.lookup i = some c) {r : ℕ × ℕ}
    (hk : keepsDma caps r = false) : keepsDma caps' r = false := by
  rw [keepsDma, Bool.and_eq_false_iff] at *
  refine hk.imp (fun hr => ?_) fun hd => ?_
  · exact Bool.eq_false_iff.2 fun hold => Bool.eq_false_iff.1 hr (holdsCap_fewer h hold)
  · exact Bool.eq_false_iff.2 fun hold => Bool.eq_false_iff.1 hd (holdsCap_fewer h hold)

namespace Cut

theorem alive (h : Cut A C T s t) (p : ℕ) : t.Alive p ↔ s.Alive p := by rw [KState.Alive, KState.Alive, h.live]

/-- checked twice, or once against what is left in the end -/
theorem both (h' : Cut A C T' t u) {φ : Caps → Prop} (hmono : φ (u.procs p).caps → φ (t.procs p).caps) :
    (T p → φ (t.procs p).caps) ∧ (T' p → φ (u.procs p).caps) ↔ (T p ∨ T' p → φ (u.procs p).caps) := by
  constructor
  · rintro ⟨h1, h2⟩ hT
    by_cases hT' : T' p
    · exact h2 hT'
    · rw [h'.kept p hT']
      exact h1 (hT.resolve_right hT')
  · exact fun h => ⟨fun hT => hmono (h (Or.inl hT)), fun hT => h (Or.inr hT)⟩

/-- the records that are left are those that were there -/
theorem record (h : Cut A C T s t) {k : ℕ} (h0 : ((s.procs p).dma k).1 ≠ 0)
    (hkeep : ¬(A.iommu = true ∧ s.Alive p ∧ T p ∧ k < SHARE_SLOTS ∧ keepsDma (t.procs p).caps ((s.procs p).dma k) = false)) :
    (t.procs p).dma k = (s.procs p).dma k :=
  (h.dma.records p k _ ((s.procs p).dma k).2 h0).2 ⟨rfl, hkeep⟩

theorem trans_dma (h : Cut A C T s t) (h' : Cut A C T' t u) :
    Withdrawal C (Fails A (fun p => T p ∨ T' p) (fun p => (u.procs p).caps) s) (fun p k => A.iommu = true ∧ s.Alive p ∧
      (T p ∨ T' p) ∧ k < SHARE_SLOTS ∧ keepsDma (u.procs p).caps ((s.procs p).dma k) = false) s u := by
  refine (h.dma.trans h'.dma).congr (fun r d di ri _ _ => ?_) fun p k h0 => ?_
  · constructor
    · rintro (⟨hio, hr, p, hp, hT, k, hk, he, hfail⟩ | ⟨hio, hr, p, hp, hT, k, hk, he, hfail⟩)
      · exact ⟨hio, hr, p, hp, Or.inl hT, k, hk, he, keepsDma_fewer (h'.fewer p) hfail⟩
      · exact ⟨hio, hr, p, (h.alive p).1 hp, Or.inr hT, k, hk, ((h.dma.records p k r d hr).1 he).1, hfail⟩
    · rintro ⟨hio, hr, p, hp, hT, k, hk, he, hfail⟩
      dsimp only at hfail
      by_cases hbefore : T p ∧ keepsDma (t.procs p).caps (r, d) = false
      · exact Or.inl ⟨hio, hr, p, hp, hbefore.1, k, hk, he, hbefore.2⟩
      -- the record passed the first check, or there was none
      have hT' : T' p := by
        by_contra hn
        rw [h'.kept p hn] at hfail
        exact hbefore ⟨hT.resolve_right hn, hfail⟩
      refine Or.inr ⟨hio, hr, p, (h.alive p).2 hp, hT', k, hk, (h.dma.records p k r d hr).2 ⟨he, ?_⟩, hfail⟩
      rintro ⟨-, -, hT, -, hf⟩
      rw [he] at hf
      exact hbefore ⟨hT, hf⟩
  · constructor
    · rintro (⟨hio, hp, hT, hk, hfail⟩ | ⟨hio, hp, hT, hk, hfail⟩)
      · exact ⟨hio, hp, Or.inl hT, hk, keepsDma_fewer (h'.fewer p) hfail⟩
      · have hp' := (h.alive p).1 hp
        by_cases hbefore : T p ∧ keepsDma (t.procs p).caps ((s.procs p).dma k) = false
        · exact ⟨hio, hp', Or.inr hT, hk, keepsDma_fewer (h'.fewer p) hbefore.2⟩
        · rw [h.record h0 fun hc => hbefore ⟨hc.2.2.1, hc.2.2.2.2⟩] at hfail
          exact ⟨hio, hp', Or.inr hT, hk, hfail⟩
    · rintro ⟨hio, hp, hT, hk, hfail⟩
      by_cases hbefore : T p ∧ keepsDma (t.procs p).caps ((s.procs p).dma k) = false
      · exact Or.inl ⟨hio, hp, hbefore.1, hk, hbefore.2⟩
      have hT' : T' p := by
        by_contra hn
        rw [h'.kept p hn] at hfail
        exact hbefore ⟨hT.resolve_right hn, hfail⟩
      refine Or.inr ⟨hio, (h.alive p).2 hp, hT', hk, ?_⟩
      rw [h.record h0 fun hc => hbefore ⟨hc.2.2.1, hc.2.2.2.2⟩]
      exact hfail

/-- **Checks compose**: what two leave is what the last capabilities pass the check for. -/
theorem trans (h : Cut A C T s t) (h' : Cut A C T' t u) : Cut A C (fun p => T p ∨ T' p) s u := by
  refine ⟨fun p => (h'.live p).trans (h.live p), fun p => (h'.id p).trans (h.id p), fun p => (h'.token p).trans (h.token p),
    h'.regions.trans h.regions, fun p i c hc => h.fewer p i c (h'.fewer p i c hc), fun p hT => ?_, fun p hp => ?_,
    fun p hp v hv hpres => ?_, fun p hp => ?_, fun p hp k hk j hj => ?_, fun p hp k hk => ?_, h.trans_dma h'⟩
  · rw [h'.kept p fun hc => hT (Or.inr hc), h.kept p fun hc => hT (Or.inl hc)]
  · obtain ⟨hT, htab⟩ := h'.tree p ((h.alive p).2 hp)
    exact ⟨hT, htab.trans (h.tree p hp).2⟩
  · have hmid := h'.leaf p ((h.alive p).2 hp) v hv hpres
    rw [hmid] at hpres
    exact hmid.trans (h.leaf p hp v hv hpres)
  · rw [h'.device p ((h.alive p).2 hp), h.device p hp, and_assoc]
    exact and_congr_right fun _ => h'.both (φ := fun c => capsHoldMmio c = true) (holdsCap_fewer (h'.fewer p))
  · rw [h'.share p ((h.alive p).2 hp) k hk j hj, h.share p hp k hk j hj, and_assoc]
    refine and_congr_right fun _ => ?_
    rcases h.slots p hp k hk with he | ⟨-, hT, h0, hfail⟩
    · rw [he]
      exact h'.both (φ := fun c => (s.procs p).shares k = 0 ∨ capsHoldRegion c ((s.procs p).shares k) CapRights.READ = true)
        (Or.imp_right (holdsCap_fewer (h'.fewer p)))
    · -- the slot was emptied before
      refine iff_of_false (fun hc => ?_) fun hc => ?_
      · exact (hc.1 hT).elim h0 fun hold => absurd (hfail.symm.trans hold) (by decide)
      · exact (hc (Or.inl hT)).elim h0 fun hold =>
          absurd (hfail.symm.trans (holdsCap_fewer (h'.fewer p) hold)) (by decide)
  · have hgone : ∀ id, capsHoldRegion (t.procs p).caps id CapRights.READ = false →
        capsHoldRegion (u.procs p).caps id CapRights.READ = false := fun id hf =>
      Bool.eq_false_iff.2 fun hold => Bool.eq_false_iff.1 hf (holdsCap_fewer (h'.fewer p) hold)
    rcases h.slots p hp k hk with he | ⟨he, hT, h0, hfail⟩
    · rw [← he]
      exact (h'.slots p ((h.alive p).2 hp) k hk).imp_right fun ⟨h1, h2, h3⟩ => ⟨h1, Or.inr h2, h3⟩
    · refine Or.inr ⟨?_, Or.inl hT, h0, hgone _ hfail⟩
      rcases h'.slots p ((h.alive p).2 hp) k hk with he' | ⟨he', -⟩
      · exact he'.trans he
      · exact he'

end Cut

/-! ## One capability stripped -/

/-- whose page tables are whose: the spaces are trees, apart from each other and from the pages the DMA paths write -/
structure Laid (A : Arch) (C : Config) (s : KState) : Prop where
  domainsOk : DomainsOk C
  slots : ∀ p, s.live p = true → p < MAX_PROCS
  tree : ∀ p, s.Alive p → A.Tree s.w.mem (A.root (s.procs p).token)
  apart : ∀ p q, s.Alive p → s.Alive q → p ≠ q → ∀ a ∈ s.tables A p, a ∉ s.tables A q
  io : ∀ p, s.Alive p → ∀ a ∈ s.tables A p, a ∉ ioPages C

theorem Cut.laid (h : Cut A C T s t) (hs : Laid A C s) : Laid A C t := by
  refine ⟨hs.domainsOk, fun p hp => hs.slots p ((h.live p).symm.trans hp), fun p hp => (h.tree p ((h.alive p).1 hp)).1,
    fun p q hp hq hne a ha => ?_, fun p hp a ha => ?_⟩
  · rw [(h.tree p ((h.alive p).1 hp)).2] at ha
    rw [(h.tree q ((h.alive q).1 hq)).2]
    exact hs.apart p q ((h.alive p).1 hp) ((h.alive q).1 hq) hne a ha
  · rw [(h.tree p ((h.alive p).1 hp)).2] at ha
    exact hs.io p ((h.alive p).1 hp) a ha

/-- every reachable state is laid out so -/
theorem Reachable.laid {s₀ : KState} (h₀ : PreUserland A C s₀) (hbar : BarOutside A C s₀) (hin : Loader.Inside A C.userElf)
    (hgrants : ∀ role, ∀ g ∈ grantsFor C role, g.1 ≠ .region) (h : Reachable A C s₀ s) : Laid A C s := by
  obtain ⟨hs, ha, -, -, -, -, hslots⟩ := h.sound h₀ hbar hin hgrants
  refine ⟨h₀.domainsOk, hslots, fun p hp => (hs.at_ p hp).tree, fun p q hp hq hne a hx hy => ?_,
    fun p hp a hx hio => ?_⟩
  · exact hs.tables_apart ha hq hp hne hx ((hs.at_ q hq).tables a hy)
  · refine (hs.fixed_apart (h₀.ground hbar) ha (Or.inr ⟨p, hp, hx⟩)).2.1 ?_
    simp only [ioPages, kernelPages, List.mem_cons, List.not_mem_nil, or_false] at hio ⊢
    tauto

theorem withdrawal_unheldSlot (hC : DomainsOk C) (p k : ℕ) (s : KState) :
    Withdrawal C (fun r d => r ≠ 0 ∧ (s.procs p).dma k = (r, d) ∧ keepsDma (s.procs p).caps (r, d) = false)
      (fun q j => q = p ∧ j = k ∧ keepsDma (s.procs p).caps ((s.procs p).dma k) = false) s
      (withdrawUnheldSlot C p k s).2 := by
  rw [withdrawUnheldSlot]
  rcases hrec : (s.procs p).dma k with ⟨region, domain⟩
  simp only
  have hnone : (region ≠ 0 → keepsDma (s.procs p).caps (region, domain) = true) →
      Withdrawal C (fun r d => r ≠ 0 ∧ (region, domain) = (r, d) ∧ keepsDma (s.procs p).caps (r, d) = false)
        (fun q j => q = p ∧ j = k ∧ keepsDma (s.procs p).caps (region, domain) = false) s s := by
    intro hkeep
    refine (Withdrawal.refl s).congr (fun r d _ _ _ _ => ⟨False.elim, ?_⟩) fun q j h0 => ⟨False.elim, ?_⟩
    · rintro ⟨hr, he, hfail⟩
      rw [← he] at hfail
      exact absurd (hfail.symm.trans (hkeep (by rw [(Prod.mk.inj he).1]; exact hr))) (by decide)
    · rintro ⟨rfl, rfl, hfail⟩
      rw [hrec] at h0
      exact absurd (hfail.symm.trans (hkeep h0)) (by decide)
  split_ifs with h0 hkeep
  · exact hnone fun hne => absurd h0 hne
  · exact hnone fun _ => by rw [keepsDma, hkeep.1, hkeep.2]; rfl
  · -- the record fails the check
    have hfail : keepsDma (s.procs p).caps (region, domain) = false := by
      rw [keepsDma, Bool.and_eq_false_iff]
      by_cases hr : capsHoldRegion (s.procs p).caps region CapRights.READ = true
      · exact Or.inr (Bool.eq_false_iff.2 fun hd => hkeep ⟨hr, hd⟩)
      · exact Or.inl (Bool.eq_false_iff.2 hr)
    refine (withdrawal_slot hC p k s).congr (fun r d _ _ _ _ => ?_) fun q j _ => ?_
    · rw [hrec]
      exact and_congr_right fun _ => (and_iff_left_of_imp fun he => he ▸ hfail).symm
    · exact and_congr_right fun _ => (and_iff_left hfail).symm

/-- **The DMA check** withdraws the records that fail it. -/
theorem withdrawal_unheld (hC : DomainsOk C) (p : ℕ) (s : KState) :
    Withdrawal C (fun r d => r ≠ 0 ∧ ∃ k < SHARE_SLOTS, (s.procs p).dma k = (r, d) ∧ keepsDma (s.procs p).caps (r, d) = false)
      (fun q k => q = p ∧ k < SHARE_SLOTS ∧ keepsDma (s.procs p).caps ((s.procs p).dma k) = false) s
      (withdrawUnheld C p s).2 := by
  rw [withdrawUnheld, forAny_snd]
  generalize SHARE_SLOTS = n
  induction n with
  | zero => exact (Withdrawal.refl s).congr (fun _ _ _ _ _ _ => by simp) fun _ _ _ => by simp
  | succ n ih =>
    rw [List.range_succ, List.foldl_append, List.foldl_cons, List.foldl_nil]
    set u := (List.range n).foldl (fun s k => (withdrawUnheldSlot C p k s).2) s with hu
    have hcaps : (u.procs p).caps = (s.procs p).caps := by
      refine Process.caps_eq (DmaOnly.authority (C := C) (DmaOnly.foldl (fun k _ v => ?_) s) p)
      rw [withdrawUnheldSlot]
      simp only
      split_ifs
      · exact DmaOnly.refl v
      · exact DmaOnly.refl v
      · exact dmaOnly_withdrawDmaSlot _ _ v
    have hstep := withdrawal_unheldSlot hC p n u
    rw [hcaps] at hstep
    -- the record in slot `n` is still the one it was
    have hsame : ∀ r d, r ≠ 0 → ((u.procs p).dma n = (r, d) ↔ (s.procs p).dma n = (r, d)) := fun r d hr => by
      rw [ih.records p n r d hr]
      simp
    refine (ih.trans hstep).congr (fun r d _ _ _ _ => ?_) fun q j h0 => ?_
    · constructor
      · rintro (⟨hr, k, hk, he⟩ | ⟨hr, he, hfail⟩)
        · exact ⟨hr, k, by omega, he⟩
        · exact ⟨hr, n, by omega, (hsame r d hr).1 he, hfail⟩
      · rintro ⟨hr, k, hk, he, hfail⟩
        rcases Nat.lt_succ_iff_lt_or_eq.1 hk with hk | rfl
        · exact Or.inl ⟨hr, k, hk, he, hfail⟩
        · exact Or.inr ⟨hr, (hsame r d hr).2 he, hfail⟩
    · constructor
      · rintro (⟨hq, hj, hfail⟩ | ⟨rfl, rfl, hfail⟩)
        · exact ⟨hq, by omega, hfail⟩
        · rw [(hsame _ ((s.procs q).dma j).2 h0).2 rfl] at hfail
          exact ⟨rfl, by omega, hfail⟩
      · rintro ⟨rfl, hj, hfail⟩
        rcases Nat.lt_succ_iff_lt_or_eq.1 hj with hj | rfl
        · exact Or.inl ⟨rfl, hj, hfail⟩
        · refine Or.inr ⟨rfl, rfl, ?_⟩
          rw [(hsame _ ((s.procs q).dma j).2 h0).2 rfl]
          exact hfail

/-- a step that stores to no table of the unit and changes no record -/
theorem Withdrawal.still (hmem : ∀ a ∈ ioPages C, t.w.mem a = s.w.mem a) (hregions : t.regions = s.regions)
    (hlive : ∀ p, t.live p = s.live p) (hdma : ∀ p, (t.procs p).dma = (s.procs p).dma) :
    Withdrawal C (fun _ _ => False) (fun _ _ => False) s t := by
  have hsw : Swept C (fun _ _ => False) s t := Swept.of_mem fun di hdi => hmem _ (l1_mem_ioPages C hdi.1)
  refine ⟨hsw.congr fun di _ f => ⟨False.elim, fun ⟨_, _, _, hc, _⟩ => hc⟩, hregions, hlive, fun p k r d _ => ?_⟩
  rw [hdma p, not_false_eq_true, and_true]

/-- **The window check**: which pages go when `d` is stripped, and which slots are emptied. -/
theorem unmaps_bereave (d : Deleg.Endpoint) (s : KState) {caps : Caps} (hcaps : (s.procs d.proc).caps.revoke d.cap = caps) :
    ∃ S, Unmaps A d.proc S (s.modProc d.proc fun p => { p with caps := p.caps.revoke d.cap }) (bereave A d s) ∧
      (devicePage A ∈ S ↔ capsHoldMmio caps = false) ∧
      (∀ k < SHARE_SLOTS, ∀ j < REGION_MAX_PAGES, sharePage A k j ∈ S ↔
        (s.procs d.proc).shares k ≠ 0 ∧ capsHoldRegion caps ((s.procs d.proc).shares k) CapRights.READ = false) ∧
      ∀ k < SHARE_SLOTS, ((bereave A d s).procs d.proc).shares k = (s.procs d.proc).shares k ∨
        ((bereave A d s).procs d.proc).shares k = 0 ∧ (s.procs d.proc).shares k ≠ 0 ∧
          capsHoldRegion caps ((s.procs d.proc).shares k) CapRights.READ = false := by
  set s₁ := s.modProc d.proc fun p => { p with caps := p.caps.revoke d.cap } with hs₁
  have hproc : s₁.procs d.proc = { s.procs d.proc with caps := caps } := by
    rw [hs₁, KState.modProc_procs, Table.put_self, ← hcaps]
  obtain ⟨S, hS, hwindow, hslots, hsub⟩ := unmaps_detach (A := A) s₁ d.proc
  rw [show detach A d.proc s₁ = bereave A d s from rfl] at hS hslots
  generalize bereave A d s = u at hS hslots ⊢
  simp only [hproc] at hwindow hslots hsub
  have hshares : ∀ k, (u.procs d.proc).shares k = (s.procs d.proc).shares k ∨
      (u.procs d.proc).shares k = 0 ∧ sharePages A k ⊆ S := fun k => by
    have := hS.shares k
    rwa [hproc] at this
  -- a page of a slot goes only with a region the process cannot read any more
  have hpage : ∀ k < SHARE_SLOTS, ∀ j < REGION_MAX_PAGES, sharePage A k j ∈ S →
      (s.procs d.proc).shares k ≠ 0 ∧ capsHoldRegion caps ((s.procs d.proc).shares k) CapRights.READ = false := by
    intro k _ j hj hin
    rcases hsub _ hin with ⟨-, he⟩ | ⟨k', -, hQ, j', hj', he⟩
    · exact absurd ⟨j, hj, he.symm⟩ (devicePage_notMem A k)
    · rw [(sharePage_inj A hj hj' he).1]
      rwa [hproc] at hQ
  refine ⟨S, hS, ⟨fun hin => ?_, hwindow⟩, fun k hk j hj => ⟨hpage k hk j hj, fun hQ => ?_⟩, fun k hk => ?_⟩
  · rcases hsub _ hin with ⟨hm, -⟩ | ⟨k, -, -, hin'⟩
    · exact hm
    · exact absurd hin' (devicePage_notMem A k)
  · rcases hshares k with he | ⟨-, hall⟩
    · have hold := hslots k hk (by rw [he]; exact hQ.1)
      rw [he] at hold
      exact absurd (hQ.2.symm.trans hold) (by decide)
    · exact hall ⟨j, hj, rfl⟩
  · exact (hshares k).imp_right fun ⟨h0, hall⟩ => ⟨h0, hpage k hk 0 (by decide) (hall ⟨0, by decide, rfl⟩)⟩

/-- `d` names a capability of process `p` as it is now -/
def KState.names (s : KState) (p : ℕ) (d : Deleg.Endpoint) : Bool := d.proc == p && (s.procs p).id == d.id

theorem Cut.refl (h : Laid A C s) (hT : ∀ p, s.Alive p → ¬T p) : Cut A C T s s := by
  have hiff : ∀ p, s.Alive p → ∀ P Q : Prop, P ↔ P ∧ (T p → Q) := fun p hp P Q =>
    (and_iff_left fun hc => absurd hc (hT p hp)).symm
  refine ⟨fun _ => rfl, fun _ => rfl, fun _ => rfl, rfl, fun _ _ _ hc => hc, fun _ _ => rfl, fun p hp => ⟨h.tree p hp, rfl⟩,
    fun _ _ _ _ _ => rfl, fun p hp => hiff p hp _ _, fun p hp k _ j _ => hiff p hp _ _, fun _ _ _ _ => Or.inl rfl, ?_⟩
  refine (Withdrawal.refl s).congr (fun r d _ _ _ _ => ⟨False.elim, ?_⟩) fun p k _ => ⟨False.elim, ?_⟩
  · rintro ⟨-, -, p, hp, hc, -⟩
    exact hT p hp hc
  · rintro ⟨-, hp, hc, -⟩
    exact hT p hp hc

section Strip

variable {d : Deleg.Endpoint} {v : KState}

/-- the steps of one iteration, from the state with the windows gone on -/
structure Stripping (A : Arch) (C : Config) (d : Deleg.Endpoint) (s v t : KState) : Prop where
  hit : s.live d.proc = true ∧ (s.procs d.proc).id = d.id
  settled : t = settle A d.proc v
  unit : A.iommu = true → RingOnly C (withdrawUnheld C d.proc (bereave A d s)).2 v
  none : A.iommu = false → v = bereave A d s

namespace Stripping

variable (h : Stripping A C d s v t)

include h

theorem dmaOnly : DmaOnly C (bereave A d s) v := by
  rcases hA : A.iommu with _ | _
  · rw [h.none hA]
    exact DmaOnly.refl _
  · exact (dmaOnly_withdrawUnheld d.proc _).trans (h.unit hA).dmaOnly

theorem quiet : Quiet v t := h.settled ▸ quiet_settle d.proc v

theorem authority (p : ℕ) : (t.procs p).authority =
    ((s.modProc d.proc fun p => { p with caps := p.caps.revoke d.cap }).procs p).authority := by
  obtain ⟨S, hS, -⟩ := unmaps_bereave (A := A) d s rfl
  exact (h.quiet.authority p).trans ((h.dmaOnly.authority p).trans (hS.authority p))

theorem caps (p : ℕ) : (t.procs p).caps = if p = d.proc then (s.procs p).caps.revoke d.cap else (s.procs p).caps := by
  rw [Process.caps_eq (h.authority p), KState.modProc_procs, Table.put_apply]
  split_ifs with hp
  · rw [hp]
  · rfl

theorem live (p : ℕ) : t.live p = s.live p := by
  rw [KState.live, Process.live_eq (h.authority p), KState.modProc_procs, Table.put_apply]
  split_ifs with hp
  · rw [hp]; rfl
  · rfl

theorem id (p : ℕ) : (t.procs p).id = (s.procs p).id := by
  rw [Process.id_eq (h.authority p), KState.modProc_procs, Table.put_apply]
  split_ifs with hp
  · rw [hp]
  · rfl

theorem space (p : ℕ) : (t.procs p).space = ((bereave A d s).procs p).space :=
  (h.quiet.space p).trans (h.dmaOnly.space p)

theorem token (p : ℕ) : (t.procs p).token = (s.procs p).token := by
  obtain ⟨S, hS, -⟩ := unmaps_bereave (A := A) d s rfl
  rw [Process.token_eq (h.space p), hS.token, KState.modProc_procs, Table.put_apply]
  split_ifs with hp
  · rw [hp]
  · rfl

theorem regions : t.regions = s.regions := by
  obtain ⟨S, hS, -⟩ := unmaps_bereave (A := A) d s rfl
  exact h.quiet.regions.trans (h.dmaOnly.regions.trans hS.regions)

theorem mem {a : ℕ} (ha : a ∉ ioPages C) : t.w.mem a = (bereave A d s).w.mem a := by
  rw [h.quiet.mem]
  exact h.dmaOnly.mem a ha

/-- no page table of anybody else is written -/
theorem off (hs : Laid A C s) {q : ℕ} (hq : s.Alive q) (hne : q ≠ d.proc) {a : ℕ} (ha : a ∈ s.tables A q) :
    t.w.mem a = s.w.mem a := by
  have hp : s.Alive d.proc := ⟨hs.slots _ h.hit.1, h.hit.1⟩
  obtain ⟨S, hS, -⟩ := unmaps_bereave (A := A) d s rfl
  have hproc := KState.modProc_procs s d.proc fun p => { p with caps := p.caps.revoke d.cap }
  have hc := hS.mem (by rw [hproc, Table.put_self]; exact hs.tree _ hp)
  rw [h.mem (hs.io q hq a ha)]
  refine hc.off a ?_
  rw [hproc, Table.put_self]
  exact hs.apart q d.proc hq hp hne a ha

/-- the stripped process's space is what the window check left of it -/
theorem own_space (hs : Laid A C s) : A.Tree t.w.mem (A.root (s.procs d.proc).token) ∧
    A.tables t.w.mem (A.root (s.procs d.proc).token) = s.tables A d.proc ∧
    ∃ S : Set ℕ, (devicePage A ∈ S ↔ capsHoldMmio (t.procs d.proc).caps = false) ∧
      (∀ k < SHARE_SLOTS, ∀ j < REGION_MAX_PAGES, sharePage A k j ∈ S ↔ (s.procs d.proc).shares k ≠ 0 ∧
        capsHoldRegion (t.procs d.proc).caps ((s.procs d.proc).shares k) CapRights.READ = false) ∧
      ∀ v, A.Own v → (v ∉ S → t.leaf A d.proc v = s.leaf A d.proc v) ∧
        (v ∈ S → A.fmt.present (t.leaf A d.proc v) = false) := by
  have hp : s.Alive d.proc := ⟨hs.slots _ h.hit.1, h.hit.1⟩
  obtain ⟨S, hS, hwindow, hpages, -⟩ := unmaps_bereave (A := A) d s rfl
  have hcaps : (t.procs d.proc).caps = (s.procs d.proc).caps.revoke d.cap := by rw [h.caps, if_pos rfl]
  have hproc := KState.modProc_procs s d.proc fun p => { p with caps := p.caps.revoke d.cap }
  have hc := hS.mem (by rw [hproc, Table.put_self]; exact hs.tree _ hp)
  rw [hproc, Table.put_self] at hc
  -- the DMA paths come after, and write none of its tables
  have hsame : ∀ a ∈ A.tables (bereave A d s).w.mem (A.root (s.procs d.proc).token), t.w.mem a = (bereave A d s).w.mem a :=
    fun a ha => h.mem (hs.io _ hp a ((Set.ext_iff.1 hc.tables a).1 ha))
  have hleaf : ∀ v, A.Own v → t.leaf A d.proc v = A.leaf (bereave A d s).w.mem (A.root (s.procs d.proc).token) v := by
    intro v hv
    rw [KState.leaf, h.token]
    exact Vspace.leaf_congr hsame hv
  refine ⟨hc.tree.congr hsame, (RadixTree.tables_congr hsame).trans hc.tables, S, by rw [hcaps]; exact hwindow,
    by rw [hcaps]; exact hpages, fun v hv => ⟨fun hn => ?_, fun hin => ?_⟩⟩
  · exact (hleaf v hv).trans (hc.keep v hv hn)
  · rw [hleaf v hv]
    exact hc.gone v hv hin

theorem slots {k : ℕ} (hk : k < SHARE_SLOTS) : (t.procs d.proc).shares k = (s.procs d.proc).shares k ∨
    (t.procs d.proc).shares k = 0 ∧ (s.procs d.proc).shares k ≠ 0 ∧
      capsHoldRegion (t.procs d.proc).caps ((s.procs d.proc).shares k) CapRights.READ = false := by
  obtain ⟨S, -, -, -, hslots⟩ := unmaps_bereave (A := A) d s rfl
  rw [Process.shares_eq (h.space d.proc), h.caps, if_pos rfl]
  exact hslots k hk

theorem shares_other {q : ℕ} (hq : q ≠ d.proc) : (t.procs q).shares = (s.procs q).shares := by
  obtain ⟨S, hS, -⟩ := unmaps_bereave (A := A) d s rfl
  rw [Process.shares_eq (h.space q), hS.other hq, KState.modProc_procs, Table.put_of_ne _ hq]

theorem dma (hs : Laid A C s) :
    Withdrawal C (Fails A (fun p => s.names p d = true) (fun p => (t.procs p).caps) s) (fun p k => A.iommu = true ∧
      s.Alive p ∧ s.names p d = true ∧ k < SHARE_SLOTS ∧ keepsDma (t.procs p).caps ((s.procs p).dma k) = false) s t := by
  have hp : s.Alive d.proc := ⟨hs.slots _ h.hit.1, h.hit.1⟩
  have hname : ∀ p, s.names p d = true ↔ p = d.proc := by
    intro p
    rw [KState.names, Bool.and_eq_true, beq_iff_eq, beq_iff_eq]
    exact ⟨fun hc => hc.1.symm, fun hc => ⟨hc.symm, hc ▸ h.hit.2⟩⟩
  obtain ⟨S, hS, -⟩ := unmaps_bereave (A := A) d s rfl
  have hunit := h.unit
  have hnone := h.none
  generalize bereave A d s = u at hS hunit hnone
  have hproc : ∀ q, ∃ caps sh, u.procs q = { s.procs q with caps := caps, shares := sh } := by
    intro q
    obtain ⟨sh, hput, -⟩ := hS.proc
    rw [hput, KState.modProc_procs, Table.put_apply]
    split_ifs with hq
    · rw [hq, Table.put_self]
      exact ⟨_, _, rfl⟩
    · rw [Table.put_of_ne _ hq]
      exact ⟨(s.procs q).caps, (s.procs q).shares, rfl⟩
  have hdma : ∀ q, (u.procs q).dma = (s.procs q).dma := fun q => by
    obtain ⟨_, _, hq⟩ := hproc q
    rw [hq]
  have hcaps : (u.procs d.proc).caps = (t.procs d.proc).caps := by
    rw [Process.caps_eq (hS.authority d.proc), h.caps, if_pos rfl, KState.modProc_procs, Table.put_self]
  -- unmapping windows writes no table of the unit
  have h1 : Withdrawal C (fun _ _ => False) (fun _ _ => False) s u := by
    refine Withdrawal.still (fun a ha => ?_) hS.regions (fun q => ?_) hdma
    · have hc := hS.mem (by rw [KState.modProc_procs, Table.put_self]; exact hs.tree _ hp)
      refine hc.off a fun hin => hs.io _ hp a ?_ ha
      rw [KState.modProc_procs, Table.put_self] at hin
      exact hin
    · obtain ⟨_, _, hq⟩ := hproc q
      rw [KState.live, hq]; rfl
  have h3 : Withdrawal C (fun _ _ => False) (fun _ _ => False) v t :=
    Withdrawal.still (fun a _ => by rw [h.quiet.mem]) h.quiet.regions
      (fun q => by rw [KState.live, Process.live_eq (h.quiet.authority q)]; rfl) h.quiet.dma
  have hlook : ∀ q k, keepsDma (u.procs d.proc).caps ((u.procs q).dma k) = keepsDma (t.procs d.proc).caps ((s.procs q).dma k) :=
    fun q k => by rw [hcaps, hdma]
  rcases hA : A.iommu with _ | _
  · -- no unit, no check
    have h2 : Withdrawal C (fun _ _ => False) (fun _ _ => False) u v := (hnone hA).symm ▸ Withdrawal.refl u
    refine ((h1.trans h2).trans h3).congr (fun r e _ _ _ _ => ?_) fun q k _ => ?_
    · simp [Fails, hA]
    · simp
  · have h2 := (withdrawal_unheld hs.domainsOk d.proc u).ring hs.domainsOk (hunit hA)
    refine ((h1.trans h2).trans h3).congr (fun r e _ _ _ _ => ?_) fun q k _ => ?_
    · simp only [false_or, or_false, Fails, hA, true_and, hname, hcaps, hdma]
      refine and_congr_right fun _ => ⟨fun hx => ⟨d.proc, hp, rfl, hx⟩, ?_⟩
      rintro ⟨q, -, rfl, hx⟩
      exact hx
    · simp only [false_or, or_false, true_and, hname, hlook]
      constructor
      · rintro ⟨rfl, hk, hf⟩
        exact ⟨hp, rfl, hk, hf⟩
      · rintro ⟨-, rfl, hk, hf⟩
        exact ⟨rfl, hk, hf⟩

end Stripping

/-- **One iteration** checks the mappings of the process it strips, and no other's. -/
theorem Stripping.cut (h : Stripping A C d s v t) (hs : Laid A C s) : Cut A C (fun p => s.names p d = true) s t := by
  have hp : s.Alive d.proc := ⟨hs.slots _ h.hit.1, h.hit.1⟩
  have hown : s.names d.proc d = true := by simp [KState.names, h.hit.2]
  have hother : ∀ p, ¬s.names p d = true → p ≠ d.proc := fun p hn he => hn (he ▸ hown)
  have hT : ∀ p, p ≠ d.proc → ¬s.names p d = true := by
    intro p hne hc
    rw [KState.names, Bool.and_eq_true, beq_iff_eq] at hc
    exact hne hc.1.symm
  obtain ⟨htree, htab, S, hdev, hpages, hleaf⟩ := h.own_space hs
  have hsame : ∀ p, s.Alive p → p ≠ d.proc → ∀ v, A.Own v → t.leaf A p v = s.leaf A p v := by
    intro p hp hne v hv
    rw [KState.leaf, h.token]
    exact Vspace.leaf_congr (fun a ha => h.off hs hp hne ha) hv
  have hpresent : ∀ v, A.Own v → (A.fmt.present (t.leaf A d.proc v) = true ↔
      A.fmt.present (s.leaf A d.proc v) = true ∧ v ∉ S) := by
    intro v hv
    by_cases hin : v ∈ S
    · rw [(hleaf v hv).2 hin]
      exact iff_of_false (by decide) fun hc => hc.2 hin
    · rw [(hleaf v hv).1 hin]
      exact (and_iff_left hin).symm
  refine ⟨h.live, h.id, h.token, h.regions, fun p i c hc => ?_, fun p hn => ?_, fun p hp' => ?_, fun p hp' v hv hpres => ?_,
    fun p hp' => ?_, fun p hp' k hk j hj => ?_, fun p hp' k hk => ?_, h.dma hs⟩
  · rw [h.caps] at hc
    split_ifs at hc
    · rw [Capabilities.CapSpace.lookup_revoke] at hc
      split_ifs at hc
      exact hc
    · exact hc
  · rw [h.caps, if_neg (hother p hn)]
  · rw [KState.tables, h.token]
    by_cases hpd : p = d.proc
    · rw [hpd]
      exact ⟨htree, htab⟩
    · have hoff : ∀ a ∈ s.tables A p, t.w.mem a = s.w.mem a := fun a ha => h.off hs hp' hpd ha
      exact ⟨(hs.tree p hp').congr hoff, RadixTree.tables_congr hoff⟩
  · by_cases hpd : p = d.proc
    · rw [hpd] at hpres ⊢
      exact (hleaf v hv).1 ((hpresent v hv).1 hpres).2
    · exact hsame p hp' hpd v hv
  · by_cases hpd : p = d.proc
    · rw [hpd, hpresent _ (devicePage_own A), hdev, Bool.not_eq_false]
      exact and_congr_right fun _ => ⟨fun hold _ => hold, fun hc => hc hown⟩
    · rw [hsame p hp' hpd _ (devicePage_own A)]
      exact (and_iff_left fun hc => absurd hc (hT p hpd)).symm
  · by_cases hpd : p = d.proc
    · rw [hpd, hpresent _ (sharePage_own A hk hj), hpages k hk j hj, not_and_or, not_not, Bool.not_eq_false]
      exact and_congr_right fun _ => ⟨fun hold _ => hold, fun hc => hc hown⟩
    · rw [hsame p hp' hpd _ (sharePage_own A hk hj)]
      exact (and_iff_left fun hc => absurd hc (hT p hpd)).symm
  · by_cases hpd : p = d.proc
    · rw [hpd]
      exact (h.slots hk).imp_right fun hempty => ⟨hempty.1, hown, hempty.2⟩
    · exact Or.inl (by rw [h.shares_other hpd])

theorem cut_strip (hs : Laid A C s) (d : Deleg.Endpoint) :
    wp (strip A C d) (fun _ t => Cut A C (fun p => s.names p d = true) s t ∧ ∀ p, s.Alive p →
      (t.procs p).caps = if s.names p d = true then (s.procs p).caps.revoke d.cap else (s.procs p).caps) (· = .ringFull) s := by
  refine wp_mono (strip_run d s) fun _ t ht => ?_
  have hnames : ∀ p, s.names p d = true ↔ p = d.proc ∧ (s.procs d.proc).id = d.id := by
    intro p
    rw [KState.names, Bool.and_eq_true, beq_iff_eq, beq_iff_eq]
    constructor
    · rintro ⟨rfl, hid⟩
      exact ⟨rfl, hid⟩
    · rintro ⟨rfl, hid⟩
      exact ⟨rfl, hid⟩
  rcases ht with ⟨hmiss, rfl⟩ | ⟨hhit, v, hset, hunit, hnone⟩
  · have hT : ∀ p, t.Alive p → ¬t.names p d = true := fun p hp hc => by
      obtain ⟨rfl, hid⟩ := (hnames p).1 hc
      exact hmiss ⟨hp.2, hid⟩
    exact ⟨Cut.refl hs hT, fun p hp => (if_neg (hT p hp)).symm⟩
  · have h : Stripping A C d s v t := ⟨hhit, hset, hunit, hnone⟩
    refine ⟨h.cut hs, fun p _ => ?_⟩
    simp only [h.caps p, hnames, hhit.2, and_true]

end Strip

/-! ## The whole revocation -/

namespace KState

/-- the endpoints a revocation from capability `cap` of process `root` reaches -/
def reached (s : KState) (root cap : ℕ) : List Deleg.Endpoint :=
  (s.ledger.revokeFrom (s.endpointAt root cap) MAX_DELEGATIONS).2

/-- some endpoint of `ds` names a capability of process `p` -/
def loses (s : KState) (ds : List Deleg.Endpoint) (p : ℕ) : Bool := ds.any (s.names p)

/-- the capabilities process `p` is left with once those `ds` names are gone -/
def capsLeft (s : KState) (ds : List Deleg.Endpoint) (p : ℕ) : Caps :=
  (ds.filter (s.names p)).foldl (fun caps d => caps.revoke d.cap) (s.procs p).caps

theorem capsLeft_append (s : KState) (ds : List Deleg.Endpoint) (d : Deleg.Endpoint) (p : ℕ) :
    s.capsLeft (ds ++ [d]) p = if s.names p d = true then (s.capsLeft ds p).revoke d.cap else s.capsLeft ds p := by
  rw [capsLeft, List.filter_append, List.foldl_append, ← capsLeft]
  by_cases hd : s.names p d = true
  · rw [if_pos hd, List.filter_cons_of_pos hd]; rfl
  · rw [if_neg hd, List.filter_cons_of_neg hd]; rfl

theorem loses_append (s : KState) (ds : List Deleg.Endpoint) (d : Deleg.Endpoint) (p : ℕ) :
    s.loses (ds ++ [d]) p = true ↔ s.loses ds p = true ∨ s.names p d = true := by
  simp [loses]

end KState

/-- every process `ds` names was checked against what is left to it -/
structure Stripped (A : Arch) (C : Config) (ds : List Deleg.Endpoint) (s t : KState) : Prop where
  cut : Cut A C (fun p => s.loses ds p = true) s t
  caps : ∀ p, s.Alive p → (t.procs p).caps = s.capsLeft ds p

theorem Stripped.step (h : Stripped A C ds s t) (hs : Laid A C s) (d : Deleg.Endpoint) :
    wp (strip A C d) (fun _ u => Stripped A C (ds ++ [d]) s u) (· = .ringFull) t := by
  refine wp_mono (cut_strip (h.cut.laid hs) d) fun _ u hu => ?_
  have hnames : ∀ p, t.names p d = s.names p d := fun p => by rw [KState.names, KState.names, h.cut.id p]
  simp only [hnames] at hu
  refine ⟨?_, fun p hp => ?_⟩
  · simp only [KState.loses_append]
    exact h.cut.trans hu.1
  · rw [hu.2 p ((h.cut.alive p).2 hp), h.caps p hp, KState.capsLeft_append]

/-- **A revocation**: every process it strips of a capability has its mappings checked. -/
theorem revoke_stripped (hs : Laid A C s) {root cap : ℕ} (hrun : revokeDelegations A C root cap s = .ok ((), t)) :
    Stripped A C (s.reached root cap) s t := by
  have hedges : Stripped A C [] s { s with ledger := (s.ledger.revokeFrom (s.endpointAt root cap) MAX_DELEGATIONS).1 } := by
    have h0 : Cut A C (fun p => s.loses [] p = true) s s := Cut.refl hs fun p _ hc => absurd hc (by simp [KState.loses])
    refine ⟨⟨h0.live, h0.id, h0.token, h0.regions, h0.fewer, h0.kept, h0.tree, h0.leaf, h0.device, h0.share, h0.slots, ?_⟩,
      fun _ _ => rfl⟩
    exact h0.dma.same rfl rfl rfl
  have hwp : wp (revokeDelegations A C root cap) (fun _ u => Stripped A C (s.reached root cap) s u) (· = .ringFull) s := by
    rw [revokeDelegations, wp_bind, wp_get]
    simp only [wp_bind, wp_modify]
    exact wp_forEach_prefix (I := fun ds => Stripped A C ds s) (fun pre d post _ u hu => hu.step hs d) hedges
  exact wp_ok hwp hrun

/-! ## What is left is permitted -/

/-- no process `ds` strips has a record that takes the entry away -/
def KState.Spared (A : Arch) (C : Config) (s : KState) (ds : List Deleg.Endpoint) (p : ℕ) : Mapping → Prop
  | .dma record entry => ∀ di, domainLookup C ((s.procs p).dma record).2 = some di →
      ¬Withdrawn C s (Fails A (fun q => s.loses ds q = true) (s.capsLeft ds) s) di (iopte.frame (s.leafAt C di entry))
  | _ => True

/-- whatever a stripped process has mapped and passes the check for, it is left with a capability for -/
def Answers (A : Arch) (C : Config) (s : KState) (ds : List Deleg.Endpoint) : Prop :=
  ∀ p, s.Alive p → s.loses ds p = true → ∀ m, s.Maps A C p m → s.passes (s.capsLeft ds p) p m = true →
    s.Spared A C ds p m → s.Permits A C (s.capsLeft ds p) p m

theorem published_of_lookup (hC : DomainsOk C) {domain di : ℕ} (h : domainLookup C domain = some di) : Published C di := by
  obtain ⟨hlt, hid, -⟩ := domainLookup_lt C h
  refine ⟨hlt, ?_⟩
  rcases hC.named di hlt with he | ⟨-, hl1⟩
  · rw [he] at hid
    exact absurd rfl hid
  · exact hl1

namespace Stripped

variable (h : Stripped A C ds s t) (hs : Laid A C s)

include h

theorem withdrawn_iff (di f : ℕ) : Withdrawn C s (Fails A (fun q => s.loses ds q = true) (fun q => (t.procs q).caps) s) di f ↔
    Withdrawn C s (Fails A (fun q => s.loses ds q = true) (s.capsLeft ds) s) di f := by
  have hfails : ∀ r d, Fails A (fun q => s.loses ds q = true) (fun q => (t.procs q).caps) s r d ↔
      Fails A (fun q => s.loses ds q = true) (s.capsLeft ds) s r d := by
    intro r d
    refine and_congr_right fun _ => and_congr_right fun _ => exists_congr fun q => and_congr_right fun hq => ?_
    simp only [h.caps q hq]
  simp only [Withdrawn, hfails]

/-- an entry is left exactly if nobody's check takes it, and then as it was -/
theorem entry {di entry : ℕ} (hdi : Published C di) (he : entry < 512) :
    (Present C t di entry ↔ Present C s di entry ∧
      ¬Withdrawn C s (Fails A (fun q => s.loses ds q = true) (s.capsLeft ds) s) di (iopte.frame (s.leafAt C di entry))) ∧
    (Present C t di entry → t.leafAt C di entry = s.leafAt C di entry) := by
  rw [← h.withdrawn_iff]
  by_cases hcut : Present C s di entry ∧
      Withdrawn C s (Fails A (fun q => s.loses ds q = true) (fun q => (t.procs q).caps) s) di (iopte.frame (s.leafAt C di entry))
  · have hgone : ¬Present C t di entry := by
      rw [Present, h.cut.dma.swept.cut di hdi entry he hcut.1 hcut.2, iopte.not_present_zero]
      exact Bool.false_ne_true
    exact ⟨iff_of_false hgone fun hc => hc.2 hcut.2, fun hc => absurd hc hgone⟩
  · have hkeep := h.cut.dma.swept.keep di hdi entry he hcut
    refine ⟨?_, fun _ => hkeep⟩
    rw [Present, hkeep]
    exact ⟨fun hpres => ⟨hpres, fun hw => hcut ⟨hpres, hw⟩⟩, And.left⟩

/-- a record that is left is the one that was there, of a process that passes the check for it -/
theorem record {p k : ℕ} (h0 : ((t.procs p).dma k).1 ≠ 0) : (t.procs p).dma k = (s.procs p).dma k ∧
    ¬(A.iommu = true ∧ s.Alive p ∧ s.loses ds p = true ∧ k < SHARE_SLOTS ∧
      keepsDma (t.procs p).caps ((s.procs p).dma k) = false) := by
  have hrec := (h.cut.dma.records p k _ ((t.procs p).dma k).2 h0).1 rfl
  exact ⟨hrec.1.symm, hrec.2⟩

include hs

/-- **What a revocation leaves mapped**: of the processes it strips, what passes the check; of everybody, what is spared. -/
theorem maps_iff {p : ℕ} (hp : s.Alive p) (m : Mapping) : t.Maps A C p m ↔ s.Maps A C p m ∧
    (s.loses ds p = true → s.passes (s.capsLeft ds p) p m = true) ∧ s.Spared A C ds p m := by
  rw [← h.caps p hp]
  cases m with
  | share k j =>
    simp only [KState.Maps, KState.passes, KState.Spared, and_true, and_assoc, Bool.or_eq_true, beq_iff_eq]
    exact and_congr_right fun hk => and_congr_right fun hj => h.cut.share p hp k hk j hj
  | device =>
    simp only [KState.Maps, KState.passes, KState.Spared, and_true]
    exact h.cut.device p hp
  | dma k entry =>
    have hidx : ∀ id, t.regionIndex id = s.regionIndex id := fun id => by rw [KState.regionIndex, h.cut.regions]; rfl
    constructor
    · rintro ⟨hio, hk, he, h0, di, ri, hd, hi, hpres, f, hf, hfr⟩
      obtain ⟨hrec, hkeep⟩ := h.record h0
      rw [hrec] at h0 hd hi
      have hent := h.entry (published_of_lookup hs.domainsOk hd) he
      obtain ⟨hpres', hspared⟩ := hent.1.1 hpres
      rw [hidx] at hi
      rw [h.cut.regions] at hf
      rw [hent.2 hpres] at hfr
      refine ⟨⟨hio, hk, he, h0, di, ri, hd, hi, hpres', f, hf, hfr⟩, fun hlose => ?_, fun dj hdj => ?_⟩
      · exact (Bool.not_eq_false _).mp fun hfail => hkeep ⟨hio, hp, hlose, hk, hfail⟩
      · obtain rfl : di = dj := Option.some.inj (hd.symm.trans hdj)
        exact hspared
    · rintro ⟨⟨hio, hk, he, h0, di, ri, hd, hi, hpres, f, hf, hfr⟩, hpass, hspared⟩
      have hrec : (t.procs p).dma k = (s.procs p).dma k := by
        refine h.cut.record h0 fun hdrop => ?_
        obtain ⟨-, -, hlose, -, hfail⟩ := hdrop
        exact absurd (hfail.symm.trans (hpass hlose)) (by decide)
      have hent := h.entry (published_of_lookup hs.domainsOk hd) he
      have hpres' := hent.1.2 ⟨hpres, hspared di hd⟩
      refine ⟨hio, hk, he, by rw [hrec]; exact h0, di, ri, by rw [hrec]; exact hd, by rw [hrec, hidx]; exact hi, hpres', f,
        by rw [h.cut.regions]; exact hf, by rw [hent.2 hpres']; exact hfr⟩

/-- what is left is mapped as it was -/
theorem permits_iff {p : ℕ} (hp : s.Alive p) {m : Mapping} (hm : t.Maps A C p m) (caps : Caps) :
    t.Permits A C caps p m ↔ s.Permits A C caps p m := by
  cases m with
  | share k j =>
    obtain ⟨hk, hj, hpres⟩ := hm
    have hleaf := h.cut.leaf p hp _ (sharePage_own A hk hj) hpres
    have hshares : (t.procs p).shares k = (s.procs p).shares k := by
      rcases h.cut.slots p hp k hk with he | ⟨-, hlose, h0, hfail⟩
      · exact he
      · -- the slot was emptied, and its pages with it
        exact ((((h.cut.share p hp k hk j hj).1 hpres).2 hlose).elim h0 fun hold =>
          absurd (hfail.symm.trans hold) (by decide)).elim
    have hslot : t.regionSlot ((s.procs p).shares k) = s.regionSlot ((s.procs p).shares k) := by
      simp only [KState.regionSlot, KState.regionIndex, h.cut.regions]
    simp only [KState.Permits, hleaf, hshares, hslot, h.cut.regions]
  | device =>
    have hleaf := h.cut.leaf p hp _ (devicePage_own A) hm
    simp only [KState.Permits, hleaf]
  | dma k entry =>
    obtain ⟨-, hk, he, h0, di, ri, hd, -, hpres, -⟩ := hm
    obtain ⟨hrec, -⟩ := h.record h0
    rw [hrec] at hd
    have hleaf := (h.entry (published_of_lookup hs.domainsOk hd) he).2 hpres
    simp only [KState.Permits, hrec, hd, Option.some.injEq, forall_eq', hleaf]

end Stripped

/-- **Revocation takes the access with the name** if and only if no process it strips is left with a capability that passes
the check for a mapping without permitting it. -/
theorem permitted_iff (hs : Laid A C s) (hperm : Permitted A C s) {root cap : ℕ}
    (hrun : revokeDelegations A C root cap s = .ok ((), t)) : Permitted A C t ↔ Answers A C s (s.reached root cap) := by
  have h := revoke_stripped hs hrun
  constructor
  · intro ht p hp hlose m hm hpass hspared
    have hm' : t.Maps A C p m := (h.maps_iff hs hp m).2 ⟨hm, fun _ => hpass, hspared⟩
    have hpt := ht p ((h.cut.alive p).2 hp) m hm'
    rwa [h.permits_iff hs hp hm', h.caps p hp] at hpt
  · intro ha p hp' m hm'
    have hp := (h.cut.alive p).1 hp'
    obtain ⟨hm, hpass, hspared⟩ := (h.maps_iff hs hp m).1 hm'
    rw [h.permits_iff hs hp hm']
    by_cases hlose : s.loses (s.reached root cap) p = true
    · rw [h.caps p hp]
      exact ha p hp hlose m hm (hpass hlose) hspared
    · -- nothing of this process was touched
      rw [h.cut.kept p hlose]
      exact hperm p hp m hm

/-! ## A lesser capability vouches for the mapping -/

/-- one claimed device, its table in page 3; the lender may use region 1, and the borrower holds a second, read-only
capability for it -/
def lendConfig : Config :=
  { smallConfig [] (fun
      | .producer => [(.region, CapRights.ALL, 1)]
      | .consumer => [(.region, CapRights.ALL, 1), (.region, CapRights.READ, 1), (.iommuDomain, CapRights.ALL, 1)]
      | _ => []) 0 with
    domainSlots := fun i => if i = 0 then ⟨1, 0, 3 * PAGE_SIZE⟩ else DomainSlot.EMPTY }

/-- process 1 borrowed its first capability for region 1 of process 0, and lets the device write the region's page -/
def lendState : KState :=
  { smallState 0 with
    w := { (smallState 0).w with
      mem := RadixTree.Store.put (fun _ _ => 0) (3 * PAGE_SIZE) 256 (iopte.leaf (5 * PAGE_SIZE) CapRights.ALL) }
    procs := fun
      | 0 => { Process.EMPTY with
          caps := mintGrants X86 lendConfig .producer, state := .ready, token := PAGE_SIZE }
      | 1 => { Process.EMPTY with
          caps := mintGrants X86 lendConfig .consumer, id := 1, state := .ready, token := 2 * PAGE_SIZE
          dma := fun k => if k = 0 then (1, 1) else (0, 0) }
      | _ => Process.EMPTY
    regions := fun i => if i = 0 then ⟨true, 1, 0, [5 * PAGE_SIZE]⟩ else Region.EMPTY
    nextRegionId := 2
    ledger := ((Deleg.Ledger.new).record ⟨0, 0, 0⟩ ⟨1, 1, 0⟩).2 }

theorem lendState_alive {p : ℕ} (hp : lendState.Alive p) : p = 0 ∨ p = 1 := by
  match p, hp.2 with
  | 0, _ => exact Or.inl rfl
  | 1, _ => exact Or.inr rfl

/-- the spaces of both are empty roots, in pages 1 and 2 -/
theorem lendState_root {p : ℕ} (hp : lendState.Alive p) : X86.root (lendState.procs p).token = (p + 1) * PAGE_SIZE := by
  rcases lendState_alive hp with rfl | rfl <;> rfl

theorem lendState_empty {p : ℕ} (hp : lendState.Alive p) (i : ℕ) :
    X86.fmt.present (lendState.w.mem (X86.root (lendState.procs p).token) i) = false := by
  have hne : (p + 1) * PAGE_SIZE ≠ 3 * PAGE_SIZE := by
    rcases lendState_alive hp with rfl | rfl <;> decide
  have hmem : lendState.w.mem ((p + 1) * PAGE_SIZE) = fun _ => 0 := RadixTree.Store.put_of_ne (fun _ _ => 0) hne 256 _
  rw [lendState_root hp, hmem]
  exact X86.fmt.present_empty

theorem lendState_vacant {p : ℕ} (hp : lendState.Alive p) {v : ℕ} (hv : X86.Own v) :
    X86.fmt.present (lendState.leaf X86 p v) = false := by
  have hleaf : lendState.leaf X86 p v = X86.fmt.empty :=
    RadixTree.leaf_fresh X86.depth_pos (fun i _ => lendState_empty hp i) (X86.valid_path hv) (RadixTree.length_path _ _) _
  rw [hleaf]
  exact X86.fmt.present_empty

theorem lendState_laid : Laid X86 lendConfig lendState := by
  have htab : ∀ p, lendState.Alive p → lendState.tables X86 p = {(p + 1) * PAGE_SIZE} := fun p hp => by
    rw [← lendState_root hp]
    exact (RadixTree.Tree.fresh X86.fmt X86.depth fun i _ => lendState_empty hp i).2
  refine ⟨⟨by decide, by decide, by decide⟩, fun p hp => ?_, fun p hp => ?_, fun p q hp hq hne a ha ha' => ?_,
    fun p hp a ha => ?_⟩
  · match p, hp with
    | 0, _ => decide
    | 1, _ => decide
  · exact (RadixTree.Tree.fresh X86.fmt X86.depth fun i _ => lendState_empty hp i).1
  · rw [htab p hp] at ha
    rw [htab q hq] at ha'
    have : (p + 1) * PAGE_SIZE = (q + 1) * PAGE_SIZE := ha.symm.trans ha'
    simp only [PAGE_SIZE] at this
    omega
  · rw [htab p hp] at ha
    obtain rfl := Set.mem_singleton_iff.1 ha
    rcases lendState_alive hp with rfl | rfl <;> decide

/-- the only record is the borrower's, and the only entry the one it installed -/
theorem lendState_permitted : Permitted X86 lendConfig lendState := by
  intro p hp m hm
  cases m with
  | share k j =>
    obtain ⟨hk, hj, hpres⟩ := hm
    exact absurd (hpres.symm.trans (lendState_vacant hp (sharePage_own X86 hk hj))) (by decide)
  | device =>
    have hpres : X86.fmt.present (lendState.leaf X86 p (devicePage X86)) = true := hm
    exact absurd (hpres.symm.trans (lendState_vacant hp (devicePage_own X86))) (by decide)
  | dma k entry =>
    obtain ⟨-, hk, -, h0, -⟩ := hm
    rcases lendState_alive hp with rfl | rfl
    · exact absurd rfl h0
    have hk0 : k = 0 := by
      by_contra hne
      refine h0 ?_
      show (if k = 0 then ((1, 1) : ℕ × ℕ) else (0, 0)).1 = 0
      rw [if_neg hne]
    subst hk0
    exact ⟨by decide +kernel, fun _ _ => ⟨0, ⟨.region, CapRights.ALL, 1⟩, by decide +kernel,
        rfl, rfl, by decide, fun _ => by decide⟩⟩

/-- the lender revokes what it lent -/
def lendRevoked : KState := outcome (revokeDelegations X86 lendConfig 0 0 lendState) lendState

theorem lendRevoked_run : revokeDelegations X86 lendConfig 0 0 lendState = .ok ((), lendRevoked) :=
  outcome_eq (by decide +kernel)

/-- the read-only capability vouches for the device's writes -/
theorem lend_outlives : Laid X86 lendConfig lendState ∧ Permitted X86 lendConfig lendState ∧
    revokeDelegations X86 lendConfig 0 0 lendState = .ok ((), lendRevoked) ∧ ¬Permitted X86 lendConfig lendRevoked := by
  refine ⟨lendState_laid, lendState_permitted, lendRevoked_run, fun hperm => ?_⟩
  have h := revoke_stripped lendState_laid lendRevoked_run
  have hp : lendState.Alive 1 := ⟨by decide, by decide⟩
  have hpres : iopte.present (lendState.leafAt lendConfig 0 256) = true := by decide
  have hmaps : lendState.Maps X86 lendConfig 1 (.dma 0 256) :=
    ⟨rfl, by decide, by decide, by decide, 0, 0, by decide, by decide, hpres, 5 * PAGE_SIZE, List.mem_singleton_self _, by decide⟩
  have hspared : lendState.Spared X86 lendConfig (lendState.reached 0 0) 1 (.dma 0 256) := by
    rintro di - ⟨r, e, ri, ⟨-, hr, q, hq, -, k, -, he, hfail⟩, -⟩
    rcases lendState_alive hq with rfl | rfl
    · exact hr (congrArg Prod.fst he).symm
    have hre : (r, e) = (1, 1) := by
      have hrec : (if k = 0 then ((1, 1) : ℕ × ℕ) else (0, 0)) = (r, e) := he
      split_ifs at hrec
      · exact hrec.symm
      · exact absurd (congrArg Prod.fst hrec).symm hr
    rw [hre] at hfail
    exact absurd hfail (by decide +kernel)
  have hleft : lendRevoked.Maps X86 lendConfig 1 (.dma 0 256) :=
    (h.maps_iff lendState_laid hp _).2 ⟨hmaps, fun _ => by decide +kernel, hspared⟩
  have hpt := hperm 1 ((h.cut.alive 1).2 hp) _ hleft
  rw [h.permits_iff lendState_laid hp hleft, h.caps 1 hp] at hpt
  -- nothing it is left with lets the page be written
  obtain ⟨i, c, hc, hty, ho, -, hw⟩ := hpt.2 0 (by decide)
  have hold : holdsCap (lendState.capsLeft (lendState.reached 0 0) 1) (forObject .region 1 CapRights.WRITE) = true :=
    holdsCap_iff.2 ⟨i, c, hc, forObject_iff.2 ⟨hty, ho, hw (by decide)⟩⟩
  exact absurd hold (by decide +kernel)

theorem lend_permitted_iff : Permitted X86 lendConfig lendRevoked ↔ Answers X86 lendConfig lendState (lendState.reached 0 0) :=
  permitted_iff lendState_laid lendState_permitted lendRevoked_run

end Rustproof.Kernel
