/-
What the level-1 I/O tables hold after each path of `Kernel/Dma`.

`Swept C Q s t`: the entries of the published tables that name a frame `Q` selects are cleared, and all the others are what
they were. Every withdrawal is a sweep (`swept_withdrawRegionFromDomain`, `swept_withdrawRegionEverywhere`), the command ring
sweeps nothing, and `mapDma_spec` says which entries a mapping writes: slots that were absent, or none that anybody sees.
-/
import Rustproof.Hal.X86
import Rustproof.Kernel.Unmapping

namespace Rustproof.Kernel

open Lib Prog RadixTree

variable {A : Arch} {C : Config} {s t u : KState}

/-! ## Entries -/

theorem iopte.present_leaf (frame : ℕ) (rights : CapRights) : iopte.present (iopte.leaf frame rights) = true := by
  have hbit : (iopte.leaf frame rights).getLsbD 0 = true := by
    have hpr : iopte.PR.getLsbD 0 = true := by decide
    rw [iopte.leaf, BitVec.getLsbD_or, BitVec.getLsbD_or, BitVec.getLsbD_or]
    simp [hpr]
  rw [iopte.present, bne_iff_ne]
  intro he
  have h0 := congrArg (fun w : Word => w.getLsbD 0) he
  rw [BitVec.getLsbD_and, hbit] at h0
  exact absurd h0 (by decide)

theorem iopte.frame_leaf {frame : ℕ} (hal : frame % PAGE_SIZE = 0) (hlt : frame < 2 ^ 52) (rights : CapRights) :
    iopte.frame (iopte.leaf frame rights) = frame / PAGE_SIZE := by
  have hflags : ∀ r w : Bool,
      (iopte.PR ||| ((if r then iopte.IR else 0) ||| (if w then iopte.IW else 0))) &&& iopte.ADDR = 0 := by decide
  have hmask : iopte.leaf frame rights &&& iopte.ADDR = BitVec.ofNat 64 frame &&& iopte.ADDR := by
    rw [iopte.leaf, BitVec.or_assoc, BitVec.or_assoc, BitVec.and_or_distrib_right, hflags, BitVec.and_assoc,
      BitVec.and_self]
    exact BitVec.or_zero
  rw [iopte.frame, hmask]
  exact congrArg (· / PAGE_SIZE) (X86.toNat_masked hal hlt)

/-! ## Sweeps -/

/-- domain `di` has a level-1 table -/
def Published (C : Config) (di : ℕ) : Prop := di < MAX_DOMAINS ∧ (C.domainSlots di).l1 ≠ 0

/-- entry `slot` of domain `di`'s table lets the device in -/
def Present (C : Config) (s : KState) (di slot : ℕ) : Prop := iopte.present (s.leafAt C di slot) = true

theorem leafAt_storeLeaf (hC : DomainsOk C) {di dj : ℕ} (hdi : Published C di) (hdj : Published C dj) (s : KState)
    (slot slot' : ℕ) (pte : Word) :
    (s.storeLeaf C di slot pte).leafAt C dj slot' = if dj = di ∧ slot' = slot then pte else s.leafAt C dj slot' := by
  show s.w.mem.put (C.domainSlots di).l1 slot pte (C.domainSlots dj).l1 slot' = _
  rw [Store.put_apply]
  by_cases h : dj = di
  · subst h; simp [KState.leafAt]
  · rw [if_neg fun hc => hC.apart dj hdj.1 di hdi.1 h hdj.2 hc.1, if_neg fun hc => h hc.1]
    rfl

/-- the entries that name a frame `Q` selects, and no others, are cleared -/
structure Swept (C : Config) (Q : ℕ → ℕ → Prop) (s t : KState) : Prop where
  cut : ∀ di, Published C di → ∀ slot < 512, Present C s di slot → Q di (iopte.frame (s.leafAt C di slot)) →
    t.leafAt C di slot = 0
  keep : ∀ di, Published C di → ∀ slot < 512, ¬ (Present C s di slot ∧ Q di (iopte.frame (s.leafAt C di slot))) →
    t.leafAt C di slot = s.leafAt C di slot

namespace Swept

variable {Q Q' : ℕ → ℕ → Prop}

/-- a step that stores to no table -/
theorem of_mem (h : ∀ di, Published C di → t.w.mem (C.domainSlots di).l1 = s.w.mem (C.domainSlots di).l1) :
    Swept C (fun _ _ => False) s t :=
  ⟨fun _ _ _ _ _ hq => hq.elim, fun di hdi slot _ _ => by rw [KState.leafAt, h di hdi]; rfl⟩

theorem refl (s : KState) : Swept C (fun _ _ => False) s s := of_mem fun _ _ => rfl

theorem congr (h : Swept C Q s t) (hQ : ∀ di, Published C di → ∀ f, Q di f ↔ Q' di f) : Swept C Q' s t :=
  ⟨fun di hdi slot hs hp hq => h.cut di hdi slot hs hp ((hQ di hdi _).2 hq),
    fun di hdi slot hs hn => h.keep di hdi slot hs fun hc => hn ⟨hc.1, (hQ di hdi _).1 hc.2⟩⟩

theorem trans (h : Swept C Q s t) (h' : Swept C Q' t u) : Swept C (fun di f => Q di f ∨ Q' di f) s u := by
  constructor
  · intro di hdi slot hs hp hq
    by_cases hc : Q di (iopte.frame (s.leafAt C di slot))
    · have h0 := h.cut di hdi slot hs hp hc
      have hkeep := h'.keep di hdi slot hs (by rw [Present, h0, iopte.not_present_zero]; exact fun hc => by simp at hc)
      rw [hkeep, h0]
    · have hk := h.keep di hdi slot hs fun hx => hc hx.2
      have hp' : Present C t di slot := by rw [Present, hk]; exact hp
      refine h'.cut di hdi slot hs hp' ?_
      rw [hk]; exact hq.resolve_left hc
  · intro di hdi slot hs hn
    have hk := h.keep di hdi slot hs fun hx => hn ⟨hx.1, Or.inl hx.2⟩
    refine (h'.keep di hdi slot hs ?_).trans hk
    rw [Present, hk]
    exact fun hx => hn ⟨hx.1, Or.inr hx.2⟩

/-- a loop of sweeps -/
theorem forAny {α : Type} {f : α → KState → Bool × KState} {Q : α → ℕ → ℕ → Prop} {I : KState → Prop} {bs : List α}
    (hf : ∀ b ∈ bs, ∀ s, I s → Swept C (Q b) s (f b s).2 ∧ I (f b s).2) (hs : I s) :
    Swept C (fun di g => ∃ b ∈ bs, Q b di g) s (Prog.forAny f bs s).2 ∧ I (Prog.forAny f bs s).2 := by
  induction bs generalizing s with
  | nil => exact ⟨(refl s).congr fun di _ g => by simp, hs⟩
  | cons b bs ih =>
    obtain ⟨h1, h2⟩ := hf b List.mem_cons_self s hs
    obtain ⟨h3, h4⟩ := ih (fun c hc => hf c (List.mem_cons_of_mem _ hc)) h2
    exact ⟨(h1.trans h3).congr fun di _ g => by simp, h4⟩

end Swept

theorem RingOnly.swept (hC : DomainsOk C) (h : RingOnly C s t) : Swept C (fun _ _ => False) s t :=
  Swept.of_mem fun di hdi => h.mem _ (hC.others di hdi.1 hdi.2).1 (hC.others di hdi.1 hdi.2).2.1

/-! ## Withdrawals -/

theorem swept_clearSlot (hC : DomainsOk C) {di : ℕ} (hdi : Published C di) (pfn slot : ℕ) (s : KState) :
    (∀ dj, Published C dj → ∀ k, ¬ (dj = di ∧ k = slot) → (clearSlot C di pfn slot s).2.leafAt C dj k = s.leafAt C dj k) ∧
      (Present C s di slot → iopte.frame (s.leafAt C di slot) = pfn → (clearSlot C di pfn slot s).2.leafAt C di slot = 0) ∧
      (¬ (Present C s di slot ∧ iopte.frame (s.leafAt C di slot) = pfn) →
        (clearSlot C di pfn slot s).2.leafAt C di slot = s.leafAt C di slot) := by
  rw [clearSlot]
  split_ifs with h
  · refine ⟨fun dj hdj k hne => ?_, fun _ _ => ?_, fun hn => absurd h hn⟩
    · rw [leafAt_storeLeaf hC hdi hdj, if_neg hne]
    · rw [leafAt_storeLeaf hC hdi hdi, if_pos ⟨rfl, rfl⟩]
  · exact ⟨fun _ _ _ _ => rfl, fun hp hf => absurd ⟨hp, hf⟩ h, fun _ => rfl⟩

/-- `clear_io_mappings_in` -/
theorem swept_clearIoMappingsIn (hC : DomainsOk C) {di : ℕ} (hlt : di < MAX_DOMAINS) (pfn : ℕ) (s : KState) :
    Swept C (fun dj f => dj = di ∧ f = pfn) s (clearIoMappingsIn C di pfn s).2 := by
  rw [clearIoMappingsIn]
  split_ifs with hl1
  · refine (Swept.refl s).congr fun dj hdj f => ⟨False.elim, ?_⟩
    rintro ⟨rfl, -⟩
    exact hdj.2 hl1
  have hdi : Published C di := ⟨hlt, hl1⟩
  rw [forAny_snd]
  -- after `n` slots: those below `n` are swept
  have hloop : ∀ n ≤ 512, ∀ dj, Published C dj → ∀ k < 512,
      let t := (List.range n).foldl (fun s slot => (clearSlot C di pfn slot s).2) s
      (k < n → dj = di → Present C s di k → iopte.frame (s.leafAt C di k) = pfn → t.leafAt C dj k = 0) ∧
        (¬ (k < n ∧ dj = di ∧ Present C s di k ∧ iopte.frame (s.leafAt C di k) = pfn) →
          t.leafAt C dj k = s.leafAt C dj k) := by
    intro n
    induction n with
    | zero => exact fun _ dj hdj k hk => ⟨fun h => absurd h (Nat.not_lt_zero _), fun _ => rfl⟩
    | succ n ih =>
      intro hn dj hdj k hk t
      set v := (List.range n).foldl (fun s slot => (clearSlot C di pfn slot s).2) s with hv
      have ht : t = (clearSlot C di pfn n v).2 := by
        simp only [t, hv, List.range_succ, List.foldl_append, List.foldl_cons, List.foldl_nil]
      obtain ⟨h1, h2⟩ := ih (by omega) dj hdj k hk
      obtain ⟨h3, h4, h5⟩ := swept_clearSlot hC hdi pfn n v
      rw [ht]
      by_cases hkn : dj = di ∧ k = n
      · obtain ⟨rfl, rfl⟩ := hkn
        have hsame : v.leafAt C dj k = s.leafAt C dj k := h2 fun hc => absurd hc.1 (lt_irrefl k)
        rw [Present, hsame] at h4 h5
        exact ⟨fun _ _ hp hf => h4 hp hf, fun hc => h5 fun hx => hc ⟨Nat.lt_succ_self k, rfl, hx.1, hx.2⟩⟩
      · rw [h3 dj hdj k hkn]
        refine ⟨fun hlt hd => h1 ?_ hd, fun hc => h2 fun hx => hc ⟨hx.1.trans (Nat.lt_succ_self n), hx.2⟩⟩
        exact (Nat.lt_succ_iff_lt_or_eq.1 hlt).resolve_right fun he => hkn ⟨hd, he⟩
  constructor
  · rintro dj hdj k hk hp ⟨rfl, hf⟩
    exact (hloop 512 le_rfl dj hdj k hk).1 hk rfl hp hf
  · intro dj hdj k hk hn
    refine (hloop 512 le_rfl dj hdj k hk).2 ?_
    rintro ⟨-, rfl, hp, hf⟩
    exact hn ⟨hp, rfl, hf⟩

/-- `clear_io_mappings_of` -/
theorem swept_clearIoMappingsOf (hC : DomainsOk C) (pfn : ℕ) (s : KState) :
    Swept C (fun _ f => f = pfn) s (clearIoMappingsOf C pfn s).2 := by
  refine (Swept.forAny (I := fun _ => True)
    (fun di hdi s _ => ⟨swept_clearIoMappingsIn hC (List.mem_range.1 hdi) pfn s, trivial⟩) trivial).1.congr
    fun dj hdj f => ?_
  constructor
  · rintro ⟨di, -, -, hf⟩; exact hf
  · exact fun hf => ⟨dj, List.mem_range.2 hdj.1, rfl, hf⟩

/-- `withdraw_region_from_domain` -/
theorem swept_withdrawRegionFromDomain (hC : DomainsOk C) {di : ℕ} (hlt : di < MAX_DOMAINS) (ri : ℕ) (s : KState) :
    Swept C (fun dj f => dj = di ∧ ∃ frame ∈ (s.regions ri).frames, f = frame / PAGE_SIZE) s
      (withdrawRegionFromDomain C di ri s).2 := by
  refine (Swept.forAny (I := fun _ => True) (fun frame _ s _ => ⟨?_, trivial⟩) trivial).1.congr
    (Q := fun dj f => ∃ frame ∈ (s.regions ri).frames, dj = di ∧ f = frame / PAGE_SIZE) fun dj _ f => ?_
  · simp only [withdrawPage]
    have h := swept_clearIoMappingsIn hC hlt (frame / PAGE_SIZE) s
    exact ⟨h.cut, h.keep⟩
  · constructor
    · rintro ⟨frame, hm, rfl, hf⟩; exact ⟨rfl, frame, hm, hf⟩
    · rintro ⟨rfl, frame, hm, hf⟩; exact ⟨frame, hm, rfl, hf⟩

/-- the same in every domain, at the end of the region -/
theorem swept_withdrawRegionEverywhere (hC : DomainsOk C) (hio : A.iommu = true) (frames : List ℕ) (s : KState) :
    Swept C (fun _ f => ∃ frame ∈ frames, f = frame / PAGE_SIZE) s (withdrawRegionEverywhere A C frames s).2 := by
  refine (Swept.forAny (I := fun _ => True) (fun frame _ s _ => ⟨?_, trivial⟩) trivial).1
  simp only [withdrawFrame, hio, if_true]
  have hmodel : ∀ (ds : List ℕ) (v : KState),
      (ds.foldl (fun s di => s.modDomain di fun d => d.revoke (frame / PAGE_SIZE)) v).w = v.w := by
    intro ds v
    exact List.foldlRecOn (motive := fun x : KState => x.w = v.w) ds _ rfl fun x hx _ _ => hx
  have hlast := Swept.of_mem (C := C) (s := (clearIoMappingsOf C (frame / PAGE_SIZE) s).2) fun di _ =>
    congrArg (fun w : Machine => w.mem (C.domainSlots di).l1)
      (hmodel (List.range MAX_DOMAINS) (clearIoMappingsOf C (frame / PAGE_SIZE) s).2)
  exact ((swept_clearIoMappingsOf hC _ s).trans hlast).congr fun _ _ _ => by simp

/-! ## Mapping -/

/-- the run `findRun` finds is absent -/
theorem findRun_some {table : ℕ → Word} {npages fuel slot run first : ℕ} (hrun : run < npages) (hle : run ≤ slot)
    (habs : ∀ i, slot - run ≤ i → i < slot → iopte.present (table i) = false)
    (h : findRun table npages fuel slot run = some first) :
    slot - run ≤ first ∧ first + npages ≤ slot + fuel ∧ ∀ i, first ≤ i → i < first + npages →
      iopte.present (table i) = false := by
  induction fuel generalizing slot run with
  | zero => rw [findRun] at h; simp at h
  | succ fuel ih =>
    rw [findRun] at h
    split_ifs at h with hp hlast
    · obtain ⟨h1, h2, h3⟩ := ih (by omega) (Nat.zero_le _) (fun i hi hi' => by omega) h
      exact ⟨by omega, by omega, h3⟩
    · obtain rfl := Option.some.inj h
      refine ⟨by omega, by omega, fun i hi hi' => ?_⟩
      by_cases his : i = slot
      · rw [his]; simpa using hp
      · exact habs i (by omega) (by omega)
    · obtain ⟨h1, h2, h3⟩ := ih (by omega) (by omega) (fun i hi hi' => by
        by_cases his : i = slot
        · rw [his]; simpa using hp
        · exact habs i (by omega) (by omega)) h
      exact ⟨by omega, by omega, h3⟩

/-- no run has length 0 -/
theorem findRun_zero (table : ℕ → Word) (fuel slot run first : ℕ) : findRun table 0 fuel slot run ≠ some first := by
  induction fuel generalizing slot run with
  | zero => rw [findRun]; simp
  | succ fuel ih =>
    rw [findRun]
    split_ifs with hp hlast
    · exact ih _ _
    · exact hlast.elim
    · exact ih _ _

/-- a step that stores to slots `first` to `first + n` of domain `di`'s table at most -/
structure StoresRun (C : Config) (di first n : ℕ) (s t : KState) : Prop where
  procs : t.procs = s.procs
  regions : t.regions = s.regions
  leaf : ∀ dj, Published C dj → ∀ slot, ¬ (dj = di ∧ first ≤ slot ∧ slot < first + n) → t.leafAt C dj slot = s.leafAt C dj slot

namespace StoresRun

variable {di first n : ℕ}

theorem refl (s : KState) : StoresRun C di first n s s := ⟨rfl, rfl, fun _ _ _ _ => rfl⟩

theorem trans (h : StoresRun C di first n s t) (h' : StoresRun C di first n t u) : StoresRun C di first n s u :=
  ⟨h'.procs.trans h.procs, h'.regions.trans h.regions,
    fun dj hdj slot hn => (h'.leaf dj hdj slot hn).trans (h.leaf dj hdj slot hn)⟩

theorem modDomain (s : KState) (dj : ℕ) (f : Domain → Domain) : StoresRun C di first n s (s.modDomain dj f) :=
  ⟨rfl, rfl, fun _ _ _ _ => rfl⟩

theorem storeLeaf (hC : DomainsOk C) (hdi : Published C di) (s : KState) {slot : ℕ} (h1 : first ≤ slot)
    (h2 : slot < first + n) (pte : Word) : StoresRun C di first n s (s.storeLeaf C di slot pte) := by
  refine ⟨rfl, rfl, fun dj hdj k hk => ?_⟩
  rw [leafAt_storeLeaf hC hdi hdj, if_neg]
  rintro ⟨rfl, rfl⟩
  exact hk ⟨rfl, h1, h2⟩

theorem foldl {α : Type} {f : KState → α → KState} {bs : List α} (hf : ∀ b ∈ bs, ∀ s, StoresRun C di first n s (f s b))
    (s : KState) : StoresRun C di first n s (bs.foldl f s) := by
  induction bs generalizing s with
  | nil => exact refl s
  | cons b bs ih => exact (hf b List.mem_cons_self s).trans (ih (fun c hc => hf c (List.mem_cons_of_mem _ hc)) _)

end StoresRun

theorem storesRun_rollback (hC : DomainsOk C) {di : ℕ} (hdi : Published C di) (ri first : ℕ) {k n : ℕ} (hk : k < n)
    (s : KState) : StoresRun C di first n s (rollbackDma C di ri first k s) := by
  rw [rollbackDma]
  refine (StoresRun.foldl (fun j hj s => ?_) s).trans (StoresRun.foldl (fun j _ s => ?_) _)
  · have := List.mem_range.1 hj
    exact (StoresRun.modDomain s _ _).trans (StoresRun.storeLeaf hC hdi _ (by omega) (by omega) _)
  · simp only
    split_ifs
    · exact StoresRun.refl s
    · exact StoresRun.modDomain s _ _

/-- **The install loop** of `map_dma`, from page `k` on: all pages, or a step nobody can tell from none. -/
theorem installDma_spec (hC : DomainsOk C) {di : ℕ} (hdi : Published C di) (ri first : ℕ) (rights : CapRights) {total : ℕ}
    (n k : ℕ) (hk : k + n = total) (s : KState) :
    StoresRun C di first total s (installDma C di ri first rights n k s).2 ∧
      ((installDma C di ri first rights n k s).1 = true →
        (∀ j, k ≤ j → j < total → (installDma C di ri first rights n k s).2.leafAt C di (first + j) =
          iopte.leaf ((s.regions ri).frames.getD j 0) rights) ∧
        ∀ j < k, (installDma C di ri first rights n k s).2.leafAt C di (first + j) = s.leafAt C di (first + j)) := by
  induction n generalizing k s with
  | zero => exact ⟨StoresRun.refl s, fun _ => ⟨fun j h1 h2 => absurd h2 (by omega), fun _ _ => rfl⟩⟩
  | succ n ih =>
    rw [installDma]
    have hg : StoresRun C di first total s
        (s.modDomain di fun d => (d.grant ((s.regions ri).frames.getD k 0 / PAGE_SIZE) rights).2) :=
      StoresRun.modDomain s di _
    split
    · exact ⟨hg.trans (storesRun_rollback hC hdi ri first (by omega) _), fun h => absurd h Bool.false_ne_true⟩
    · rename_i d _
      set v : KState := ((s.modDomain di fun d => (d.grant ((s.regions ri).frames.getD k 0 / PAGE_SIZE) rights).2).modDomain di
        fun _ => d).storeLeaf C di (first + k) (iopte.leaf ((s.regions ri).frames.getD k 0) rights) with hv
      have hsv : StoresRun C di first total s v :=
        (hg.trans (StoresRun.modDomain _ _ _)).trans (StoresRun.storeLeaf hC hdi _ (by omega) (by omega) _)
      obtain ⟨h1, h2⟩ := ih (k + 1) (by omega) v
      refine ⟨hsv.trans h1, fun hok => ?_⟩
      obtain ⟨h3, h4⟩ := h2 hok
      have hleaf : ∀ slot, v.leafAt C di slot =
          if slot = first + k then iopte.leaf ((s.regions ri).frames.getD k 0) rights else s.leafAt C di slot := by
        intro slot
        rw [hv, leafAt_storeLeaf hC hdi hdi]
        simp only [true_and]
        rfl
      refine ⟨fun j hj hlt => ?_, fun j hj => ?_⟩
      · by_cases hjk : j = k
        · rw [hjk, h4 k (Nat.lt_succ_self k), hleaf, if_pos rfl]
        · rw [h3 j (by omega) hlt, hsv.regions]
      · rw [h4 j (by omega), hleaf, if_neg (by omega)]

/-- what a successful `map_dma` found and wrote: a run of absent slots of the domain's window, now the region's pages -/
structure Installed (C : Config) (who domain region : ℕ) (rights : CapRights) (s t : KState) (di ri first rec_ : ℕ) : Prop where
  lookup : domainLookup C domain = some di
  published : Published C di
  index : s.regionIndex region = some ri
  pages : 0 < (s.regions ri).frames.length
  window : DMA_IOVA_FIRST_SLOT ≤ first ∧ first + (s.regions ri).frames.length ≤ 512
  slot : firstIdx SHARE_SLOTS (fun i => ((s.procs who).dma i).1 == 0) = some rec_
  absent : ∀ j < (s.regions ri).frames.length, ¬ Present C s di (first + j)
  leaf : ∀ j < (s.regions ri).frames.length, t.leafAt C di (first + j) =
    iopte.leaf ((s.regions ri).frames.getD j 0) rights
  others : ∀ dj, Published C dj → ∀ slot, ¬ (dj = di ∧ first ≤ slot ∧ slot < first + (s.regions ri).frames.length) →
    t.leafAt C dj slot = s.leafAt C dj slot
  procs : t.procs = s.procs.put who { s.procs who with dma := (s.procs who).dma.put rec_ (region, domain) }
  regions : t.regions = s.regions

/-- **`map_dma`** refuses and leaves every present entry as it was, or installs the region and records it. -/
theorem mapDma_spec (hC : DomainsOk C) (who domain region : ℕ) (rights : CapRights) (s : KState) :
    let r := mapDma C who domain region rights s
    ((r.1 = syserr.NO_MEM ∨ r.1 = syserr.NO_CAP) ∧ r.2.procs = s.procs ∧ r.2.regions = s.regions ∧
      ∀ di, Published C di → ∀ slot, Present C s di slot → r.2.leafAt C di slot = s.leafAt C di slot) ∨
    ∃ di ri first rec_, r.1 = first * PAGE_SIZE ∧ Installed C who domain region rights s r.2 di ri first rec_ := by
  intro r
  have hr : r = mapDma C who domain region rights s := rfl
  clear_value r
  rw [mapDma] at hr
  by_cases hno : noDomains C = true
  · rw [if_pos hno] at hr
    subst hr
    exact Or.inl ⟨Or.inl rfl, rfl, rfl, fun _ _ _ _ => rfl⟩
  rw [if_neg hno] at hr
  cases hd : domainLookup C domain with
  | none => rw [hd] at hr; subst hr; exact Or.inl ⟨Or.inr rfl, rfl, rfl, fun _ _ _ _ => rfl⟩
  | some di =>
    rw [hd] at hr
    simp only at hr
    by_cases hl1 : (C.domainSlots di).l1 = 0
    · rw [if_pos hl1] at hr; subst hr; exact Or.inl ⟨Or.inl rfl, rfl, rfl, fun _ _ _ _ => rfl⟩
    rw [if_neg hl1] at hr
    have hdi : Published C di := ⟨(domainLookup_lt C hd).1, hl1⟩
    cases hri : s.regionIndex region with
    | none => rw [hri] at hr; subst hr; exact Or.inl ⟨Or.inr rfl, rfl, rfl, fun _ _ _ _ => rfl⟩
    | some ri =>
      rw [hri] at hr
      simp only at hr
      cases hf : findRun (s.leafAt C di) (s.regions ri).frames.length DMA_IOVA_SLOTS DMA_IOVA_FIRST_SLOT 0 with
      | none => rw [hf] at hr; subst hr; exact Or.inl ⟨Or.inl rfl, rfl, rfl, fun _ _ _ _ => rfl⟩
      | some first =>
        rw [hf] at hr
        simp only at hr
        cases hrec : firstIdx SHARE_SLOTS fun i => ((s.procs who).dma i).1 == 0 with
        | none => rw [hrec] at hr; subst hr; exact Or.inl ⟨Or.inl rfl, rfl, rfl, fun _ _ _ _ => rfl⟩
        | some rec_ =>
          rw [hrec] at hr
          simp only at hr
          have hpos : 0 < (s.regions ri).frames.length := by
            by_contra hc
            have h0 : (s.regions ri).frames.length = 0 := by omega
            rw [h0] at hf
            exact absurd hf (findRun_zero _ _ _ _ _)
          obtain ⟨hlo, hhi, habs⟩ := findRun_some hpos (Nat.zero_le _) (fun i h1 h2 => by omega) hf
          obtain ⟨hst, hok⟩ := installDma_spec hC hdi ri first rights (s.regions ri).frames.length 0 (Nat.zero_add _) s
          rcases hi : installDma C di ri first rights (s.regions ri).frames.length 0 s with ⟨_ | _, v⟩
          · rw [hi] at hr hst
            subst hr
            refine Or.inl ⟨Or.inr rfl, hst.procs, hst.regions, fun dj hdj slot hp => hst.leaf dj hdj slot ?_⟩
            rintro ⟨rfl, h1, h2⟩
            have := habs slot h1 h2
            rw [Present, this] at hp
            exact absurd hp (by decide)
          · rw [hi] at hr hst hok
            subst hr
            obtain ⟨hleaf, -⟩ := hok rfl
            refine Or.inr ⟨di, ri, first, rec_, rfl, hd, hdi, hri, hpos, ⟨by simpa using hlo, hhi⟩, hrec, fun j hj => ?_,
              fun j hj => hleaf j (Nat.zero_le _) hj, fun dj hdj slot hn => hst.leaf dj hdj slot hn, ?_, hst.regions⟩
            · rw [Present, habs (first + j) (by omega) (by omega)]; decide
            · show v.procs.put who _ = _
              rw [hst.procs]

end Rustproof.Kernel
