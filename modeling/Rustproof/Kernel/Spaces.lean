/-
The spaces of all processes at once.

A leaf is `Backed` by a frame of the process's own that is no page table, by a page of the region its share slot holds, or
in the device window by the device's page; for the last two the process has the capability. `Spaced` says that every
present leaf of every live process is, that its page tables are frames of its own, and that the kernel's page tables are
as the boot left them. `Fixed` is the pages nobody may store to for this to stay so, and no leaf names one of them
(`Spaced.target`).
-/
import Rustproof.Kernel.Accounts
import Rustproof.Kernel.Sole

namespace Rustproof.Kernel

open Lib Prog Mm Vspace

/-! ## What a leaf may map -/

/-- some capability of the space allows `object` to be read, and written if `write` -/
def Allows (caps : Caps) (ty : CapType) (object : ℕ) (write : Bool) : Prop :=
  ∃ i c, caps.lookup i = some c ∧ c.capType = ty ∧ c.object = object ∧ c.rights.contains CapRights.READ = true ∧
    (write = true → c.rights.contains CapRights.WRITE = true)

variable (A : Arch) (C : Config)

inductive Backed (s : KState) (p v : ℕ) : Prop where
  | own : A.fmt.addr (s.leaf A p v) ∈ (s.procs p).frames → A.fmt.addr (s.leaf A p v) ∉ s.tables A p → Backed s p v
  | share {slot k i : ℕ} : slot < SHARE_SLOTS → k < REGION_MAX_PAGES → v = sharePage A slot k →
      s.regionSlot ((s.procs p).shares slot) = some i → (s.regions i).frames[k]? = some (A.fmt.addr (s.leaf A p v)) →
      Allows (s.procs p).caps .region ((s.procs p).shares slot) (A.writable (s.leaf A p v)) → Backed s p v
  | device : v = devicePage A → Admitted A C (A.fmt.addr (s.leaf A p v)) → A.fmt.addr (s.leaf A p v) % PAGE_SIZE = 0 →
      Allows (s.procs p).caps .mmio (A.fmt.addr (s.leaf A p v)) (A.writable (s.leaf A p v)) → Backed s p v

/-- the space of process `p`; `m₀` is memory as the boot left it -/
structure SpacedAt (m₀ : Mem) (s : KState) (p : ℕ) : Prop where
  tree : A.Tree s.w.mem (A.root (s.procs p).token)
  tables : ∀ t ∈ s.tables A p, t ∈ (s.procs p).frames
  /-- its root's other entries are the kernel's -/
  shared : ∀ i < A.kernelEntries, s.w.mem (A.root (s.procs p).token) i = m₀ (A.root C.ktoken) i
  backed : ∀ v, A.Own v → A.fmt.present (s.leaf A p v) = true → Backed A C s p v

structure Spaced (m₀ : Mem) (s : KState) : Prop where
  at_ : ∀ p, s.Alive p → SpacedAt A C m₀ s p
  kernel : ∀ t ∈ kernelTables A C m₀, s.w.mem t = m₀ t

/-- what the kernel keeps and the device's registers lie outside the frames `F`, and its page tables are none of these pages -/
structure Ground (F : Multiset ℕ) (m₀ : Mem) : Prop where
  pages : ∀ p ∈ kernelPages C, p ∉ F ∧ p % PAGE_SIZE = 0 ∧ p < 2 ^ 52
  tables : ∀ t ∈ kernelTables A C m₀, t ∉ F ∧ t ∉ kernelPages C
  bar : C.deviceBar < 2 ^ 52
  window : ∀ p, isDevice A C p = true → p % PAGE_SIZE = 0 → p ∉ F ∧ p ∉ kernelTables A C m₀

/-- the page tables of the kernel and of the live processes -/
def Fixed (m₀ : Mem) (s : KState) : Set ℕ := {t | t ∈ kernelTables A C m₀ ∨ ∃ p, s.Alive p ∧ t ∈ s.tables A p}

variable {A C} {G : Gate} {me : ℕ} {k : Trap} {s t : KState} {F : Multiset ℕ} {m₀ : Mem} {p : ℕ}

theorem PreUserland.ground {s₀ : KState} (h₀ : PreUserland A C s₀) (hbar : BarOutside A C s₀) :
    Ground A C (freeAddrs s₀.w.fa) s₀.w.mem :=
  ⟨fun p hp => ⟨h₀.taken p hp, h₀.aligned p hp⟩, h₀.tables, h₀.bar.trans (by decide), fun p hp hal =>
    ⟨hbar.free p hp hal, hbar.tables p hp hal⟩⟩

/-! ## The page of the device window -/

theorem isDevice_eq {phys : ℕ} (h : isDevice A C phys = true) : phys = C.deviceBar ∧ phys ≠ 0 := by
  simp only [isDevice, Bool.and_eq_true, bne_iff_ne, beq_iff_eq] at h
  exact ⟨h.2, h.2 ▸ h.1.2⟩

theorem Admitted.lt {phys : ℕ} (h : Admitted A C phys) (hg : Ground A C F m₀) : phys < 2 ^ 52 := by
  rcases h with ⟨-, rfl⟩ | h
  · exact (hg.pages _ (by simp [kernelPages])).2.2
  · exact (isDevice_eq h).1 ▸ hg.bar

/-- an aligned page that `map_device` maps is no frame given out and no page table of the kernel -/
theorem Admitted.outside {phys : ℕ} (h : Admitted A C phys) (hg : Ground A C F m₀) (hal : phys % PAGE_SIZE = 0) :
    phys ∉ F ∧ phys ∉ kernelTables A C m₀ := by
  rcases h with ⟨-, rfl⟩ | h
  · have hk : C.devicePhys ∈ kernelPages C := by simp [kernelPages]
    exact ⟨(hg.pages _ hk).1, fun ht => (hg.tables _ ht).2 hk⟩
  · exact hg.window phys h hal

/-! ## Whose frames are whose -/

namespace Accounted

variable {f : ℕ}

theorem frame_held (hp : p < MAX_PROCS) (hf : f ∈ (s.procs p).frames) : f ∈ held s := by
  rw [held_proc hp]
  exact Multiset.mem_add.2 (Or.inl hf)

theorem region_held {i : ℕ} (hi : i < MAX_REGIONS) (hf : f ∈ (s.regions i).frames) : f ∈ held s := by
  rw [held_region hi]
  exact Multiset.mem_add.2 (Or.inl hf)

/-- a frame that is out was one of those the account opened with, and is not free -/
theorem out (h : Accounted F s) (hf : f ∈ held s) :
    f ∈ F ∧ f ∉ freeAddrs s.w.fa ∧ f % PAGE_SIZE = 0 ∧ f < 2 ^ 52 :=
  ⟨h.account.held_mem hf, h.account.not_free hf, h.account.tracked_lt (h.account.held_mem hf)⟩

/-- no frame is listed by two processes -/
theorem procs_apart (h : Accounted F s) {q : ℕ} (hp : p < MAX_PROCS) (hq : q < MAX_PROCS) (hne : p ≠ q)
    (hf : f ∈ (s.procs p).frames) : f ∉ (s.procs q).frames := by
  intro hf'
  have hnd := h.account.held_nodup
  rw [held_proc hp, Multiset.nodup_add] at hnd
  refine Multiset.disjoint_left.1 hnd.2.2 hf ?_
  refine Multiset.mem_add.2 (Or.inl (Multiset.mem_sum.2 ⟨q, ?_, hf'⟩))
  exact Finset.mem_erase.2 ⟨hne.symm, Finset.mem_range.2 hq⟩

/-- no frame of a region is listed by a process -/
theorem region_apart (h : Accounted F s) {i : ℕ} (hp : p < MAX_PROCS) (hi : i < MAX_REGIONS)
    (hf : f ∈ (s.regions i).frames) : f ∉ (s.procs p).frames := by
  intro hf'
  have hnd := h.account.held_nodup
  rw [held_proc hp, Multiset.nodup_add] at hnd
  refine Multiset.disjoint_left.1 hnd.2.2 hf' ?_
  exact Multiset.mem_add.2 (Or.inr (Multiset.mem_sum.2 ⟨i, Finset.mem_range.2 hi, hf⟩))

/-- no frame is listed by two regions -/
theorem regions_apart (h : Accounted F s) {i j : ℕ} (hi : i < MAX_REGIONS) (hj : j < MAX_REGIONS) (hne : i ≠ j)
    (hf : f ∈ (s.regions i).frames) : f ∉ (s.regions j).frames := by
  intro hf'
  have hnd := h.account.held_nodup
  rw [held_region hi, Multiset.nodup_add] at hnd
  refine Multiset.disjoint_left.1 hnd.2.2 hf ?_
  refine Multiset.mem_add.2 (Or.inr (Multiset.mem_sum.2 ⟨j, ?_, hf'⟩))
  exact Finset.mem_erase.2 ⟨hne.symm, Finset.mem_range.2 hj⟩

end Accounted

/-! ## Pages nobody stores to -/

namespace Spaced

/-- the page tables are no frame that is free, no page the kernel writes and no frame of a region -/
theorem fixed_apart (h : Spaced A C m₀ s) (hg : Ground A C F m₀) (ha : Accounted F s) {a : ℕ} (hx : a ∈ Fixed A C m₀ s) :
    a ∉ freeAddrs s.w.fa ∧ a ∉ kernelPages C ∧ ∀ i < MAX_REGIONS, a ∉ (s.regions i).frames := by
  rcases hx with hk | ⟨q, hq, hx⟩
  · obtain ⟨h1, h2⟩ := hg.tables a hk
    exact ⟨fun hf => h1 (ha.account.free_mem hf), h2, fun i hi hf => h1 (ha.out (Accounted.region_held hi hf)).1⟩
  · have hf := (h.at_ q hq).tables a hx
    obtain ⟨h1, h2, -⟩ := ha.out (Accounted.frame_held hq.1 hf)
    exact ⟨h2, fun hk => (hg.pages a hk).1 h1, fun i hi hr => ha.region_apart hq.1 hi hr hf⟩

/-- no page table of the others is a frame of `p` -/
theorem tables_apart (h : Spaced A C m₀ s) (ha : Accounted F s) (hp : s.Alive p) {q a : ℕ} (hq : s.Alive q) (hne : q ≠ p)
    (hx : a ∈ s.tables A q) : a ∉ (s.procs p).frames :=
  ha.procs_apart hq.1 hp.1 hne ((h.at_ q hq).tables a hx)

/-- **No leaf names a page table**, the kernel's or anybody's. -/
theorem target (h : Spaced A C m₀ s) (hg : Ground A C F m₀) (ha : Accounted F s) (hp : s.Alive p) {v : ℕ} (hv : A.Own v)
    (hpres : A.fmt.present (s.leaf A p v) = true) : pageAddr (A.fmt.addr (s.leaf A p v)) ∉ Fixed A C m₀ s := by
  intro hx
  obtain ⟨-, -, h3⟩ := h.fixed_apart hg ha hx
  cases (h.at_ p hp).backed v hv hpres with
  | own hf ht =>
    obtain ⟨hF, -, hal, -⟩ := ha.out (Accounted.frame_held hp.1 hf)
    rw [pageAddr_aligned hal] at hx
    rcases hx with hk | ⟨q, hq, hx⟩
    · exact (hg.tables _ hk).1 hF
    · by_cases hqp : q = p
      · rw [hqp] at hx
        exact ht hx
      · exact h.tables_apart ha hp hq hqp hx hf
  | share _ _ _ hslot hf _ =>
    have hi := (regionSlot_some hslot).2.1
    have hmem := List.mem_of_getElem? hf
    rw [pageAddr_aligned (ha.out (Accounted.region_held hi hmem)).2.2.1] at h3
    exact h3 _ hi hmem
  | device _ hdev hal _ =>
    obtain ⟨hF, hk⟩ := hdev.outside hg hal
    rw [pageAddr_aligned hal] at hx
    rcases hx with hx | ⟨q, hq, hx⟩
    · exact hk hx
    · exact hF (ha.out (Accounted.frame_held hq.1 ((h.at_ q hq).tables _ hx))).1

end Spaced

/-! ## Spaces that are left alone -/

/-- a space none of whose page tables changed, with what its leaves rest on still there -/
theorem SpacedAt.same (h : SpacedAt A C m₀ s p) (htoken : (t.procs p).token = (s.procs p).token)
    (hframes : (t.procs p).frames = (s.procs p).frames) (hmem : ∀ a ∈ s.tables A p, t.w.mem a = s.w.mem a)
    (hregion : ∀ slot < SHARE_SLOTS, ∀ i, s.regionSlot ((s.procs p).shares slot) = some i →
      (t.procs p).shares slot = (s.procs p).shares slot ∧ t.regionSlot ((s.procs p).shares slot) = some i ∧
        (t.regions i).frames = (s.regions i).frames ∧ ∀ w, Allows (s.procs p).caps .region ((s.procs p).shares slot) w →
          Allows (t.procs p).caps .region ((s.procs p).shares slot) w)
    (hmmio : A.fmt.present (s.leaf A p (devicePage A)) = true → ∀ o w, Allows (s.procs p).caps .mmio o w →
      Allows (t.procs p).caps .mmio o w) : SpacedAt A C m₀ t p := by
  have htab : t.tables A p = s.tables A p := by
    rw [KState.tables, KState.tables, htoken]
    exact RadixTree.tables_congr hmem
  have hleaf : ∀ v, A.Own v → t.leaf A p v = s.leaf A p v := fun v hv => by
    rw [KState.leaf, KState.leaf, htoken]
    exact Vspace.leaf_congr hmem hv
  have hroot : A.root (s.procs p).token ∈ s.tables A p := RadixTree.root_mem_tables _ _
  refine ⟨?_, fun a hx => ?_, fun i hi => ?_, fun v hv hpres => ?_⟩
  · rw [htoken]
    exact h.tree.congr hmem
  · rw [hframes]
    exact h.tables a (htab ▸ hx)
  · rw [htoken, hmem _ hroot]
    exact h.shared i hi
  · have he := hleaf v hv
    rw [he] at hpres
    cases h.backed v hv hpres with
    | own hf ht => exact .own (by rw [he, hframes]; exact hf) (by rw [he, htab]; exact ht)
    | @share slot k i hs hk hpage hslot hf hall =>
      obtain ⟨h1, h2, h3, h4⟩ := hregion slot hs i hslot
      exact .share hs hk hpage (by rw [h1]; exact h2) (by rw [he, h3]; exact hf) (by rw [he, h1]; exact h4 _ hall)
    | device hpage hdev hal hall =>
      rw [hpage] at hpres
      exact .device hpage (by rw [he]; exact hdev) (by rw [he]; exact hal) (by rw [he]; exact hmmio hpres _ _ hall)

/-- a step that changes no process's authority or space -/
theorem SpacedAt.calm (h : SpacedAt A C m₀ s p) (hauth : (t.procs p).authority = (s.procs p).authority)
    (hspace : (t.procs p).space = (s.procs p).space) (hregs : t.regions = s.regions)
    (hmem : ∀ a ∈ s.tables A p, t.w.mem a = s.w.mem a) : SpacedAt A C m₀ t p := by
  have hcaps := Process.caps_eq hauth
  refine h.same (Process.token_eq hspace) (Process.frames_eq hspace) hmem (fun slot _ i hi => ?_) fun _ o w hw => by rwa [hcaps]
  refine ⟨congrFun (Process.shares_eq hspace) slot, ?_, by rw [hregs], fun w hw => by rwa [hcaps]⟩
  rw [regionSlot_congr hregs]
  exact hi

theorem Spaced.calm (h : Spaced A C m₀ s) (hc : Calm s t) (hmem : ∀ a ∈ Fixed A C m₀ s, t.w.mem a = s.w.mem a) :
    Spaced A C m₀ t := by
  refine ⟨fun p hp => ?_, fun a hx => (hmem a (Or.inl hx)).trans (h.kernel a hx)⟩
  have hp' : s.Alive p := ⟨hp.1, (Process.live_eq (hc.authority p)).symm.trans hp.2⟩
  exact (h.at_ p hp').calm (hc.authority p) (hc.space p) hc.regions fun a hx => hmem a (Or.inr ⟨p, hp', hx⟩)

namespace Spaced

/-- the I/O tables and the command ring are no page tables -/
theorem dma (h : Spaced A C m₀ s) (hg : Ground A C F m₀) (ha : Accounted F s) (hd : DmaOnly C s t) : Spaced A C m₀ t := by
  refine h.calm hd.calm fun a hx => hd.mem a fun hio => ?_
  refine (h.fixed_apart hg ha hx).2.1 ?_
  simp only [ioPages, List.mem_cons, List.not_mem_nil, or_false] at hio
  rcases hio with rfl | rfl | rfl | rfl <;> simp [kernelPages]

/-! ## Stores -/

/-- a store the process makes by itself -/
theorem store (h : Spaced A C m₀ s) (hg : Ground A C F m₀) (ha : Accounted F s) (hp : s.Alive p) {va : ℕ} (b : Byte)
    (hv : A.Own (va / PAGE_SIZE)) : Spaced A C m₀ (s.setMem (storeUser A (s.procs p).token s.w.mem va b)) := by
  refine h.calm (calm_setMem s _) fun a hx => ?_
  refine storeUser_off (h.at_ p hp).tree hv b fun hpres he => ?_
  exact h.target hg ha hp hv hpres (he ▸ hx)

/-- what the kernel copies into a process's memory -/
theorem copied (h : Spaced A C m₀ s) (hg : Ground A C F m₀) (ha : Accounted F s) (hp : s.Alive p) {dst : ℕ} {bytes : List Byte}
    {m : Mem} (hcopy : copyToUser A s.w.mem (s.procs p).token dst bytes = some m) :
    ∀ a ∈ Fixed A C m₀ s, m a = s.w.mem a := by
  rw [copyToUser] at hcopy
  split_ifs at hcopy with hmapped
  obtain rfl := Option.some.inj hcopy
  have hptr : userPtrOk A dst bytes.length = true := by
    rw [userRangeMapped, Bool.and_eq_true] at hmapped
    exact hmapped.1
  intro a hx
  refine storeUserBytes_off (S := {x | x ∉ Fixed A C m₀ s}) bytes (h.at_ p hp).tree (fun x hx' => ?_) (fun k hk => ?_) a
    (not_not_intro hx)
  · exact not_not_intro (Or.inr ⟨p, hp, hx'⟩)
  · have hv := userPtrOk_own hptr hk
    exact ⟨hv, fun hpres => h.target hg ha hp hv hpres⟩

theorem copy (h : Spaced A C m₀ s) (hg : Ground A C F m₀) (ha : Accounted F s) (hp : s.Alive p) {dst : ℕ} {bytes : List Byte}
    {m : Mem} (hcopy : copyToUser A s.w.mem (s.procs p).token dst bytes = some m) : Spaced A C m₀ (s.setMem m) :=
  h.calm (calm_setMem s m) (h.copied hg ha hp hcopy)

theorem takeMessage (h : Spaced A C m₀ s) (hg : Ground A C F m₀) (ha : Accounted F s) (hp : s.Alive p) :
    Spaced A C m₀ (takeMessage A p s) := by
  refine h.calm (calm_takeMessage p s) fun a hx => ?_
  rw [Kernel.takeMessage]
  split
  · next m hcopy => exact h.copied hg ha hp hcopy a hx
  · rfl

/-! ## One space changes -/

/-- the others are left alone when `p`'s tables and free frames change -/
theorem others (h : Spaced A C m₀ s) (ha : Accounted F s) (hp : s.Alive p)
    (hauth : ∀ q, (t.procs q).authority = (s.procs q).authority)
    (hother : ∀ q, q ≠ p → (t.procs q).space = (s.procs q).space) (hregs : t.regions = s.regions)
    (hoff : ∀ a, a ∉ s.tables A p → a ∉ freeAddrs s.w.fa → t.w.mem a = s.w.mem a) (hg : Ground A C F m₀)
    (hself : SpacedAt A C m₀ t p) : Spaced A C m₀ t := by
  have hfree : ∀ a ∈ Fixed A C m₀ s, a ∉ s.tables A p → t.w.mem a = s.w.mem a := fun a hx hn =>
    hoff a hn (h.fixed_apart hg ha hx).1
  refine ⟨fun q hq => ?_, fun a hx => ?_⟩
  · have hq' : s.Alive q := ⟨hq.1, (Process.live_eq (hauth q)).symm.trans hq.2⟩
    by_cases hqp : q = p
    · rw [hqp]; exact hself
    · refine (h.at_ q hq').calm (hauth q) (hother q hqp) hregs fun a hx => ?_
      exact hfree a (Or.inr ⟨q, hq', hx⟩) fun hc => h.tables_apart ha hp hq' hqp hx ((h.at_ p hp).tables a hc)
  · refine (hfree a (Or.inl hx) fun hc => ?_).trans (h.kernel a hx)
    exact (hg.tables a hx).1 (ha.out (Accounted.frame_held hp.1 ((h.at_ p hp).tables a hc))).1

theorem unmaps (h : Spaced A C m₀ s) (hg : Ground A C F m₀) (ha : Accounted F s) (hp : s.Alive p) {S : Set ℕ}
    (hu : Unmaps A p S s t) : Spaced A C m₀ t := by
  have hs := h.at_ p hp
  have hc := hu.mem hs.tree
  have htoken : (t.procs p).token = (s.procs p).token := hu.token p
  have htab : t.tables A p = s.tables A p := by
    rw [KState.tables, htoken]; exact hc.tables
  refine h.others ha hp hu.authority (fun q hq => by rw [hu.other hq]) hu.regions (fun a hn _ => hc.off a hn) hg
    ⟨by rw [htoken]; exact hc.tree, fun a hx => ?_, fun i hi => ?_, fun v hv hpres => ?_⟩
  · rw [hu.frames]
    exact hs.tables a (htab ▸ hx)
  · rw [htoken, hc.shared i (by rw [Mmu.window]; omega)]
    exact hs.shared i hi
  · rw [KState.leaf, htoken] at hpres
    obtain ⟨hn, hkeep⟩ := hc.present hv hpres
    have he : t.leaf A p v = s.leaf A p v := by
      rw [KState.leaf, htoken]; exact hkeep
    have hcaps : (t.procs p).caps = (s.procs p).caps := Process.caps_eq (hu.authority p)
    rw [hkeep] at hpres
    cases hs.backed v hv hpres with
    | own hf ht => exact .own (by rw [he, hu.frames]; exact hf) (by rw [he, htab]; exact ht)
    | @share slot k i hlt hk hpage hslot hf hall =>
      -- the slot still holds its region: the page was not cleared
      have hsh : (t.procs p).shares slot = (s.procs p).shares slot :=
        (hu.shares slot).resolve_right fun hz => hn (hz.2 ⟨k, hk, hpage⟩)
      refine .share hlt hk hpage ?_ (by rw [he, hu.regions]; exact hf) (by rw [he, hsh, hcaps]; exact hall)
      rw [hsh, regionSlot_congr hu.regions]
      exact hslot
    | device hpage hdev hal hall =>
      exact .device hpage (by rw [he]; exact hdev) (by rw [he]; exact hal) (by rw [he, hcaps]; exact hall)

theorem unmapRegionFrom (h : Spaced A C m₀ s) (hg : Ground A C F m₀) (ha : Accounted F s) (hp : s.Alive p) (id : ℕ) :
    Spaced A C m₀ (unmapRegionFrom A p id s).2 := by
  rw [Kernel.unmapRegionFrom, forAny_snd]
  refine (List.foldlRecOn (motive := fun u : KState => Spaced A C m₀ u ∧ Accounted F u ∧ u.Alive p) _ _ ⟨h, ha, hp⟩
    fun u hinv slot hslot => ?_).1
  obtain ⟨hu, hau, hpu⟩ := hinv
  split_ifs
  · exact ⟨hu, hau, hpu⟩
  · have he := unmaps_emptySlot A u p (List.mem_range.1 hslot)
    exact ⟨hu.unmaps hg hau hpu he, hau.unmaps he, hpu.1, (Process.live_eq (he.authority p)).trans hpu.2⟩

/-! ## One space grows -/

/-- a live process's space, as its allocator finds it -/
theorem built (h : Spaced A C m₀ s) (ha : Accounted F s) (hp : s.Alive p) :
    Built (supply A F (heldBut s p)) (A.root (s.procs p).token) (s.allocFor p) := by
  refine ⟨ha.ok hp.1, (h.at_ p hp).tree, fun a hx => ?_⟩
  exact (ha.out (Accounted.frame_held hp.1 ((h.at_ p hp).tables a hx))).2.1

variable {r : RecordingAlloc} (ha : Accounted F s) (hp : s.Alive p)
  (hw : Within (supply A F (heldBut s p)) (A.root (s.procs p).token) (s.allocFor p) r)

include ha hp hw

/-- what was listed for the process still is -/
theorem listed_grown {f : ℕ} (hf : f ∈ (s.procs p).frames) : f ∈ r.frames :=
  listed_of_listed (ha.ok hp.1) hw.built.ok hw.free hf

theorem tables_grown (h : Spaced A C m₀ s) {a : ℕ} (hx : a ∈ A.tables r.w.mem (A.root (s.procs p).token)) : a ∈ r.frames := by
  rcases hw.tables a hx with hold | ⟨hfree, hgone⟩
  · exact listed_grown ha hp hw ((h.at_ p hp).tables a hold)
  · exact listed_of_taken (ha.ok hp.1) hw.built.ok hfree hgone

variable (htoken : (t.procs p).token = (s.procs p).token) (hframes : (t.procs p).frames = r.frames)
  (hmem : t.w.mem = r.w.mem)

include htoken hframes hmem

/-- a leaf that stayed is backed as it was -/
theorem backed_grown (hregs : t.regions = s.regions) (hcaps : (t.procs p).caps = (s.procs p).caps) {v : ℕ}
    (hb : Backed A C s p v) (hleaf : t.leaf A p v = s.leaf A p v)
    (hshares : ∀ slot, v ∈ sharePages A slot → (t.procs p).shares slot = (s.procs p).shares slot) : Backed A C t p v := by
  cases hb with
  | own hf ht =>
    refine .own (by rw [hleaf, hframes]; exact listed_grown ha hp hw hf) fun hx => ?_
    rw [hleaf, KState.tables, htoken, hmem] at hx
    rcases hw.tables _ hx with hold | ⟨hfree, -⟩
    · exact ht hold
    · exact (ha.out (Accounted.frame_held hp.1 hf)).2.1 hfree
  | @share slot k i hlt hk hpage hslot hf hall =>
    have hsh := hshares slot ⟨k, hk, hpage⟩
    refine .share hlt hk hpage ?_ (by rw [hleaf, hregs]; exact hf) (by rw [hleaf, hsh, hcaps]; exact hall)
    rw [hsh, regionSlot_congr hregs]
    exact hslot
  | device hpage hdev hal hall =>
    exact .device hpage (by rw [hleaf]; exact hdev) (by rw [hleaf]; exact hal) (by rw [hleaf, hcaps]; exact hall)

/-- **A space grows** by frames listed for its process, if its leaves are backed afterwards. -/
theorem charge (h : Spaced A C m₀ s) (hg : Ground A C F m₀) (hauth : ∀ q, (t.procs q).authority = (s.procs q).authority)
    (hother : ∀ q, q ≠ p → (t.procs q).space = (s.procs q).space) (hregs : t.regions = s.regions)
    (hback : ∀ v, A.Own v → A.fmt.present (t.leaf A p v) = true → Backed A C t p v) : Spaced A C m₀ t := by
  refine h.others ha hp hauth hother hregs (fun a hn hf => ?_) hg ⟨?_, fun a hx => ?_, fun i hi => ?_, hback⟩
  · rw [hmem]
    exact hw.off a hn hf
  · rw [htoken, hmem]
    exact hw.built.tree
  · rw [hframes]
    rw [KState.tables, htoken, hmem] at hx
    exact tables_grown ha hp hw h hx
  · rw [htoken, hmem]
    exact (hw.shared i (by rw [Mmu.window]; omega)).trans ((h.at_ p hp).shared i hi)

omit htoken hframes in
/-- the same where the leaves that did not stay are shown to be backed -/
theorem grow {sh : Table ℕ} (h : Spaced A C m₀ s) (hg : Ground A C F m₀)
    (hprocs : t.procs = s.procs.put p { s.procs p with frames := r.frames, shares := sh }) (hregs : t.regions = s.regions)
    (hleaves : ∀ v, A.Own v → A.fmt.present (t.leaf A p v) = true →
      (t.leaf A p v = s.leaf A p v ∧ ∀ slot, v ∈ sharePages A slot → sh slot = (s.procs p).shares slot) ∨
        Backed A C t p v) : Spaced A C m₀ t := by
  have hproc : t.procs p = { s.procs p with frames := r.frames, shares := sh } := by rw [hprocs, Table.put_self]
  have hother : ∀ q, q ≠ p → t.procs q = s.procs q := fun q hq => by rw [hprocs, Table.put_of_ne _ hq]
  have hauth : ∀ q, (t.procs q).authority = (s.procs q).authority := fun q => by
    by_cases hq : q = p
    · rw [hq, hproc]; rfl
    · rw [hother q hq]
  have htoken : (t.procs p).token = (s.procs p).token := by rw [hproc]
  refine charge ha hp hw htoken (by rw [hproc]) hmem h hg hauth (fun q hq => by rw [hother q hq]) hregs fun v hv hpres => ?_
  rcases hleaves v hv hpres with ⟨he, hsh⟩ | hb
  · refine backed_grown ha hp hw htoken (by rw [hproc]) hmem hregs (by rw [hproc]) ?_ he fun slot hs => ?_
    · exact (h.at_ p hp).backed v hv (he ▸ hpres)
    · rw [hproc]
      exact hsh slot hs
  · exact hb

end Spaced

end Rustproof.Kernel
