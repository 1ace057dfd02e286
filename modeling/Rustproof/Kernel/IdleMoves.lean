/-
What the moves outside DMA leave to the devices.

A page is `Reserved` if it is no frame the kernel gives out and the device window does not show it. User stores, copies,
page-table updates and scrubbing all stay off such pages, and the units' tables are such pages. `Idle` says what a step leaves
as it was of the things a device's reach rests on: the tables, the models, the live regions, and the records and capabilities of
the processes that have mapped something. `Move.unit` sorts the moves into the idle ones and those of `Kernel/Dma`.
-/
import Rustproof.Kernel.FreedFrames
import Rustproof.Kernel.Holders
import Rustproof.Kernel.IoTables

namespace Rustproof.Kernel

open Lib Prog Mm Vspace

variable {A : Arch} {C : Config} {G : Gate} {me : ℕ} {k : Trap} {s t u : KState} {F : Multiset ℕ} {m₀ : Mem} {p a : ℕ}

/-- a page that is no frame the kernel gives out, and that the device window does not show -/
structure Reserved (A : Arch) (C : Config) (F : Multiset ℕ) (a : ℕ) : Prop where
  taken : a ∉ F
  window : ¬Admitted A C a

/-- the domain slots, none of whose tables is the page `DEVICE_BAR` names -/
structure DomainsApart (A : Arch) (C : Config) : Prop extends DomainsOk C where
  bar : ∀ i < MAX_DOMAINS, (C.domainSlots i).l1 ≠ 0 → isDevice A C (C.domainSlots i).l1 = false

theorem PreUserland.domainsApart {s₀ : KState} (h₀ : PreUserland A C s₀) (hbar : BarApart A C s₀) : DomainsApart A C :=
  ⟨h₀.domainsOk, hbar.io⟩

/-- the tables of the units are reserved pages -/
theorem Ground.table (hg : Ground A C F m₀) (hC : DomainsApart A C) {di : ℕ} (hdi : Published C di) :
    Reserved A C F (C.domainSlots di).l1 := by
  refine ⟨(hg.pages _ ?_).1, fun hadm => ?_⟩
  swap
  · rcases hadm with ⟨-, he⟩ | he
    · exact (hC.others di hdi.1 hdi.2).2.2 he
    · exact absurd ((hC.bar di hdi.1 hdi.2).symm.trans he) (by decide)
  have hin := l1_mem_ioPages C hdi.1
  simp only [ioPages, kernelPages, List.mem_cons, List.not_mem_nil, or_false] at hin ⊢
  tauto

/-! ## Stores -/

namespace Spaced

/-- **No leaf names a reserved page.** -/
theorem target_reserved (h : Spaced A C m₀ s) (ha : Accounted F s) (hp : s.Alive p) {v : ℕ} (hv : A.Own v)
    (hpres : A.fmt.present (s.leaf A p v) = true) : ¬Reserved A C F (pageAddr (A.fmt.addr (s.leaf A p v))) := by
  intro hr
  cases (h.at_ p hp).backed v hv hpres with
  | own hf =>
    obtain ⟨hF, -, hal, -⟩ := ha.out (Accounted.frame_held hp.1 hf)
    rw [pageAddr_aligned hal] at hr
    exact hr.taken hF
  | share _ _ _ hslot hf =>
    have hi := (regionSlot_some hslot).2.1
    obtain ⟨hF, -, hal, -⟩ := ha.out (Accounted.region_held hi (List.mem_of_getElem? hf))
    rw [pageAddr_aligned hal] at hr
    exact hr.taken hF
  | device _ hdev hal _ =>
    rw [pageAddr_aligned hal] at hr
    exact hr.window hdev

/-- nor is one a page table -/
theorem tables_reserved (h : Spaced A C m₀ s) (ha : Accounted F s) (hp : s.Alive p) (hr : Reserved A C F a) : a ∉ s.tables A p :=
  fun hx => hr.taken (ha.out (Accounted.frame_held hp.1 ((h.at_ p hp).tables a hx))).1

theorem store_reserved (h : Spaced A C m₀ s) (ha : Accounted F s) (hp : s.Alive p) {va : ℕ} (b : Byte)
    (hv : A.Own (va / PAGE_SIZE)) (hr : Reserved A C F a) : storeUser A (s.procs p).token s.w.mem va b a = s.w.mem a :=
  storeUser_off (h.at_ p hp).tree hv b fun hpres he => h.target_reserved ha hp hv hpres (he ▸ hr)

theorem copied_reserved (h : Spaced A C m₀ s) (hg : Ground A C F m₀) (ha : Accounted F s) (hp : s.Alive p) {dst : ℕ}
    {bytes : List Byte} {m : Mem} (hcopy : copyToUser A s.w.mem (s.procs p).token dst bytes = some m) (hr : Reserved A C F a) :
    m a = s.w.mem a := by
  rw [copyToUser] at hcopy
  split_ifs at hcopy with hmapped
  obtain rfl := Option.some.inj hcopy
  have hptr : userPtrOk A dst bytes.length = true := by
    rw [userRangeMapped, Bool.and_eq_true] at hmapped
    exact hmapped.1
  -- stores stay off the page tables too
  refine storeUserBytes_off (S := {x | ¬Reserved A C F x ∧ x ∉ Fixed A C m₀ s}) bytes (h.at_ p hp).tree (fun x hx hc => ?_)
    (fun k hk => ?_) a fun hc => hc.1 hr
  · exact hc.2 (Or.inr ⟨p, hp, hx⟩)
  · have hv := userPtrOk_own hptr hk
    exact ⟨hv, fun hpres => ⟨h.target_reserved ha hp hv hpres, h.target hg ha hp hv hpres⟩⟩

theorem takeMessage_reserved (h : Spaced A C m₀ s) (hg : Ground A C F m₀) (ha : Accounted F s) (hp : s.Alive p)
    (hr : Reserved A C F a) : (Kernel.takeMessage A p s).w.mem a = s.w.mem a := by
  rw [Kernel.takeMessage]
  split
  · next m hcopy => exact h.copied_reserved hg ha hp hcopy hr
  · rfl

/-! ## Page tables -/

theorem unmaps_reserved (h : Spaced A C m₀ s) (ha : Accounted F s) (hp : s.Alive p) {S : Set ℕ} (hu : Unmaps A p S s t)
    (hr : Reserved A C F a) : t.w.mem a = s.w.mem a :=
  (hu.mem (h.at_ p hp).tree).off a (h.tables_reserved ha hp hr)

theorem unmapRegionFrom_reserved (h : Spaced A C m₀ s) (hg : Ground A C F m₀) (ha : Accounted F s) (hp : s.Alive p) (id : ℕ)
    (hr : Reserved A C F a) : (Kernel.unmapRegionFrom A p id s).2.w.mem a = s.w.mem a := by
  rw [Kernel.unmapRegionFrom, forAny_snd]
  refine (List.foldlRecOn (motive := fun u : KState => u.w.mem a = s.w.mem a ∧ Spaced A C m₀ u ∧ Accounted F u ∧ u.Alive p) _ _
    ⟨rfl, h, ha, hp⟩ fun u hinv slot hslot => ?_).1
  obtain ⟨he, hu, hau, hpu⟩ := hinv
  split_ifs
  · exact ⟨he, hu, hau, hpu⟩
  · have hun := unmaps_emptySlot A u p (List.mem_range.1 hslot)
    exact ⟨(hu.unmaps_reserved hau hpu hun hr).trans he, hu.unmaps hg hau hpu hun, hau.unmaps hun, hpu.1,
      (Process.live_eq (hun.authority p)).trans hpu.2⟩

/-- a space grows by frames that were free -/
theorem grown_reserved (h : Spaced A C m₀ s) (ha : Accounted F s) (hp : s.Alive p) {r : RecordingAlloc}
    (hw : Within (supply A F (heldBut s p)) (A.root (s.procs p).token) (s.allocFor p) r) (hr : Reserved A C F a) :
    r.w.mem a = s.w.mem a :=
  hw.off a (h.tables_reserved ha hp hr) fun hf => hr.taken (ha.account.free_mem hf)

theorem mapRegion_reserved (h : Spaced A C m₀ s) (hg : Ground A C F m₀) (ha : Accounted F s) (hp : s.Alive p) (id : ℕ)
    (rights : CapRights) (hr : Reserved A C F a) : (Kernel.mapRegion A p id rights s).2.w.mem a = s.w.mem a := by
  rw [Kernel.mapRegion]
  cases hslot : s.regionSlot id with
  | none => rfl
  | some idx =>
    simp only
    cases hfind : (firstIdx SHARE_SLOTS fun i => (s.procs p).shares i == id).or
        (firstIdx SHARE_SLOTS fun i => (s.procs p).shares i == 0) with
    | none => rfl
    | some slot =>
      simp only
      have hlt : slot < SHARE_SLOTS := by
        rcases Option.or_eq_some_iff.1 hfind with hf | ⟨-, hf⟩
        · exact (firstIdx_some hf).1
        · exact (firstIdx_some hf).1
      obtain ⟨-, hidx, -, -⟩ := regionSlot_some hslot
      have hun := unmaps_sharePages A s p hlt
      have hu := h.unmaps hg ha hp hun
      have hau := ha.unmaps hun
      have habs : Absent A (s.unmapPages A p (shareVa A slot) REGION_MAX_PAGES).w.mem (A.root (s.procs p).token)
          (sharePages A slot) := absent_of_unmaps (h.at_ p hp).tree hun
      have hcleared := h.unmaps_reserved ha hp hun hr
      set u := s.unmapPages A p (shareVa A slot) REGION_MAX_PAGES
      have hpu : u.Alive p := hp
      set perms := if rights.contains CapRights.WRITE then Perms.USER_RW else Perms.USER_RO
      have hfs : ∀ f ∈ (u.regions idx).frames, f < 2 ^ 52 := fun f hf => (hau.out (Accounted.region_held hidx hf)).2.2.2
      obtain ⟨hgrown, -, -⟩ := mapShare_spec (P := supply A F (heldBut u p)) hlt hfs (hau.small idx)
        List.drop_zero (hu.built hau hpu) (habs.shows hlt _ perms.write)
        fun k _ hk => habs _ (sharePage_own A hlt hk) ⟨k, hk, rfl⟩
      have hmem := (hu.grown_reserved hau hpu hgrown.toWithin hr).trans hcleared
      rcases hm : mapShare A (A.root (u.procs p).token) (shareVa A slot) perms (u.regions idx).frames 0 (u.allocFor p) with
        ⟨_ | _, r⟩
      · rw [hm] at hmem
        exact hmem
      · rw [hm] at hmem
        exact hmem

theorem mapDevice_reserved (h : Spaced A C m₀ s) (hg : Ground A C F m₀) (ha : Accounted F s) (hp : s.Alive p) {phys : ℕ}
    (writable : Bool) (hr : Reserved A C F a) : (Kernel.mapDevice A C p phys DEVICE_PAGES writable s).2.w.mem a = s.w.mem a := by
  rw [Kernel.mapDevice]
  split_ifs with hrefused
  · rfl
  have hdev : Admitted A C phys := not_not.1 (not_or.1 hrefused).1
  have hphys := hdev.lt hg
  have hun := unmaps_unmapPages_device (A := A) s p
  have hu := h.unmaps hg ha hp hun
  have hau := ha.unmaps hun
  have hcleared := h.unmaps_reserved ha hp hun hr
  simp only
  set u := s.unmapPages A p A.userMmioBase DEVICE_PAGES
  have hpu : u.Alive p := hp
  have hspec : Grown (supply A F (heldBut u p)) (A.root (u.procs p).token) (u.allocFor p)
      (mapWindow A (A.root (u.procs p).token) phys ⟨writable, false, true, isDevice A C phys⟩
        (List.range DEVICE_PAGES) (u.allocFor p)).2 ∧ _ := mapWindow_spec hphys (hu.built hau hpu)
  have hmem := (hu.grown_reserved hau hpu hspec.1.toWithin hr).trans hcleared
  rcases hm : mapWindow A (A.root (u.procs p).token) phys ⟨writable, false, true, isDevice A C phys⟩
    (List.range DEVICE_PAGES) (u.allocFor p) with ⟨_ | _, r⟩
  · rw [hm] at hmem
    exact hmem
  · rw [hm] at hmem
    exact hmem

end Spaced

theorem load_reserved (hin : Loader.Inside A C.userElf) (hg : Ground A C F m₀) (ha : Accounted F s) {slot id : ℕ} {role : Role}
    {ok : Bool} (hrun : loadProcess A C slot id role s = .ok (ok, t)) (hr : Reserved A C F a) : t.w.mem a = s.w.mem a := by
  obtain ⟨hdrawn, -⟩ := Spaced.built_space hin hg ha
  have hoff := hdrawn.off a fun hf => hr.taken (ha.account.free_mem hf)
  rcases wp_ok (loadProcess_spec slot id role s) hrun with
    ⟨-, rfl | ⟨r, hb, rfl⟩⟩ | ⟨-, token, entry, r, hb, rfl⟩
  · rfl
  · rw [hb] at hoff
    exact (congrFun (Machine.mem_freeFrames _ _) a).trans hoff
  · rw [hb] at hoff
    exact hoff

/-! ## Idle steps -/

/-- a step that leaves what devices reach, and what that rests on -/
structure Idle (A : Arch) (C : Config) (s t : KState) : Prop where
  tables : ∀ di, Published C di → t.w.mem (C.domainSlots di).l1 = s.w.mem (C.domainSlots di).l1
  domains : t.domains = s.domains
  regions : ∀ i < MAX_REGIONS, (s.regions i).live = true → t.regions i = s.regions i
  /-- who has mapped something stays -/
  stays : A.iommu = true → ∀ p, s.Alive p → (∃ k < SHARE_SLOTS, ((s.procs p).dma k).1 ≠ 0) → t.Alive p
  records : ∀ p, t.Alive p → s.Alive p → (t.procs p).dma = (s.procs p).dma
  caps : ∀ p, t.Alive p → s.Alive p → ∀ i c, (s.procs p).caps.lookup i = some c → (t.procs p).caps.lookup i = some c
  fresh : ∀ p, t.Alive p → ¬s.Alive p → ∀ k, (t.procs p).dma k = (0, 0)

namespace Idle

/-- a second step in which nobody comes or goes -/
theorem trans (h : Idle A C s t) (h' : Idle A C t u) (halive : ∀ p, u.Alive p ↔ t.Alive p) : Idle A C s u := by
  refine ⟨fun di hdi => (h'.tables di hdi).trans (h.tables di hdi), h'.domains.trans h.domains, fun i hi hl => ?_,
    fun hio p hp hk => (halive p).2 (h.stays hio p hp hk), fun p hpu hp => ?_, fun p hpu hp i c hc => ?_, fun p hpu hp k => ?_⟩
  · have hti := h.regions i hi hl
    exact (h'.regions i hi (by rw [hti]; exact hl)).trans hti
  · have hpt := (halive p).1 hpu
    exact (h'.records p hpu hpt).trans (h.records p hpt hp)
  · have hpt := (halive p).1 hpu
    exact h'.caps p hpu hpt i c (h.caps p hpt hp i c hc)
  · have hpt := (halive p).1 hpu
    rw [h'.records p hpu hpt]
    exact h.fresh p hpt hp k

/-- no process changes but in its registers, its memory and its rendezvous -/
theorem of_authority (hauth : ∀ p, (t.procs p).authority = (s.procs p).authority) (hdma : ∀ p, (t.procs p).dma = (s.procs p).dma)
    (htables : ∀ di, Published C di → t.w.mem (C.domainSlots di).l1 = s.w.mem (C.domainSlots di).l1)
    (hdomains : t.domains = s.domains) (hregions : t.regions = s.regions) : Idle A C s t := by
  have halive : ∀ p, t.Alive p ↔ s.Alive p := fun p => by
    rw [KState.Alive, KState.Alive, KState.live, KState.live, Process.live_eq (hauth p)]
  exact ⟨htables, hdomains, fun _ _ _ => by rw [hregions], fun _ p hp _ => (halive p).2 hp, fun p _ _ => hdma p,
    fun p _ _ i c hc => by rw [Process.caps_eq (hauth p)]; exact hc, fun p hp hn => absurd ((halive p).1 hp) hn⟩

end Idle

theorem Quiet.idle (h : Quiet s t) : Idle A C s t :=
  .of_authority h.authority h.dma (fun _ _ => by rw [h.mem]) h.domains h.regions

/-- memory changes off the reserved pages -/
theorem idle_setMem {m : Mem} (hC : DomainsApart A C) (hg : Ground A C F m₀) (hm : ∀ a, Reserved A C F a → m a = s.w.mem a) :
    Idle A C s (s.setMem m) :=
  .of_authority (fun _ => rfl) (fun _ => rfl) (fun _ hdi => hm _ (hg.table hC hdi)) rfl rfl

theorem SpaceOnly.idle (h : SpaceOnly s p t) (hC : DomainsApart A C) (hg : Ground A C F m₀)
    (hm : ∀ a, Reserved A C F a → t.w.mem a = s.w.mem a) : Idle A C s t :=
  .of_authority h.authority h.dma (fun _ hdi => hm _ (hg.table hC hdi)) h.domains h.regions

theorem idle_takeMessage (h : Spaced A C m₀ s) (hC : DomainsApart A C) (hg : Ground A C F m₀) (ha : Accounted F s)
    (hp : s.Alive p) :
    Idle A C s (takeMessage A p s) := by
  have hdma : ∀ q, ((takeMessage A p s).procs q).dma = (s.procs q).dma := by
    intro q
    obtain ⟨⟨f, hf⟩, -⟩ := takeMessage_spec (A := A) p s
    rw [hf, Table.put_apply]
    split_ifs with hq
    · rw [hq]
    · rfl
  refine .of_authority (calm_takeMessage p s).authority hdma (fun di hdi => ?_) ?_ (calm_takeMessage p s).regions
  · exact h.takeMessage_reserved hg ha hp (hg.table hC hdi)
  · rw [takeMessage]
    split <;> rfl

/-- **A region is made** in an empty slot, of frames that were free. -/
theorem idle_make (hC : DomainsApart A C) (hg : Ground A C F m₀) (ha : Accounted F s) {pages v : ℕ} {rights : CapRights}
    (hrun : makeRegion p pages rights s = .ok (v, t)) : Idle A C s t := by
  have hnil : Account F s.w.fa (([] : List ℕ) + held s) := ha.account.congr (zero_add _).symm
  have hoff : ∀ di, Published C di → (takeDmaFrames pages [] s.w).2.mem (C.domainSlots di).l1 = s.w.mem (C.domainSlots di).l1 :=
    fun di hdi => takeDmaFrames_off pages [] hnil fun hf => (hg.table hC hdi).taken (ha.account.free_mem hf)
  rcases wp_ok (makeRegion_spec p pages rights s) hrun with
    ⟨-, rfl | ⟨w, hw, rfl⟩ | ⟨frames, w, hw, rfl⟩⟩ | ⟨idx, frames, w, cap, caps, hidx, hw, hins, -, rfl⟩
  · exact .of_authority (fun _ => rfl) (fun _ => rfl) (fun _ _ => rfl) rfl rfl
  · rw [hw] at hoff
    exact .of_authority (fun _ => rfl) (fun _ => rfl) hoff rfl rfl
  · rw [hw] at hoff
    refine .of_authority (fun _ => rfl) (fun _ => rfl) (fun di hdi => ?_) rfl rfl
    exact (congrFun (Machine.mem_freeFrames _ _) _).trans (hoff di hdi)
  rw [hw] at hoff
  obtain ⟨-, -, hnone, -, -, -, hold⟩ := Capabilities.CapSpace.insert_some hins
  have hdead := (firstIdx_some hidx).2.1
  set u := ({ s.modProc p (fun q => { q with caps := caps }) with
    w := w
    nextRegionId := s.nextRegionId + 1
    regions := s.regions.put idx ⟨true, s.nextRegionId, (s.procs p).id, frames⟩ } : KState).record
      (.minted p cap s.nextRegionId rights)
  have hproc : ∀ q, u.procs q = if q = p then { s.procs p with caps := caps } else s.procs q := fun q => Table.put_apply _ _ _ _
  have hlive : ∀ q, u.Alive q ↔ s.Alive q := by
    intro q
    rw [KState.Alive, KState.Alive, KState.live, KState.live, hproc]
    split_ifs with hq
    · rw [hq]
      rfl
    · rfl
  refine ⟨hoff, rfl, fun i _ hl => Table.put_of_ne _ (fun he => ?_) _, fun _ q hq _ => (hlive q).2 hq, fun q _ _ => ?_,
    fun q _ _ i c hc => ?_, fun q hq hn => absurd ((hlive q).1 hq) hn⟩
  · rw [← he, hl] at hdead
    exact absurd hdead (by decide)
  · rw [hproc]
    split_ifs with hq
    · rw [hq]
    · rfl
  · rw [hproc]
    split_ifs with hq
    · rw [hq] at hc
      show caps.lookup i = some c
      rw [hold i fun he => ?_]
      · exact hc
      · rw [he, hnone] at hc
        exact absurd hc (by simp)
    · exact hc

/-- a process goes that has mapped nothing -/
theorem idle_reap (hdma : A.iommu = true → ∀ k < SHARE_SLOTS, ((s.procs p).dma k).1 = 0) :
    Idle A C s (refusePeers A (reap p s)) := by
  have hother : ∀ q, (Kernel.reap p s).Alive q → (Kernel.reap p s).procs q = s.procs q := by
    intro q hq
    rw [procs_reap]
    refine Table.put_of_ne _ (fun he => ?_) _
    have hl := hq.2
    rw [KState.live, procs_reap, he, Table.put_self] at hl
    exact absurd hl (by simp [Process.live])
  have hlive : ∀ q, (Kernel.reap p s).Alive q → s.Alive q := fun q hq => by
    have he := hother q hq
    exact ⟨hq.1, by rw [KState.live, ← he]; exact hq.2⟩
  have hr : Idle A C s (Kernel.reap p s) := by
    refine ⟨fun di _ => congrFun (Machine.mem_freeFrames _ _) _, rfl, fun _ _ _ => rfl, fun hio q hq hk => ?_,
      fun q hq _ => by rw [hother q hq], fun q hq _ i c hc => by rw [hother q hq]; exact hc,
      fun q hq hn => absurd (hlive q hq) hn⟩
    have hne : q ≠ p := by
      rintro rfl
      obtain ⟨k, hk, h0⟩ := hk
      exact h0 (hdma hio k hk)
    refine ⟨hq.1, ?_⟩
    rw [KState.live, procs_reap, Table.put_of_ne _ hne]
    exact hq.2
  have hquiet := quiet_refusePeers (A := A) (Kernel.reap p s)
  have halive : ∀ q, (refusePeers A (Kernel.reap p s)).Alive q ↔ (Kernel.reap p s).Alive q := fun q => by
    rw [KState.Alive, KState.Alive, KState.live, KState.live, Process.live_eq (hquiet.authority q)]
  exact hr.trans hquiet.idle halive

/-- a process comes to an empty slot, with no mapping -/
theorem idle_load (hC : DomainsApart A C) (hin : Loader.Inside A C.userElf) (hg : Ground A C F m₀) (ha : Accounted F s)
    {slot id : ℕ} {role : Role} {ok : Bool} (hfree : s.live slot = false) (hrun : loadProcess A C slot id role s = .ok (ok, t)) :
    Idle A C s t := by
  have hmem : ∀ di, Published C di → t.w.mem (C.domainSlots di).l1 = s.w.mem (C.domainSlots di).l1 := fun di hdi =>
    load_reserved hin hg ha hrun (hg.table hC hdi)
  rcases wp_ok (loadProcess_spec slot id role s) hrun with
    ⟨-, rfl | ⟨r, -, rfl⟩⟩ | ⟨-, token, entry, r, -, rfl⟩
  · exact .of_authority (fun _ => rfl) (fun _ => rfl) hmem rfl rfl
  · exact .of_authority (fun _ => rfl) (fun _ => rfl) hmem rfl rfl
  generalize hfresh : freshProcess A C (s.procs slot) token entry id role r.frames = q₀
  have hq₀ : q₀.dma = fun _ => (0, 0) := by rw [← hfresh]; rfl
  set u : KState :=
    ({ s with w := r.w }.modProc slot fun p => freshProcess A C p token entry id role r.frames).record (.loaded slot)
  have hself : u.procs slot = q₀ := by
    rw [← hfresh, KState.record_procs, KState.modProc_procs, Table.put_self]
  have hother : ∀ q, q ≠ slot → u.procs q = s.procs q := fun q hq => by
    rw [KState.record_procs, KState.modProc_procs, Table.put_of_ne _ hq]
  have hne : ∀ q, s.Alive q → q ≠ slot := by
    rintro q hq rfl
    exact absurd (hq.2.symm.trans hfree) (by decide)
  refine ⟨hmem, rfl, fun _ _ _ => rfl, fun _ q hq _ => ⟨hq.1, ?_⟩, fun q _ hq => by rw [hother q (hne q hq)],
    fun q _ hq i c hc => by rw [hother q (hne q hq)]; exact hc, fun q hqu hq k => ?_⟩
  · rw [KState.live, hother q (hne q hq)]
    exact hq.2
  · have hqs : q = slot := by
      by_contra hc
      refine hq ⟨hqu.1, ?_⟩
      rw [KState.live, ← hother q hc]
      exact hqu.2
    rw [hqs, hself, hq₀]

theorem alive_handOver (slot arg childId : ℕ) (c : Capabilities.CapSlot) (s : KState) (q : ℕ) :
    (handOver me slot arg childId c s).Alive q ↔ s.Alive q := by
  rw [handOver]
  cases (s.procs slot).caps.insert c.capType c.rights c.object with
  | none => rfl
  | some out =>
    show q < MAX_PROCS ∧ ((s.procs.put slot { s.procs slot with caps := out.2 }) q).live = true ↔ _
    rw [Table.put_apply]
    split_ifs with hq
    · rw [hq]
      rfl
    · rfl

theorem idle_handOver (slot arg childId : ℕ) (c : Capabilities.CapSlot) (s : KState) :
    Idle A C s (handOver me slot arg childId c s) := by
  have halive : ∀ q, (handOver me slot arg childId c s).Alive q ↔ s.Alive q := alive_handOver slot arg childId c s
  rw [handOver] at halive ⊢
  cases hins : (s.procs slot).caps.insert c.capType c.rights c.object with
  | none => exact .of_authority (fun _ => rfl) (fun _ => rfl) (fun _ _ => rfl) rfl rfl
  | some out =>
    obtain ⟨idx, caps⟩ := out
    obtain ⟨-, -, hnone, -, -, -, hold⟩ := Capabilities.CapSpace.insert_some hins
    rw [hins] at halive
    have hproc : ∀ q, (s.procs.put slot { s.procs slot with caps := caps }) q =
        if q = slot then { s.procs slot with caps := caps } else s.procs q := fun q => Table.put_apply _ _ _ _
    refine ⟨fun _ _ => rfl, rfl, fun _ _ _ => rfl, fun _ q hq _ => (halive q).2 hq, fun q _ _ => ?_, fun q _ _ i b hb => ?_,
      fun q hq hn => absurd ((halive q).1 hq) hn⟩
    · show ((s.procs.put slot { s.procs slot with caps := caps }) q).dma = _
      rw [hproc]
      split_ifs with hq
      · rw [hq]
      · rfl
    · show ((s.procs.put slot { s.procs slot with caps := caps }) q).caps.lookup i = some b
      rw [hproc]
      split_ifs with hq
      · rw [hq] at hb
        show caps.lookup i = some b
        rw [hold i fun he => ?_]
        · exact hb
        · rw [he, hnone] at hb
          exact absurd hb (by simp)
      · exact hb

/-! ## The moves -/

/-- what a move is to the units: idle, or one of the DMA paths -/
inductive UnitStep (A : Arch) (C : Config) (G : Gate) (F : Multiset ℕ) (me : ℕ) (s t : KState) : Prop where
  | idle : Idle A C s t → Sparing F s t → UnitStep A C G F me s t
  | mapDma {domain region : ℕ} {rights : CapRights} {f : UserFrame} : s.Alive me → A.iommu = true →
      dmaCaps A (s.procs me).caps f = some (domain, region, rights) → G.mapDma s me domain region rights →
      (mapDma C me domain region rights s).2 = t → UnitStep A C G F me s t
  | unmapDma {domain region v : ℕ} : s.Alive me → unmapDma C me domain region s = .ok (v, t) → UnitStep A C G F me s t
  | withdrawAll : s.Alive me → withdrawAllDmaOf C me s = .ok ((), t) → UnitStep A C G F me s t
  | retire {region i : ℕ} : s.regionSlot region = some i → releaseRegion A C region (forgetCaps region s) = .ok ((), t) →
      UnitStep A C G F me s t
  | revoke {cap : ℕ} : revokeDelegations A C me cap s = .ok ((), t) → UnitStep A C G F me s t

/-- **The moves outside DMA are idle.** -/
theorem Move.unit (hm : Move A C G me k s t) (h : Sound A C F m₀ s) (hC : DomainsApart A C) (hin : Loader.Inside A C.userElf)
    (hg : Ground A C F m₀) : UnitStep A C G F me s t := by
  obtain ⟨hs, ha, -⟩ := h
  cases hm with
  | control hc => exact .idle hc.quiet.idle hc.quiet.sparing
  | receive hp => exact .idle (idle_takeMessage hs hC hg ha hp) (.same (takeMessage_spec (A := A) _ s).2.2.2.2.2)
  | store hp hv => exact .idle (idle_setMem hC hg fun a hr => hs.store_reserved ha hp _ hv hr) (.same rfl)
  | copy hp hcopy => exact .idle (idle_setMem hC hg fun a hr => hs.copied_reserved hg ha hp hcopy hr) (.same rfl)
  | mapRegion hp =>
    exact .idle ((spaceOnly_mapRegion A s me _ _).idle hC hg fun a hr => hs.mapRegion_reserved hg ha hp _ _ hr)
      (sparing_mapRegion ha hp.1 _ _)
  | mapDevice hp hcur =>
    exact .idle ((spaceOnly_mapDevice A C s hcur _ _ _).idle hC hg fun a hr => hs.mapDevice_reserved hg ha hp _ hr)
      (sparing_mapDevice ha hp.1 _ _)
  | unmapDevice hp =>
    exact .idle ((spaceOnly_unmapDeviceWindow A s me).idle hC hg fun a hr =>
      hs.unmaps_reserved ha hp (unmaps_deviceWindow A s me) hr) (.same rfl)
  | unmapRegion hp =>
    exact .idle ((spaceOnly_unmapRegionFrom A s me _).idle hC hg fun a hr => hs.unmapRegionFrom_reserved hg ha hp _ hr)
      (.same (history_unmapRegionFrom me _ s))
  | unmapShare hp hslot =>
    obtain ⟨⟨S, hS⟩, -⟩ := unmaps_shareSlot A s _ hslot
    exact .idle ((spaceOnly_unmapShareSlot A s _ _).idle hC hg fun a hr => hs.unmaps_reserved ha hp hS hr)
      (.same (history_unmapShareSlot _ _ s))
  | make _ _ _ _ _ hrun => exact .idle (idle_make hC hg ha hrun) (sparing_make ha hrun)
  | mapDma hp hio hcaps hgate => exact .mapDma hp hio hcaps hgate rfl
  | unmapDma hp _ hrun => exact .unmapDma hp hrun
  | withdrawAll hp _ hrun => exact .withdrawAll hp hrun
  | retire _ hsl _ _ hrun => exact .retire hsl hrun
  | revoke _ _ _ hrun => exact .revoke hrun
  | reap hp _ _ hdma => exact .idle (idle_reap hdma) (sparing_reap ha hp.1)
  | loadFailed _ _ hfree hrun => exact .idle (idle_load hC hin hg ha hfree hrun) (sparing_load ha hrun)
  | boot _ _ hfree hrun =>
    refine .idle ((idle_load hC hin hg ha hfree hrun).trans ?_ fun _ => Iff.rfl) ((sparing_load ha hrun).record rfl (by simp))
    exact .of_authority (fun _ => rfl) (fun _ => rfl) (fun _ _ => rfl) rfl rfl
  | @spawn u slot arg requested childId cap _ _ _ _ hfree _ _ hrun =>
    have hu : Idle A C s u := idle_load hC hin hg ha hfree hrun
    have hcame : Idle A C s (cap.elim u fun c => handOver me slot arg childId c u) := by
      cases cap with
      | none => exact hu
      | some c => exact hu.trans (idle_handOver slot arg childId c u) fun q => alive_handOver slot arg childId c u q
    have hspare : Sparing F s (cap.elim u fun c => handOver me slot arg childId c u) := by
      cases cap with
      | none => exact sparing_load ha hrun
      | some c => exact (sparing_load ha hrun).trans (sparing_handOver slot arg childId c u) hu.regions
    refine .idle (hcame.trans ?_ fun _ => Iff.rfl) (hspare.record rfl (by simp))
    exact .of_authority (fun _ => rfl) (fun _ => rfl) (fun _ _ => rfl) rfl rfl

end Rustproof.Kernel
