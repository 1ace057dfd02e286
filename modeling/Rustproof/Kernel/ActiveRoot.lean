/-
The page tables the CPU walks.

`walked m root` is the whole tree the hardware walks under `root`: the tables of a process's own part of the space and the
kernel's, which its root shares. A moment at which the allocator hands out a frame is `Safe` if no table of the tree under
the paging base of that moment is free. `EXIT` and a fatal fault free the tables they run on, so this is no invariant of
the states of a run; it holds whenever a frame is handed out, since only calls of a live process allocate, on its own tree.
- `active_root_kept`: in a run of userland every frame is handed out at a safe moment.
-/
import Rustproof.Kernel.MapBar

namespace Rustproof.Kernel

open Lib Prog Mm Vspace

variable {A : Arch} {C : Config} {G : Gate} {me : ℕ} {k : Trap} {s t : KState} {F : Multiset ℕ} {m₀ : Mem} {p : ℕ}

/-! ## The tree the CPU walks -/

/-- the page tables the hardware reaches from `root`, whichever entry of it a walk starts with -/
def walked (A : Arch) (m : Mem) (root : ℕ) : Set ℕ := RadixTree.tables A.fmt A.depth (fun _ => True) m root

/-- no page table of the active tree is free -/
def Safe (A : Arch) (x : Moment) : Prop := ∀ t ∈ walked A x.mem (A.root x.cr3), t ∉ freeAddrs x.fa

/-- with the kernel's root entries, a walk goes through a table of the space or one of the kernel's -/
theorem walked_parts {m : Mem} {root : ℕ} (hk : ∀ a ∈ kernelTables A C m₀, m a = m₀ a)
    (hshared : ∀ i < A.kernelEntries, m root i = m₀ (A.root C.ktoken) i) {t : ℕ} (ht : t ∈ walked A m root) :
    t ∈ A.tables m root ∨ t ∈ kernelTables A C m₀ := by
  obtain ⟨path, hvalid, hpath⟩ := ht
  -- along the path, the innermost index first: below a kernel entry of the root the walk is the kernel's
  have hparts : RadixTree.Valid A.depth A.window path ∨ path ≠ [] ∧
      RadixTree.Valid A.depth (fun i => i < A.kernelEntries) path ∧
        RadixTree.tableAt A.fmt m₀ (A.root C.ktoken) path = some t := by
    induction path generalizing t with
    | nil => exact Or.inl (RadixTree.Valid.nil _ _)
    | cons i path ih =>
      obtain ⟨u, hu, hfollow⟩ := Option.bind_eq_some_iff.1 hpath
      rcases ih hvalid.tail hu with hv | ⟨hne, hv, hku⟩
      · cases path with
        | nil =>
          obtain rfl := Option.some.inj hu
          by_cases hi : i < A.kernelEntries
          · right
            refine ⟨by simp, ⟨hvalid.short, hvalid.bounded, fun j hj => ?_⟩, ?_⟩
            · obtain rfl : i = j := by simpa using hj
              exact hi
            · rw [hshared i hi] at hfollow
              exact hfollow
          · left
            refine ⟨hvalid.short, hvalid.bounded, fun j hj => ?_⟩
            obtain rfl : i = j := by simpa using hj
            simpa [Mmu.window] using hi
        | cons j path => exact Or.inl ⟨hvalid.short, hvalid.bounded, fun l hl => hv.enters l (by simpa using hl)⟩
      · right
        refine ⟨by simp, ⟨hvalid.short, hvalid.bounded, fun j hj => hv.enters j ?_⟩, ?_⟩
        · obtain ⟨l, path, rfl⟩ := List.exists_cons_of_ne_nil hne
          simpa using hj
        · rw [hk u (RadixTree.mem_tables hv hku)] at hfollow
          exact Option.bind_eq_some_iff.2 ⟨u, hku, hfollow⟩
  rcases hparts with hv | ⟨-, hv, hkt⟩
  · exact Or.inl (RadixTree.mem_tables hv hpath)
  · exact Or.inr (RadixTree.mem_tables hv hkt)

/-- the space under `root` is nothing that may still be handed out, and the rest of its tree is the kernel's -/
structure Rooted (A : Arch) (C : Config) (F : Multiset ℕ) (m₀ : Mem) (w : Machine) (root : ℕ) : Prop where
  kernel : ∀ a ∈ kernelTables A C m₀, w.mem a = m₀ a
  shared : ∀ i < A.kernelEntries, w.mem root i = m₀ (A.root C.ktoken) i
  apart : ∀ a ∈ A.tables w.mem root, a ∉ freeAddrs w.fa
  free : ∀ a ∈ freeAddrs w.fa, a ∈ F

namespace Rooted

variable {w w' : Machine} {root : ℕ}

theorem safe (h : Rooted A C F m₀ w (A.root w.cr3)) (hg : Ground A C F m₀) : Safe A ⟨w.mem, w.fa, w.cr3⟩ := by
  intro a ha
  rcases walked_parts h.kernel h.shared ha with hown | hkernel
  · exact h.apart a hown
  · exact fun hf => (hg.tables a hkernel).1 (h.free a hf)

/-- what was free at the start may be used up and written to -/
theorem off (h : Rooted A C F m₀ w root) (hg : Ground A C F m₀) (hfree : ∀ a ∈ freeAddrs w'.fa, a ∈ freeAddrs w.fa)
    (hmem : ∀ a, a ∉ freeAddrs w.fa → w'.mem a = w.mem a) : Rooted A C F m₀ w' root := by
  have htables : ∀ a ∈ A.tables w.mem root, w'.mem a = w.mem a := fun a ha => hmem a (h.apart a ha)
  have hsame : A.tables w'.mem root = A.tables w.mem root := RadixTree.tables_congr htables
  refine ⟨fun a ha => ?_, fun i hi => ?_, fun a ha hf => ?_, fun a ha => h.free a (hfree a ha)⟩
  · rw [hmem a fun hf => (hg.tables a ha).1 (h.free a hf)]
    exact h.kernel a ha
  · rw [htables root (RadixTree.root_mem_tables _ _)]
    exact h.shared i hi
  · rw [hsame] at ha
    exact h.apart a ha (hfree a hf)

/-- the space itself may grow -/
theorem within {rest : Multiset ℕ} {r u : RecordingAlloc} (h : Rooted A C F m₀ r.w root) (hg : Ground A C F m₀)
    (hlisted : ∀ a ∈ A.tables r.w.mem root, a ∈ F) (hu : Within (supply A F rest) root r u) : Rooted A C F m₀ u.w root := by
  refine ⟨fun a ha => ?_, fun i hi => ?_, hu.built.apart, fun a ha => h.free a (hu.free ha)⟩
  · have hF := (hg.tables a ha).1
    have hsame : u.w.mem a = r.w.mem a := hu.off a (fun hc => hF (hlisted a hc)) fun hf => hF (h.free a hf)
    rw [hsame]
    exact h.kernel a ha
  · have hsame : u.w.mem root i = r.w.mem root i := hu.shared i (by simpa [Mmu.window] using hi)
    rw [hsame]
    exact h.shared i hi

end Rooted

/-- the active tree of a live process -/
theorem Spaced.rooted (h : Spaced A C m₀ s) (ha : Accounted F s) (hp : s.Alive p) :
    Rooted A C F m₀ s.w (A.root (s.procs p).token) := by
  refine ⟨h.kernel, (h.at_ p hp).shared, fun a hx => ?_, fun a hx => ha.account.free_mem hx⟩
  exact (ha.out (Accounted.frame_held hp.1 ((h.at_ p hp).tables a hx))).2.1

/-! ## What was handed out -/

/-- every frame handed out between `w` and `w'` was handed out at a safe moment -/
def Handed (A : Arch) (w w' : Machine) : Prop := ∃ new, w'.handouts = w.handouts ++ new ∧ ∀ x ∈ new, Safe A x

namespace Handed

variable {w w' w'' : Machine}

theorem same (h : w'.handouts = w.handouts) : Handed A w w' :=
  ⟨[], by rw [h, List.append_nil], fun x hx => absurd hx List.not_mem_nil⟩

theorem trans (h : Handed A w w') (h' : Handed A w' w'') : Handed A w w'' := by
  obtain ⟨xs, hxs, hsafe⟩ := h
  obtain ⟨ys, hys, hsafe'⟩ := h'
  refine ⟨xs ++ ys, by rw [hys, hxs, List.append_assoc], fun x hx => ?_⟩
  rcases List.mem_append.1 hx with hx | hx
  · exact hsafe x hx
  · exact hsafe' x hx

/-- a frame is handed out now -/
theorem one (h : Safe A ⟨w.mem, w.fa, w.cr3⟩) (hw : w'.handouts = w.handOut.handouts) : Handed A w w' := by
  refine ⟨[⟨w.mem, w.fa, w.cr3⟩], hw, fun x hx => ?_⟩
  rw [List.mem_singleton.1 hx]
  exact h

/-- an allocation on a process's account, handed back if the list is full -/
theorem alloc {r : RecordingAlloc} (h : Safe A ⟨r.w.mem, r.w.fa, r.w.cr3⟩) :
    Handed A r.w r.allocFrame.2.w ∧ r.allocFrame.2.w.cr3 = r.w.cr3 := by
  rw [RecordingAlloc.allocFrame]
  rcases r.w.fa.allocFrame with ⟨_ | q, fa⟩
  · exact ⟨same rfl, rfl⟩
  · simp only
    split_ifs
    · exact ⟨one h rfl, rfl⟩
    · exact ⟨one h rfl, rfl⟩

/-- frames of the arena, on the active tree of a live process -/
theorem takeDmaFrames (hg : Ground A C F m₀) (n : ℕ) (got : List ℕ) {H : Multiset ℕ} (hw : Account F w.fa (got + H))
    (h : Rooted A C F m₀ w (A.root w.cr3)) :
    Handed A w (takeDmaFrames n got w).2 ∧ (takeDmaFrames n got w).2.cr3 = w.cr3 := by
  induction n generalizing got w with
  | zero => exact ⟨same rfl, rfl⟩
  | succ n ih =>
    rw [Kernel.takeDmaFrames]
    rcases hal : w.fa.allocDmaFrame with ⟨_ | frame, fa⟩
    · exact ⟨same (Machine.handouts_freeFrames _ _), Machine.cr3_freeFrames _ _⟩
    · obtain ⟨hfree, hsome⟩ := hw.allocDmaFrame (p := frame) (by rw [hal])
      rw [hal] at hsome
      have hgot : Account F fa ((got ++ [frame] : List ℕ) + H) := hsome.enlist
      set u : Machine := ({ w.handOut with fa := fa } : Machine).zeroFrame frame
      have hu : Rooted A C F m₀ u (A.root u.cr3) := by
        refine h.off hg (fun a ha => hw.free_taken hsome ha) fun a ha => ?_
        have hne : a ≠ frame := fun e => ha (e ▸ hfree)
        exact RadixTree.Store.fill_of_ne _ hne 0
      obtain ⟨hh, hc⟩ := ih (got ++ [frame]) hgot hu
      exact ⟨(one (h.safe hg) rfl).trans hh, hc⟩

end Handed

/-! ## Steps that hand out nothing -/

theorem handouts_unmapRegionFrom (p id : ℕ) (s : KState) : (unmapRegionFrom A p id s).2.w.handouts = s.w.handouts := by
  rw [unmapRegionFrom, forAny_snd]
  refine List.foldlRecOn (motive := fun u : KState => u.w.handouts = s.w.handouts) _ _ rfl fun u hu slot hslot => ?_
  split_ifs
  · exact hu
  · exact (unmaps_emptySlot A u p (List.mem_range.1 hslot)).handouts.trans hu

theorem handouts_retire {region i : ℕ} (hsl : s.regionSlot region = some i)
    (hrun : releaseRegion A C region (forgetCaps region s) = .ok ((), t)) : t.w.handouts = s.w.handouts := by
  have hcaps := capsOnly_forgetCaps region s
  have hsl' : (forgetCaps region s).regionSlot region = some i := by
    rw [regionSlot_congr hcaps.regions]; exact hsl
  obtain ⟨u, hdma, -, rfl⟩ := wp_ok (releaseRegion_spec (A := A) (C := C) hsl') hrun
  calc (freeRegion i u).w.handouts = u.w.handouts := Machine.handouts_freeFrames _ _
    _ = (forgetCaps region s).w.handouts := hdma.handouts
    _ = s.w.handouts := by rw [hcaps.w]

theorem handouts_revoke {cap : ℕ} (hrun : revokeDelegations A C me cap s = .ok ((), t)) : t.w.handouts = s.w.handouts := by
  refine wp_ok (wp_revoke (I := fun u : KState => u.w.handouts = s.w.handouts) (E := (· = .ringFull)) rfl
    fun d _ u hu => ?_) hrun
  refine wp_mono (strip_parts d u) fun _ v hv => ?_
  rcases hv with rfl | ⟨-, -, v, hdma, rfl⟩
  · exact hu
  obtain ⟨S, hS, -⟩ := unmaps_detach (A := A) (u.modProc d.proc fun p => { p with caps := p.caps.revoke d.cap }) d.proc
  calc (settle A d.proc v).w.handouts = v.w.handouts := (quiet_settle d.proc v).handouts
    _ = (bereave A d u).w.handouts := hdma.handouts
    _ = u.w.handouts := hS.handouts
    _ = s.w.handouts := hu

theorem handouts_reap (s : KState) : (refusePeers A (reap me s)).w.handouts = s.w.handouts := by
  rw [(quiet_refusePeers (A := A) (reap me s)).handouts]
  exact Machine.handouts_freeFrames _ _

theorem handouts_handOver (slot arg childId : ℕ) (c : Capabilities.CapSlot) (s : KState) :
    (handOver me slot arg childId c s).w.handouts = s.w.handouts := by
  rw [handOver]
  split
  · rfl
  · rfl

/-! ## Steps that hand out frames -/

namespace Spaced

variable (h : Spaced A C m₀ s) (hg : Ground A C F m₀) (ha : Accounted F s) (hp : s.Alive p)
  (hcr3 : s.cr3 = (s.procs p).token)

include h hg ha hp hcr3

/-- the space of the running process grows -/
theorem handed_grown {r : RecordingAlloc}
    (hgrown : Grown (supply A F (heldBut s p)) (A.root (s.procs p).token) (s.allocFor p) r) : Handed A s.w r.w := by
  have hroot : A.root s.w.cr3 = A.root (s.procs p).token := congrArg A.root hcr3
  have hlisted : ∀ a ∈ A.tables s.w.mem (A.root (s.procs p).token), a ∈ F := fun a hx =>
    (ha.out (Accounted.frame_held hp.1 ((h.at_ p hp).tables a hx))).1
  have hlog : r.w.cr3 = s.w.cr3 ∧ Handed A s.w r.w := by
    refine hgrown.log (fun u => u.w.cr3 = s.w.cr3 ∧ Handed A s.w u.w) (fun u hu hT => ?_) (fun u m hT => ?_) ⟨rfl, .same rfl⟩
    · have hrooted : Rooted A C F m₀ u.w (A.root u.w.cr3) := by
        rw [hT.1, hroot]
        exact (h.rooted ha hp).within hg hlisted hu
      obtain ⟨h1, h2⟩ := Handed.alloc (hrooted.safe hg)
      exact ⟨h2.trans hT.1, hT.2.trans h1⟩
    · exact ⟨hT.1, hT.2.trans (.same rfl)⟩
  exact hlog.2

/-- another space is built -/
theorem handed_drawn {rest : Multiset ℕ} {r : RecordingAlloc} (hdrawn : Drawn (supply A F rest) ⟨s.w, []⟩ r) :
    Handed A s.w r.w := by
  have hrooted : Rooted A C F m₀ s.w (A.root s.w.cr3) := by
    rw [show s.w.cr3 = (s.procs p).token from hcr3]
    exact h.rooted ha hp
  have hlog : r.w.cr3 = s.w.cr3 ∧ Handed A s.w r.w := by
    refine hdrawn.log (fun u => u.w.cr3 = s.w.cr3 ∧ Handed A s.w u.w) (fun u _ hfree hoff hT => ?_) (fun u m hT => ?_)
      ⟨rfl, .same rfl⟩
    · have hu : Rooted A C F m₀ u.w (A.root u.w.cr3) := by
        rw [hT.1]
        exact hrooted.off hg hfree hoff
      obtain ⟨h1, h2⟩ := Handed.alloc (hu.safe hg)
      exact ⟨h2.trans hT.1, hT.2.trans h1⟩
    · exact ⟨hT.1, hT.2.trans (.same rfl)⟩
  exact hlog.2

theorem handed_mapRegion (id : ℕ) (rights : CapRights) : Handed A s.w (Kernel.mapRegion A p id rights s).2.w := by
  rw [Kernel.mapRegion]
  cases hslot : s.regionSlot id with
  | none => exact .same rfl
  | some idx =>
    simp only
    cases hfind : (firstIdx SHARE_SLOTS fun i => (s.procs p).shares i == id).or
        (firstIdx SHARE_SLOTS fun i => (s.procs p).shares i == 0) with
    | none => exact .same rfl
    | some slot =>
      simp only
      have hlt : slot < SHARE_SLOTS := by
        rcases Option.or_eq_some_iff.1 hfind with hf | ⟨-, hf⟩
        · exact (firstIdx_some hf).1
        · exact (firstIdx_some hf).1
      obtain ⟨-, hidx, -, -⟩ := regionSlot_some hslot
      have hun := unmaps_sharePages A s p hlt
      have hu := h.unmaps hg ha hp hun
      have hau := ha.unmaps hun
      have habs : Absent A (s.unmapPages A p (shareVa A slot) REGION_MAX_PAGES).w.mem (A.root (s.procs p).token)
          (sharePages A slot) := absent_of_unmaps (h.at_ p hp).tree hun
      have hcleared : Handed A s.w (s.unmapPages A p (shareVa A slot) REGION_MAX_PAGES).w := .same rfl
      have hcr3u : (s.unmapPages A p (shareVa A slot) REGION_MAX_PAGES).cr3 = (s.procs p).token := hcr3
      set u := s.unmapPages A p (shareVa A slot) REGION_MAX_PAGES
      have hpu : u.Alive p := hp
      set perms := if rights.contains CapRights.WRITE then Perms.USER_RW else Perms.USER_RO
      have hfs : ∀ f ∈ (u.regions idx).frames, f < 2 ^ 52 := fun f hf => (hau.out (Accounted.region_held hidx hf)).2.2.2
      obtain ⟨hgrown, -, -⟩ := mapShare_spec (P := supply A F (heldBut u p)) hlt hfs (hau.small idx)
        List.drop_zero (hu.built hau hpu) (habs.shows hlt _ perms.write)
        fun k _ hk => habs _ (sharePage_own A hlt hk) ⟨k, hk, rfl⟩
      have hlog := hcleared.trans (hu.handed_grown hg hau hpu hcr3u hgrown)
      rcases hm : mapShare A (A.root (u.procs p).token) (shareVa A slot) perms (u.regions idx).frames 0 (u.allocFor p) with
        ⟨_ | _, r⟩
      · rw [hm] at hlog
        exact hlog
      · rw [hm] at hlog
        exact hlog

theorem handed_mapDevice {phys : ℕ} (writable : Bool) :
    Handed A s.w (Kernel.mapDevice A C p phys DEVICE_PAGES writable s).2.w := by
  rw [Kernel.mapDevice]
  split_ifs with hrefused
  · exact .same rfl
  have hdev : Admitted A C phys := not_not.1 (not_or.1 hrefused).1
  have hphys := hdev.lt hg
  have hun := unmaps_unmapPages_device (A := A) s p
  have hu := h.unmaps hg ha hp hun
  have hau := ha.unmaps hun
  have hcleared : Handed A s.w (s.unmapPages A p A.userMmioBase DEVICE_PAGES).w := .same rfl
  have hcr3u : (s.unmapPages A p A.userMmioBase DEVICE_PAGES).cr3 = (s.procs p).token := hcr3
  simp only
  set u := s.unmapPages A p A.userMmioBase DEVICE_PAGES
  have hpu : u.Alive p := hp
  have hspec : Grown (supply A F (heldBut u p)) (A.root (u.procs p).token) (u.allocFor p)
      (mapWindow A (A.root (u.procs p).token) phys ⟨writable, false, true, isDevice A C phys⟩
        (List.range DEVICE_PAGES) (u.allocFor p)).2 ∧ _ := mapWindow_spec hphys (hu.built hau hpu)
  obtain ⟨hgrown, -⟩ := hspec
  have hlog := hcleared.trans (hu.handed_grown hg hau hpu hcr3u hgrown)
  rcases hm : mapWindow A (A.root (u.procs p).token) phys ⟨writable, false, true, isDevice A C phys⟩
    (List.range DEVICE_PAGES) (u.allocFor p) with ⟨_ | _, r⟩
  · rw [hm] at hlog
    exact hlog
  · rw [hm] at hlog
    exact hlog

theorem handed_make {pages v : ℕ} {rights : CapRights} (hrun : makeRegion p pages rights s = .ok (v, t)) :
    Handed A s.w t.w := by
  have hnil : Account F s.w.fa (([] : List ℕ) + held s) := ha.account.congr (zero_add _).symm
  have hrooted : Rooted A C F m₀ s.w (A.root s.w.cr3) := by
    rw [show s.w.cr3 = (s.procs p).token from hcr3]
    exact h.rooted ha hp
  obtain ⟨htaken, -⟩ := Handed.takeDmaFrames hg pages [] hnil hrooted
  rcases wp_ok (makeRegion_spec p pages rights s) hrun with
    ⟨-, rfl | ⟨w, hw, rfl⟩ | ⟨frames, w, hw, rfl⟩⟩ | ⟨idx, frames, w, cap, caps, -, hw, -, -, rfl⟩
  · exact .same rfl
  · rw [hw] at htaken
    exact htaken
  · rw [hw] at htaken
    exact htaken.trans (.same (Machine.handouts_freeFrames _ _))
  · rw [hw] at htaken
    exact htaken

theorem handed_load (hin : Loader.Inside A C.userElf) {slot id : ℕ} {role : Role} {ok : Bool}
    (hrun : loadProcess A C slot id role s = .ok (ok, t)) : Handed A s.w t.w := by
  obtain ⟨hdrawn, -⟩ := built_space hin hg ha
  have hlog := h.handed_drawn hg ha hp hcr3 hdrawn
  rcases wp_ok (loadProcess_spec slot id role s) hrun with
    ⟨-, rfl | ⟨r, hb, rfl⟩⟩ | ⟨-, token, entry, r, hb, rfl⟩
  · exact .same rfl
  · rw [hb] at hlog
    exact hlog.trans (.same (Machine.handouts_freeFrames _ _))
  · rw [hb] at hlog
    exact hlog

end Spaced

/-! ## Every move and every run -/

/-- **A move made for a process** hands out frames at safe moments. -/
theorem Sound.handed (h : Sound A C F m₀ s) (hin : Loader.Inside A C.userElf) (hg : Ground A C F m₀) (hme : me ≠ NOBODY)
    (hm : Move A C G me k s t) : Handed A s.w t.w := by
  obtain ⟨hs, ha, -⟩ := h
  cases hm with
  | control hc => exact .same hc.quiet.handouts
  | receive => exact .same (calm_takeMessage _ _).handouts
  | store => exact .same rfl
  | copy => exact .same rfl
  | mapRegion hp hcr3 => exact hs.handed_mapRegion hg ha hp hcr3 _ _
  | mapDevice hp _ hcr3 => exact hs.handed_mapDevice hg ha hp hcr3 _
  | unmapDevice => exact .same (unmaps_deviceWindow A s me).handouts
  | unmapRegion => exact .same (handouts_unmapRegionFrom _ _ s)
  | unmapShare _ hslot =>
    obtain ⟨⟨S, hS⟩, -⟩ := unmaps_shareSlot A s _ hslot
    exact .same hS.handouts
  | make hp hcr3 _ _ _ hrun => exact hs.handed_make hg ha hp hcr3 hrun
  | mapDma => exact .same (dmaOnly_mapDma me _ _ _ s).handouts
  | unmapDma _ _ hrun => exact .same (wp_ok (dmaOnly_unmapDma me _ _ s) hrun).handouts
  | withdrawAll _ _ hrun => exact .same (wp_ok (dmaOnly_withdrawAllDmaOf me s) hrun).handouts
  | retire _ hsl _ _ hrun => exact .same (handouts_retire hsl hrun)
  | revoke _ _ _ hrun => exact .same (handouts_revoke hrun)
  | reap => exact .same (handouts_reap s)
  | loadFailed hfor _ _ hrun =>
    obtain ⟨hp, hcr3⟩ := hfor.resolve_left hme
    exact hs.handed_load hg ha hp hcr3 hin hrun
  | boot hnobody => exact absurd hnobody hme
  | @spawn u slot arg requested childId cap hp hcr3 _ _ _ _ _ hrun =>
    refine (hs.handed_load hg ha hp hcr3 hin hrun).trans (.same ?_)
    cases cap with
    | none => rfl
    | some c => exact handouts_handOver slot arg childId c u

/-- an interrupt that finds the kernel parked hands out nothing -/
theorem handouts_wakeIdle (irq : ℕ) (s : KState) : (wakeIdle A irq s).w.handouts = s.w.handouts := by
  have hcredit : (creditIrq A irq s).w.handouts = s.w.handouts := by
    obtain ⟨hc, -⟩ := hush_creditIrq (A := A) (k := .interrupt UserFrame.ZERO) NOBODY trivial irq s
    generalize creditIrq A irq s = u at hc ⊢
    induction hc with
    | refl => rfl
    | tail _ hstep ih => exact hstep.quiet.handouts.trans ih
  have hresume : ∀ (q : ℕ) (u : KState), (resumeProcess A q u).w.handouts = u.w.handouts := by
    intro q u
    rw [resumeProcess_eq]
    split_ifs
    · exact (calm_takeMessage (A := A) q u).handouts
    · rfl
  rw [wakeIdle]
  cases (creditIrq A irq s).sched.current with
  | none => exact hcredit
  | some q => exact (hresume q _).trans hcredit

/-- **One step of userland** hands out frames at safe moments. -/
theorem Step.handed (hready : Ready s) (hsound : Sound A C F m₀ s) (hin : Loader.Inside A C.userElf)
    (hgrants : ∀ role, ∀ g ∈ grantsFor C role, g.1 ≠ .region) (hg : Ground A C F m₀) {i : Input} (hstep : Step A C s i t) :
    Handed A s.w t.w := by
  cases hi : s.idling with
  | false =>
    obtain ⟨hmoves, -⟩ := hstep.moves (G := Gate.all) hready (Gate.admits_all _ _ _)
    rw [caller_awake hi] at hmoves
    have hkeep : Sound A C F m₀ t ∧ Handed A s.w t.w := by
      refine Moves.keep (I := fun u => Sound A C F m₀ u ∧ Handed A s.w u.w) (fun u v hm hu => ?_) hmoves ⟨hsound, .same rfl⟩
      obtain ⟨hsu, hhu⟩ := hu
      exact ⟨hsu.move hin hgrants hg hm, hhu.trans (hsu.handed hin hg (hready.called hi).ne_nobody hm)⟩
    exact hkeep.2
  | true =>
    -- the kernel is parked: only an interrupt can come
    obtain ⟨hen, hrun⟩ := hstep
    cases i with
    | syscall => exact absurd (hi.symm.trans hen) (by decide)
    | fault => exact absurd (hi.symm.trans hen) (by decide)
    | store => exact absurd (hi.symm.trans hen.1) (by decide)
    | timer frame =>
      have ht : preemptTrap A frame s = t := congrArg Prod.snd (Except.ok.inj hrun)
      rw [← ht, preemptTrap, if_pos hi]
      exact .same (handouts_wakeIdle _ s)
    | device frame =>
      have ht : deviceTrap A frame s = t := congrArg Prod.snd (Except.ok.inj hrun)
      rw [← ht, deviceTrap, if_pos hi]
      exact .same (handouts_wakeIdle _ s)

/-- **The kernel never recycles the page tables it runs on.** With an image inside the user window, at every moment of a run
of userland at which the allocator hands out a frame, no page table of the tree under the paging base is free. -/
theorem active_root_kept {s₀ b : KState} (h₀ : PreUserland A C s₀) (hbar : BarOutside A C s₀) (hin : Loader.Inside A C.userElf)
    (hgrants : ∀ role, ∀ g ∈ grantsFor C role, g.1 ≠ .region) (hboot : bootUserland A C s₀ = .ok ((), b))
    (hrun : Relation.ReflTransGen (fun u v => ∃ i, Step A C u i v) b s) : Handed A b.w s.w := by
  have hkeep : Reachable A C s₀ s ∧ Handed A b.w s.w := by
    induction hrun with
    | refl => exact ⟨.boot hboot, .same rfl⟩
    | tail _ hstep ih =>
      obtain ⟨i, hstep⟩ := hstep
      obtain ⟨hreach, hh⟩ := ih
      exact ⟨.step hreach hstep,
        hh.trans (hstep.handed (hreach.ready h₀) (hreach.sound h₀ hbar hin hgrants) hin hgrants (h₀.ground hbar))⟩
  exact hkeep.2

/-- the worker that maps its window takes frames for the tables of it -/
theorem windowRun_handed :
    windowBoot.w.handouts.length < windowRun.w.handouts.length ∧ Handed Riscv windowBoot.w windowRun.w := by
  refine ⟨by decide +kernel, ?_⟩
  refine active_root_kept windowConfig_ready windowConfig_apart.toBarOutside emptyImage_inside (fun role => ?_)
    (outcome_eq (by decide +kernel))
    (.tail (.tail (.single ⟨.timer UserFrame.ZERO, trivial, outcome_eq ?_⟩) ⟨.timer UserFrame.ZERO, trivial, outcome_eq ?_⟩)
      ⟨.syscall (mapBarFrame 1 0x13FFFFF00), workerRuns_awake, outcome_eq ?_⟩)
  · cases role <;> decide
  · decide +kernel
  · decide +kernel
  · decide +kernel

end Rustproof.Kernel
