/-
`MAP_BAR` and the caller's device window.

The call drops the window that was there, maps the one its capability names, and writes a response; if the response cannot be
delivered it drops the new window. What it does is told state by state, for any capabilities and any response pointer: the
caller runs on a space built of tables nobody else's leaf names (`Caller`), as in every reachable state (`Reachable.caller`).

- `mapBar_installs`: a call that succeeds; `sameWindow_gone`: what a call that fails after touching the window leaves.
- `mapBar_atomic_iff`: when the call is all-or-nothing; `window_lost`: a run in which it is not.
-/
import Rustproof.Kernel.Isolation
import Rustproof.Vspace.UserAccess

namespace Rustproof.Kernel

open Lib Prog Mm Vspace

variable (A : Arch) (C : Config)

/-! ## The caller -/

/-- process `cur` runs on its own space; no page the space reaches, nor one `map_device` maps, is a table of the space or a free
frame -/
structure Caller (F rest : Multiset ℕ) (s : KState) (cur : ℕ) : Prop where
  active : s.cr3 = (s.procs cur).token
  built : Built (supply A F rest) (A.root (s.procs cur).token) (s.allocFor cur)
  targets : ∀ v, A.Own v → A.fmt.present (s.leaf A cur v) = true →
    pageAddr (A.fmt.addr (s.leaf A cur v)) ∉ s.tables A cur ∧ pageAddr (A.fmt.addr (s.leaf A cur v)) ∉ freeAddrs s.w.fa
  device : ∀ p, Admitted A C p → p % PAGE_SIZE = 0 → p ∉ s.tables A cur ∧ p ∉ freeAddrs s.w.fa ∧ p < 2 ^ 52

/-! ## All or nothing -/

/-- what a reader of the device window sees is the same -/
def SameWindow (m m' : Mem) (token : ℕ) : Prop :=
  ∀ va, va / PAGE_SIZE = devicePage A → SameReads A.toMmu m m' (A.root token) (A.root token) va

/-- the window maps the base `c` names with the rights `c` has, and the response is at `resp` -/
structure WindowInstalled (c : Capabilities.CapSlot) (m : Mem) (token resp : ℕ) : Prop where
  entry : ∃ e, RadixTree.walk A.fmt m (devicePage A) A.depth (A.root token) = some (0, e) ∧ A.user e = true ∧
    A.writable e = c.rights.contains CapRights.WRITE
  base : ∀ k < PAGE_SIZE, translate A.toMmu m (A.root token) (A.userMmioBase + k) = some (c.object + k)
  response : ∀ k b, (mapBarResp A.userMmioBase)[k]? = some b →
    ∃ pa, translate A.toMmu m (A.root token) (resp + k) = some pa ∧ readByte m pa = b

/-- `MAP_BAR` on frame `f`: anything but `OK` leaves the window as it was, and `OK` installs what the capability names -/
def AllOrNothing (cur : ℕ) (f : UserFrame) (s : KState) : Prop :=
  let out := dispatch A C sysno.MAP_BAR cur f s
  (out.1 ≠ syserr.OK → SameWindow A s.w.mem out.2.w.mem (s.procs cur).token) ∧
    (out.1 = syserr.OK → ∃ c, capNamed (s.procs cur).caps .mmio (A.frameArg f 0) CapRights.READ = some c ∧
      WindowInstalled A c out.2.w.mem (s.procs cur).token (A.frameArg f 2))

/-- the response fits user memory the caller may write; the window counts as mapped the way the call maps it -/
def Deliverable (m : Mem) (token resp : ℕ) (w : Bool) : Prop :=
  userPtrOk A resp 16 = true ∧ ∀ k < 16, if (resp + k) / PAGE_SIZE = devicePage A then w = true
    else (leafFlags A.toMmu m (A.root token) (resp + k)).elim false (A.permits true) = true

/-- the window is not mapped, or the call is refused before it touches it, or it can be carried through -/
def BarFits (cur : ℕ) (f : UserFrame) (s : KState) : Prop :=
  leafFlags A.toMmu s.w.mem (A.root (s.procs cur).token) A.userMmioBase = none ∨
    ∀ c, capNamed (s.procs cur).caps .mmio (A.frameArg f 0) CapRights.READ = some c → Admitted A C c.object →
      c.object % PAGE_SIZE = 0 ∧
        Deliverable A s.w.mem (s.procs cur).token (A.frameArg f 2) (c.rights.contains CapRights.WRITE)

variable {A C} {F rest : Multiset ℕ} {s : KState} {cur : ℕ}

theorem Caller.tree (h : Caller A C F rest s cur) : A.Tree s.w.mem (A.root (s.procs cur).token) := h.built.tree

/-! ## The response -/

section Response

variable {t : KState} {phys resp : ℕ} {fl : Word} {w : Bool} (h : Caller A C F rest s cur) (ho : Outcome A s t cur)
  (hleaf : t.leaf A cur (devicePage A) = A.entry phys fl) (hok : A.flagsOk fl = true)

include ho hleaf hok in
/-- with the window mapped, the window's page answers with the flags asked for -/
theorem Outcome.windowFlags {va : ℕ} (hva : va / PAGE_SIZE = devicePage A) :
    leafFlags A.toMmu t.w.mem (A.root (s.procs cur).token) va = some (A.flags fl ||| A.presentFlag) := by
  have hl : A.leaf t.w.mem (A.root (s.procs cur).token) (va / PAGE_SIZE) = A.entry phys fl := by
    rw [hva, ← hleaf, KState.leaf, ho.token]
  have hown : A.Own (va / PAGE_SIZE) := hva ▸ devicePage_own A
  rw [leafFlags_of_leaf ho.tree hown (by rw [hl]; exact A.entry_present phys fl hok), hl, A.entry_flags]

include h ho in
/-- the other pages answer as before -/
theorem Outcome.otherReads {va : ℕ} (hown : A.Own (va / PAGE_SIZE)) (hva : va / PAGE_SIZE ≠ devicePage A) :
    SameReads A.toMmu s.w.mem t.w.mem (A.root (s.procs cur).token) (A.root (s.procs cur).token) va := by
  refine sameReads_of_leaf h.tree ho.tree hown (Or.inl ?_)
  have hrest := ho.rest _ hown hva
  rwa [KState.leaf, KState.leaf, ho.token] at hrest

include h ho hleaf hok in
/-- whether the response goes out was settled before the call -/
theorem Outcome.delivers_iff (hperm : A.permits true (A.flags fl ||| A.presentFlag) = w) :
    userRangeMapped A t.w.mem (s.procs cur).token resp 16 true = true ↔
      Deliverable A s.w.mem (s.procs cur).token resp w := by
  rw [userRangeMapped_iff (by decide)]
  refine and_congr_right fun hptr => forall₂_congr fun k hk => ?_
  have hown := userPtrOk_own hptr hk
  by_cases hpage : (resp + k) / PAGE_SIZE = devicePage A
  · rw [if_pos hpage, ho.windowFlags hleaf hok hpage, Option.elim_some, hperm]
  · rw [if_neg hpage, (ho.otherReads h hown hpage).2]

include h ho hleaf hok in
/-- the response is stored to no table -/
theorem Outcome.open (hadm : Admitted A C phys) (hal : phys % PAGE_SIZE = 0)
    (hd : Deliverable A s.w.mem (s.procs cur).token resp w) : Open A t.w.mem (s.procs cur).token resp 16 := by
  obtain ⟨hptr, hd⟩ := hd
  intro k hk
  have hown := userPtrOk_own hptr hk
  have htables : ∀ a, a ∉ s.tables A cur → a ∉ freeAddrs s.w.fa → a ∉ A.tables t.w.mem (A.root (s.procs cur).token) := by
    intro a h1 h2 hx
    rw [← ho.token] at hx
    exact (ho.tables a hx).elim h1 h2
  refine ⟨hown, ?_⟩
  by_cases hpage : (resp + k) / PAGE_SIZE = devicePage A
  · obtain ⟨h1, h2, hlt⟩ := h.device phys hadm hal
    have hl : A.leaf t.w.mem (A.root (s.procs cur).token) ((resp + k) / PAGE_SIZE) = A.entry phys fl := by
      rw [hpage, ← hleaf, KState.leaf, ho.token]
    rw [hl, A.entry_addr phys fl hal (hlt.trans_le A.physLimit_le), pageAddr_aligned hal]
    exact ⟨A.entry_present phys fl hok, htables _ h1 h2⟩
  · have hflags := hd k hk
    rw [if_neg hpage] at hflags
    have hl := ho.rest _ hown hpage
    rw [KState.leaf, ho.token] at hl
    have hm : MapsPage A.toMmu (s.leaf A cur ((resp + k) / PAGE_SIZE)) := by
      refine (leafFlags_isSome h.tree hown).1 ?_
      cases hf : leafFlags A.toMmu s.w.mem (A.root (s.procs cur).token) (resp + k) with
      | none => rw [hf] at hflags; exact absurd hflags (by simp)
      | some e => rfl
    obtain ⟨h1, h2⟩ := h.targets _ hown hm.1
    rw [hl]
    exact ⟨hm, htables _ h1 h2⟩

end Response

/-! ## When the call is all or nothing -/

theorem mapBarResp_length (va : ℕ) : (mapBarResp va).length = 16 := by simp [mapBarResp, leBytes]

/-- `MAP_BAR` is what `dispatch` runs -/
theorem dispatch_mapBar (f : UserFrame) :
    dispatch A C sysno.MAP_BAR cur f s = mapBar A C cur (A.frameArg f 0) (A.frameArg f 2) s := by
  rw [dispatch, if_neg (by decide), if_neg (by decide), if_pos rfl]

/-- a window that is gone is as it was exactly if it was not there -/
theorem sameWindow_gone {m : Mem} (h : Caller A C F rest s cur) (hT : A.Tree m (A.root (s.procs cur).token))
    (hgone : A.fmt.present (A.leaf m (A.root (s.procs cur).token) (devicePage A)) = false) :
    SameWindow A s.w.mem m (s.procs cur).token ↔
      leafFlags A.toMmu s.w.mem (A.root (s.procs cur).token) A.userMmioBase = none := by
  have hown := devicePage_own A
  have hnot : ¬MapsPage A.toMmu (A.leaf m (A.root (s.procs cur).token) (devicePage A)) := fun hm => by
    rw [hm.1] at hgone
    exact absurd hgone (by decide)
  have hnone : leafFlags A.toMmu m (A.root (s.procs cur).token) A.userMmioBase = none := by
    rw [← Option.not_isSome_iff_eq_none, leafFlags_isSome hT hown]
    exact hnot
  constructor
  · intro hsame
    rw [← (hsame A.userMmioBase rfl).2, hnone]
  · intro hbefore va hva
    have hbefore' : ¬MapsPage A.toMmu (A.leaf s.w.mem (A.root (s.procs cur).token) (devicePage A)) := by
      rw [← Option.not_isSome_iff_eq_none, leafFlags_isSome h.tree hown] at hbefore
      exact hbefore
    have hown' : A.Own (va / PAGE_SIZE) := hva ▸ hown
    exact sameReads_of_leaf h.tree hT hown' (Or.inr (by rw [hva]; exact ⟨hnot, hbefore'⟩))

/-- **A call that succeeds** installs what the capability names. -/
theorem mapBar_installs (h : Caller A C F rest s cur) {t : KState} {phys resp : ℕ} {fl : Word}
    {c : Capabilities.CapSlot} (ho : Outcome A s t cur) (hphys : c.object = phys) (hadm : Admitted A C phys)
    (hal : phys % PAGE_SIZE = 0)
    (hfl : A.encode ⟨c.rights.contains CapRights.WRITE, false, true, isDevice A C phys⟩ = some fl)
    (hleaf : t.leaf A cur (devicePage A) = A.entry phys fl)
    (hd : Deliverable A s.w.mem (s.procs cur).token resp (c.rights.contains CapRights.WRITE)) :
    WindowInstalled A c (storeUserBytes A (s.procs cur).token t.w.mem resp (mapBarResp A.userMmioBase))
        (s.procs cur).token resp := by
  obtain ⟨hok, hbits⟩ := A.encode_spec _ _ hfl
  have hown := devicePage_own A
  have hopen := ho.open h hleaf hok hadm hal hd
  rw [← mapBarResp_length A.userMmioBase] at hopen
  obtain ⟨htables, hreads, -⟩ := storeUserBytes_reads ho.tree (by rw [mapBarResp_length]; decide) hopen
  set m := storeUserBytes A (s.procs cur).token t.w.mem resp (mapBarResp A.userMmioBase)
  have hT : A.Tree m (A.root (s.procs cur).token) := ho.tree.congr htables
  have hl : A.leaf m (A.root (s.procs cur).token) (devicePage A) = A.entry phys fl := by
    rw [leaf_congr htables hown, ← hleaf, KState.leaf, ho.token]
  have hm := A.entry_present phys fl hok
  have hlt : phys < A.physLimit := (h.device phys hadm hal).2.2.trans_le A.physLimit_le
  refine ⟨⟨A.entry phys fl, ?_, (hbits phys).1, (hbits phys).2⟩, fun k hk => ?_, fun k b hk => ?_⟩
  · rw [walk_own hT hown, hl]
    exact if_pos hm
  · have hva : (A.userMmioBase + k) / PAGE_SIZE = devicePage A ∧ (A.userMmioBase + k) % PAGE_SIZE = k := by
      have := A.mmio_aligned
      simp only [devicePage, PAGE_SIZE] at *
      omega
    rw [translate_of_leaf hT (by rw [hva.1]; exact hown) (by rw [hva.1, hl]; exact hm), hva.1, hl, hva.2,
      A.entry_addr phys fl hal hlt, pageAddr_aligned hal, hphys]
  · obtain ⟨pa, hpa, hb⟩ := hreads k b hk
    have hlen : k < 16 := by
      rw [← mapBarResp_length A.userMmioBase]
      exact (List.getElem?_eq_some_iff.1 hk).1
    have hownk := userPtrOk_own hd.1 hlen
    exact ⟨pa, (sameReads_of_leaf ho.tree hT hownk (Or.inl (leaf_congr htables hownk))).1.trans hpa, hb⟩

/-- **When `MAP_BAR` is all-or-nothing.** -/
theorem mapBar_allOrNothing_iff (hA : A = X86 ∨ A = Riscv) (h : Caller A C F rest s cur) (f : UserFrame) :
    AllOrNothing A C cur f s ↔ BarFits A C cur f s := by
  unfold AllOrNothing BarFits
  simp only [dispatch_mapBar]
  rw [mapBar]
  cases hcap : capNamed (s.procs cur).caps .mmio (A.frameArg f 0) CapRights.READ with
  | none =>
    dsimp only
    refine iff_of_true ⟨fun _ va _ => ⟨rfl, rfl⟩, fun hok => absurd hok (by decide)⟩ (Or.inr fun c hc => ?_)
    exact absurd hc (by simp)
  | some c =>
    simp only [Option.some.injEq, forall_eq']
    by_cases hadm : Admitted A C c.object
    · obtain ⟨ho, hout⟩ := mapDevice_outcome hA h.built (w := c.rights.contains CapRights.WRITE) hadm
      rcases hmap : mapDevice A C cur c.object DEVICE_PAGES (c.rights.contains CapRights.WRITE) s with ⟨_ | va, t⟩
      · -- no mapping: the old window is gone
        rw [hmap] at ho hout
        dsimp only at ho hout ⊢
        obtain ⟨hgone, hal⟩ := hout
        rw [KState.leaf, ho.token] at hgone
        have hsame := sameWindow_gone h ho.tree hgone
        have hne : syserr.NO_MEM ≠ syserr.OK := by decide
        simp only [hne, ne_eq, not_false_eq_true, forall_const, false_implies, and_true, hsame]
        refine (or_iff_left_of_imp fun hfits => ?_).symm
        have hpres := hal (hfits hadm).1
        rw [← Option.not_isSome_iff_eq_none, leafFlags_isSome h.tree (devicePage_own A)]
        intro hm
        exact absurd (hm.1.symm.trans hpres) (by decide)
      · rw [hmap] at ho hout
        dsimp only at ho hout ⊢
        obtain ⟨rfl, hal, hcr3, fl, hfl, hleaf⟩ := hout
        obtain ⟨fl', hfl', hperm⟩ := window_flags (C := C) hA (c.rights.contains CapRights.WRITE) c.object
        obtain rfl : fl = fl' := Option.some.inj (hfl.symm.trans hfl')
        obtain ⟨hok, -⟩ := A.encode_spec _ _ hfl
        have hdel : userRangeMapped A t.w.mem (s.procs cur).token (A.frameArg f 2) 16 true = true ↔
            Deliverable A s.w.mem (s.procs cur).token (A.frameArg f 2) (c.rights.contains CapRights.WRITE) :=
          ho.delivers_iff h hleaf hok hperm
        simp only [copyToUser, hcr3, mapBarResp_length]
        by_cases hd : Deliverable A s.w.mem (s.procs cur).token (A.frameArg f 2) (c.rights.contains CapRights.WRITE)
        · rw [if_pos (hdel.2 hd)]
          refine iff_of_true ⟨fun hne => absurd rfl hne, fun _ => ⟨c, rfl, ?_⟩⟩ (Or.inr fun _ => ⟨hal, hd⟩)
          exact mapBar_installs h ho rfl hadm hal hfl hleaf hd
        · rw [if_neg (mt hdel.1 hd)]
          -- the new window is dropped again
          have hclear := (unmaps_deviceWindow A t cur).mem (by rw [ho.token]; exact ho.tree)
          rw [ho.token] at hclear
          have hsame := sameWindow_gone h hclear.tree (hclear.gone _ (devicePage_own A) rfl)
          have hne : syserr.FAULT ≠ syserr.OK := by decide
          simp only [hne, ne_eq, not_false_eq_true, forall_const, false_implies, and_true, hsame]
          exact (or_iff_left_of_imp fun hfits => absurd (hfits hadm).2 hd).symm
    · rw [mapDevice_refused hadm]
      dsimp only
      exact iff_of_true ⟨fun _ va _ => ⟨rfl, rfl⟩, fun hok => absurd hok (by decide)⟩ (Or.inr fun hc => absurd hc hadm)

/-- the running process of every reachable state is such a caller -/
theorem Reachable.caller {s₀ : KState} (h₀ : PreUserland A C s₀) (hbar : BarOutside A C s₀) (hin : Loader.Inside A C.userElf)
    (hgrants : ∀ role, ∀ g ∈ grantsFor C role, g.1 ≠ .region) (h : Reachable A C s₀ s) (hawake : s.idling = false) :
    ∃ F rest, Caller A C F rest s s.current := by
  have hcall : Called s s.current := ⟨h.ready h₀, hawake, rfl⟩
  have hp := hcall.alive
  obtain ⟨hs, ha, -⟩ := h.sound h₀ hbar hin hgrants
  have hg := h₀.ground hbar
  refine ⟨freeAddrs s₀.w.fa, heldBut s s.current, hcall.cr3, hs.built ha hp, fun v hv hpres => ⟨fun hx => ?_, fun hf => ?_⟩,
    fun p hdev hal => ?_⟩
  · exact hs.target hg ha hp hv hpres (Or.inr ⟨_, hp, hx⟩)
  · -- a leaf rests on a frame that is out, or on a page the kernel keeps
    cases (hs.at_ _ hp).backed v hv hpres with
    | own hmem _ =>
      obtain ⟨-, hnot, hal, -⟩ := ha.out (Accounted.frame_held hp.1 hmem)
      rw [pageAddr_aligned hal] at hf
      exact hnot hf
    | share _ _ _ hslot hmem _ =>
      obtain ⟨-, hnot, hal, -⟩ := ha.out (Accounted.region_held (regionSlot_some hslot).2.1 (List.mem_of_getElem? hmem))
      rw [pageAddr_aligned hal] at hf
      exact hnot hf
    | device _ hdev hal _ =>
      rw [pageAddr_aligned hal] at hf
      exact (hdev.outside hg hal).1 (ha.account.free_mem hf)
  · have hnot := (hdev.outside hg hal).1
    refine ⟨fun hx => ?_, fun hf => hnot (ha.account.free_mem hf), hdev.lt hg⟩
    exact hnot (ha.out (Accounted.frame_held hp.1 ((hs.at_ _ hp).tables p hx))).1

/-- **`MAP_BAR` is all-or-nothing exactly where it need not take a window back.** The states are any in which the caller runs on
its own space, which every reachable state is if `DEVICE_BAR` names no memory. -/
theorem mapBar_atomic_iff (hA : A = X86 ∨ A = Riscv) :
    (∀ F rest s cur f, Caller A C F rest s cur → (AllOrNothing A C cur f s ↔ BarFits A C cur f s)) ∧
    ∀ s₀ s, PreUserland A C s₀ → BarOutside A C s₀ → Loader.Inside A C.userElf → (∀ role, ∀ g ∈ grantsFor C role, g.1 ≠ .region) →
      Reachable A C s₀ s → s.idling = false → ∃ F rest, Caller A C F rest s s.current :=
  ⟨fun _ _ _ _ f h => mapBar_allOrNothing_iff hA h f, fun _ _ h₀ hbar hin hgrants h hawake =>
    h.caller h₀ hbar hin hgrants hawake⟩

/-! ## A window lost -/

/-- the registers of `MAP_BAR` -/
def mapBarFrame (cap resp : ℕ) : UserFrame :=
  ((UserFrame.ZERO.put 17 (BitVec.ofNat 64 sysno.MAP_BAR)).put 10 (BitVec.ofNat 64 cap)).put 12 (BitVec.ofNat 64 resp)

def windowBoot : KState := outcome (bootUserland Riscv windowConfig (smallState 0)) (smallState 0)

/-- a tick of the timer: the next process runs -/
def consumerRuns : KState := outcome (handle Riscv windowConfig (.timer UserFrame.ZERO) windowBoot) windowBoot

def workerRuns : KState := outcome (handle Riscv windowConfig (.timer UserFrame.ZERO) consumerRuns) consumerRuns

/-- the worker maps its window, with the response on its stack -/
def windowRun : KState := outcome (handle Riscv windowConfig (.syscall (mapBarFrame 1 0x13FFFFF00)) workerRuns) workerRuns

theorem workerRuns_reachable : Reachable Riscv windowConfig (smallState 0) workerRuns := by
  have h₀ : Reachable Riscv windowConfig (smallState 0) windowBoot := .boot (outcome_eq (by decide +kernel))
  have h₁ : Reachable Riscv windowConfig (smallState 0) consumerRuns :=
    h₀.outcome (i := .timer UserFrame.ZERO) trivial (by decide +kernel)
  exact h₁.outcome (i := .timer UserFrame.ZERO) trivial (by decide +kernel)

theorem workerRuns_awake : workerRuns.idling = false := by decide +kernel

theorem windowRun_reachable : Reachable Riscv windowConfig (smallState 0) windowRun :=
  workerRuns_reachable.outcome (i := .syscall (mapBarFrame 1 0x13FFFFF00)) workerRuns_awake (by decide +kernel)

theorem windowRun_awake : windowRun.idling = false := by decide +kernel

/-- with the response at an address that is not mapped, the worker's window is gone and the call has failed -/
theorem window_lost : Reachable Riscv windowConfig (smallState 0) windowRun ∧ windowRun.idling = false ∧
    ¬AllOrNothing Riscv windowConfig windowRun.current (mapBarFrame 1 0) windowRun := by
  refine ⟨windowRun_reachable, windowRun_awake, fun ⟨hfail, _⟩ => ?_⟩
  have hfault : (dispatch Riscv windowConfig sysno.MAP_BAR windowRun.current (mapBarFrame 1 0) windowRun).1 ≠ syserr.OK := by
    decide +kernel
  have hgone : leafFlags Riscv.toMmu
      (dispatch Riscv windowConfig sysno.MAP_BAR windowRun.current (mapBarFrame 1 0) windowRun).2.w.mem
      (Riscv.root (windowRun.procs windowRun.current).token) Riscv.userMmioBase ≠
      leafFlags Riscv.toMmu windowRun.w.mem (Riscv.root (windowRun.procs windowRun.current).token) Riscv.userMmioBase := by
    decide +kernel
  exact hgone (hfail hfault Riscv.userMmioBase rfl).2

theorem windowRun_iff : AllOrNothing Riscv windowConfig windowRun.current (mapBarFrame 1 0) windowRun ↔
    BarFits Riscv windowConfig windowRun.current (mapBarFrame 1 0) windowRun := by
  obtain ⟨F, rest, hc⟩ := (mapBar_atomic_iff (Or.inr rfl)).2 _ _ windowConfig_ready windowConfig_apart.toBarOutside
    emptyImage_inside
    (roleGrants_apart rfl) windowRun_reachable windowRun_awake
  exact (mapBar_atomic_iff (Or.inr rfl)).1 F rest _ _ _ hc

end Rustproof.Kernel
