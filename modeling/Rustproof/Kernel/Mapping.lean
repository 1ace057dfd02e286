/-
Mapping with a process's own allocator.

`supply` reads the recording allocator as a supply of fresh frames, over the frame account: a frame it hands out is listed
for the process (`listed_of_taken`).
- `mapShare_spec`: the mapping loop of `map_region` shows the region's frames in its slot, or leaves the slot empty.
- `mapWindow_spec`: the same for the device window. `mapDevice_outcome`: the window after `map_device`, and when that fails.
- `buildSpace_spec`: a space that was built is a tree of fresh frames with the kernel's root entries, and its leaves map
  fresh frames. `Drawn` is what any use of the allocator leaves, successful or not.
-/
import Rustproof.Hal.Riscv
import Rustproof.Hal.X86
import Rustproof.Kernel.Unmapping
import Rustproof.Kernel.Changes

namespace Rustproof.Kernel

open Lib RadixTree Mm Vspace

/-! ## The supply -/

section Supply

variable (A : Arch) (F rest : Multiset ℕ)

theorem Account.nodup_free {F H : Multiset ℕ} {a : BitmapAllocator} (h : Account F a H) : (freeAddrs a).Nodup := by
  have hnd := h.nodup
  rw [← h.balance, Multiset.nodup_add] at hnd
  exact hnd.1

/-- the recording allocator hands out fresh frames -/
def supply : Supply A.toMmu RecordingAlloc where
  Ok := RecordingAlloc.Ok F rest
  free r := {p | p ∈ freeAddrs r.w.fa}
  fits r g h hg := by
    obtain ⟨h1, h2⟩ := h.tracked_lt (h.free_mem hg)
    exact A.fits_of_lt h1 h2
  ok_alloc r h := by
    cases hp : r.allocFrame.1 with
    | none => exact (RecordingAlloc.allocFrame_none h hp).1
    | some p => exact (RecordingAlloc.allocFrame_some h hp).2.1
  ok_write r m h := h
  free_alloc r h p hp := by
    cases ha : r.allocFrame.1 with
    | none =>
      have hfree := (RecordingAlloc.allocFrame_none h ha).2.2.2.1
      exact (congrArg (p ∈ ·) hfree).mp hp
    | some q =>
      obtain ⟨-, -, -, -, hfree, -⟩ := RecordingAlloc.allocFrame_some h ha
      show p ∈ freeAddrs r.w.fa
      rw [hfree]
      exact Multiset.mem_cons_of_mem hp
  free_write r m h := rfl
  fresh r g h hp := by
    obtain ⟨hmem, -, -, -, hfree, -⟩ := RecordingAlloc.allocFrame_some h hp
    have hnd := Account.nodup_free h
    rw [hfree] at hnd
    exact ⟨hmem, (Multiset.nodup_cons.1 hnd).1⟩
  mem_alloc r t h ht := by
    cases ha : r.allocFrame.1 with
    | none => exact congrArg (fun m : Mem => m t) rfl |>.trans ((RecordingAlloc.allocFrame_none h ha).2.2.1 t ht)
    | some q =>
      obtain ⟨hmem, -, -, hw, -⟩ := RecordingAlloc.allocFrame_some h ha
      show r.allocFrame.2.w.mem t = r.w.mem t
      rw [hw]
      exact Store.fill_of_ne _ (fun e => ht (by rw [e]; exact hmem)) 0

variable {A F rest} {r r' : RecordingAlloc}

/-- a frame that was free and is not any more was listed -/
theorem listed_of_taken (h : r.Ok F rest) (h' : r'.Ok F rest) {p : ℕ} (hp : p ∈ freeAddrs r.w.fa)
    (hn : p ∉ freeAddrs r'.w.fa) : p ∈ r'.frames := by
  have hF : p ∈ F := h.free_mem hp
  have hrest : p ∉ rest := by
    intro hc
    exact h.not_free (Multiset.mem_add.2 (Or.inr hc)) hp
  rw [← h'.balance, Multiset.mem_add, Multiset.mem_add] at hF
  rcases hF with hf | hf | hf
  · exact absurd hf hn
  · exact hf
  · exact absurd hf hrest

/-- a listed frame stays listed while frames are only taken -/
theorem listed_of_listed (h : r.Ok F rest) (h' : r'.Ok F rest) (hsub : ∀ p ∈ freeAddrs r'.w.fa, p ∈ freeAddrs r.w.fa)
    {p : ℕ} (hp : p ∈ r.frames) : p ∈ r'.frames := by
  have hheld : p ∈ (r.frames + rest : Multiset ℕ) := Multiset.mem_add.2 (Or.inl hp)
  have hF : p ∈ F := h.held_mem hheld
  have hnd := h.held_nodup
  have hrest : p ∉ rest := by
    intro hc
    exact Multiset.disjoint_left.1 (Multiset.nodup_add.1 hnd).2.2 hp hc
  rw [← h'.balance, Multiset.mem_add, Multiset.mem_add] at hF
  rcases hF with hf | hf | hf
  · exact absurd (hsub p hf) (h.not_free hheld)
  · exact hf
  · exact absurd hf hrest

end Supply

/-! ## Mapping into a window -/

variable {A : Arch} {C : Config} {P : Supply A.toMmu RecordingAlloc} {root : ℕ} {r : RecordingAlloc}

/-- what is present in share slot `slot` shows the frames `fs`, writable only if `w` -/
def Shows (A : Arch) (m : Mem) (root slot : ℕ) (fs : List ℕ) (w : Bool) : Prop :=
  ∀ k < REGION_MAX_PAGES, A.fmt.present (A.leaf m root (sharePage A slot k)) = true →
    ∃ frame, fs[k]? = some frame ∧ A.fmt.addr (A.leaf m root (sharePage A slot k)) = frame ∧
      (A.writable (A.leaf m root (sharePage A slot k)) = true → w = true)

/-- nothing is present in the pages `S` -/
def Absent (A : Arch) (m : Mem) (root : ℕ) (S : Set ℕ) : Prop :=
  ∀ v, A.Own v → v ∈ S → A.fmt.present (A.leaf m root v) = false

theorem Absent.shows {m : Mem} {slot : ℕ} (hs : slot < SHARE_SLOTS) (h : Absent A m root (sharePages A slot))
    (fs : List ℕ) (w : Bool) : Shows A m root slot fs w := by
  intro k hk hp
  rw [h _ (sharePage_own A hs hk) ⟨k, hk, rfl⟩] at hp
  exact absurd hp (by decide)

/-- **The mapping loop of `map_region`**, from page `i` on: the slot shows the region, or nothing. -/
theorem mapShare_spec {slot : ℕ} (hs : slot < SHARE_SLOTS) {perms : Perms} {fs : List ℕ} (hfs : ∀ f ∈ fs, f < 2 ^ 52)
    (hlen : fs.length ≤ REGION_MAX_PAGES) {frames : List ℕ} {i : ℕ} (hdrop : fs.drop i = frames) (h : Built P root r)
    (hshow : Shows A r.w.mem root slot fs perms.write)
    (habs : ∀ k, i ≤ k → k < REGION_MAX_PAGES → A.fmt.present (A.leaf r.w.mem root (sharePage A slot k)) = false) :
    Grown P root r (mapShare A root (shareVa A slot) perms frames i r).2 ∧
      (∀ v, A.Own v → v ∉ sharePages A slot →
        A.leaf (mapShare A root (shareVa A slot) perms frames i r).2.w.mem root v = A.leaf r.w.mem root v) ∧
      if (mapShare A root (shareVa A slot) perms frames i r).1 = true
      then Shows A (mapShare A root (shareVa A slot) perms frames i r).2.w.mem root slot fs perms.write
      else Absent A (mapShare A root (shareVa A slot) perms frames i r).2.w.mem root (sharePages A slot) := by
  induction frames generalizing i r with
  | nil =>
    rw [mapShare]
    exact ⟨Grown.refl h, fun _ _ _ => rfl, by rw [if_pos rfl]; exact hshow⟩
  | cons frame frames ih =>
    have hi : i < fs.length := by
      by_contra hc
      rw [List.drop_eq_nil_of_le (by omega)] at hdrop
      exact absurd hdrop (by simp)
    have hik : i < REGION_MAX_PAGES := lt_of_lt_of_le hi hlen
    have hget : fs[i]? = some frame := by
      have := congrArg (·[0]?) hdrop
      simpa using this
    have hnext : fs.drop (i + 1) = frames := by
      rw [← List.drop_drop, hdrop]; rfl
    obtain ⟨hpage, -⟩ := shareVa_page A slot i
    have hown := sharePage_own A hs hik
    obtain ⟨hg, hres⟩ := mapPage_spec frame perms (hpage ▸ hown) h
    rw [mapShare]
    rcases hm : Vspace.mapPage A.toMmu root (shareVa A slot + i * PAGE_SIZE) frame perms r with ⟨_ | _, r'⟩
    · -- a page could not be mapped: the pages of this call are taken out again
      rw [hm] at hg hres
      have hleaf : ∀ v, A.Own v → A.leaf r'.w.mem root v = A.leaf r.w.mem root v := hres
      have hbase : ∀ j, shareVa A slot / PAGE_SIZE + j = sharePage A slot j := by
        intro j
        rw [← (shareVa_page A slot j).1]
        simp only [PAGE_SIZE]; omega
      have hal : shareVa A slot % PAGE_SIZE = 0 := by
        have := (shareVa_page A slot 0).2
        rwa [Nat.zero_mul, Nat.add_zero] at this
      have hc : Cleared A.toMmu root {v | ∃ j < i, v = shareVa A slot / PAGE_SIZE + j} r'.w.mem
          (unmapRange A root (shareVa A slot) i r'.w.mem) :=
        unmapRange_cleared A hal (fun j hj => by rw [hbase]; exact sharePage_own A hs (by omega)) hg.built.tree
      refine ⟨hg.trans (hc.grown hg.built), ?_, ?_⟩
      · intro v hv hn
        refine (hc.keep v hv ?_).trans (hleaf v hv)
        rintro ⟨j, hj, rfl⟩
        exact hn ⟨j, by omega, hbase j⟩
      · rw [if_neg Bool.false_ne_true]
        rintro v hv ⟨k, hk, rfl⟩
        by_cases hki : k < i
        · exact hc.gone _ hv ⟨k, hki, (hbase k).symm⟩
        · have hkeep : A.leaf (unmapRange A root (shareVa A slot) i r'.w.mem) root (sharePage A slot k) =
              A.leaf r'.w.mem root (sharePage A slot k) := by
            refine hc.keep _ hv ?_
            rintro ⟨j, hj, he⟩
            rw [hbase] at he
            have := (sharePage_inj A hk (by omega) he).2
            omega
          show A.fmt.present (A.leaf (unmapRange A root (shareVa A slot) i r'.w.mem) root (sharePage A slot k)) = false
          rw [hkeep, hleaf _ hv]
          exact habs k (by omega) hk
    · rw [hm] at hg hres
      obtain ⟨e, huser, hwrite, hal, haddr, -, hleaf⟩ := hres
      have hleaf' : ∀ v, A.Own v → A.leaf r'.w.mem root v =
          if v = sharePage A slot i then e else A.leaf r.w.mem root v := by
        intro v hv
        rw [← hpage]; exact hleaf v hv
      have hother : ∀ k < REGION_MAX_PAGES, k ≠ i →
          A.leaf r'.w.mem root (sharePage A slot k) = A.leaf r.w.mem root (sharePage A slot k) := by
        intro k hk hne
        rw [hleaf' _ (sharePage_own A hs hk), if_neg fun he => hne (sharePage_inj A hk hik he).2]
      have hshow' : Shows A r'.w.mem root slot fs perms.write := by
        intro k hk hp
        by_cases hki : k = i
        · subst hki
          rw [hleaf' _ hown, if_pos rfl] at hp ⊢
          exact ⟨frame, hget, haddr (hfs frame (List.mem_of_getElem? hget)), fun hw => hwrite ▸ hw⟩
        · rw [hother k hk hki] at hp ⊢
          exact hshow k hk hp
      have habs' : ∀ k, i + 1 ≤ k → k < REGION_MAX_PAGES →
          A.fmt.present (A.leaf r'.w.mem root (sharePage A slot k)) = false := by
        intro k hk hlt
        rw [hother k hlt (by omega)]
        exact habs k (by omega) hlt
      obtain ⟨h1, h2, h3⟩ := ih hnext hg.built hshow' habs'
      refine ⟨hg.trans h1, ?_, h3⟩
      intro v hv hn
      rw [h2 v hv hn, hleaf' v hv, if_neg]
      rintro rfl
      exact hn ⟨i, hik, rfl⟩

/-- **The mapping loop of `map_device`**: the window shows the device's page, or what it showed. -/
theorem mapWindow_spec {phys : ℕ} (hphys : phys < 2 ^ 52) {perms : Perms} (h : Built P root r) :
    Grown P root r (mapWindow A root phys perms (List.range DEVICE_PAGES) r).2 ∧
      (∀ v, A.Own v → v ≠ devicePage A →
        A.leaf (mapWindow A root phys perms (List.range DEVICE_PAGES) r).2.w.mem root v = A.leaf r.w.mem root v) ∧
      let e := A.leaf (mapWindow A root phys perms (List.range DEVICE_PAGES) r).2.w.mem root (devicePage A)
      e = A.leaf r.w.mem root (devicePage A) ∨
        A.fmt.addr e = phys ∧ phys % PAGE_SIZE = 0 ∧ (A.writable e = true → perms.write = true) := by
  have hrange : List.range DEVICE_PAGES = [0] := rfl
  have hpage : (A.userMmioBase + 0 * PAGE_SIZE) / PAGE_SIZE = devicePage A := by
    rw [Nat.zero_mul, Nat.add_zero]; rfl
  have hpa : phys + 0 * PAGE_SIZE = phys := by rw [Nat.zero_mul, Nat.add_zero]
  obtain ⟨hg, hres⟩ := mapPage_spec (phys + 0 * PAGE_SIZE) perms (hpage ▸ devicePage_own A) h
  rw [hrange, mapWindow]
  rcases hm : Vspace.mapPage A.toMmu root (A.userMmioBase + 0 * PAGE_SIZE) (phys + 0 * PAGE_SIZE) perms r with
    ⟨_ | _, r'⟩
  · rw [hm] at hg hres
    have hleaf : ∀ v, A.Own v → A.leaf r'.w.mem root v = A.leaf r.w.mem root v := hres
    exact ⟨hg, fun v hv _ => hleaf v hv, Or.inl (hleaf _ (devicePage_own A))⟩
  · rw [hm] at hg hres
    obtain ⟨e, -, hwrite, hal, haddr, -, hleaf⟩ := hres
    have hleaf' : ∀ v, A.Own v → A.leaf r'.w.mem root v = if v = devicePage A then e else A.leaf r.w.mem root v := by
      intro v hv
      rw [← hpage]; exact hleaf v hv
    refine ⟨hg, fun v hv hn => (hleaf' v hv).trans (if_neg hn), Or.inr ?_⟩
    show A.fmt.addr (A.leaf r'.w.mem root (devicePage A)) = phys ∧ phys % PAGE_SIZE = 0 ∧
      (A.writable (A.leaf r'.w.mem root (devicePage A)) = true → perms.write = true)
    rw [hleaf' _ (devicePage_own A), if_pos rfl]
    exact ⟨(haddr (by rw [hpa]; exact hphys)).trans hpa, hpa ▸ hal, fun hw => hwrite ▸ hw⟩

/-! ## `map_device` -/

namespace KState

variable (A : Arch) (s : KState) (p : ℕ)

/-- the page tables of process `p`, outside the entries it shares with the kernel -/
def tables : Set ℕ := A.tables s.w.mem (A.root (s.procs p).token)

/-- the entry process `p` sees page `v` through -/
def leaf (v : ℕ) : Word := A.leaf s.w.mem (A.root (s.procs p).token) v

end KState

/-- the base is one `map_device` maps -/
def Admitted (A : Arch) (C : Config) (phys : ℕ) : Prop := (C.devicePhys ≠ 0 ∧ phys = C.devicePhys) ∨ isDevice A C phys = true

instance (phys : ℕ) : Decidable (Admitted A C phys) := inferInstanceAs (Decidable (_ ∨ _))

/-- what mapping leaves of the caller's space: the window aside, the leaves are as before, and new tables were free -/
structure Outcome (A : Arch) (s t : KState) (cur : ℕ) : Prop where
  token : (t.procs cur).token = (s.procs cur).token
  tree : A.Tree t.w.mem (A.root (s.procs cur).token)
  tables : ∀ a ∈ t.tables A cur, a ∈ s.tables A cur ∨ a ∈ freeAddrs s.w.fa
  rest : ∀ v, A.Own v → v ≠ devicePage A → t.leaf A cur v = s.leaf A cur v

section Device

variable {F rest : Multiset ℕ} {s : KState} {cur : ℕ}

/-- the flags `map_device` asks for exist, and permit a write exactly if asked to -/
theorem window_flags (hA : A = X86 ∨ A = Riscv) (w : Bool) (phys : ℕ) :
    ∃ fl, A.encode ⟨w, false, true, isDevice A C phys⟩ = some fl ∧ A.permits true (A.flags fl ||| A.presentFlag) = w := by
  rcases hA with rfl | rfl
  · generalize isDevice X86 C phys = d
    exact ⟨_, rfl, by cases w <;> cases d <;> decide⟩
  · have hd : isDevice Riscv C phys = false := rfl
    rw [hd]
    exact ⟨_, rfl, by cases w <;> decide⟩

/-- a present entry hangs from a table -/
theorem reach_of_present {U : Mmu} {m : Mem} {root v : ℕ} (h : U.fmt.present (U.leaf m root v) = true) :
    RadixTree.tableAt U.fmt m root (RadixTree.path U.depth v) ≠ none := by
  intro hn
  rw [Mmu.leaf, RadixTree.leaf, hn] at h
  exact absurd (U.fmt.present_empty.symm.trans h) (by decide)

theorem mapDevice_refused {phys : ℕ} {w : Bool} (h : ¬Admitted A C phys) :
    mapDevice A C cur phys DEVICE_PAGES w s = (none, s) := by
  exact if_pos (Or.inl h)

/-- **`map_device`**: the window as asked for, or none. With an aligned base it fails only where no window was. -/
theorem mapDevice_outcome (hA : A = X86 ∨ A = Riscv)
    (h : Built (supply A F rest) (A.root (s.procs cur).token) (s.allocFor cur)) {phys : ℕ} {w : Bool} (hadm : Admitted A C phys) :
    Outcome A s (mapDevice A C cur phys DEVICE_PAGES w s).2 cur ∧
      match (mapDevice A C cur phys DEVICE_PAGES w s).1 with
      | none => A.fmt.present ((mapDevice A C cur phys DEVICE_PAGES w s).2.leaf A cur (devicePage A)) = false ∧
          (phys % PAGE_SIZE = 0 → A.fmt.present (s.leaf A cur (devicePage A)) = false)
      | some va => va = A.userMmioBase ∧ phys % PAGE_SIZE = 0 ∧
          (mapDevice A C cur phys DEVICE_PAGES w s).2.cr3 = (s.procs cur).token ∧ ∃ fl,
          A.encode ⟨w, false, true, isDevice A C phys⟩ = some fl ∧
          (mapDevice A C cur phys DEVICE_PAGES w s).2.leaf A cur (devicePage A) = A.entry phys fl := by
  obtain ⟨fl, hfl, -⟩ := window_flags (C := C) hA w phys
  obtain ⟨hok, -⟩ := A.encode_spec _ _ hfl
  set root := A.root (s.procs cur).token with hroot
  have hown := devicePage_own A
  -- the old window is dropped first
  have hclear := unmap_cleared A.userMmioBase hown h.tree
  set u := s.unmapPages A cur A.userMmioBase DEVICE_PAGES with hu
  have hwithin := hclear.within h
  have hub : Built (supply A F rest) root (u.allocFor cur) := hwithin.built
  have habs : A.fmt.present (A.leaf u.w.mem root (devicePage A)) = false := hclear.gone _ hown rfl
  have hmap := map_spec (U := A.toMmu) (r := u.allocFor cur) phys fl (show A.toMmu.Own (A.userMmioBase / PAGE_SIZE) from hown) hub
  have hdef : mapDevice A C cur phys DEVICE_PAGES w s =
      match map A.toMmu root A.userMmioBase phys fl (u.allocFor cur) with
      | (.error _, r) => (none, u.afterAlloc cur r)
      | (.ok _, r) => (some A.userMmioBase, (u.afterAlloc cur r).setCr3 (s.procs cur).token) := by
    rw [mapDevice, if_neg (by rintro (hn | hn); exacts [hn hadm, absurd hn (by decide)])]
    simp only [List.range_one, mapWindow, mapPage, zero_mul, add_zero, hfl]
    rw [← hu, show A.root (u.procs cur).token = root from rfl]
    rcases map A.toMmu root A.userMmioBase phys fl (u.allocFor cur) with ⟨_ | _, r⟩
    · rfl
    · rfl
  have houtcome : ∀ (r : RecordingAlloc) (t : KState), Grown (supply A F rest) root (u.allocFor cur) r →
      (∀ v, A.Own v → v ≠ devicePage A → A.leaf r.w.mem root v = A.leaf u.w.mem root v) →
      (t.procs cur).token = (s.procs cur).token → t.w.mem = r.w.mem → Outcome A s t cur := by
    intro r t hg hrest htok hmem
    refine ⟨htok, by rw [hmem]; exact hg.built.tree, fun a hx => ?_, fun v hv hne => ?_⟩
    · rw [KState.tables, htok, hmem] at hx
      rcases (hwithin.trans hg.toWithin).tables a hx with hx | hx
      · exact Or.inl hx
      · exact Or.inr hx.1
    · rw [KState.leaf, htok, hmem, ← hroot, hrest v hv hne]
      exact hclear.keep v hv hne
  rw [hdef]
  obtain ⟨hg, hres⟩ := hmap
  rcases hm : map A.toMmu root A.userMmioBase phys fl (u.allocFor cur) with ⟨e | _, r⟩
  · rw [hm] at hg hres
    obtain ⟨-, hleaf⟩ := hres
    have htok : ((u.afterAlloc cur r).procs cur).token = (s.procs cur).token := by simp [KState.afterAlloc, u]
    refine ⟨houtcome r _ hg (fun v hv _ => hleaf v hv) htok rfl, ?_, fun hal => ?_⟩
    · rw [KState.leaf, htok]
      exact (congrArg A.fmt.present (hleaf _ hown)).trans habs
    · by_contra hpres
      rw [Bool.not_eq_false] at hpres
      -- with a table for the window the mapping goes through
      have hreach : RadixTree.tableAt A.fmt u.w.mem root (RadixTree.path A.depth (A.userMmioBase / PAGE_SIZE)) ≠ none := by
        have hlinks := hclear.links _ (A.valid_path hown)
        exact fun hn => reach_of_present hpres (hlinks.symm.trans hn)
      have hgo := map_ok (r := u.allocFor cur) hown hub A.mmio_aligned hal hok habs hreach
      rw [hm] at hgo
      exact absurd hgo (by simp)
  · rw [hm] at hg hres
    obtain ⟨⟨-, hal, -⟩, -, hleaf⟩ := hres
    refine ⟨houtcome r _ hg (fun v hv hne => (hleaf v hv).trans (if_neg hne)) ?_ rfl, rfl, hal, rfl, fl, hfl, ?_⟩
    · simp [KState.afterAlloc, u]
    · have htok : (((u.afterAlloc cur r).setCr3 (s.procs cur).token).procs cur).token = (s.procs cur).token := by
        simp [KState.afterAlloc, u]
      rw [KState.leaf, htok]
      exact (hleaf _ hown).trans (if_pos rfl)

end Device

/-! ## Building a space -/

/-- what using the allocator leaves: memory changed in frames that were free, and what its allocations and its stores keep
is kept -/
structure Drawn (P : Supply A.toMmu RecordingAlloc) (r r' : RecordingAlloc) : Prop where
  ok : P.Ok r'
  free : P.free r' ⊆ P.free r
  off : ∀ t, t ∉ P.free r → r'.w.mem t = r.w.mem t
  log : ∀ T : RecordingAlloc → Prop,
    (∀ u, P.Ok u → P.free u ⊆ P.free r → (∀ t, t ∉ P.free r → u.w.mem t = r.w.mem t) → T u → T u.allocFrame.2) →
    (∀ (u : RecordingAlloc) m, T u → T { u with w := { u.w with mem := m } }) → T r → T r'

theorem Drawn.alloc (h : P.Ok r) : Drawn P r r.allocFrame.2 :=
  ⟨P.ok_alloc r h, P.free_alloc r h, fun t ht => P.mem_alloc r t h ht,
    fun _ ha _ hT => ha r h (le_refl _) (fun _ _ => rfl) hT⟩

/-- a store to a frame that was free at the start -/
theorem Drawn.write {r' : RecordingAlloc} (h : Drawn P r r') {m : Mem} (hm : ∀ t, t ∉ P.free r → m t = r'.w.mem t) :
    Drawn P r { r' with w := { r'.w with mem := m } } := by
  have hfree : P.free { r' with w := { r'.w with mem := m } } = P.free r' := P.free_write r' m h.ok
  exact ⟨P.ok_write r' m h.ok, hfree ▸ h.free, fun t ht => (hm t ht).trans (h.off t ht),
    fun T ha hw hT => hw _ _ (h.log T ha hw hT)⟩

/-- growing a space whose pages were free at the start -/
theorem Drawn.grown {r' r'' : RecordingAlloc} (h : Drawn P r r') (hg : Grown P root r' r'')
    (htab : ∀ t ∈ A.tables r'.w.mem root, t ∈ P.free r) : Drawn P r r'' := by
  have hoff : ∀ u, Within P root r' u → ∀ t, t ∉ P.free r → u.w.mem t = r.w.mem t := by
    intro u hu t ht
    exact (hu.off t (fun hc => ht (htab t hc)) fun hc => ht (h.free hc)).trans (h.off t ht)
  refine ⟨hg.built.ok, fun p hp => h.free (hg.free hp), hoff r'' hg.toWithin, fun T ha hw hT => ?_⟩
  refine hg.log T (fun u hu hTu => ?_) hw (h.log T ha hw hT)
  exact ha u hu.built.ok (fun p hp => h.free (hu.free hp)) (hoff u hu) hTu

/-- **A fresh root** with the kernel's entries in it is a space without leaves. -/
theorem newSpace_spec {r' : RecordingAlloc} (h : P.Ok r) (hc : Vspace.create A.toMmu r = (some root, r'))
    (hkroot : A.root C.ktoken ∉ P.free r) :
    let u : RecordingAlloc := { r' with w := { r'.w with mem := Vspace.shareKernel A.toMmu r'.w.mem root C.ktoken } }
    Built P root u ∧ Drawn P r u ∧ root ∈ P.free r ∧ root ∉ P.free u ∧ A.tables u.w.mem root = {root} ∧
      (∀ v, A.Own v → A.fmt.present (A.leaf u.w.mem root v) = false) ∧
      ∀ i < A.kernelEntries, u.w.mem root i = r.w.mem (A.root C.ktoken) i := by
  intro u
  obtain ⟨hbuilt, ⟨hfree, hgone, -⟩, ⟨htab, habs⟩, hshare, hoff⟩ := create_spec h hc hkroot
  refine ⟨hbuilt, ?_, hfree, hgone, htab, habs, hshare⟩
  have hd := Drawn.alloc (P := P) h
  rw [Vspace.create] at hc
  rcases ha : FrameAllocator.allocFrame r with ⟨_ | g, r₁⟩
  · rw [ha] at hc; simp at hc
  rw [ha] at hc
  have hr' := (Prod.mk.inj hc).2
  have hu : u = { r₁ with w := { r₁.w with mem := u.w.mem } } := by
    simp only [u, ← hr']; rfl
  have hd₁ : Drawn P r r₁ := by
    have h₁ : r.allocFrame.2 = r₁ := congrArg Prod.snd ha
    rwa [h₁] at hd
  rw [hu]
  refine hd₁.write fun t ht => ?_
  exact (hoff t ht).trans (hd₁.off t ht).symm

/-- the pages the image and the stack are loaded to; not the device window, if the image keeps below it -/
def loadedPages (A : Arch) (elf : List Byte) : Set ℕ := {v | Loader.BelowDevice A elf → v ≠ devicePage A}

theorem segment_loaded {elf : List Byte} {g : Loader.Segment} (hg : Loader.Loads A elf g) {va : ℕ}
    (hva : va ∈ Loader.segmentPages g) : va / PAGE_SIZE ∈ loadedPages A elf := by
  intro hb
  have h1 := hb g hg
  have h2 := A.mmio_aligned
  simp only [Loader.segmentPages, List.mem_map, List.mem_range] at hva
  obtain ⟨k, hk, rfl⟩ := hva
  simp only [devicePage, pageAddr, PAGE_SIZE] at *
  omega

theorem stack_loaded {elf : List Byte} {p : ℕ} (hp : 1 ≤ p ∧ p ≤ A.userStackPages) :
    (A.userStackTop - p * PAGE_SIZE) / PAGE_SIZE ∈ loadedPages A elf := by
  intro _
  have h1 := A.mmio_below
  have h2 := A.mmio_aligned
  have h3 : p * PAGE_SIZE ≤ A.userStackPages * PAGE_SIZE := Nat.mul_le_mul_right _ hp.2
  simp only [devicePage, PAGE_SIZE] at *
  omega

/-- a space that was built under `root` -/
structure NewSpace (A : Arch) (C : Config) (P : Supply A.toMmu RecordingAlloc) (root : ℕ) (r r' : RecordingAlloc) : Prop where
  built : Built P root r'
  root_free : root ∈ P.free r
  root_gone : root ∉ P.free r'
  tables : ∀ t ∈ A.tables r'.w.mem root, t ∈ P.free r
  leaves : Loader.OwnLeaves P (P.free r) (loadedPages A C.userElf) root r'
  shared : ∀ i < A.kernelEntries, r'.w.mem root i = r.w.mem (A.root C.ktoken) i

theorem NewSpace.grown {r₁ r₂ : RecordingAlloc} (h : NewSpace A C P root r r₁) (hd : Drawn P r r₁)
    (hg : Grown P root r₁ r₂) (ho : Loader.OwnLeaves P (P.free r) (loadedPages A C.userElf) root r₂) :
    NewSpace A C P root r r₂ ∧ Drawn P r r₂ := by
  refine ⟨⟨hg.built, h.root_free, fun hc => h.root_gone (hg.free hc), fun t ht => ?_, ho, fun i hi => ?_⟩,
    hd.grown hg h.tables⟩
  · rcases hg.tables t ht with ht | ht
    · exact h.tables t ht
    · exact hd.free ht.1
  · exact (hg.shared i (by simpa [Mmu.window] using hi)).trans (h.shared i hi)

/-- **`load_process` builds a space of fresh frames**, or takes none for good. -/
theorem buildSpace_spec (hin : Loader.Inside A C.userElf) (h : P.Ok r) (hkroot : A.root C.ktoken ∉ P.free r) :
    Drawn P r (buildSpace A C r).2 ∧ ∀ token entry, (buildSpace A C r).1 = some (token, entry) →
      ∃ root, token = A.token root ∧ NewSpace A C P root r (buildSpace A C r).2 := by
  rw [buildSpace]
  rcases hc : Vspace.create A.toMmu r with ⟨_ | root, r₁⟩
  · refine ⟨?_, fun token entry he => by simp at he⟩
    rw [Vspace.create] at hc
    have hd := Drawn.alloc (P := P) h
    rw [show FrameAllocator.allocFrame r = r.allocFrame from rfl] at hc
    rcases ha : r.allocFrame with ⟨_ | g, r'⟩
    · rw [ha] at hc hd
      obtain ⟨-, rfl⟩ := Prod.mk.inj hc
      exact hd
    · rw [ha] at hc
      simp at hc
  simp only
  obtain ⟨hb, hd, hrf, hrg, htab, habs, hsh⟩ := newSpace_spec (C := C) h hc hkroot
  set u : RecordingAlloc := { r₁ with w := { r₁.w with mem := Vspace.shareKernel A.toMmu r₁.w.mem root C.ktoken } }
  have hnew : NewSpace A C P root r u := by
    refine ⟨hb, hrf, hrg, fun t ht => ?_, fun v hv hp => ?_, hsh⟩
    · rw [htab] at ht
      obtain rfl := ht
      exact hrf
    · have := habs v hv
      rw [show FrameAllocator.mem u = u.w.mem from rfl, this] at hp
      exact absurd hp (by decide)
  obtain ⟨hg, ho⟩ := Loader.loadElf_spec hin (fun g hg va hva => segment_loaded hg hva) hb hnew.leaves hd.free
  rcases he : Loader.loadElf A C.userElf root u with ⟨e | entry, r₂⟩
  · rw [he] at hg ho
    exact ⟨(hnew.grown hd hg ho).2, fun token entry he => by simp at he⟩
  rw [he] at hg ho
  obtain ⟨hnew₂, hd₂⟩ := hnew.grown hd hg ho
  simp only
  have hps : ∀ p ∈ List.range' 1 A.userStackPages, (1 ≤ p ∧ p ≤ A.userStackPages) ∧
      (A.userStackTop - p * PAGE_SIZE) / PAGE_SIZE ∈ loadedPages A C.userElf := by
    intro p hp
    rw [List.mem_range'_1] at hp
    have hp' : 1 ≤ p ∧ p ≤ A.userStackPages := ⟨hp.1, by omega⟩
    exact ⟨hp', stack_loaded hp'⟩
  obtain ⟨hg₃, ho₃⟩ := Loader.loadStack_spec hps hnew₂.built hnew₂.leaves hd₂.free
  rcases hst : Loader.loadStack A root (List.range' 1 A.userStackPages) r₂ with ⟨_ | _, r₃⟩
  · rw [hst] at hg₃ ho₃
    exact ⟨(hnew₂.grown hd₂ hg₃ ho₃).2, fun token entry he => by simp at he⟩
  · rw [hst] at hg₃ ho₃
    obtain ⟨hnew₃, hd₃⟩ := hnew₂.grown hd₂ hg₃ ho₃
    refine ⟨hd₃, fun token entry he => ⟨root, ?_, hnew₃⟩⟩
    simp only [Option.some.injEq, Prod.mk.injEq] at he
    exact he.1.symm

end Rustproof.Kernel
