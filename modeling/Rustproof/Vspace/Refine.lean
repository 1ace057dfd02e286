/-
The page-table trees against an abstract map (`crates/vspace`, `crates/vspace-riscv`).

`PageMap` says what a tree is for: which pages are mapped, each to a physical page and flags. It knows no table, level or
frame. `replay` runs it along the calls made on a tree and the answers they gave; `Explains` says which answers a map
allows. `Shows` ties a tree to a map, leaf by leaf, and is what every call keeps.
- `exec_shows`: one call's answer is one the map allows, and the map that follows shows the tree that follows.
- `tree_refines`: so it is for every tree, from `create` on, after any calls, on both instruction sets.
-/
import Rustproof.Vspace.Spec
import Rustproof.Hal.X86
import Rustproof.Hal.Riscv

namespace Rustproof.Vspace

open Lib RadixTree FrameAllocator

/-! ## The abstract map -/

/-- the mapped pages, each with its physical page and flags -/
abbrev PageMap := ℕ → Option (ℕ × Word)

inductive PageOp where
  | map (va pa : ℕ) (flags : Word)
  | unmap (va : ℕ)

inductive Answer where
  | mapped (res : Except MapError Unit)
  | unmapped (frame : Option ℕ)

section

variable (U : Mmu)

/-- the map after a call: a successful `map` adds its page, an `unmap` that found a page removes it -/
def PageMap.step (μ : PageMap) : PageOp × Answer → PageMap
  | (.map va pa flags, .mapped (.ok _)) =>
    fun v => if v = va / PAGE_SIZE then some (pa, U.flags flags ||| U.presentFlag) else μ v
  | (.unmap va, .unmapped (some _)) => fun v => if v = va / PAGE_SIZE then none else μ v
  | _ => μ

/-- the map after a list of calls, from the empty map -/
def replay (calls : List (PageOp × Answer)) : PageMap := calls.foldl (PageMap.step U) fun _ => none

/-- the answers a map allows -/
def Explains (μ : PageMap) : PageOp → Answer → Prop
  | .map va pa flags, .mapped (.ok _) =>
    va % PAGE_SIZE = 0 ∧ pa % PAGE_SIZE = 0 ∧ U.flagsOk flags = true ∧ μ (va / PAGE_SIZE) = none
  | .map va _ _, .mapped (.error .unalignedVirt) => va % PAGE_SIZE ≠ 0
  | .map _ pa _, .mapped (.error .unalignedPhys) => pa % PAGE_SIZE ≠ 0
  | .map _ _ flags, .mapped (.error .invalidLeafFlags) => U.flagsOk flags = false
  | .map va _ _, .mapped (.error .alreadyMapped) => μ (va / PAGE_SIZE) ≠ none
  | .map va _ _, .mapped (.error .outOfFrames) => μ (va / PAGE_SIZE) = none
  | .map _ _ _, .mapped (.error .hugePagePresent) => False
  | .unmap va, .unmapped (some frame) => ∃ flags, μ (va / PAGE_SIZE) = some (frame, flags)
  | .unmap va, .unmapped none => μ (va / PAGE_SIZE) = none
  | _, _ => False

end

/-! ## The calls on a tree -/

section

variable (U : Mmu) {α : Type} [FrameAllocator α] (root : ℕ)

def PageOp.exec (op : PageOp) (r : α) : Answer × α :=
  match op with
  | .map va pa flags => (.mapped (Vspace.map U root va pa flags r).1, (Vspace.map U root va pa flags r).2)
  | .unmap va => (.unmapped (Vspace.unmap U (mem r) root va).1, setMem r (Vspace.unmap U (mem r) root va).2)

/-- a list of calls, each with its answer -/
def runOps : List PageOp → α → List (PageOp × Answer) × α
  | [], r => ([], r)
  | op :: ops, r =>
    let (answer, r) := op.exec U root r
    let (calls, r) := runOps ops r
    ((op, answer) :: calls, r)

end

/-- the physical address of a call is one an entry can carry, and its page one the tree has -/
def PageOp.InRange (vaLimit paLimit : ℕ) : PageOp → Prop
  | .map va pa _ => va < vaLimit ∧ pa < paLimit
  | .unmap va => va < vaLimit

/-! ## A tree that shows a map -/

variable {U : Mmu} {α : Type} [FrameAllocator α] {P : Supply U α} {root : ℕ} {r : α} {μ : PageMap}

/-- the last-level entry of a page the map gives `x` -/
def Entry (U : Mmu) (e : Word) : Option (ℕ × Word) → Prop
  | none => U.fmt.present e = false
  | some (pa, flags) =>
    U.fmt.present e = true ∧ U.fmt.isLeaf e = true ∧ pa % PAGE_SIZE = 0 ∧ U.fmt.addr e = pa ∧ U.flags e = flags

structure Shows (P : Supply U α) (root : ℕ) (μ : PageMap) (r : α) : Prop where
  built : Built P root r
  entry : ∀ v, U.Own v → Entry U (U.leaf (mem r) root v) (μ v)

theorem Entry.present_iff {e : Word} {x : Option (ℕ × Word)} (h : Entry U e x) :
    U.fmt.present e = true ↔ x ≠ none := by
  cases x with
  | none => rw [Entry] at h; simp [h]
  | some y => simp [h.1]

/-- the walks read the map -/
theorem Shows.reads (h : Shows P root μ r) {va : ℕ} (hv : U.Own (va / PAGE_SIZE)) :
    translate U (mem r) root va = (μ (va / PAGE_SIZE)).map (fun (pa, _) => pa + va % PAGE_SIZE) ∧
      leafFlags U (mem r) root va = (μ (va / PAGE_SIZE)).map Prod.snd := by
  have hwalk := walk_eq_leaf h.built.tree (U.window_path hv)
  have hentry := h.entry _ hv
  rw [Mmu.leaf] at hentry
  rw [translate, leafFlags, hwalk]
  rcases hμ : μ (va / PAGE_SIZE) with _ | ⟨pa, flags⟩
  · rw [hμ] at hentry
    rw [if_neg fun hc => absurd (hc.1.symm.trans hentry) (by decide)]
    exact ⟨rfl, rfl⟩
  · rw [hμ] at hentry
    obtain ⟨hpres, hleaf, hal, haddr, hflags⟩ := hentry
    rw [if_pos ⟨hpres, hleaf⟩]
    simp only [Option.map_some, pow_zero, one_mul, haddr, hflags, and_true, Option.some.injEq]
    rw [Nat.div_mul_cancel (Nat.dvd_of_mod_eq_zero hal)]

/-! ## One call -/

section Call

variable {op : PageOp} (hop : op.InRange (512 ^ (U.depth + 1) * PAGE_SIZE) U.physLimit) (hw : U.kernelEntries = 0)

include hw

/-- a tree that shares no entry with the kernel has every page below the top of its levels -/
theorem own_of_lt {va : ℕ} (h : va < 512 ^ (U.depth + 1) * PAGE_SIZE) : U.Own (va / PAGE_SIZE) :=
  ⟨Nat.div_lt_of_lt_mul (by rwa [Nat.mul_comm]), by rw [Mmu.window, hw]; exact Nat.zero_le _⟩

include hop

/-- a link that is there stays, whatever is called -/
theorem exec_links (h : Shows P root μ r) {p : List ℕ} (hp : Valid U.depth U.window p) {t : ℕ}
    (ht : tableAt U.fmt (mem r) root p = some t) : tableAt U.fmt (mem (op.exec U root r).2) root p = some t := by
  cases op with
  | map va pa flags => exact (map_spec pa flags (own_of_lt hw hop.1) h.built).1.links p t hp ht
  | unmap va =>
    rw [PageOp.exec, mem_setMem, (unmap_frame (own_of_lt hw hop) h.built.tree).2 p hp]
    exact ht

/-- **One call**: its answer is one the map allows, and the map that follows shows the tree that follows. -/
theorem exec_shows (h : Shows P root μ r) :
    Explains U μ op (op.exec U root r).1 ∧
      Shows P root (μ.step U (op, (op.exec U root r).1)) (op.exec U root r).2 := by
  cases op with
  | map va pa flags =>
    have hv := own_of_lt hw hop.1
    obtain ⟨hgrown, hres⟩ := map_spec pa flags hv h.built
    have hiff := (h.entry _ hv).present_iff
    rw [PageOp.exec]
    rcases hm : map U root va pa flags r with ⟨e | u, r'⟩
    · rw [hm] at hgrown hres
      obtain ⟨hwhy, hleaf⟩ := hres
      refine ⟨?_, hgrown.built, fun v hvv => by rw [hleaf v hvv]; exact h.entry v hvv⟩
      cases e with
      | unalignedVirt => exact hwhy
      | unalignedPhys => exact hwhy
      | invalidLeafFlags => exact hwhy
      | alreadyMapped => exact hiff.1 hwhy
      | hugePagePresent => exact hwhy
      | outOfFrames =>
        -- no table, so no leaf
        have habs : U.leaf (mem r) root (va / PAGE_SIZE) = U.fmt.empty := leaf_of_none hwhy
        by_contra hc
        have hpres := hiff.2 hc
        rw [habs, U.fmt.present_empty] at hpres
        exact absurd hpres (by decide)
    · rw [hm] at hgrown hres
      obtain ⟨⟨h1, h2, h3⟩, habs, hleaf⟩ := hres
      refine ⟨⟨h1, h2, h3, ?_⟩, hgrown.built, fun v hvv => ?_⟩
      · by_contra hc
        exact absurd ((hiff.2 hc).symm.trans habs) (by decide)
      rw [hleaf v hvv]
      simp only [PageMap.step]
      split_ifs
      · obtain ⟨hpres, hlf⟩ := U.entry_present pa flags h3
        exact ⟨hpres, hlf, h2, U.entry_addr pa flags h2 hop.2, U.entry_flags pa flags⟩
      · exact h.entry v hvv
  | unmap va =>
    have hv := own_of_lt hw hop
    obtain ⟨hT, htab, -, hoff, habs⟩ := unmap_spec hv h.built.tree
    have hframe := (unmap_frame hv h.built.tree).1
    have hentry := h.entry _ hv
    have hbuilt : Built P root (setMem r (unmap U (mem r) root va).2) :=
      ⟨P.ok_write r _ h.built.ok, by rw [mem_setMem]; exact hT, fun t ht => by
        rw [mem_setMem, htab] at ht
        rw [P.free_write r _ h.built.ok]; exact h.built.apart t ht⟩
    rw [PageOp.exec, hframe]
    rcases hμ : μ (va / PAGE_SIZE) with _ | ⟨pa, flags⟩
    · rw [hμ, Entry] at hentry
      rw [hentry, if_neg (by decide)]
      refine ⟨hμ, hbuilt, fun v hvv => ?_⟩
      rw [mem_setMem]
      by_cases hve : v = va / PAGE_SIZE
      · subst hve; simp only [PageMap.step, hμ]; exact habs
      · rw [hoff v hvv hve]; exact h.entry v hvv
    · rw [hμ] at hentry
      obtain ⟨hpres, -, -, haddr, -⟩ := hentry
      rw [if_pos hpres, haddr]
      refine ⟨⟨flags, hμ⟩, hbuilt, fun v hvv => ?_⟩
      rw [mem_setMem]
      simp only [PageMap.step]
      split_ifs with hve
      · subst hve; exact habs
      · rw [hoff v hvv hve]; exact h.entry v hvv

end Call

/-! ## A run of calls -/

section Run

variable (hw : U.kernelEntries = 0) {ops : List PageOp}

include hw

/-- a run keeps showing its map, and the links it has -/
theorem run_shows (hops : ∀ op ∈ ops, op.InRange (512 ^ (U.depth + 1) * PAGE_SIZE) U.physLimit) (h : Shows P root μ r) :
    Shows P root ((runOps U root ops r).1.foldl (PageMap.step U) μ) (runOps U root ops r).2 ∧
      ∀ p t, Valid U.depth U.window p → tableAt U.fmt (mem r) root p = some t →
        tableAt U.fmt (mem (runOps U root ops r).2) root p = some t := by
  induction ops generalizing r μ with
  | nil => exact ⟨h, fun _ _ _ ht => ht⟩
  | cons op ops ih =>
    have hop := hops op (List.mem_cons_self ..)
    obtain ⟨h1, h2⟩ := ih (fun o ho => hops o (List.mem_cons_of_mem _ ho)) (exec_shows hop hw h).2
    exact ⟨h1, fun p t hp ht => h2 p t hp (exec_links hop hw h hp ht)⟩

/-- an address that was mapped once is aligned and has its tables from then on -/
theorem run_reaches (hops : ∀ op ∈ ops, op.InRange (512 ^ (U.depth + 1) * PAGE_SIZE) U.physLimit) (h : Shows P root μ r)
    {va pa : ℕ} {flags : Word} (hmem : (.map va pa flags, .mapped (.ok ())) ∈ (runOps U root ops r).1) :
    va % PAGE_SIZE = 0 ∧ U.Own (va / PAGE_SIZE) ∧
      tableAt U.fmt (mem (runOps U root ops r).2) root (path U.depth (va / PAGE_SIZE)) ≠ none := by
  induction ops generalizing r μ with
  | nil => simp [runOps] at hmem
  | cons op ops ih =>
    have hop := hops op (List.mem_cons_self ..)
    have hops' : ∀ o ∈ ops, o.InRange (512 ^ (U.depth + 1) * PAGE_SIZE) U.physLimit :=
      fun o ho => hops o (List.mem_cons_of_mem _ ho)
    obtain ⟨hans', hnext⟩ := exec_shows hop hw h
    rw [runOps] at hmem
    rcases List.mem_cons.1 hmem with heq | hmem
    · obtain ⟨rfl, hans⟩ := Prod.mk.inj heq
      have hv := own_of_lt hw hop.1
      rw [← hans] at hnext hans'
      refine ⟨hans'.1, hv, ?_⟩
      have hentry := hnext.entry _ hv
      simp only [PageMap.step, if_true] at hentry
      -- a present leaf stands in a table
      cases ht : tableAt U.fmt (mem (PageOp.exec U root (.map va pa flags) r).2) root (path U.depth (va / PAGE_SIZE)) with
      | none =>
        have habs : U.leaf (mem (PageOp.exec U root (.map va pa flags) r).2) root (va / PAGE_SIZE) = U.fmt.empty :=
          leaf_of_none ht
        rw [habs] at hentry
        exact absurd (hentry.1.symm.trans U.fmt.present_empty) (by decide)
      | some t =>
        rw [runOps]
        simp only
        rw [(run_shows hw hops' hnext).2 _ t (U.valid_path hv) ht]
        simp
    · exact ih hops' hnext hmem

end Run

/-- a new root shows the empty map -/
theorem create_shows {r₀ : α} (hok : P.Ok r₀) (hc : create U r₀ = (some root, r)) : Shows P root (fun _ => none) r := by
  rw [create] at hc
  rcases ha : allocFrame r₀ with ⟨_ | g, r'⟩
  · rw [ha] at hc; simp at hc
  rw [ha] at hc
  simp only [Prod.mk.injEq, Option.some.injEq] at hc
  obtain ⟨rfl, rfl⟩ := hc
  obtain ⟨-, hgone⟩ := P.fresh r₀ g hok (by rw [ha])
  have hok' := P.ok_alloc r₀ hok
  rw [ha] at hgone hok'
  have hempty : ∀ i, U.window i → U.fmt.present ((mem r').fill g U.fmt.empty g i) = false := fun i _ => by
    rw [Store.fill_self]; exact U.fmt.present_empty
  obtain ⟨hT, htab⟩ := Tree.fresh U.fmt U.depth hempty
  refine ⟨⟨P.ok_write _ _ hok', by rw [mem_setMem]; exact hT, fun t ht => ?_⟩, fun v hv => ?_⟩
  · rw [mem_setMem, Mmu.tables, htab] at ht
    obtain rfl := ht
    rw [P.free_write _ _ hok']; exact hgone
  · rw [mem_setMem, Mmu.leaf, leaf_fresh U.depth_pos hempty (U.valid_path hv) (length_path _ _)]
    exact U.fmt.present_empty

/-! ## The two instruction sets -/

inductive Isa where
  | x86_64
  | sv39

namespace Isa

/-- a whole tree of the instruction set: no entry is left to the kernel -/
def mmu : Isa → Mmu
  | .x86_64 => { X86.mmu with kernelEntries := 0 }
  | .sv39 => { Riscv.mmu with kernelEntries := 0 }

/-- one past the last virtual address the tree has a page for -/
def vaLimit : Isa → ℕ
  | .x86_64 => 2 ^ 48
  | .sv39 => 2 ^ 39

/-- one past the last physical address an entry carries -/
def paLimit : Isa → ℕ
  | .x86_64 => 2 ^ 52
  | .sv39 => 2 ^ 56

theorem kernelEntries_mmu (isa : Isa) : isa.mmu.kernelEntries = 0 := by cases isa <;> rfl

theorem vaLimit_eq (isa : Isa) : isa.vaLimit = 512 ^ (isa.mmu.depth + 1) * PAGE_SIZE := by
  cases isa with
  | x86_64 => show 2 ^ 48 = 512 ^ (3 + 1) * 4096; norm_num
  | sv39 => show 2 ^ 39 = 512 ^ (2 + 1) * 4096; norm_num

theorem paLimit_eq (isa : Isa) : isa.paLimit = isa.mmu.physLimit := by cases isa <;> rfl

end Isa

/-- **A page-table tree refines the abstract map**, on both instruction sets: after any calls on a tree made by `create`,
the walks read exactly the map the answers give, each next answer is one that map allows, and a page that was ever
mapped and is not mapped now can be mapped again. -/
theorem tree_refines (isa : Isa) (P : Supply isa.mmu α) {r₀ : α} (hok : P.Ok r₀) (hc : create isa.mmu r₀ = (some root, r))
    (ops : List PageOp) (hops : ∀ op ∈ ops, op.InRange isa.vaLimit isa.paLimit) :
    let calls := (runOps isa.mmu root ops r).1
    let r' := (runOps isa.mmu root ops r).2
    let μ := replay isa.mmu calls
    (∀ va < isa.vaLimit,
      translate isa.mmu (mem r') root va = (μ (va / PAGE_SIZE)).map (fun (pa, _) => pa + va % PAGE_SIZE) ∧
        leafFlags isa.mmu (mem r') root va = (μ (va / PAGE_SIZE)).map Prod.snd) ∧
      (∀ op, op.InRange isa.vaLimit isa.paLimit → Explains isa.mmu μ op (op.exec isa.mmu root r').1) ∧
      ∀ va pa pa' flags flags', (.map va pa flags, .mapped (.ok ())) ∈ calls → μ (va / PAGE_SIZE) = none →
        pa' % PAGE_SIZE = 0 → isa.mmu.flagsOk flags' = true → (map isa.mmu root va pa' flags' r').1 = .ok () := by
  have hw := isa.kernelEntries_mmu
  rw [isa.vaLimit_eq, isa.paLimit_eq] at *
  have hstart := create_shows hok hc
  obtain ⟨hshows, -⟩ := run_shows hw hops hstart
  refine ⟨fun va hva => hshows.reads (own_of_lt hw hva), fun op hop => (exec_shows hop hw hshows).1,
    fun va pa pa' flags flags' hmem hμ hpa hfl => ?_⟩
  obtain ⟨hal, hv, hreach⟩ := run_reaches hw hops hstart hmem
  have hentry := hshows.entry _ hv
  rw [replay] at hμ
  rw [hμ] at hentry
  exact map_ok hv hshows.built hal hpa hfl hentry hreach

/-- the plainest supply: frames listed beforehand, handed out in order -/
structure FrameList where
  mem : Mem
  left : List ℕ

instance : FrameAllocator FrameList where
  mem r := r.mem
  setMem r m := { r with mem := m }
  allocFrame r := (r.left.head?, { r with left := r.left.tail })
  mem_setMem _ _ := rfl
  setMem_mem _ := rfl

def FrameList.supply (U : Mmu) : Supply U FrameList where
  Ok r := r.left.Nodup ∧ ∀ g ∈ r.left, U.fmt.Fits g
  free r := {g | g ∈ r.left}
  fits r g h hg := h.2 g hg
  ok_alloc r h := ⟨h.1.tail, fun g hg => h.2 g (List.mem_of_mem_tail hg)⟩
  ok_write _ _ h := h
  free_alloc _ _ _ hg := List.mem_of_mem_tail hg
  free_write _ _ _ := rfl
  fresh r g h hg := by
    obtain ⟨m, _ | ⟨f, left⟩⟩ := r
    · simp [allocFrame] at hg
    · obtain rfl := Option.some.inj hg
      exact ⟨List.mem_cons_self .., (List.nodup_cons.1 h.1).1⟩
  mem_alloc _ _ _ _ := rfl

/-- five listed frames: a page mapped, unmapped and mapped elsewhere, on both instruction sets -/
theorem remapped_page_refines :
    let r₀ : FrameList := ⟨fun _ _ => 0, [0x1000, 0x2000, 0x3000, 0x4000, 0x5000]⟩
    let ops : List PageOp := [.map 0x400000 0x200000 0xE, .unmap 0x400000, .map 0x400000 0x300000 0x1E]
    ∀ isa : Isa, (create isa.mmu r₀).1 = some 0x1000 ∧
      translate isa.mmu (mem (runOps isa.mmu 0x1000 ops (create isa.mmu r₀).2).2) 0x1000 0x400123 = some 0x300123 := by
  intro r₀ ops isa
  have hok : (FrameList.supply isa.mmu).Ok r₀ := by
    refine ⟨by decide, fun g hg => ?_⟩
    rw [isa.mmu.fits, ← isa.paLimit_eq]
    have hall : ∀ g ∈ r₀.left, g % PAGE_SIZE = 0 ∧ g < 2 ^ 52 := by decide
    have hle : 2 ^ 52 ≤ isa.paLimit := by cases isa <;> decide
    exact ⟨(hall g hg).1, lt_of_lt_of_le (hall g hg).2 hle⟩
  have hc : create isa.mmu r₀ = (some 0x1000, (create isa.mmu r₀).2) := rfl
  have hops : ∀ op ∈ ops, op.InRange isa.vaLimit isa.paLimit := by
    cases isa <;> simp [ops, PageOp.InRange, Isa.vaLimit, Isa.paLimit]
  have hread := ((tree_refines isa (FrameList.supply isa.mmu) hok hc ops hops).1 0x400123 (by cases isa <;> decide)).1
  refine ⟨rfl, hread.trans ?_⟩
  cases isa <;> decide +kernel

end Rustproof.Vspace
