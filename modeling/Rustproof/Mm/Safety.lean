/-
Safety of the allocator over whole runs: what a caller may rely on about every frame it is handed.

`SafeRun` is the contract: no frame is served while it is held, the general pool and the DMA arena stay on their sides of
`dma_top`, every frame served lies inside a usable region and meets no other, and the count and the tail bits are right.
- `step_apart`: held frames are listed once and none of them is free.
- `served_ok`: one allocation, from a state whose free frames were offered by the regions.
- `allocator_safe_iff`: the contract holds of every run exactly when nothing that is offered depends on an address that
  rounds up past 2^64. The constructor rounds `dma_top`, region starts and region ends with an unchecked addition.
- `unbounded_dma_shares_frame`: with `dma_top = u64::MAX` the general pool starts at frame 0, inside the arena.
-/
import Rustproof.Mm.Handout

namespace Rustproof.Mm

open Lib BitmapAllocator

/-! ## The contract -/

/-- the frames an operation hands out -/
def served (s : Pool) : Op → List ℕ
  | .allocFrame => handedOut s.a.allocFrame.1 1
  | .allocDmaFrame => handedOut s.a.allocDmaFrame.1 1
  | .allocContiguous pages => handedOut (s.a.allocContiguous pages).1 pages
  | .freeFrame _ => []

/-- frame `f` lies wholly inside `r` -/
def Inside (r : MemoryRegion) (f : ℕ) : Prop := r.start ≤ f * PAGE_SIZE ∧ (f + 1) * PAGE_SIZE ≤ r.start + r.len

/-- frame `f` has a byte of `r` -/
def Meets (r : MemoryRegion) (f : ℕ) : Prop := r.start < (f + 1) * PAGE_SIZE ∧ f * PAGE_SIZE < r.start + r.len

/-- the side of `dma_top` an operation serves from -/
def OnItsSide (reserveBelow dmaTop f : ℕ) : Op → Prop
  | .allocFrame | .allocContiguous _ => dmaTop ≤ f * PAGE_SIZE ∧ reserveBelow ≤ f * PAGE_SIZE
  | .allocDmaFrame => reserveBelow ≤ f * PAGE_SIZE ∧ f * PAGE_SIZE < dmaTop
  | .freeFrame _ => True

/-- frame `f` lies in one usable region and has no byte of a region that is not usable -/
def Usable (regions : List MemoryRegion) (f : ℕ) : Prop :=
  (∃ r ∈ regions, r.kind = .usable ∧ Inside r f) ∧ ∀ r ∈ regions, r.kind ≠ .usable → r.len ≠ 0 → ¬ Meets r f

/-- the frames below `total` whose bit is clear -/
def clearBits (a : BitmapAllocator) : ℕ := ((List.range a.total).filter fun f => !a.isUsed f).length

/-- what a run owes its callers -/
structure SafeRun (regions : List MemoryRegion) (words reserveBelow dmaTop : ℕ) (ops : List Op) : Prop where
  fresh : ∀ pre o, pre ++ [o] <+: ops → let s := run (freshPool regions words reserveBelow dmaTop) pre
    (served s o).Nodup ∧ ∀ f ∈ served s o, f ∉ s.held
  side : ∀ pre o, pre ++ [o] <+: ops → ∀ f ∈ served (run (freshPool regions words reserveBelow dmaTop) pre) o,
    OnItsSide reserveBelow dmaTop f o
  usable : ∀ pre o, pre ++ [o] <+: ops → ∀ f ∈ served (run (freshPool regions words reserveBelow dmaTop) pre) o,
    Usable regions f
  /-- no frame is ever served by both pools -/
  pools : ∀ pre o pre', pre ++ [o] <+: ops → pre' ++ [.allocDmaFrame] <+: ops →
    (o = .allocFrame ∨ ∃ pages, o = .allocContiguous pages) →
    ∀ f ∈ served (run (freshPool regions words reserveBelow dmaTop) pre) o,
      f ∉ served (run (freshPool regions words reserveBelow dmaTop) pre') .allocDmaFrame
  bits : ∀ pre, pre <+: ops → let a := (run (freshPool regions words reserveBelow dmaTop) pre).a
    a.free = clearBits a ∧ ∀ f, a.total ≤ f → f < 64 * words → a.isUsed f = true

/-! ## One step -/

theorem length_step (s : Pool) (o : Op) : (step s o).a.bitmap.length = s.a.bitmap.length := by
  cases o with
  | allocFrame =>
    rw [step, allocFrame]
    cases s.a.firstFree (max s.a.cursor s.a.generalFloor) with
    | none => rfl
    | some f => exact BitTable.length_mark _ _
  | allocDmaFrame =>
    rw [step, allocDmaFrame]
    simp only
    cases s.a.dmaScan (s.a.total - s.a.reserveBelow / PAGE_SIZE) (s.a.reserveBelow / PAGE_SIZE) with
    | none => rfl
    | some f => exact BitTable.length_mark _ _
  | allocContiguous pages =>
    rw [step, allocContiguous]
    split_ifs
    · rfl
    · simp only
      split
      · rfl
      · exact BitTable.length_markAll _ _
  | freeFrame addr =>
    rw [step, freeFrame]
    split_ifs
    · rfl
    · simp only
      split_ifs
      all_goals first | rfl | exact BitTable.length_clear _ _

/-- held frames are listed once, and none is free -/
structure Apart (s : Pool) : Prop where
  nodup : s.held.Nodup
  notFree : ∀ f ∈ s.held, f ∉ s.a.freeFrames

/-- the frames an allocation serves were free, are distinct and leave the free set -/
theorem served_spec {s : Pool} (h : Rep s.a) (o : Op) :
    (served s o).Nodup ∧ (∀ f ∈ served s o, f ∈ s.a.freeFrames) ∧
      ((∀ addr, o ≠ .freeFrame addr) → (step s o).held = s.held ++ served s o ∧
        (step s o).a.freeFrames = s.a.freeFrames \ (served s o).toFinset) := by
  cases o with
  | allocFrame =>
    cases hp : s.a.allocFrame.1 with
    | none => simp [served, step, handedOut, hp, (allocFrame_none hp).1]
    | some p =>
      obtain ⟨f, hf, rfl, _, _, _, _, _, hset⟩ := allocFrame_some h hp
      have hone : handedOut (some (frameAddr f)) 1 = [f] := by
        rw [handedOut, frameAddr_div (h.lt_bound (mem_freeFrames.1 hf).1)]; rfl
      simp [served, step, hp, hone, hset, hf, Finset.sdiff_singleton_eq_erase]
  | allocDmaFrame =>
    cases hp : s.a.allocDmaFrame.1 with
    | none => simp [served, step, handedOut, hp, (allocDmaFrame_none h hp).1]
    | some p =>
      obtain ⟨f, hf, rfl, _, _, _, _, _, hset⟩ := allocDmaFrame_some h hp
      have hone : handedOut (some (frameAddr f)) 1 = [f] := by
        rw [handedOut, frameAddr_div (h.lt_bound (mem_freeFrames.1 hf).1)]; rfl
      simp [served, step, hp, hone, hset, hf, Finset.sdiff_singleton_eq_erase]
  | allocContiguous pages =>
    cases hp : (s.a.allocContiguous pages).1 with
    | none => simp [served, step, handedOut, hp, (allocContiguous_none hp).1]
    | some p =>
      obtain ⟨b, rfl, hpos, hrun, _, _, _, _, _, hset⟩ := allocContiguous_some h hp
      have hb : b ∈ s.a.freeFrames := hrun b le_rfl (by omega)
      have hall : handedOut (some (frameAddr b)) pages = List.range' b pages := by
        rw [handedOut, frameAddr_div (h.lt_bound (mem_freeFrames.1 hb).1)]
      refine ⟨?_, fun f hf => ?_, fun _ => ⟨rfl, ?_⟩⟩
      · rw [served, hp, hall]; exact List.nodup_range' ..
      · rw [served, hp, hall, List.mem_range'_1] at hf
        exact hrun f hf.1 hf.2
      · rw [served, hp, hall]; exact hset
  | freeFrame addr => exact ⟨List.nodup_nil, fun f hf => absurd hf List.not_mem_nil, fun h => absurd rfl (h addr)⟩

theorem step_apart {s : Pool} (h : Rep s.a) (ha : Apart s) {o : Op} (ho : FreesHeld s o) : Apart (step s o) := by
  obtain ⟨hnd, hfree, halloc⟩ := served_spec h o
  by_cases hk : ∃ addr, o = .freeFrame addr
  · obtain ⟨addr, rfl⟩ := hk
    refine ⟨ha.nodup.erase _, fun f hf hc => ?_⟩
    -- the frame given back is no longer listed, the others stay out of the free set
    have hf' : f ∈ s.held ∧ f ≠ addr / PAGE_SIZE :=
      ⟨List.mem_of_mem_erase hf, fun e => (ha.nodup.mem_erase_iff.1 hf).1 e⟩
    rcases freeFrame_spec h addr with ⟨heq, _⟩ | ⟨_, _, _, _, hset⟩
    · rw [step, heq] at hc; exact ha.notFree f hf'.1 hc
    · rw [step, hset] at hc
      rcases Finset.mem_insert.1 hc with hc | hc
      · exact hf'.2 hc
      · exact ha.notFree f hf'.1 hc
  · obtain ⟨hheld, hset⟩ := halloc fun addr e => hk ⟨addr, e⟩
    refine ⟨?_, fun f hf hc => ?_⟩
    · rw [hheld, List.nodup_append]
      exact ⟨ha.nodup, hnd, fun a hsa b hb e => ha.notFree a hsa (hfree a (e ▸ hb))⟩
    · rw [hset, Finset.mem_sdiff, List.mem_toFinset] at hc
      rw [hheld] at hf
      exact (List.mem_append.1 hf).elim (fun hf => ha.notFree f hf hc.1) hc.2

theorem freesOnlyHeld_cons {s : Pool} {o : Op} {ops : List Op} :
    FreesOnlyHeld s (o :: ops) ↔ FreesHeld s o ∧ FreesOnlyHeld (step s o) ops := by
  constructor
  · intro h
    refine ⟨h [] o (List.cons_prefix_cons.2 ⟨rfl, List.nil_prefix⟩), fun pre o' hpre => ?_⟩
    exact h (o :: pre) o' (List.cons_prefix_cons.2 ⟨rfl, hpre⟩)
  · rintro ⟨h1, h2⟩ pre o' hpre
    cases pre with
    | nil => rw [(List.cons_prefix_cons.1 hpre).1]; exact h1
    | cons a pre =>
      obtain ⟨rfl, htail⟩ := List.cons_prefix_cons.1 hpre
      exact h2 pre o' htail

theorem run_apart {s : Pool} (h : Rep s.a) (ha : Apart s) {ops : List Op} (hops : FreesOnlyHeld s ops) :
    Apart (run s ops) := by
  induction ops using List.reverseRecOn with
  | nil => exact ha
  | append_singleton pre o ih =>
    rw [run_snoc]
    refine step_apart (run_rep h pre) (ih fun pre' o' hpre => ?_) (hops pre o (List.prefix_refl _))
    exact hops pre' o' (hpre.trans (List.prefix_append _ _))

/-- whoever holds a frame was served it -/
theorem exists_served {s : Pool} (h : Rep s.a) (hs : s.held = []) {ops : List Op} {f : ℕ}
    (hf : f ∈ (run s ops).held) : ∃ pre o, pre ++ [o] <+: ops ∧ f ∈ served (run s pre) o := by
  induction ops using List.reverseRecOn with
  | nil => rw [show run s [] = s from rfl, hs] at hf; exact absurd hf List.not_mem_nil
  | append_singleton pre o ih =>
    have hpast : f ∈ (run s pre).held → ∃ pre' o', pre' ++ [o'] <+: pre ++ [o] ∧ f ∈ served (run s pre') o' :=
      fun hm => by
        obtain ⟨pre', o', hp, hserved⟩ := ih hm
        exact ⟨pre', o', hp.trans (List.prefix_append _ _), hserved⟩
    rw [run_snoc] at hf
    obtain ⟨_, _, halloc⟩ := served_spec (run_rep h pre) o
    by_cases hk : ∃ addr, o = .freeFrame addr
    · obtain ⟨addr, rfl⟩ := hk
      exact hpast (List.mem_of_mem_erase hf)
    · rw [(halloc fun addr e => hk ⟨addr, e⟩).1] at hf
      rcases List.mem_append.1 hf with hf | hf
      · exact hpast hf
      · exact ⟨pre, o, List.prefix_refl _, hf⟩

/-! ## Rounding up -/

/-- `addr + PAGE_SIZE - 1` does not overflow -/
def RoundsUp (addr : ℕ) : Prop := addr + (PAGE_SIZE - 1) < U64

/-- a frame the constructor leaves free -/
def Offered (regions : List MemoryRegion) (words reserveBelow f : ℕ) : Prop :=
  f < trackedFrames regions words ∧ (∃ r ∈ regions, Frees r f) ∧ (∀ r ∈ regions, ¬ Takes r f) ∧
    reserveBelow ≤ f * PAGE_SIZE

/-- no offered frame depends on an address that rounds up past 2^64 -/
structure RoundsWell (regions : List MemoryRegion) (words reserveBelow dmaTop : ℕ) : Prop where
  top : ∀ f, Offered regions words reserveBelow f → RoundsUp dmaTop
  /-- a frame freed on account of a start that overflows lies in some usable region all the same -/
  start : ∀ f, Offered regions words reserveBelow f → ∀ r ∈ regions, Frees r f → ¬ RoundsUp r.start →
    ∃ r' ∈ regions, r'.kind = .usable ∧ Inside r' f
  /-- no region to be kept out, whose end overflows, starts at or below an offered frame -/
  stop : ∀ f, Offered regions words reserveBelow f → ∀ r ∈ regions, r.kind ≠ .usable → r.len ≠ 0 →
    r.start < (f + 1) * PAGE_SIZE → RoundsUp (r.start + r.len)

theorem Offered.lt {regions : List MemoryRegion} {words reserveBelow f : ℕ}
    (h : Offered regions words reserveBelow f) : f < 2 ^ 52 := lt_of_lt_of_le h.1 (trackedFrames_le regions words).1

theorem mem_fresh {regions : List MemoryRegion} {words reserveBelow dmaTop f : ℕ} :
    f ∈ (freshPool regions words reserveBelow dmaTop).a.freeFrames ↔ Offered regions words reserveBelow f :=
  mem_freeFrames_new regions words reserveBelow dmaTop f

/-- a frame freed on account of a start that rounds up lies inside the region, whether or not the end overflows -/
theorem inside_of_frees {r : MemoryRegion} (hs : r.start < U64) (hl : r.len < U64) {f : ℕ} (hf : Frees r f)
    (hr : RoundsUp r.start) : Inside r f := by
  obtain ⟨-, h2, h3, h4⟩ := hf
  rw [wadd_of_lt hr] at h3
  simp only [MemoryRegion.stop, wadd, RoundsUp, Inside, PAGE_SIZE, U64] at *
  by_cases ho : r.start + r.len < 2 ^ 64
  · rw [Nat.mod_eq_of_lt ho] at h2 h4
    omega
  · have hm : (r.start + r.len) % 2 ^ 64 = r.start + r.len - 2 ^ 64 := by omega
    rw [hm] at h2 h4
    omega

/-- an end that overflows lies past every frame -/
theorem meets_of_overflow {r : MemoryRegion} {f : ℕ} (hf : f < 2 ^ 52) (hs : r.start < (f + 1) * PAGE_SIZE)
    (h : ¬ RoundsUp (r.start + r.len)) : Meets r f := by
  simp only [Meets, RoundsUp, PAGE_SIZE, U64] at *
  omega

/-- **Offered frames are usable** exactly when they depend on no address that overflows. -/
theorem offered_usable {regions : List MemoryRegion} {words reserveBelow f : ℕ}
    (hu : ∀ r ∈ regions, r.start < U64 ∧ r.len < U64) (h : Offered regions words reserveBelow f) :
    Usable regions f ↔
      (∀ r ∈ regions, Frees r f → ¬ RoundsUp r.start → ∃ r' ∈ regions, r'.kind = .usable ∧ Inside r' f) ∧
      ∀ r ∈ regions, r.kind ≠ .usable → r.len ≠ 0 → r.start < (f + 1) * PAGE_SIZE → RoundsUp (r.start + r.len) := by
  have hlt := h.lt
  obtain ⟨-, ⟨r₀, hr₀, hfree⟩, htake, -⟩ := h
  constructor
  · rintro ⟨hin, hclean⟩
    refine ⟨fun _ _ _ _ => hin, fun r hr hk hl hs => ?_⟩
    by_contra ho
    exact hclean r hr hk hl (meets_of_overflow hlt hs ho)
  · rintro ⟨hstart, hstop⟩
    refine ⟨?_, fun r hr hk hl hmeet => ?_⟩
    · by_cases ho : RoundsUp r₀.start
      · exact ⟨r₀, hr₀, hfree.1, inside_of_frees (hu r₀ hr₀).1 (hu r₀ hr₀).2 hfree ho⟩
      · exact hstart r₀ hr₀ hfree ho
    · have hno : MemoryRegion.NoOverflow r := by
        have := hstop r hr hk hl hmeet.1
        simp only [RoundsUp, MemoryRegion.NoOverflow, PAGE_SIZE, U64] at *
        omega
      exact htake r hr ((takes_iff hno f).2 ⟨hk, hl, hmeet⟩)

/-- the general pool starts at or above `dma_top`, if that rounds up -/
theorem floor_of_rounds {dmaTop f : ℕ} (h : RoundsUp dmaTop) (hf : wadd dmaTop (PAGE_SIZE - 1) / PAGE_SIZE ≤ f) :
    dmaTop ≤ f * PAGE_SIZE := by
  rw [wadd_of_lt h] at hf
  simp only [PAGE_SIZE] at *
  omega

/-! ## Whole runs -/

section Runs

variable (regions : List MemoryRegion) (words reserveBelow dmaTop : ℕ)

theorem fresh_apart : Apart (freshPool regions words reserveBelow dmaTop) := ⟨List.nodup_nil, fun _ hf => by
  exact absurd hf List.not_mem_nil⟩

/-- the limits of a fresh pool, along any run -/
theorem run_limits (pre : List Op) : let a := (run (freshPool regions words reserveBelow dmaTop) pre).a
    a.total = trackedFrames regions words ∧ a.generalFloor = wadd dmaTop (PAGE_SIZE - 1) / PAGE_SIZE ∧
      a.dmaTop = dmaTop ∧ a.reserveBelow = reserveBelow := by
  induction pre using List.reverseRecOn with
  | nil => exact ⟨rfl, rfl, rfl, rfl⟩
  | append_singleton pre o ih =>
    obtain ⟨h1, h2, h3, h4⟩ := step_limits
      (run_rep (s := freshPool regions words reserveBelow dmaTop) (new_rep regions words reserveBelow dmaTop) pre) o
    obtain ⟨i1, i2, i3, i4⟩ := ih
    simp only [run_snoc]
    exact ⟨h1.trans i1, h2.trans i2, h3.trans i3, h4.trans i4⟩

theorem length_run (pre : List Op) :
    (run (freshPool regions words reserveBelow dmaTop) pre).a.bitmap.length = words := by
  induction pre using List.reverseRecOn with
  | nil => exact (new_bitmap regions words reserveBelow dmaTop).1
  | append_singleton pre o ih => rw [run_snoc, length_step, ih]

variable {regions words reserveBelow dmaTop}

/-- every frame served along a run was offered -/
theorem offered_of_served {ops pre : List Op} {o : Op} (hops : FreesOnlyHeld (freshPool regions words reserveBelow dmaTop) ops)
    (hpre : pre ++ [o] <+: ops) {f : ℕ}
    (hf : f ∈ served (run (freshPool regions words reserveBelow dmaTop) pre) o) :
    Offered regions words reserveBelow f := by
  set s := freshPool regions words reserveBelow dmaTop
  have hrep : Rep s.a := new_rep regions words reserveBelow dmaTop
  have hw : Within s.a.freeFrames (run s pre) :=
    run_held hrep ⟨fun _ h => absurd h List.not_mem_nil, Finset.Subset.refl _⟩
      fun pre' o' hp => hops pre' o' (hp.trans ((List.prefix_append _ _).trans hpre))
  exact mem_fresh.1 (hw.2 ((served_spec (run_rep hrep pre) o).2.1 f hf))

/-- an offered frame is served on its side of `dma_top`, if `dma_top` rounds up -/
theorem side_of_rounds {pre : List Op} {o : Op} {f : ℕ} (hoff : Offered regions words reserveBelow f)
    (htop : RoundsUp dmaTop) (hf : f ∈ served (run (freshPool regions words reserveBelow dmaTop) pre) o) :
    OnItsSide reserveBelow dmaTop f o := by
  have hrep := run_rep (s := freshPool regions words reserveBelow dmaTop) (new_rep regions words reserveBelow dmaTop) pre
  obtain ⟨-, hfl, hdt, -⟩ := run_limits regions words reserveBelow dmaTop pre
  set s := run (freshPool regions words reserveBelow dmaTop) pre
  cases o with
  | allocFrame =>
    cases hp : s.a.allocFrame.1 with
    | none => rw [served, hp] at hf; exact absurd hf List.not_mem_nil
    | some p =>
      obtain ⟨g, hg, rfl, _, hgf, _⟩ := allocFrame_some hrep hp
      rw [served, hp, handedOut, frameAddr_div (hrep.lt_bound (mem_freeFrames.1 hg).1)] at hf
      obtain rfl : f = g := by simpa using hf
      exact ⟨floor_of_rounds htop (hfl ▸ hgf), hoff.2.2.2⟩
  | allocDmaFrame =>
    cases hp : s.a.allocDmaFrame.1 with
    | none => rw [served, hp] at hf; exact absurd hf List.not_mem_nil
    | some p =>
      obtain ⟨g, hg, rfl, _, hgt, _⟩ := allocDmaFrame_some hrep hp
      rw [served, hp, handedOut, frameAddr_div (hrep.lt_bound (mem_freeFrames.1 hg).1)] at hf
      obtain rfl : f = g := by simpa using hf
      exact ⟨hoff.2.2.2, hdt ▸ hgt⟩
  | allocContiguous pages =>
    cases hp : (s.a.allocContiguous pages).1 with
    | none => rw [served, hp] at hf; exact absurd hf List.not_mem_nil
    | some p =>
      obtain ⟨b, rfl, hpos, hrun, hbf, _⟩ := allocContiguous_some hrep hp
      rw [served, hp, handedOut, frameAddr_div (hrep.lt_bound (mem_freeFrames.1 (hrun b le_rfl (by omega))).1),
        List.mem_range'_1] at hf
      exact ⟨floor_of_rounds htop (hfl ▸ hbf.trans hf.1), hoff.2.2.2⟩
  | freeFrame addr => exact trivial

/-- **A run whose offered frames depend on no overflow is safe.** -/
theorem safeRun_of_roundsWell (hu : ∀ r ∈ regions, r.start < U64 ∧ r.len < U64)
    (hw : RoundsWell regions words reserveBelow dmaTop) {ops : List Op}
    (hops : FreesOnlyHeld (freshPool regions words reserveBelow dmaTop) ops) :
    SafeRun regions words reserveBelow dmaTop ops := by
  set s := freshPool regions words reserveBelow dmaTop
  have hrep : Rep s.a := new_rep regions words reserveBelow dmaTop
  have hside : ∀ pre o, pre ++ [o] <+: ops → ∀ f ∈ served (run s pre) o, OnItsSide reserveBelow dmaTop f o :=
    fun pre o hpre f hf => by
      have hoff := offered_of_served hops hpre hf
      exact side_of_rounds hoff (hw.top f hoff) hf
  refine ⟨fun pre o hpre => ?_, hside, fun pre o hpre f hf => ?_, fun pre o pre' hpre hpre' ho f hf hc => ?_,
    fun pre _ => ?_⟩
  · have hpre' : FreesOnlyHeld s pre := fun pre' o' hp =>
      hops pre' o' (hp.trans ((List.prefix_append _ _).trans hpre))
    have hap := run_apart hrep (fresh_apart regions words reserveBelow dmaTop) hpre'
    obtain ⟨hnd, hfree, -⟩ := served_spec (run_rep hrep pre) o
    exact ⟨hnd, fun f hf hc => hap.notFree f hc (hfree f hf)⟩
  · have hoff := offered_of_served hops hpre hf
    exact (offered_usable hu hoff).2 ⟨hw.start f hoff, hw.stop f hoff⟩
  · have hlow := (hside pre' .allocDmaFrame hpre' f hc).2
    have hhigh := hside pre o hpre f hf
    rcases ho with rfl | ⟨pages, rfl⟩
    · exact absurd hlow (Nat.not_lt.2 hhigh.1)
    · exact absurd hlow (Nat.not_lt.2 hhigh.1)
  · have hr := run_rep hrep pre
    refine ⟨?_, fun f hf hl => hr.tail f hf (by rwa [length_run])⟩
    rw [hr.count, freeFrames, Finset.card_def, Finset.filter_val, Finset.range_val, ← Multiset.coe_range, Multiset.filter_coe,
      Multiset.coe_card, clearBits]
    congr 1
    exact List.filter_congr fun f _ => by cases (run s pre).a.isUsed f <;> rfl

/-- **The allocator is safe** on every run exactly when no frame it offers depends on an address that rounds up past
2^64. For every region list, reserve floor, DMA ceiling and bitmap size, and every interleaving of the operations. -/
theorem allocator_safe_iff (hu : ∀ r ∈ regions, r.start < U64 ∧ r.len < U64) (hd : dmaTop < U64) :
    (∀ ops, FreesOnlyHeld (freshPool regions words reserveBelow dmaTop) ops →
      SafeRun regions words reserveBelow dmaTop ops) ↔ RoundsWell regions words reserveBelow dmaTop := by
  refine ⟨fun hall => ?_, fun hw ops hops => safeRun_of_roundsWell hu hw hops⟩
  set s := freshPool regions words reserveBelow dmaTop with hs
  have hrep : Rep s.a := new_rep regions words reserveBelow dmaTop
  have husable : ∀ f, Offered regions words reserveBelow f → Usable regions f := fun f hoff => by
    obtain ⟨ops, hops, hheld⟩ := exists_run_holding regions words reserveBelow dmaTop (mem_fresh.2 hoff)
    obtain ⟨pre, o, hpre, hf⟩ := exists_served hrep rfl hheld
    exact (hall ops hops).usable pre o hpre f hf
  refine ⟨fun f hoff => ?_, fun f hoff => ((offered_usable hu hoff).1 (husable f hoff)).1,
    fun f hoff => ((offered_usable hu hoff).1 (husable f hoff)).2⟩
  -- a ceiling that overflows puts the floor at frame 0, so the general pool serves `f` too
  by_contra ho
  have hfloor : s.a.generalFloor ≤ f := by
    have : wadd dmaTop (PAGE_SIZE - 1) / PAGE_SIZE = 0 := by
      simp only [RoundsUp, wadd, PAGE_SIZE, U64] at *
      omega
    show wadd dmaTop (PAGE_SIZE - 1) / PAGE_SIZE ≤ f
    omega
  obtain ⟨n, hn⟩ := exists_run_holding_general hrep (fresh_cursorOk regions words reserveBelow dmaTop)
    (fresh_aboveReserve regions words reserveBelow dmaTop) (mem_fresh.2 hoff) hfloor
  obtain ⟨pre, o, hpre, hf⟩ := exists_served hrep rfl hn
  have hmem : o ∈ List.replicate n Op.allocFrame := hpre.subset (by simp)
  obtain rfl := List.eq_of_mem_replicate hmem
  have hside := (hall _ (freesOnlyHeld_replicate s .allocFrame (fun _ => trivial) n)).side pre _ hpre f hf
  have hlt := hoff.lt
  simp only [OnItsSide, RoundsUp, PAGE_SIZE, U64] at *
  omega

end Runs

/-- one usable page above an empty arena, taken and given back -/
theorem one_page_safe : SafeRun [⟨0, PAGE_SIZE, .usable⟩] 1 0 0 [.allocFrame, .freeFrame 0] := by
  have hops : FreesOnlyHeld (freshPool [⟨0, PAGE_SIZE, .usable⟩] 1 0 0) [.allocFrame, .freeFrame 0] := by
    rw [freesOnlyHeld_cons, freesOnlyHeld_cons]
    refine ⟨trivial, ⟨by decide, by decide⟩, fun pre o hpre => ?_⟩
    exact absurd (List.prefix_nil.1 hpre) (by simp)
  refine (allocator_safe_iff (fun r hr => ?_) (by decide)).2
    ⟨fun _ _ => by unfold RoundsUp; decide, fun f _ r hr _ ho => ?_, fun f _ r hr hk => ?_⟩ _ hops
  all_goals rw [List.mem_singleton] at hr; subst hr
  · exact ⟨by decide, by decide⟩
  · exact absurd (show RoundsUp 0 by unfold RoundsUp; decide) ho
  · exact absurd rfl hk

/-- one usable page, and an arena that takes in every address -/
def unboundedDma : Pool := freshPool [⟨0, PAGE_SIZE, .usable⟩] 1 0 U64_MAX

/-- **An arena without an upper end shares its frames with the general pool.** `dma_top + PAGE_SIZE - 1` wraps, the floor
of the general pool is frame 0, and frame 0 is served by the general pool, given back, and served by the arena. -/
theorem unbounded_dma_shares_frame :
    served unboundedDma .allocFrame = [0] ∧
      served (run unboundedDma [.allocFrame, .freeFrame 0]) .allocDmaFrame = [0] ∧
      FreesOnlyHeld unboundedDma [.allocFrame, .freeFrame 0, .allocDmaFrame] ∧
      ¬ SafeRun [⟨0, PAGE_SIZE, .usable⟩] 1 0 U64_MAX [.allocFrame, .freeFrame 0, .allocDmaFrame] := by
  have h1 : served unboundedDma .allocFrame = [0] := by decide
  refine ⟨h1, by decide, ?_, fun h => ?_⟩
  · rw [freesOnlyHeld_cons, freesOnlyHeld_cons, freesOnlyHeld_cons]
    refine ⟨trivial, ⟨by decide, by decide⟩, trivial, fun pre o hpre => ?_⟩
    exact absurd (List.prefix_nil.1 hpre) (by simp)
  · have hside := h.side [] .allocFrame (List.cons_prefix_cons.2 ⟨rfl, List.nil_prefix⟩) 0 (by
      show 0 ∈ served unboundedDma .allocFrame
      rw [h1]; exact List.mem_singleton_self 0)
    exact absurd hside.1 (by decide)

end Rustproof.Mm
