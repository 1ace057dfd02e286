/-
A load that fails leaks nothing.

`load_process` takes its frames through a recorder, over whatever allocator it is given, and gives back what was recorded
when the space cannot be built. `FramePool` is that allocator: finitely many frames are free, and any call may refuse.
- `BitmapPool`: the bitmap allocator is one, for a reserve floor at a page, as both machines have it.
- `build_restores`: over any such allocator, however often and whenever it refuses, giving the recorded frames back after
  the build restores the set of free frames.
- `loadProcess_refused`, `loadProcess_abandoned`: a load that cannot go on answers false, and leaves the slot alone.
- `failed_load_safe`: these with the safety of the loader on every image (`Loader.loadElfIn_runs`).
-/
import Rustproof.Hal.X86
import Rustproof.Kernel.Accounts
import Rustproof.Loader.Checked
import Rustproof.Loader.Content
import Rustproof.Vspace.Refine

namespace Rustproof.Kernel

open Lib Prog Mm

/-! ## The recorder over any allocator -/

/-- `&mut dyn FrameAllocator`: some frames are free and some are out, and an allocation may be refused at any time -/
class FramePool (β : Type) where
  mem : β → Mem
  setMem : β → Mem → β
  alloc : β → Option ℕ × β
  release : β → ℕ → β
  free : β → Finset ℕ
  out : β → Finset ℕ
  mem_setMem : ∀ b m, mem (setMem b m) = m
  setMem_mem : ∀ b, setMem b (mem b) = b
  free_setMem : ∀ b m, free (setMem b m) = free b
  out_setMem : ∀ b m, out (setMem b m) = out b
  alloc_some : ∀ b p b', alloc b = (some p, b') → p ∈ free b ∧ free b' = (free b).erase p ∧ out b' = insert p (out b)
  alloc_none : ∀ b b', alloc b = (none, b') → free b' = free b ∧ out b' = out b
  release_out : ∀ b p, p ∈ out b → free (release b p) = insert p (free b) ∧ out (release b p) = (out b).erase p

/-- `RecordingAlloc` over such an allocator -/
structure Recorder (β : Type) where
  base : β
  frames : List ℕ

namespace Recorder

variable {β : Type} [FramePool β]

def allocFrame (r : Recorder β) : Option ℕ × Recorder β :=
  match FramePool.alloc r.base with
  | (none, b) => (none, { r with base := b })
  | (some p, b) =>
    let b := FramePool.setMem b ((FramePool.mem b).fill p 0)
    if r.frames.length ≥ MAX_PROC_FRAMES then (none, { r with base := FramePool.release b p })
    else (some p, ⟨b, r.frames ++ [p]⟩)

instance : FrameAllocator (Recorder β) where
  mem r := FramePool.mem r.base
  setMem r m := { r with base := FramePool.setMem r.base m }
  allocFrame := allocFrame
  mem_setMem r m := FramePool.mem_setMem r.base m
  setMem_mem r := by rw [FramePool.setMem_mem]

/-- the rollback: `for i in 0..n { fa.free_frame(frames[i]) }` -/
def giveBack (r : Recorder β) : β := r.frames.foldl FramePool.release r.base

/-- what is recorded is out, once each, and the free frames are those of `free₀` less the recorded ones -/
structure Tracks (free₀ : Finset ℕ) (r : Recorder β) : Prop where
  nodup : r.frames.Nodup
  out : ∀ p ∈ r.frames, p ∈ FramePool.out r.base
  taken : ∀ p ∈ r.frames, p ∈ free₀
  free : FramePool.free r.base = free₀ \ r.frames.toFinset

variable {free₀ : Finset ℕ}

theorem tracks_write (r : Recorder β) (m : Mem) (h : Tracks free₀ r) : Tracks free₀ (FrameAllocator.setMem r m) := by
  refine ⟨h.nodup, fun p hp => ?_, h.taken, ?_⟩
  · show p ∈ FramePool.out (FramePool.setMem r.base m)
    rw [FramePool.out_setMem]
    exact h.out p hp
  · show FramePool.free (FramePool.setMem r.base m) = _
    rw [FramePool.free_setMem]
    exact h.free

/-- a refusal, of the allocator or of a full list, leaves the free frames as they were -/
theorem tracks_alloc (r : Recorder β) (h : Tracks free₀ r) : Tracks free₀ (FrameAllocator.allocFrame r).2 := by
  show Tracks free₀ r.allocFrame.2
  rw [allocFrame]
  rcases ha : FramePool.alloc r.base with ⟨_ | p, b⟩
  · obtain ⟨hfree, hout⟩ := FramePool.alloc_none _ _ ha
    refine ⟨h.nodup, fun p hp => ?_, h.taken, ?_⟩
    · show p ∈ FramePool.out b
      rw [hout]
      exact h.out p hp
    · exact hfree.trans h.free
  obtain ⟨hp, hfree, hout⟩ := FramePool.alloc_some _ _ _ ha
  rw [h.free, Finset.mem_sdiff, List.mem_toFinset] at hp
  have hfilled : FramePool.free (FramePool.setMem b ((FramePool.mem b).fill p 0)) = (FramePool.free r.base).erase p := by
    rw [FramePool.free_setMem, hfree]
  have hout' : FramePool.out (FramePool.setMem b ((FramePool.mem b).fill p 0)) = insert p (FramePool.out r.base) := by
    rw [FramePool.out_setMem, hout]
  simp only
  by_cases hfull : r.frames.length ≥ MAX_PROC_FRAMES
  · rw [if_pos hfull]
    obtain ⟨hback, houtback⟩ := FramePool.release_out (FramePool.setMem b ((FramePool.mem b).fill p 0)) p
      (by rw [hout']; exact Finset.mem_insert_self _ _)
    have hmem : p ∈ FramePool.free r.base := by
      rw [h.free, Finset.mem_sdiff, List.mem_toFinset]
      exact hp
    refine ⟨h.nodup, fun q hq => ?_, h.taken, ?_⟩
    · have hne : q ≠ p := fun e => hp.2 (e ▸ hq)
      show q ∈ FramePool.out (FramePool.release _ p)
      rw [houtback, hout']
      exact Finset.mem_erase.2 ⟨hne, Finset.mem_insert_of_mem (h.out q hq)⟩
    · show FramePool.free (FramePool.release _ p) = _
      rw [hback, hfilled, Finset.insert_erase hmem, h.free]
  · rw [if_neg hfull]
    refine ⟨?_, fun q hq => ?_, fun q hq => ?_, ?_⟩
    · exact (List.nodup_append_comm.1 (List.nodup_cons.2 ⟨hp.2, h.nodup⟩ : ([p] ++ r.frames).Nodup))
    · show q ∈ FramePool.out (FramePool.setMem b _)
      rw [hout']
      rcases List.mem_append.1 hq with hq | hq
      · exact Finset.mem_insert_of_mem (h.out q hq)
      · rw [List.mem_singleton.1 hq]
        exact Finset.mem_insert_self _ _
    · rcases List.mem_append.1 hq with hq | hq
      · exact h.taken q hq
      · rw [List.mem_singleton.1 hq]
        exact hp.1
    · show FramePool.free (FramePool.setMem b _) = free₀ \ (r.frames ++ [p]).toFinset
      rw [hfilled, h.free]
      ext q
      simp only [Finset.mem_erase, Finset.mem_sdiff, List.mem_toFinset, List.mem_append, List.mem_singleton]
      tauto

/-- giving the recorded frames back restores the free frames -/
theorem Tracks.giveBack {r : Recorder β} (h : Tracks free₀ r) : FramePool.free r.giveBack = free₀ := by
  have key : ∀ (ps : List ℕ) (b : β), ps.Nodup → (∀ p ∈ ps, p ∈ FramePool.out b) →
      FramePool.free (ps.foldl FramePool.release b) = FramePool.free b ∪ ps.toFinset := by
    intro ps
    induction ps with
    | nil => intro b _ _; simp
    | cons p ps ih =>
      intro b hnd hout
      obtain ⟨hp, hnd⟩ := List.nodup_cons.1 hnd
      obtain ⟨hfree, houtback⟩ := FramePool.release_out b p (hout p List.mem_cons_self)
      rw [List.foldl_cons, ih _ hnd fun q hq => ?_, hfree]
      · ext q
        simp only [Finset.mem_union, Finset.mem_insert, List.mem_toFinset, List.mem_cons]
        tauto
      · rw [houtback]
        exact Finset.mem_erase.2 ⟨fun e => hp (e ▸ hq), hout q (List.mem_cons_of_mem p hq)⟩
  rw [Recorder.giveBack, key r.frames r.base h.nodup h.out, h.free]
  ext q
  simp only [Finset.mem_union, Finset.mem_sdiff, List.mem_toFinset]
  constructor
  · rintro (hq | hq)
    · exact hq.1
    · exact h.taken q hq
  · intro hq
    tauto

end Recorder

/-! ## The bitmap pool -/

open BitmapAllocator

/-- the bitmap allocator over a memory, with the reserve floor at a page -/
structure BitmapPool where
  mem : Mem
  fa : BitmapAllocator
  rep : Rep fa
  above : fa.AboveReserve
  aligned : PAGE_SIZE ∣ fa.reserveBelow

namespace BitmapPool

/-- the pool of a memory map -/
def opened (mem : Mem) (regions : List MemoryRegion) (words : ℕ) {reserveBelow : ℕ} (dmaTop : ℕ)
    (hr : PAGE_SIZE ∣ reserveBelow) : BitmapPool :=
  ⟨mem, BitmapAllocator.new regions words reserveBelow dmaTop, new_rep regions words reserveBelow dmaTop,
    fresh_aboveReserve regions words reserveBelow dmaTop, hr⟩

/-- the allocator after one of its operations -/
def stepped (b : BitmapPool) (o : Op) : BitmapPool :=
  ⟨b.mem, (step ⟨b.fa, []⟩ o).a, step_rep b.rep o, step_aboveReserve b.rep o b.above, by
    rw [(step_limits b.rep o).2.2.2]
    exact b.aligned⟩

/-- the address of a frame -/
def pageOf : ℕ ↪ ℕ := ⟨fun f => f * PAGE_SIZE, fun _ _ h => Nat.eq_of_mul_eq_mul_right (by decide) h⟩

/-- the used frames that `free_frame` takes back -/
def outFrames (b : BitmapPool) : Finset ℕ := Finset.Ico (b.fa.reserveBelow / PAGE_SIZE) b.fa.total \ b.fa.freeFrames

theorem outFrames_stepped (b : BitmapPool) (o : Op) :
    (b.stepped o).outFrames = Finset.Ico (b.fa.reserveBelow / PAGE_SIZE) b.fa.total \ (b.stepped o).fa.freeFrames := by
  obtain ⟨htotal, -, -, hreserve⟩ := step_limits (s := ⟨b.fa, []⟩) b.rep o
  show Finset.Ico ((step ⟨b.fa, []⟩ o).a.reserveBelow / PAGE_SIZE) (step ⟨b.fa, []⟩ o).a.total \ _ = _
  rw [htotal, hreserve]

/-- a frame that is allocated goes from the free ones to those that are out -/
theorem alloc_some {b : BitmapPool} {p : ℕ} (h : b.fa.allocFrame.1 = some p) : ∃ f ∈ b.fa.freeFrames, p = pageOf f ∧
    (b.stepped .allocFrame).fa.freeFrames = b.fa.freeFrames.erase f ∧
    (b.stepped .allocFrame).outFrames = insert f b.outFrames := by
  obtain ⟨f, hf, rfl, -, -, -, -, -, hfree⟩ := allocFrame_some b.rep h
  obtain ⟨hlt, -⟩ := mem_freeFrames.1 hf
  have hfree' : (b.stepped .allocFrame).fa.freeFrames = b.fa.freeFrames.erase f := hfree
  refine ⟨f, hf, frameAddr_of_lt (b.rep.lt_bound hlt), hfree', ?_⟩
  rw [outFrames_stepped, hfree', Finset.sdiff_erase (Finset.mem_Ico.2 ⟨b.above f hf, hlt⟩)]
  rfl

/-- a frame that is out goes back to the free ones -/
theorem free_out {b : BitmapPool} {f : ℕ} (h : f ∈ b.outFrames) :
    (b.stepped (.freeFrame (pageOf f))).fa.freeFrames = insert f b.fa.freeFrames ∧
    (b.stepped (.freeFrame (pageOf f))).outFrames = b.outFrames.erase f := by
  obtain ⟨hin, hused⟩ := Finset.mem_sdiff.1 h
  obtain ⟨hlow, hlt⟩ := Finset.mem_Ico.1 hin
  have hdiv : pageOf f / PAGE_SIZE = f := Nat.mul_div_cancel f (by decide)
  have hreserve : b.fa.reserveBelow ≤ pageOf f := by
    rw [← Nat.div_mul_cancel b.aligned]
    exact Nat.mul_le_mul_right PAGE_SIZE hlow
  have hfree : (b.stepped (.freeFrame (pageOf f))).fa.freeFrames = insert f b.fa.freeFrames := by
    rcases freeFrame_spec b.rep (pageOf f) with ⟨-, hbad⟩ | ⟨-, -, -, -, hset⟩
    · rw [hdiv] at hbad
      rcases hbad with hbelow | hpast | hfree
      · exact absurd hbelow (not_lt.2 hreserve)
      · exact absurd hlt (not_lt.2 hpast)
      · exact absurd hfree hused
    · rw [hdiv] at hset
      exact hset
  refine ⟨hfree, ?_⟩
  rw [outFrames_stepped, hfree, Finset.sdiff_insert]
  rfl

instance : FramePool BitmapPool where
  mem b := b.mem
  setMem b m := { b with mem := m }
  alloc b := (b.fa.allocFrame.1, b.stepped .allocFrame)
  release b p := b.stepped (.freeFrame p)
  free b := b.fa.freeFrames.map pageOf
  out b := b.outFrames.map pageOf
  mem_setMem _ _ := rfl
  setMem_mem _ := rfl
  free_setMem _ _ := rfl
  out_setMem _ _ := rfl
  alloc_some b p b' h := by
    obtain ⟨hp, rfl⟩ := Prod.mk.inj h
    obtain ⟨f, hf, rfl, hfree, hout⟩ := alloc_some hp
    rw [hfree, hout, Finset.map_erase, Finset.map_insert]
    exact ⟨Finset.mem_map_of_mem pageOf hf, rfl, rfl⟩
  alloc_none b b' h := by
    obtain ⟨hp, rfl⟩ := Prod.mk.inj h
    have hsame : (b.stepped .allocFrame).fa = b.fa := (allocFrame_none hp).1
    rw [outFrames, hsame]
    exact ⟨rfl, rfl⟩
  release_out b p h := by
    obtain ⟨f, hf, rfl⟩ := Finset.mem_map.1 h
    obtain ⟨hfree, hout⟩ := free_out hf
    rw [hfree, hout, Finset.map_insert, Finset.map_erase]
    exact ⟨rfl, rfl⟩

end BitmapPool

variable {A : Arch} {C : Config} {s t : KState} {F H : Multiset ℕ}

/-- **The rollback restores the free frames**, over any allocator and wherever the build stopped -/
theorem build_restores {β : Type} [FramePool β] (b : β) :
    FramePool.free (buildIn A C (⟨b, []⟩ : Recorder β)).2.giveBack = FramePool.free b := by
  have hstart : Recorder.Tracks (FramePool.free b) (⟨b, []⟩ : Recorder β) :=
    ⟨List.nodup_nil, by simp, by simp, by simp⟩
  exact (buildIn_keep (I := Recorder.Tracks (FramePool.free b)) Recorder.tracks_alloc Recorder.tracks_write hstart).giveBack

/-! ## The kernel's load -/

/-- a role with an interrupt line that is never delivered is refused before anything is allocated -/
theorem loadProcess_refused {slot id : ℕ} {role : Role}
    (h : ((grantsFor C role).any fun g => g.1 == .irq && !deliversIrq g.2.2) = true) :
    loadProcess A C slot id role s = .ok (false, s) := by
  rw [loadProcess, if_pos h]
  rfl

/-- a space that cannot be built is abandoned, its frames freed in the order they were taken -/
theorem loadProcess_abandoned {slot id : ℕ} {role : Role} {r : RecordingAlloc}
    (h : ((grantsFor C role).any fun g => g.1 == .irq && !deliversIrq g.2.2) = false)
    (hbuild : buildSpace A C ⟨s.w, []⟩ = (none, r)) :
    loadProcess A C slot id role s = .ok (false, { s with w := r.w.freeFrames r.frames }) := by
  rw [loadProcess, if_neg (by rw [h]; decide)]
  show Prog.bind Prog.get _ s = _
  simp only [Prog.bind, Prog.get, hbuild]
  rfl

/-- what a failed load leaves: nothing but the memory and the order of the free frames has moved -/
theorem loadProcess_failed {slot id : ℕ} {role : Role} (hacc : Account F s.w.fa H)
    (hrun : loadProcess A C slot id role s = .ok (false, t)) :
    t = { s with w := t.w } ∧ freeAddrs t.w.fa = freeAddrs s.w.fa := by
  rcases wp_ok (loadProcess_spec slot id role s) hrun with ⟨-, rfl | ⟨r, hb, rfl⟩⟩ | ⟨hf, -⟩
  · exact ⟨rfl, rfl⟩
  · have hok : (buildSpace A C ⟨s.w, []⟩).2.Ok F H := buildSpace_keep ok_alloc ok_write (hacc.congr (zero_add H))
    rw [hb] at hok
    have hback : Account F (r.w.freeFrames r.frames).fa H := by
      rw [Machine.fa_freeFrames]
      exact Account.freeAll hok
    exact ⟨rfl, add_right_cancel (hback.balance.trans hacc.balance.symm)⟩
  · exact absurd hf (by decide)

/-- **The loader is safe on every image, and a failed load leaks nothing.** -/
theorem failed_load_safe (A : Arch) (C : Config) :
    -- the loader, over any allocator that has some number of frames left
    (∀ (α : Type) [FrameAllocator α] (left : α → ℕ), Loader.Metered left → ∀ fuel, 2 ^ 52 < fuel → ∀ elf root (r : α),
      ∃ result mapped r', Loader.loadElfIn A fuel elf root r = some (result, mapped, r') ∧ mapped + left r' ≤ left r ∧
        (elf.length < U64 → result = (Loader.loadElf A elf root r).1)) ∧
    -- the rollback, over any allocator
    (∀ (β : Type) [FramePool β] (b : β),
      FramePool.free (buildIn A C (⟨b, []⟩ : Recorder β)).2.giveBack = FramePool.free b) ∧
    -- the kernel's load
    (∀ slot id role s r, buildSpace A C ⟨s.w, []⟩ = (none, r) → ∃ t, loadProcess A C slot id role s = .ok (false, t)) ∧
    ∀ slot id role s t F H, Account F s.w.fa H → loadProcess A C slot id role s = .ok (false, t) →
      t = { s with w := t.w } ∧ freeAddrs t.w.fa = freeAddrs s.w.fa := by
  refine ⟨fun α _ left hleft fuel hfuel elf root r => ?_, fun β _ b => build_restores b, fun slot id role s r hbuild => ?_,
    fun slot id role s t F H hacc hrun => loadProcess_failed hacc hrun⟩
  · obtain ⟨mapped, r', hrun, -, hcount⟩ := Loader.loadElfIn_runs (A := A) hleft hfuel elf root r
    refine ⟨_, mapped, r', hrun, by omega, fun hlen => ?_⟩
    rw [Loader.sliceOf_eq hlen]
  · cases hirq : (grantsFor C role).any fun g => g.1 == .irq && !deliversIrq g.2.2 with
    | true => exact ⟨s, loadProcess_refused hirq⟩
    | false => exact ⟨_, loadProcess_abandoned hirq hbuild⟩

/-- a supply of frames listed beforehand is metered by how many are left -/
theorem metered_frameList : Loader.Metered fun r : Vspace.FrameList => r.left.length := by
  refine ⟨fun r p r' h => ?_, fun r r' h => ?_, fun r m => rfl⟩
  · obtain ⟨hp, rfl⟩ := Prod.mk.inj h
    cases hl : r.left with
    | nil => simp [hl] at hp
    | cons a as => simp
  · obtain ⟨-, rfl⟩ := Prod.mk.inj h
    simp

/-- two segments of data and code, on three pages -/
def shortConfig : Config := smallConfig (Loader.twoSegments Riscv 0x800) ROLE_GRANTS (59 * PAGE_SIZE)

/-- a machine with five frames left to its general pool -/
def shortState : KState := smallState (59 * PAGE_SIZE)

/-- that pool -/
def shortPool : BitmapPool :=
  BitmapPool.opened shortState.w.mem [⟨0, 64 * PAGE_SIZE, .usable⟩] 1 (59 * PAGE_SIZE) (Nat.dvd_refl PAGE_SIZE)

/-- the frames run out at the third page: two pages are mapped and five frames are taken, and they are all back -/
theorem shortState_load_safe :
    (∃ r', Loader.loadElfIn Riscv (2 ^ 52 + 1) shortConfig.userElf 0x2000
        (⟨fun _ _ => 0, [0x3000, 0x4000, 0x5000, 0x6000]⟩ : Vspace.FrameList) = some (.error .outOfFrames, 2, r') ∧
      2 + r'.left.length ≤ 4) ∧
    ((buildIn Riscv shortConfig (⟨shortPool, []⟩ : Recorder BitmapPool)).1 = none ∧
      (buildIn Riscv shortConfig (⟨shortPool, []⟩ : Recorder BitmapPool)).2.frames.length = 5 ∧
      FramePool.free (buildIn Riscv shortConfig (⟨shortPool, []⟩ : Recorder BitmapPool)).2.giveBack = FramePool.free shortPool) ∧
    ∃ t, loadProcess Riscv shortConfig 0 0 .producer shortState = .ok (false, t) ∧
      t = { shortState with w := t.w } ∧ freeAddrs t.w.fa = freeAddrs shortState.w.fa := by
  obtain ⟨hloader, hrollback, hload, hfailed⟩ := failed_load_safe Riscv shortConfig
  refine ⟨?_, ⟨by decide +kernel, by decide +kernel, hrollback BitmapPool shortPool⟩, ?_⟩
  · obtain ⟨result, mapped, r', hrun, hcount, -⟩ := hloader Vspace.FrameList _ metered_frameList (2 ^ 52 + 1) (by omega)
      shortConfig.userElf 0x2000 ⟨fun _ _ => 0, [0x3000, 0x4000, 0x5000, 0x6000]⟩
    have hends : (Loader.loadElfIn Riscv (2 ^ 52 + 1) shortConfig.userElf 0x2000
        (⟨fun _ _ => 0, [0x3000, 0x4000, 0x5000, 0x6000]⟩ : Vspace.FrameList)).map (fun x => (x.1, x.2.1)) =
          some (.error .outOfFrames, 2) := by decide +kernel
    rw [hrun] at hends
    obtain ⟨rfl, rfl⟩ := Prod.mk.inj (Option.some.inj hends)
    exact ⟨r', hrun, hcount⟩
  · have hnone : (buildSpace Riscv shortConfig ⟨shortState.w, []⟩).1 = none := by decide +kernel
    rcases hbuild : buildSpace Riscv shortConfig ⟨shortState.w, []⟩ with ⟨space, r⟩
    rw [hbuild] at hnone
    obtain rfl : space = none := hnone
    obtain ⟨t, hrun⟩ := hload 0 0 .producer shortState r hbuild
    have haccount := (smallState_ready (Loader.twoSegments Riscv 0x800) ROLE_GRANTS (59 * PAGE_SIZE)).account
    obtain ⟨ht, hfree⟩ := hfailed 0 0 .producer shortState t _ _ haccount hrun
    exact ⟨t, hrun, ht, hfree⟩

end Rustproof.Kernel
