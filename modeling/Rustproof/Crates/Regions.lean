/-
The lifetime plan for shared memory (`crates/regions`): who still maps a region, and in what order it is torn down.

`destroy` and `teardown` read the region table and the holders' mapping slots and produce an ordered plan of bounded
length; the kernel carries it out.
-/
import Rustproof.Lib.Table

namespace Rustproof.Regions

open Lib

/-- a region table entry, reduced to what a lifetime decision depends on; id 0 means no region -/
structure Region where
  live : Bool
  id : ℕ
  owner : ℕ
deriving DecidableEq, Repr

def Region.EMPTY : Region := ⟨false, 0, 0⟩

/-- one process's mapping slots: the region id in each, 0 for an empty one -/
structure Holder where
  live : Bool
  id : ℕ
  slots : Table ℕ

def Holder.FREE : Holder := ⟨false, 0, fun _ => 0⟩

inductive Step where
  | unmap (proc slot region : ℕ)
  | forgetCaps (region : ℕ)
  | release (region : ℕ)
deriving DecidableEq, Repr

/-- an ordered plan of at most `N` steps -/
structure Plan (N : ℕ) where
  steps : List Step
  truncated : Bool
deriving DecidableEq, Repr

namespace Plan

variable {N : ℕ}

def new : Plan N := ⟨[], false⟩

def push (p : Plan N) (s : Step) : Plan N :=
  if p.steps.length < N then { p with steps := p.steps ++ [s] } else { p with truncated := true }

def pushAll (p : Plan N) (ss : List Step) : Plan N := ss.foldl push p

/-- no region is released while a later step would still unmap it -/
def wellOrdered (p : Plan N) : Bool :=
  (List.range p.steps.length).all fun i =>
    match p.steps[i]? with
    | some (.release region) => (p.steps.drop (i + 1)).all fun
      | .unmap _ _ r => r != region
      | _ => true
    | _ => true

end Plan

/-- the tables a plan is made over: `R` regions, `P` holders of `S` slots -/
structure View (R P S : ℕ) where
  regions : Table Region
  holders : Table Holder

variable {R P S N : ℕ}

/-- every holder slot that maps `region`, holder by holder -/
def holdersOf (v : View R P S) (region : ℕ) : List (ℕ × ℕ) :=
  (List.range P).flatMap fun p =>
    ((List.range S).filter fun s =>
      (v.holders p).live && (v.holders p).slots s == region && (v.holders p).slots s != 0).map fun s => (p, s)

/-- `region` is the id of a live region -/
def isLive (v : View R P S) (region : ℕ) : Bool := anyIdx R fun i => (v.regions i).live && (v.regions i).id == region

/-- unmap every holder, drop the capabilities, release the frames -/
def destroy (v : View R P S) (region : ℕ) : Plan N :=
  if region = 0 ∨ isLive v region = false then Plan.new
  else
    (((Plan.new : Plan N).pushAll ((holdersOf v region).map fun (p, s) => .unmap p s region)).push
      (.forgetCaps region)).push (.release region)

/-- the live regions owned by `id`, in table order -/
def ownedBy (v : View R P S) (id : ℕ) : List ℕ :=
  ((List.range R).filter fun i => (v.regions i).live && (v.regions i).owner == id).map fun i => (v.regions i).id

/-- append the plan destroying one region, truncation included -/
def appendDestroy (v : View R P S) (plan : Plan N) (region : ℕ) : Plan N :=
  let sub : Plan N := destroy v region
  let plan := plan.pushAll sub.steps
  if sub.truncated then { plan with truncated := true } else plan

/-- the dying holder's own slot `s` maps a region it does not own, and no step unmaps it yet -/
def borrowedSlot (v : View R P S) (plan : Plan N) (proc id s : ℕ) : Bool :=
  let r := (v.holders proc).slots s
  r != 0 && !(anyIdx R fun i => (v.regions i).live && (v.regions i).id == r && (v.regions i).owner == id) &&
    !(plan.steps.any fun
      | .unmap p slot _ => p == proc && slot == s
      | _ => false)

/-- destroy the regions the dying process owns, then drop its own mappings of everyone else's -/
def teardown (v : View R P S) (proc id : ℕ) : Plan N :=
  let plan := (ownedBy v id).foldl (appendDestroy v) Plan.new
  if proc < P ∧ (v.holders proc).live ∧ (v.holders proc).id = id then
    (List.range S).foldl (fun plan s =>
      if borrowedSlot v plan proc id s then plan.push (.unmap proc s ((v.holders proc).slots s)) else plan) plan
  else plan

/-! ## What a plan holds

A plan that was not truncated holds everything that was pushed. -/

namespace Plan

theorem push_steps {p : Plan N} {s : Step} (h : (p.push s).truncated = false) :
    p.truncated = false ∧ (p.push s).steps = p.steps ++ [s] := by
  rw [push] at h ⊢
  split_ifs at h ⊢
  exact ⟨h, rfl⟩

theorem pushAll_steps {ss : List Step} {p : Plan N} (h : (p.pushAll ss).truncated = false) :
    p.truncated = false ∧ (p.pushAll ss).steps = p.steps ++ ss := by
  induction ss generalizing p with
  | nil => exact ⟨h, (List.append_nil _).symm⟩
  | cons s ss ih =>
    obtain ⟨h1, h2⟩ := ih (p := p.push s) h
    obtain ⟨h3, h4⟩ := push_steps h1
    exact ⟨h3, by rw [pushAll, List.foldl_cons, ← pushAll, h2, h4, List.append_assoc, List.singleton_append]⟩

end Plan

/-- the steps that destroy one live region: every holder unmapped, then the capabilities, then the frames -/
def destroySteps (v : View R P S) (region : ℕ) : List Step :=
  ((holdersOf v region).map fun ps => .unmap ps.1 ps.2 region) ++ [.forgetCaps region, .release region]

theorem destroy_steps {v : View R P S} {region : ℕ} (hid : region ≠ 0) (hl : isLive v region = true)
    (h : (destroy v region : Plan N).truncated = false) : (destroy v region : Plan N).steps = destroySteps v region := by
  have hc : ¬ (region = 0 ∨ isLive v region = false) := by simp [hid, hl]
  rw [destroy, if_neg hc] at h ⊢
  obtain ⟨h1, h2⟩ := Plan.push_steps h
  obtain ⟨h3, h4⟩ := Plan.push_steps h1
  obtain ⟨-, h5⟩ := Plan.pushAll_steps h3
  rw [h2, h4, h5]
  simp [Plan.new, destroySteps]

theorem appendDestroy_steps {v : View R P S} {plan : Plan N} {region : ℕ} (hid : region ≠ 0)
    (hl : isLive v region = true) (h : (appendDestroy v plan region).truncated = false) :
    plan.truncated = false ∧ (appendDestroy v plan region).steps = plan.steps ++ destroySteps v region := by
  rw [appendDestroy] at h ⊢
  split_ifs at h ⊢ with hsub
  rw [Bool.not_eq_true] at hsub
  rw [destroy_steps hid hl hsub] at h ⊢
  exact Plan.pushAll_steps h

theorem foldl_appendDestroy {v : View R P S} {rs : List ℕ} (hrs : ∀ r ∈ rs, r ≠ 0 ∧ isLive v r = true) {plan : Plan N}
    (h : (rs.foldl (appendDestroy v) plan).truncated = false) :
    plan.truncated = false ∧ (rs.foldl (appendDestroy v) plan).steps = plan.steps ++ rs.flatMap (destroySteps v) := by
  induction rs generalizing plan with
  | nil => exact ⟨h, by simp⟩
  | cons r rs ih =>
    obtain ⟨h1, h2⟩ := ih (fun q hq => hrs q (List.mem_cons_of_mem _ hq)) h
    obtain ⟨hid, hl⟩ := hrs r List.mem_cons_self
    obtain ⟨h3, h4⟩ := appendDestroy_steps hid hl h1
    exact ⟨h3, by rw [List.foldl_cons, h2, h4, List.append_assoc, List.flatMap_cons]⟩

/-- the owned regions' steps, then unmappings of the dying process's own slots -/
theorem teardown_steps {v : View R P S} {proc id : ℕ} (hown : ∀ r ∈ ownedBy v id, r ≠ 0 ∧ isLive v r = true)
    (h : (teardown v proc id : Plan N).truncated = false) :
    ∃ rest : List Step, (teardown v proc id : Plan N).steps = (ownedBy v id).flatMap (destroySteps v) ++ rest ∧
      ∀ st ∈ rest, ∃ s < S, ∃ r, st = .unmap proc s r ∧ proc < P ∧ (v.holders proc).live = true := by
  rw [teardown] at h ⊢
  split_ifs at h ⊢ with hc
  · suffices key : ∀ (ss : List ℕ) (plan : Plan N), (∀ s ∈ ss, s < S) →
        (ss.foldl (fun plan s => if borrowedSlot v plan proc id s then
          plan.push (.unmap proc s ((v.holders proc).slots s)) else plan) plan).truncated = false →
        plan.truncated = false ∧ ∃ rest : List Step, (ss.foldl (fun plan s => if borrowedSlot v plan proc id s then
          plan.push (.unmap proc s ((v.holders proc).slots s)) else plan) plan).steps = plan.steps ++ rest ∧
          ∀ st ∈ rest, ∃ s < S, ∃ r, st = .unmap proc s r ∧ proc < P ∧ (v.holders proc).live = true by
      obtain ⟨h1, rest, h2, h3⟩ := key (List.range S) _ (fun s hs => List.mem_range.1 hs) h
      obtain ⟨-, h4⟩ := foldl_appendDestroy hown h1
      exact ⟨rest, by rw [h2, h4]; simp [Plan.new], h3⟩
    intro ss
    induction ss with
    | nil => intro plan _ h; exact ⟨h, [], by simp, by simp⟩
    | cons s ss ih =>
      intro plan hss h
      rw [List.foldl_cons] at h ⊢
      obtain ⟨h1, rest, h2, h3⟩ := ih _ (fun q hq => hss q (List.mem_cons_of_mem _ hq)) h
      split_ifs at h1 h2 ⊢
      · obtain ⟨h4, h5⟩ := Plan.push_steps h1
        refine ⟨h4, .unmap proc s ((v.holders proc).slots s) :: rest, ?_, ?_⟩
        · rw [h2, h5, List.append_assoc, List.singleton_append]
        · rintro st (_ | ⟨_, hst⟩)
          · exact ⟨s, hss s List.mem_cons_self, _, rfl, hc.1, hc.2.1⟩
          · exact h3 st hst
      · exact ⟨h1, rest, h2, h3⟩
  · obtain ⟨-, h2⟩ := foldl_appendDestroy hown h
    exact ⟨[], by rw [h2]; simp [Plan.new], by simp⟩

/-- a slot that maps `region` is among its holders -/
theorem mem_holdersOf {v : View R P S} {region p s : ℕ} :
    (p, s) ∈ holdersOf v region ↔ p < P ∧ s < S ∧ (v.holders p).live = true ∧ (v.holders p).slots s = region ∧
      region ≠ 0 := by
  simp only [holdersOf, List.mem_flatMap, List.mem_map, List.mem_filter, List.mem_range, Prod.mk.injEq, Bool.and_eq_true,
    beq_iff_eq, bne_iff_ne, ne_eq]
  constructor
  · rintro ⟨q, hq, t, ⟨ht, ⟨hl, he⟩, hne⟩, rfl, rfl⟩
    exact ⟨hq, ht, hl, he, fun hz => hne (he.trans hz)⟩
  · rintro ⟨hp, hs, hl, he, hne⟩
    exact ⟨p, hp, s, ⟨hs, ⟨hl, he⟩, fun hz => hne (he ▸ hz)⟩, rfl, rfl⟩

theorem mem_ownedBy {v : View R P S} {id r : ℕ} :
    r ∈ ownedBy v id ↔ ∃ i < R, (v.regions i).live = true ∧ (v.regions i).owner = id ∧ (v.regions i).id = r := by
  simp [ownedBy, and_assoc]

end Rustproof.Regions
