/-
What a lifetime plan does when it is carried out (`crates/regions`).

`destroy_eq`, `teardown_eq`: a plan is the list of everything its function pushes, cut off at its capacity; so a plan that
says it was not truncated has dropped nothing.
`plans_carry`: such a plan, carried out step by step, releases exactly the regions it is for, each when no live holder maps it
any more and its capabilities are gone, and unmaps exactly the slots concerned, each once.
-/
import Rustproof.Crates.Regions

namespace Rustproof.Regions

open Lib

variable {R P S N : ℕ}

/-! ## Plans as lists -/

/-- `ss`, as far as it fits into a plan -/
def Plan.of (ss : List Step) : Plan N := ⟨ss.take N, decide (N < ss.length)⟩

namespace Plan

theorem of_nil : (of [] : Plan N) = new := by simp [of, new]

theorem of_steps (ss : List Step) : (of ss : Plan N).steps = ss.take N := rfl

theorem push_of (ss : List Step) (s : Step) : (of ss : Plan N).push s = of (ss ++ [s]) := by
  have hlen : (of ss : Plan N).steps.length < N ↔ ss.length < N := by
    rw [of_steps, List.length_take]
    omega
  unfold push
  by_cases h : ss.length < N
  · -- there is room: nothing has been cut off, and nothing is now
    have htake : ss.take N = ss := List.take_of_length_le h.le
    have htake' : (ss ++ [s]).take N = ss ++ [s] := List.take_of_length_le (by simpa using h)
    rw [if_pos (hlen.2 h)]
    simp only [of, htake, htake', List.length_append, List.length_singleton]
    congr 1
    simp
    omega
  · have htake : (ss ++ [s]).take N = ss.take N := List.take_append_of_le_length (by omega)
    rw [if_neg (fun h0 => h (hlen.1 h0))]
    simp only [of, htake, List.length_append, List.length_singleton]
    congr 1
    simp
    omega

theorem pushAll_of (ss ts : List Step) : (of ss : Plan N).pushAll ts = of (ss ++ ts) := by
  induction ts generalizing ss with
  | nil => rw [List.append_nil]; rfl
  | cons t ts ih =>
    rw [pushAll, List.foldl_cons, push_of, ← pushAll, ih, List.append_assoc, List.singleton_append]

/-- what fits is there in full, and what does not is reported -/
theorem of_complete {ss : List Step} (h : (of ss : Plan N).truncated = false) : (of ss : Plan N).steps = ss := by
  have hlen : ss.length ≤ N := by
    unfold of at h
    simpa using h
  exact List.take_of_length_le hlen

end Plan

/-- everything `destroy` pushes -/
def destroyAll (v : View R P S) (region : ℕ) : List Step :=
  if region = 0 ∨ isLive v region = false then [] else destroySteps v region

/-- **`destroy`** is its list of steps, cut off at the capacity. -/
theorem destroy_eq (v : View R P S) (region : ℕ) : (destroy v region : Plan N) = Plan.of (destroyAll v region) := by
  unfold destroy destroyAll
  split_ifs with hc
  · exact Plan.of_nil.symm
  · rw [← Plan.of_nil, Plan.pushAll_of, Plan.push_of, Plan.push_of]
    simp [destroySteps]

/-- the slot `s` of the dying process maps a region, and not one that it owns -/
def Borrowed (v : View R P S) (proc id s : ℕ) : Bool :=
  (v.holders proc).slots s != 0 &&
    !(anyIdx R fun i => (v.regions i).live && (v.regions i).id == (v.holders proc).slots s && (v.regions i).owner == id)

/-- everything `teardown` pushes: the owned regions' steps, then the dying process's other mappings -/
def teardownAll (v : View R P S) (proc id : ℕ) : List Step :=
  (ownedBy v id).flatMap (destroyAll v) ++
    if proc < P ∧ (v.holders proc).live ∧ (v.holders proc).id = id then
      ((List.range S).filter (Borrowed v proc id)).map fun s => .unmap proc s ((v.holders proc).slots s)
    else []

theorem appendDestroy_of (v : View R P S) (ss : List Step) (region : ℕ) :
    appendDestroy v (Plan.of ss : Plan N) region = Plan.of (ss ++ destroyAll v region) := by
  have hcut : ∀ ts : List Step, (ss ++ ts.take N).take N = (ss ++ ts).take N := by
    intro ts
    rw [List.take_append, List.take_append, List.take_take, min_eq_left (Nat.sub_le _ _)]
  simp only [appendDestroy, destroy_eq, Plan.of_steps, Plan.pushAll_of]
  rw [hcut]
  by_cases h : N < (destroyAll v region).length
  · simp [Plan.of, h]
    omega
  · rw [List.take_of_length_le (Nat.le_of_not_lt h)]
    simp [Plan.of, h]

theorem foldl_appendDestroy_of (v : View R P S) (rs : List ℕ) (ss : List Step) :
    rs.foldl (appendDestroy v) (Plan.of ss : Plan N) = Plan.of (ss ++ rs.flatMap (destroyAll v)) := by
  induction rs generalizing ss with
  | nil => simp
  | cons r rs ih => rw [List.foldl_cons, appendDestroy_of, ih, List.flatMap_cons, List.append_assoc]

/-- a step that unmaps slot `s` of holder `p` -/
theorem unmap_mem_destroyAll {v : View R P S} {region p s r : ℕ} :
    .unmap p s r ∈ destroyAll v region ↔
      r = region ∧ isLive v region = true ∧ p < P ∧ s < S ∧ (v.holders p).live = true ∧ (v.holders p).slots s = region ∧
        region ≠ 0 := by
  unfold destroyAll
  split_ifs with hc
  · simp only [List.not_mem_nil, false_iff]
    rintro ⟨-, hl, -, -, -, -, hne⟩
    rcases hc with hc | hc
    · exact hne hc
    · rw [hl] at hc; exact absurd hc (by decide)
  · rw [not_or, Bool.not_eq_false] at hc
    unfold destroySteps
    simp only [List.mem_append, List.mem_map, Prod.exists, Step.unmap.injEq, mem_holdersOf, List.mem_cons, reduceCtorEq,
      List.not_mem_nil, or_false]
    constructor
    · rintro ⟨q, t, ⟨hp, hs, hl, he, hne⟩, rfl, rfl, rfl⟩
      exact ⟨rfl, hc.2, hp, hs, hl, he, hne⟩
    · rintro ⟨rfl, -, hp, hs, hl, he, hne⟩
      exact ⟨p, s, ⟨hp, hs, hl, he, hne⟩, rfl, rfl, rfl⟩

/-- an owned region is a live region of the table -/
theorem ownedBy_anyIdx {v : View R P S} {id r : ℕ} :
    r ∈ ownedBy v id ↔ (anyIdx R fun i => (v.regions i).live && (v.regions i).id == r && (v.regions i).owner == id) = true := by
  rw [mem_ownedBy, anyIdx_iff]
  simp only [Bool.and_eq_true, beq_iff_eq]
  constructor
  · rintro ⟨i, hi, hl, ho, he⟩
    exact ⟨i, hi, ⟨hl, he⟩, ho⟩
  · rintro ⟨i, hi, ⟨hl, he⟩, ho⟩
    exact ⟨i, hi, hl, ho, he⟩

theorem borrowed_iff {v : View R P S} {proc id s : ℕ} :
    Borrowed v proc id s = true ↔ (v.holders proc).slots s ≠ 0 ∧ (v.holders proc).slots s ∉ ownedBy v id := by
  rw [ownedBy_anyIdx]
  unfold Borrowed
  rw [Bool.and_eq_true, bne_iff_ne, Bool.not_eq_true', ← Bool.not_eq_true]

/-- **`teardown`** is its list of steps, cut off at the capacity: no step that it pushes is in the plan already. -/
theorem teardown_eq (v : View R P S) (proc id : ℕ) : (teardown v proc id : Plan N) = Plan.of (teardownAll v proc id) := by
  unfold teardown teardownAll
  rw [← Plan.of_nil, foldl_appendDestroy_of, List.nil_append]
  split_ifs with hc
  · have loop : ∀ n, (List.range n).foldl (fun plan s => if borrowedSlot v plan proc id s then
        plan.push (.unmap proc s ((v.holders proc).slots s)) else plan)
          (Plan.of ((ownedBy v id).flatMap (destroyAll v)) : Plan N) =
        Plan.of ((ownedBy v id).flatMap (destroyAll v) ++
          ((List.range n).filter (Borrowed v proc id)).map fun s => .unmap proc s ((v.holders proc).slots s)) := by
      intro n
      induction n with
      | zero => simp
      | succ n ih =>
        rw [List.range_succ, List.foldl_append, ih, List.foldl_cons, List.foldl_nil, List.filter_append]
        set ss := (ownedBy v id).flatMap (destroyAll v) ++
          ((List.range n).filter (Borrowed v proc id)).map fun s => Step.unmap proc s ((v.holders proc).slots s)
        -- a borrowed slot is unmapped neither for a region the process owns nor as an earlier slot
        have hnew : Borrowed v proc id n = true → ∀ r, Step.unmap proc n r ∉ ss := by
          intro hb r hmem
          rcases List.mem_append.1 hmem with hmem | hmem
          · obtain ⟨q, hq, hmem⟩ := List.mem_flatMap.1 hmem
            obtain ⟨-, -, -, -, -, he, -⟩ := unmap_mem_destroyAll.1 hmem
            exact (borrowed_iff.1 hb).2 (he ▸ hq)
          · obtain ⟨s, hs, he⟩ := List.mem_map.1 hmem
            have hlt := List.mem_range.1 (List.mem_of_mem_filter hs)
            injection he
            omega
        have hsame : borrowedSlot v (Plan.of ss : Plan N) proc id n = Borrowed v proc id n := by
          cases hb : Borrowed v proc id n with
          | false =>
            unfold borrowedSlot
            unfold Borrowed at hb
            simp only
            rw [hb, Bool.false_and]
          | true =>
            unfold borrowedSlot
            unfold Borrowed at hb
            simp only
            rw [hb, Bool.true_and, Bool.not_eq_true', List.any_eq_false]
            rintro (⟨p, slot, r⟩ | r | r) hst
            · simp only [Bool.and_eq_true, beq_iff_eq]
              rintro ⟨rfl, rfl⟩
              exact hnew (by unfold Borrowed; exact hb) r (List.mem_of_mem_take hst)
            · exact Bool.false_ne_true
            · exact Bool.false_ne_true
        rw [hsame]
        cases hb : Borrowed v proc id n with
        | true => simp [Plan.push_of, hb, ss]
        | false => simp [hb, ss]
    exact loop S
  · rw [List.append_nil]

/-! ## Carrying a plan out -/

/-- what a step does to the tables: a slot is emptied, or the entry of a released region -/
def View.carryOut (v : View R P S) : Step → View R P S
  | .unmap p s _ => ⟨v.regions, v.holders.put p { v.holders p with slots := (v.holders p).slots.put s 0 }⟩
  | .forgetCaps _ => v
  | .release r => ⟨fun i => if (v.regions i).live ∧ (v.regions i).id = r then Region.EMPTY else v.regions i, v.holders⟩

def View.carryAll (v : View R P S) (ss : List Step) : View R P S := ss.foldl View.carryOut v

/-- some live holder slot maps `r` -/
def Held (v : View R P S) (r : ℕ) : Prop := ∃ p < P, ∃ s < S, (v.holders p).live = true ∧ (v.holders p).slots s = r

/-- the live regions have ids of their own, not 0 -/
structure LiveIds (v : View R P S) : Prop where
  nonzero : ∀ i < R, (v.regions i).live = true → (v.regions i).id ≠ 0
  distinct : ∀ i < R, ∀ j < R, (v.regions i).live = true → (v.regions j).live = true →
    (v.regions i).id = (v.regions j).id → i = j

/-- the live regions have ids of their own -/
def DistinctIds (v : View R P S) : Prop :=
  ∀ i < R, ∀ j < R, (v.regions i).live = true → (v.regions j).live = true → (v.regions i).id = (v.regions j).id → i = j

/-- `ss`, carried out on `v`, tears down the regions `rel` and the slots `own`: safely, completely and no more -/
structure Carries (v : View R P S) (rel : ℕ → Prop) (own : ℕ → ℕ → Prop) (ss : List Step) : Prop where
  safe : ∀ k r, ss[k]? = some (.release r) → ¬Held (v.carryAll (ss.take k)) r ∧ .forgetCaps r ∈ ss.take k
  releases : ∀ r, .release r ∈ ss ↔ rel r
  forgets : ∀ r, .forgetCaps r ∈ ss ↔ rel r
  unmaps : ∀ p s r, .unmap p s r ∈ ss ↔
    p < P ∧ s < S ∧ (v.holders p).live = true ∧ (v.holders p).slots s = r ∧ (rel r ∨ own p s ∧ r ≠ 0)
  once : ss.Nodup

/-- carrying steps out empties the slots they unmap, and no other -/
theorem carryAll_slots (v : View R P S) (ss : List Step) (p s : ℕ) :
    ((v.carryAll ss).holders p).live = (v.holders p).live ∧
      (((v.carryAll ss).holders p).slots s = 0 ∨
        ((v.carryAll ss).holders p).slots s = (v.holders p).slots s ∧ ∀ r, .unmap p s r ∉ ss) := by
  induction ss generalizing v with
  | nil => exact ⟨rfl, Or.inr ⟨rfl, fun _ => List.not_mem_nil⟩⟩
  | cons st ss ih =>
    rw [View.carryAll, List.foldl_cons, ← View.carryAll]
    obtain ⟨hlive, hslot⟩ := ih (v.carryOut st)
    have hone : ((v.carryOut st).holders p).live = (v.holders p).live ∧
        (((v.carryOut st).holders p).slots s = 0 ∨
          ((v.carryOut st).holders p).slots s = (v.holders p).slots s ∧ ∀ r, st ≠ .unmap p s r) := by
      cases st with
      | unmap q t r =>
        by_cases hq : q = p
        · subst hq
          by_cases ht : t = s
          · subst ht; simp [View.carryOut]
          · simp [View.carryOut, ht, Table.put_of_ne _ (Ne.symm ht)]
        · simp [View.carryOut, hq, Table.put_of_ne _ (Ne.symm hq)]
      | forgetCaps r => exact ⟨rfl, Or.inr ⟨rfl, fun _ => Step.noConfusion⟩⟩
      | release r => exact ⟨rfl, Or.inr ⟨rfl, fun _ => Step.noConfusion⟩⟩
    refine ⟨hlive.trans hone.1, ?_⟩
    rcases hslot with h0 | ⟨h0, hrest⟩
    · exact Or.inl h0
    rcases hone.2 with h1 | ⟨h1, hst⟩
    · exact Or.inl (h0.trans h1)
    · refine Or.inr ⟨h0.trans h1, fun r hmem => ?_⟩
      rcases List.mem_cons.1 hmem with he | hmem
      · exact hst r he.symm
      · exact hrest r hmem

/-- before a region is released all its holders are unmapped and its capabilities are dropped -/
def Guarded (v : View R P S) (ss : List Step) : Prop :=
  ∀ k r, ss[k]? = some (.release r) →
    (∀ ps ∈ holdersOf v r, .unmap ps.1 ps.2 r ∈ ss.take k) ∧ .forgetCaps r ∈ ss.take k

theorem Guarded.append {v : View R P S} {xs ys : List Step} (hx : Guarded v xs) (hy : Guarded v ys) :
    Guarded v (xs ++ ys) := by
  intro k r hk
  by_cases hlt : k < xs.length
  · rw [List.getElem?_append_left hlt] at hk
    rw [List.take_append_of_le_length hlt.le]
    exact hx k r hk
  · rw [List.getElem?_append_right (by omega)] at hk
    obtain ⟨h1, h2⟩ := hy _ r hk
    rw [List.take_append, List.take_of_length_le (by omega)]
    exact ⟨fun ps hps => List.mem_append_right _ (h1 ps hps), List.mem_append_right _ h2⟩

theorem guarded_of_not_release {v : View R P S} {ss : List Step} (h : ∀ r, Step.release r ∉ ss) : Guarded v ss :=
  fun _ r hk => absurd (List.mem_of_getElem? hk) (h r)

theorem guarded_destroyAll (v : View R P S) (region : ℕ) : Guarded v (destroyAll v region) := by
  unfold destroyAll
  split_ifs
  · exact guarded_of_not_release fun _ => List.not_mem_nil
  intro k r hk
  unfold destroySteps at hk ⊢
  set us := (holdersOf v region).map fun ps => Step.unmap ps.1 ps.2 region
  have hnot : ¬k < us.length := by
    intro hlt
    rw [List.getElem?_append_left hlt] at hk
    obtain ⟨ps, -, he⟩ := List.mem_map.1 (List.mem_of_getElem? hk)
    exact absurd he Step.noConfusion
  rw [List.getElem?_append_right (by omega)] at hk
  -- it is the last of the three kinds of step
  obtain ⟨hlast, rfl⟩ : k - us.length = 1 ∧ r = region := by
    rcases hi : k - us.length with _ | _ | n
    · rw [hi] at hk; simp at hk
    · rw [hi] at hk; simp at hk; exact ⟨rfl, hk.symm⟩
    · rw [hi] at hk; simp at hk
  rw [List.take_append, List.take_of_length_le (by omega), hlast]
  exact ⟨fun ps hps => List.mem_append_left _ (List.mem_map.2 ⟨ps, hps, rfl⟩), List.mem_append_right _ (by simp)⟩

theorem guarded_teardownAll (v : View R P S) (proc id : ℕ) : Guarded v (teardownAll v proc id) := by
  unfold teardownAll
  apply Guarded.append
  · induction ownedBy v id with
    | nil => exact guarded_of_not_release fun _ => List.not_mem_nil
    | cons r rs ih => rw [List.flatMap_cons]; exact (guarded_destroyAll v r).append ih
  · apply guarded_of_not_release
    intro r hmem
    split_ifs at hmem
    · obtain ⟨s, -, he⟩ := List.mem_map.1 hmem
      exact absurd he Step.noConfusion
    · exact absurd hmem List.not_mem_nil

/-- a guarded list of steps is safe to carry out -/
theorem Guarded.safe {v : View R P S} {ss : List Step} (h : Guarded v ss) {k r : ℕ} (hr : r ≠ 0)
    (hk : ss[k]? = some (.release r)) : ¬Held (v.carryAll (ss.take k)) r ∧ .forgetCaps r ∈ ss.take k := by
  obtain ⟨hunmapped, hforgotten⟩ := h k r hk
  refine ⟨?_, hforgotten⟩
  rintro ⟨p, hp, s, hs, hl, he⟩
  obtain ⟨hlive, hslot⟩ := carryAll_slots v (ss.take k) p s
  rcases hslot with h0 | ⟨h0, hnone⟩
  · exact hr (he.symm.trans h0)
  · exact hnone r (hunmapped (p, s) (mem_holdersOf.2 ⟨hp, hs, hlive ▸ hl, h0.symm.trans he, hr⟩))

/-! ## Every step once -/

/-- the region a step is about -/
def Step.region : Step → ℕ
  | .unmap _ _ r => r
  | .forgetCaps r => r
  | .release r => r

theorem region_of_mem_destroyAll {v : View R P S} {region : ℕ} {st : Step} (h : st ∈ destroyAll v region) :
    st.region = region := by
  unfold destroyAll at h
  split_ifs at h
  · exact absurd h List.not_mem_nil
  · rcases List.mem_append.1 h with h | h
    · obtain ⟨ps, -, rfl⟩ := List.mem_map.1 h
      rfl
    · simp only [List.mem_cons, List.not_mem_nil, or_false] at h
      rcases h with rfl | rfl <;> rfl

theorem nodup_holdersOf (v : View R P S) (region : ℕ) : (holdersOf v region).Nodup := by
  unfold holdersOf
  rw [List.nodup_flatMap]
  refine ⟨fun p _ => (List.nodup_range.filter _).map fun a b h => (Prod.mk.inj h).2, ?_⟩
  refine List.nodup_range.imp fun {p q} hpq x hx hy => hpq ?_
  obtain ⟨s, -, rfl⟩ := List.mem_map.1 hx
  obtain ⟨t, -, he⟩ := List.mem_map.1 hy
  exact (Prod.mk.inj he).1.symm

theorem nodup_destroyAll (v : View R P S) (region : ℕ) : (destroyAll v region).Nodup := by
  unfold destroyAll
  split_ifs
  · exact List.nodup_nil
  unfold destroySteps
  refine List.nodup_append.2 ⟨(nodup_holdersOf v region).map ?_, by simp, ?_⟩
  · rintro ⟨p, s⟩ ⟨q, t⟩ h
    injection h with hp hs
    exact Prod.ext hp hs
  · rintro st hst st' hst' rfl
    obtain ⟨ps, -, rfl⟩ := List.mem_map.1 hst
    simp at hst'

theorem nodup_ownedBy {v : View R P S} (hids : DistinctIds v) (id : ℕ) : (ownedBy v id).Nodup := by
  unfold ownedBy
  refine List.Nodup.map_on ?_ (List.nodup_range.filter _)
  intro i hi j hj he
  simp only [List.mem_filter, List.mem_range, Bool.and_eq_true] at hi hj
  exact hids i hi.1 j hj.1 hi.2.1 hj.2.1 he

theorem nodup_teardownAll {v : View R P S} (hids : DistinctIds v) (proc id : ℕ) : (teardownAll v proc id).Nodup := by
  unfold teardownAll
  refine List.nodup_append.2 ⟨?_, ?_, ?_⟩
  · rw [List.nodup_flatMap]
    refine ⟨fun r _ => nodup_destroyAll v r, (nodup_ownedBy hids id).imp fun {q r} hqr st hst hst' => hqr ?_⟩
    exact (region_of_mem_destroyAll hst).symm.trans (region_of_mem_destroyAll hst')
  · split_ifs
    · refine (List.nodup_range.filter _).map fun s t h => ?_
      injection h
    · exact List.nodup_nil
  · -- a step for an owned region is not one for a borrowed slot
    rintro st hst st' hst' rfl
    obtain ⟨r, hr, hst⟩ := List.mem_flatMap.1 hst
    split_ifs at hst'
    · obtain ⟨s, hs, rfl⟩ := List.mem_map.1 hst'
      have hb := borrowed_iff.1 (List.mem_filter.1 hs).2
      have he : (v.holders proc).slots s = r := region_of_mem_destroyAll hst
      rw [he] at hb
      exact hb.2 hr
    · exact absurd hst' List.not_mem_nil

/-! ## The capacity

An unmapping is of one of `P * S` slots, and each region adds two steps more. -/

/-- what tells the steps of a plan apart: the slot unmapped, or the region -/
def Step.key : Step → (ℕ × ℕ) ⊕ (ℕ ⊕ ℕ)
  | .unmap p s _ => .inl (p, s)
  | .forgetCaps r => .inr (.inl r)
  | .release r => .inr (.inr r)

/-- the regions a list of steps is for, and what it may unmap -/
structure Concerns (v : View R P S) (rs : List ℕ) (ss : List Step) : Prop where
  unmaps : ∀ p s r, .unmap p s r ∈ ss → p < P ∧ s < S ∧ (v.holders p).slots s = r
  forgets : ∀ r, .forgetCaps r ∈ ss → r ∈ rs
  releases : ∀ r, .release r ∈ ss → r ∈ rs

theorem Concerns.length_le {v : View R P S} {rs : List ℕ} {ss : List Step} (h : Concerns v rs ss) (hnd : ss.Nodup) :
    ss.length ≤ P * S + 2 * rs.length := by
  have hkey : (ss.map Step.key).Nodup := by
    refine List.Nodup.map_on ?_ hnd
    intro x hx y hy he
    cases x <;> cases y <;> simp only [Step.key, Sum.inl.injEq, Sum.inr.injEq, Prod.mk.injEq, reduceCtorEq] at he
    case unmap.unmap p s r p' s' r' =>
      -- a slot holds one region
      obtain ⟨rfl, rfl⟩ := he
      obtain ⟨-, -, h1⟩ := h.unmaps _ _ _ hx
      obtain ⟨-, -, h2⟩ := h.unmaps _ _ _ hy
      rw [← h1, ← h2]
    all_goals rw [he]
  have hsub : (ss.map Step.key).toFinset ⊆
      (Finset.range P ×ˢ Finset.range S).disjSum (rs.toFinset.disjSum rs.toFinset) := by
    intro k hk
    obtain ⟨st, hst, rfl⟩ := List.mem_map.1 (List.mem_toFinset.1 hk)
    cases st with
    | unmap p s r =>
      obtain ⟨hp, hs, -⟩ := h.unmaps p s r hst
      simp [Step.key, hp, hs]
    | forgetCaps r => simpa [Step.key] using h.forgets r hst
    | release r => simpa [Step.key] using h.releases r hst
  calc ss.length = (ss.map Step.key).toFinset.card := by rw [List.toFinset_card_of_nodup hkey, List.length_map]
    _ ≤ ((Finset.range P ×ˢ Finset.range S).disjSum (rs.toFinset.disjSum rs.toFinset)).card := Finset.card_le_card hsub
    _ = P * S + 2 * rs.toFinset.card := by
      rw [Finset.card_disjSum, Finset.card_disjSum, Finset.card_product, Finset.card_range, Finset.card_range]
      ring
    _ ≤ P * S + 2 * rs.length := by
      have := rs.toFinset_card_le
      omega

theorem concerns_destroyAll (v : View R P S) (region : ℕ) : Concerns v [region] (destroyAll v region) := by
  refine ⟨fun p s r h => ?_, fun r h => ?_, fun r h => ?_⟩
  · obtain ⟨rfl, -, hp, hs, -, he, -⟩ := unmap_mem_destroyAll.1 h
    exact ⟨hp, hs, he⟩
  · exact List.mem_singleton.2 (region_of_mem_destroyAll h)
  · exact List.mem_singleton.2 (region_of_mem_destroyAll h)

theorem concerns_teardownAll (v : View R P S) (proc id : ℕ) : Concerns v (ownedBy v id) (teardownAll v proc id) := by
  -- the steps for the regions it owns, and the rest
  have hcase : ∀ st ∈ teardownAll v proc id, (∃ r ∈ ownedBy v id, st ∈ destroyAll v r) ∨
      ∃ s < S, proc < P ∧ st = .unmap proc s ((v.holders proc).slots s) := by
    intro st hst
    unfold teardownAll at hst
    rcases List.mem_append.1 hst with h | h
    · exact Or.inl (List.mem_flatMap.1 h)
    · split_ifs at h with hc
      · obtain ⟨s, hs, rfl⟩ := List.mem_map.1 h
        exact Or.inr ⟨s, List.mem_range.1 (List.mem_filter.1 hs).1, hc.1, rfl⟩
      · exact absurd h List.not_mem_nil
  refine ⟨fun p s r h => ?_, fun r h => ?_, fun r h => ?_⟩
  · rcases hcase _ h with ⟨q, -, hq⟩ | ⟨t, ht, hp, he⟩
    · exact (concerns_destroyAll v q).unmaps p s r hq
    · injection he with h1 h2 h3
      subst h1 h2
      exact ⟨hp, ht, h3.symm⟩
  · rcases hcase _ h with ⟨q, hq, hst⟩ | ⟨t, -, -, he⟩
    · rwa [show r = q from region_of_mem_destroyAll hst]
    · exact absurd he (by simp)
  · rcases hcase _ h with ⟨q, hq, hst⟩ | ⟨t, -, -, he⟩
    · rwa [show r = q from region_of_mem_destroyAll hst]
    · exact absurd he (by simp)

theorem Plan.of_fits {ss : List Step} (h : ss.length ≤ N) : (Plan.of ss : Plan N).truncated = false := by
  simp [Plan.of, h]

theorem length_ownedBy_le (v : View R P S) (id : ℕ) : (ownedBy v id).length ≤ R := by
  unfold ownedBy
  rw [List.length_map]
  exact (List.length_filter_le _ _).trans_eq (List.length_range)

/-- **Every plan fits** into `P * S + 2 * R` steps. -/
theorem plans_fit (v : View R P S) (hids : DistinctIds v) (hN : P * S + 2 * R ≤ N) :
    (∀ region, (destroy v region : Plan N).truncated = false) ∧
      ∀ proc id, (teardown v proc id : Plan N).truncated = false := by
  constructor
  · intro region
    rw [destroy_eq]
    refine Plan.of_fits ?_
    by_cases hl : isLive v region = true
    · -- the region is one of the table
      obtain ⟨i, hi, -⟩ := anyIdx_iff.1 hl
      have h := (concerns_destroyAll v region).length_le (nodup_destroyAll v region)
      rw [List.length_singleton] at h
      omega
    · rw [Bool.not_eq_true] at hl
      rw [destroyAll, if_pos (Or.inr hl)]
      exact Nat.zero_le N
  · intro proc id
    rw [teardown_eq]
    refine Plan.of_fits ?_
    have h := (concerns_teardownAll v proc id).length_le (nodup_teardownAll hids proc id)
    have hle := length_ownedBy_le v id
    omega

/-! ## The plans -/

theorem isLive_iff {v : View R P S} {region : ℕ} :
    isLive v region = true ↔ ∃ i < R, (v.regions i).live = true ∧ (v.regions i).id = region := by
  unfold isLive
  rw [anyIdx_iff]
  simp only [Bool.and_eq_true, beq_iff_eq]

theorem LiveIds.ne_zero {v : View R P S} (h : LiveIds v) {region : ℕ} (hl : isLive v region = true) : region ≠ 0 := by
  obtain ⟨i, hi, hlive, rfl⟩ := isLive_iff.1 hl
  exact h.nonzero i hi hlive

theorem isLive_of_owned {v : View R P S} {id r : ℕ} (h : r ∈ ownedBy v id) : isLive v r = true := by
  obtain ⟨i, hi, hl, -, he⟩ := mem_ownedBy.1 h
  exact isLive_iff.2 ⟨i, hi, hl, he⟩

/-- the last two steps of a region's plan are there if the region is live -/
theorem mem_destroyAll {v : View R P S} (hids : LiveIds v) {region r : ℕ} :
    (.release r ∈ destroyAll v region ↔ r = region ∧ isLive v region = true) ∧
      (.forgetCaps r ∈ destroyAll v region ↔ r = region ∧ isLive v region = true) := by
  unfold destroyAll
  by_cases hl : isLive v region = true
  · have hc : ¬(region = 0 ∨ isLive v region = false) := by simp [hids.ne_zero hl, hl]
    rw [if_neg hc]
    simp [destroySteps, hl]
  · rw [if_pos (Or.inr (Bool.eq_false_iff.2 hl))]
    simp [hl]

theorem mem_teardownAll {v : View R P S} (hids : LiveIds v) {proc id r : ℕ} :
    (.release r ∈ teardownAll v proc id ↔ r ∈ ownedBy v id) ∧
      (.forgetCaps r ∈ teardownAll v proc id ↔ r ∈ ownedBy v id) := by
  unfold teardownAll
  have hrest : ∀ st : Step, (∀ p s q, st ≠ .unmap p s q) →
      (st ∈ (if proc < P ∧ (v.holders proc).live ∧ (v.holders proc).id = id then
        ((List.range S).filter (Borrowed v proc id)).map fun s => Step.unmap proc s ((v.holders proc).slots s) else []) ↔
          False) := by
    intro st hst
    rw [iff_false]
    intro hmem
    split_ifs at hmem
    · obtain ⟨s, -, he⟩ := List.mem_map.1 hmem
      exact hst _ _ _ he.symm
    · exact absurd hmem List.not_mem_nil
  rw [List.mem_append, List.mem_append, hrest _ (fun _ _ _ => Step.noConfusion), hrest _ (fun _ _ _ => Step.noConfusion),
    or_false, or_false, List.mem_flatMap, List.mem_flatMap]
  simp only [(mem_destroyAll hids).1, (mem_destroyAll hids).2]
  have hiff : (∃ a ∈ ownedBy v id, r = a ∧ isLive v a = true) ↔ r ∈ ownedBy v id :=
    ⟨fun ⟨_, ha, he, _⟩ => he ▸ ha, fun h => ⟨r, h, rfl, isLive_of_owned h⟩⟩
  exact ⟨hiff, hiff⟩

theorem unmap_mem_teardownAll {v : View R P S} (hids : LiveIds v) {proc id p s r : ℕ} :
    .unmap p s r ∈ teardownAll v proc id ↔
      p < P ∧ s < S ∧ (v.holders p).live = true ∧ (v.holders p).slots s = r ∧
        (r ∈ ownedBy v id ∨ (p = proc ∧ (v.holders proc).id = id) ∧ r ≠ 0) := by
  unfold teardownAll
  rw [List.mem_append, List.mem_flatMap]
  simp only [unmap_mem_destroyAll]
  constructor
  · rintro (⟨q, hq, rfl, -, hp, hs, hl, he, -⟩ | hmem)
    · exact ⟨hp, hs, hl, he, Or.inl hq⟩
    · split_ifs at hmem with hc
      · obtain ⟨t, ht, he⟩ := List.mem_map.1 hmem
        obtain ⟨ht, hb⟩ := List.mem_filter.1 ht
        injection he with h1 h2 h3
        subst h1 h2
        exact ⟨hc.1, List.mem_range.1 ht, hc.2.1, h3, Or.inr ⟨⟨rfl, hc.2.2⟩, h3 ▸ (borrowed_iff.1 hb).1⟩⟩
      · exact absurd hmem List.not_mem_nil
  · rintro ⟨hp, hs, hl, he, hown⟩
    by_cases hq : r ∈ ownedBy v id
    · exact Or.inl ⟨r, hq, rfl, isLive_of_owned hq, hp, hs, hl, he, hids.ne_zero (isLive_of_owned hq)⟩
    · obtain ⟨⟨rfl, hid⟩, hr⟩ := hown.resolve_left hq
      rw [if_pos ⟨hp, hl, hid⟩]
      refine Or.inr (List.mem_map.2 ⟨s, List.mem_filter.2 ⟨List.mem_range.2 hs, borrowed_iff.2 ?_⟩, by rw [he]⟩)
      rw [he]
      exact ⟨hr, hq⟩

theorem carries_destroyAll {v : View R P S} (hids : LiveIds v) (region : ℕ) :
    Carries v (fun r => r = region ∧ isLive v region = true) (fun _ _ => False) (destroyAll v region) := by
  refine ⟨fun k r hk => ?_, fun r => (mem_destroyAll hids).1, fun r => (mem_destroyAll hids).2, fun p s r => ?_,
    nodup_destroyAll v region⟩
  · obtain ⟨rfl, hl⟩ := (mem_destroyAll hids).1.1 (List.mem_of_getElem? hk)
    exact (guarded_destroyAll v r).safe (hids.ne_zero hl) hk
  · rw [unmap_mem_destroyAll]
    constructor
    · rintro ⟨rfl, hlive, hp, hs, hl, he, -⟩
      exact ⟨hp, hs, hl, he, Or.inl ⟨rfl, hlive⟩⟩
    · rintro ⟨hp, hs, hl, he, ⟨rfl, hlive⟩ | ⟨h0, -⟩⟩
      · exact ⟨rfl, hlive, hp, hs, hl, he, hids.ne_zero hlive⟩
      · exact h0.elim

theorem carries_teardownAll {v : View R P S} (hids : LiveIds v) (proc id : ℕ) :
    Carries v (· ∈ ownedBy v id) (fun p _ => p = proc ∧ (v.holders proc).id = id) (teardownAll v proc id) := by
  refine ⟨fun k r hk => ?_, fun r => (mem_teardownAll hids).1, fun r => (mem_teardownAll hids).2,
    fun p s r => unmap_mem_teardownAll hids, nodup_teardownAll hids.distinct proc id⟩
  have hr := (mem_teardownAll hids).1.1 (List.mem_of_getElem? hk)
  exact (guarded_teardownAll v proc id).safe (hids.ne_zero (isLive_of_owned hr)) hk

/-- a plan that was not cut off is the same in any larger plan -/
theorem Plan.of_larger {ss : List Step} {M : ℕ} (hM : N ≤ M) (h : (Plan.of ss : Plan N).truncated = false) :
    (Plan.of ss : Plan M).steps = (Plan.of ss : Plan N).steps ∧ (Plan.of ss : Plan M).truncated = false := by
  have hlen : ss.length ≤ N := by
    unfold Plan.of at h
    simpa using h
  have htrunc : (Plan.of ss : Plan M).truncated = false := by
    unfold Plan.of
    simpa using hlen.trans hM
  exact ⟨(Plan.of_complete htrunc).trans (Plan.of_complete h).symm, htrunc⟩

/-- **Lifetime plans are safe, complete and minimal.** Whatever the tables, if the ids of live regions are distinct and not
0: a plan of `destroy` or `teardown` that is not marked truncated holds what it would hold with more room, and carried out it
releases exactly the region asked for, or the regions of the dying identity, and unmaps exactly their holders and, for
`teardown`, the other slots of the dying process. -/
theorem plans_carry (v : View R P S) (hids : LiveIds v) (N : ℕ) :
    (∀ region, (destroy v region : Plan N).truncated = false →
      Carries v (fun r => r = region ∧ isLive v region = true) (fun _ _ => False) (destroy v region : Plan N).steps ∧
        ∀ M, N ≤ M → (destroy v region : Plan M).steps = (destroy v region : Plan N).steps) ∧
    (∀ proc id, (teardown v proc id : Plan N).truncated = false →
      Carries v (fun r => ∃ i < R, (v.regions i).live = true ∧ (v.regions i).owner = id ∧ (v.regions i).id = r)
        (fun p _ => p = proc ∧ (v.holders proc).id = id) (teardown v proc id : Plan N).steps ∧
        ∀ M, N ≤ M → (teardown v proc id : Plan M).steps = (teardown v proc id : Plan N).steps) ∧
    ∀ region, region = 0 ∨ isLive v region = false → (destroy v region : Plan N) = Plan.new := by
  refine ⟨fun region h => ?_, fun proc id h => ?_, fun region h => if_pos h⟩
  · simp only [destroy_eq] at h ⊢
    refine ⟨?_, fun M hM => (Plan.of_larger hM h).1⟩
    rw [Plan.of_complete h]
    exact carries_destroyAll hids region
  · simp only [teardown_eq] at h ⊢
    refine ⟨?_, fun M hM => (Plan.of_larger hM h).1⟩
    rw [Plan.of_complete h]
    simpa only [mem_ownedBy] using carries_teardownAll hids proc id

/-- a region its owner and a borrower map, and one that the owner borrows -/
def sharedRegions : View 3 2 2 :=
  ⟨fun i => match i with
    | 0 => ⟨true, 4, 11⟩
    | 1 => ⟨true, 5, 12⟩
    | _ => ⟨false, 4, 11⟩,
  fun p => match p with
    | 0 => ⟨true, 11, fun s => if s = 0 then 4 else 5⟩
    | _ => ⟨true, 12, fun s => if s = 0 then 0 else 4⟩⟩

theorem sharedRegions_carried : (teardown sharedRegions 0 11 : Plan 8).steps =
      [.unmap 0 0 4, .unmap 1 1 4, .forgetCaps 4, .release 4, .unmap 0 1 5] ∧
    ¬Held (sharedRegions.carryAll ((teardown sharedRegions 0 11 : Plan 8).steps.take 3)) 4 := by
  have hids : LiveIds sharedRegions := ⟨by decide, by decide⟩
  refine ⟨by decide, ?_⟩
  have h := ((plans_carry sharedRegions hids 8).2.1 0 11 (by decide)).1
  exact (h.safe 3 4 (by decide)).1

end Rustproof.Regions
