/-
Chains of delegation (`crates/deleg`): what a revocation reaches over the whole ledger, and what a dead process leaves behind.

`revokeFrom_reaches`: for every ledger, cycles and duplicate edges included, `revokeFrom` writes exactly what lies below its
root, kills exactly the edges out of what it has reached, and reports no end twice if the ledger is a forest.
`spliceOut_preserves`: in a forest `spliceOut` keeps every chain of delegation between the ends that survive.
-/
import Rustproof.Lib.Paths
import Rustproof.Crates.Deleg

namespace Rustproof.Deleg

open Lib Relation

namespace Ledger

variable {N : ℕ}

/-- the live edges form a forest: no end is delegated to twice, and no chain of delegations comes back -/
structure IsForest (l : Ledger N) : Prop where
  unique : ∀ i < N, ∀ j < N, (l.edges i).live = true → (l.edges j).live = true →
    (l.edges i).child = (l.edges j).child → i = j
  acyclic : ∀ e, ¬TransGen l.Has e e

/-- edge `i` is live in `l` and dead in `l'` -/
def Killed (l l' : Ledger N) (i : ℕ) : Prop := (l.edges i).live = true ∧ (l'.edges i).live = false

instance (l l' : Ledger N) (i : ℕ) : Decidable (Killed l l' i) := inferInstanceAs (Decidable (_ ∧ _))

variable {l l' : Ledger N}

theorem has_iff_arrow (a b : Endpoint) :
    l.Has a b ↔ Arrow ((Finset.range N).filter fun i => (l.edges i).live = true) (fun i => (l.edges i).parent)
      (fun i => (l.edges i).child) a b := by
  constructor
  · rintro ⟨i, hi, he⟩
    have hl : (l.edges i).live = true := by rw [he]
    have hp : (l.edges i).parent = a := by rw [he]
    have hc : (l.edges i).child = b := by rw [he]
    exact ⟨i, Finset.mem_filter.2 ⟨Finset.mem_range.2 hi, hl⟩, hp, hc⟩
  · rintro ⟨i, hi, rfl, rfl⟩
    obtain ⟨hi, hl⟩ := Finset.mem_filter.1 hi
    exact has_edge (Finset.mem_range.1 hi) hl

/-- a forest can be ranked -/
theorem IsForest.forest (h : IsForest l) : Forest l fun _ _ => True := by
  have harrow : l.Has = Arrow ((Finset.range N).filter fun i => (l.edges i).live = true) (fun i => (l.edges i).parent)
      (fun i => (l.edges i).child) := by
    funext a b
    exact propext (has_iff_arrow a b)
  obtain ⟨rank, hr⟩ := exists_rank _ _ _ (harrow ▸ h.acyclic)
  refine ⟨fun _ _ _ => trivial, h.unique, rank, fun i hi hl => ?_⟩
  exact hr i (Finset.mem_filter.2 ⟨Finset.mem_range.2 hi, hl⟩)

/-- and what can be ranked has no cycle -/
theorem Forest.isForest {R : Endpoint → Endpoint → Prop} (h : Forest l R) : IsForest l := by
  have htop : Forest l fun _ _ => True := ⟨fun _ _ _ => trivial, h.unique, h.rank⟩
  exact ⟨h.unique, fun e he => (htop.below (fun _ _ _ _ _ => trivial) he).2 rfl⟩

/-! ## Revoking -/

/-- a pass that spares every edge changes nothing -/
theorem revokePass_of_spared {root : Endpoint} (cap : ℕ) {u : Ledger N} {out : List Endpoint}
    (h : ∀ i < N, Spared root u out i) : revokePass root cap u out = (u, out, false) := by
  have loop : ∀ n ≤ N, (List.range n).foldl (revokeEdge root cap) (u, out, false) = (u, out, false) := by
    intro n
    induction n with
    | zero => intro _; rfl
    | succ n ih =>
      intro hn
      rw [List.range_succ, List.foldl_append, List.foldl_cons, List.foldl_nil, ih (by omega), revokeEdge]
      cases hl : (u.edges n).live with
      | false => rfl
      | true => simp [(h n (by omega) hl).1, (h n (by omega) hl).2]
  exact loop N le_rfl

/-- `N + 1` passes end the loop, and more make no difference -/
theorem revokeLoop_ends {root : Endpoint} {cap : ℕ} (hcap : N ≤ cap) {l : Ledger N} (fuel : ℕ) {u : Ledger N}
    {out : List Endpoint} (h : Walk l root u out) (hf : u.len < fuel) (fuel' : ℕ) (hf' : fuel ≤ fuel') :
    revokeLoop root cap fuel' u out = revokeLoop root cap fuel u out := by
  induction fuel generalizing u out fuel' with
  | zero => omega
  | succ fuel ih =>
    obtain ⟨k, rfl⟩ : ∃ k, fuel' = k + 1 := ⟨fuel' - 1, by omega⟩
    obtain ⟨h1, h2, -⟩ := h.pass cap hcap
    rw [revokeLoop, revokeLoop]
    cases hp : (revokePass root cap u out).2.2 with
    | true =>
      simp only [if_true]
      have := h2 hp
      exact ih h1 (by omega) k (by omega)
    | false => rfl

/-- the walk of a whole revocation -/
theorem revokeFrom_walk (l : Ledger N) (root : Endpoint) {cap : ℕ} (hcap : N ≤ cap) :
    Walk l root (l.revokeFrom root cap).1 (l.revokeFrom root cap).2 ∧
      ∀ i < N, Spared root (l.revokeFrom root cap).1 (l.revokeFrom root cap).2 i :=
  (Walk.start l root).loop hcap (N + 1) (Nat.lt_succ_of_le (len_le l))

/-- what a revocation kills is counted by what it writes -/
theorem Walk.count_killed {root : Endpoint} {u : Ledger N} {out : List Endpoint} (h : Walk l root u out) :
    out.length = ((Finset.range N).filter fun i => Killed l u i).card := by
  have hsplit : (Finset.range N).filter (fun i => (l.edges i).live = true) =
      (Finset.range N).filter (fun i => Killed l u i) ∪ (Finset.range N).filter fun i => (u.edges i).live = true := by
    ext i
    rw [Finset.mem_union, Finset.mem_filter, Finset.mem_filter, Finset.mem_filter]
    constructor
    · rintro ⟨hi, hl⟩
      cases hu : (u.edges i).live with
      | true => exact Or.inr ⟨hi, rfl⟩
      | false => exact Or.inl ⟨hi, hl, hu⟩
    · rintro (⟨hi, hl, -⟩ | ⟨hi, hu⟩)
      · exact ⟨hi, hl⟩
      · exact ⟨hi, by rw [← h.sub i (Finset.mem_range.1 hi) hu]; exact hu⟩
  have hdisj : Disjoint ((Finset.range N).filter fun i => Killed l u i)
      ((Finset.range N).filter fun i => (u.edges i).live = true) := by
    rw [Finset.disjoint_filter]
    rintro i - ⟨-, hd⟩ hu
    rw [hd] at hu
    exact absurd hu (by decide)
  have hcard := Finset.card_union_of_disjoint hdisj
  rw [← hsplit, ← len_eq, ← len_eq] at hcard
  have := h.count
  omega

/-- in a forest no end is written twice: the killed edges lead to different ends, and there are as many of them -/
theorem Walk.nodup {root : Endpoint} {u : Ledger N} {out : List Endpoint} (h : Walk l root u out) (hf : IsForest l) :
    out.Nodup := by
  have hle : ((Finset.range N).filter fun i => Killed l u i).card ≤ out.toFinset.card := by
    refine Finset.card_le_card_of_injOn (fun i => (l.edges i).child) (fun i hi => ?_) (fun i hi j hj he => ?_)
    · obtain ⟨hi, hl, hd⟩ := Finset.mem_filter.1 (Finset.mem_coe.1 hi)
      exact Finset.mem_coe.2 (List.mem_toFinset.2 (h.killed i (Finset.mem_range.1 hi) hl hd).2)
    · obtain ⟨hi, hli, -⟩ := Finset.mem_filter.1 (Finset.mem_coe.1 hi)
      obtain ⟨hj, hlj, -⟩ := Finset.mem_filter.1 (Finset.mem_coe.1 hj)
      exact hf.unique i (Finset.mem_range.1 hi) j (Finset.mem_range.1 hj) hli hlj he
  rw [← h.count_killed] at hle
  have heq : out.toFinset.card = out.length := le_antisymm (List.toFinset_card_le out) hle
  rw [List.card_toFinset] at heq
  have hsub : out.dedup = out := (List.dedup_sublist out).eq_of_length heq
  rw [← hsub]
  exact out.nodup_dedup

/-- what `revoke_from` has to do to `l`, for every layout of its edges -/
structure Revokes (l : Ledger N) (root : Endpoint) (l' : Ledger N) (out : List Endpoint) : Prop where
  reaches : ∀ d, d ∈ out ↔ TransGen l.Has root d
  kills : ∀ i < N, (l.edges i).live = true →
    ((l'.edges i).live = false ↔ (l.edges i).parent = root ∨ (l.edges i).parent ∈ out)
  count : out.length = ((Finset.range N).filter fun i => Killed l l' i).card
  rest : ∀ i, ¬Killed l l' i → l'.edges i = l.edges i
  ends : ∀ i, (l'.edges i).parent = (l.edges i).parent ∧ (l'.edges i).child = (l.edges i).child
  once : IsForest l → out.Nodup ∧ root ∉ out

/-- edges are only ever killed, and only those of the array -/
theorem revokeEdge_fades (root : Endpoint) (cap : ℕ) (s : Ledger N × List Endpoint × Bool) (i j : ℕ) :
    (revokeEdge root cap s i).1.edges j = s.1.edges j ∨
      (s.1.edges j).live = true ∧ (revokeEdge root cap s i).1.edges j = { s.1.edges j with live := false } := by
  unfold revokeEdge
  simp only
  split_ifs with hl hp hroom
  · exact Or.inl rfl
  · exact Or.inl rfl
  all_goals
    by_cases hj : j = i
    · subst hj
      exact Or.inr ⟨by simpa using hl, by simp [kill]⟩
    · exact Or.inl (kill_of_ne _ hj)

/-- `u` is `l` with some of its live edges killed -/
def Faded (l u : Ledger N) : Prop :=
  ∀ j, u.edges j = l.edges j ∨ (l.edges j).live = true ∧ u.edges j = { l.edges j with live := false }

theorem Faded.trans {l u w : Ledger N} (h : Faded l u) (h' : Faded u w) : Faded l w := by
  intro j
  rcases h j with h0 | ⟨hl, h0⟩
  · rw [← h0]; exact h' j
  · rcases h' j with h1 | ⟨hl', -⟩
    · exact Or.inr ⟨hl, by rw [h1, h0]⟩
    · rw [h0] at hl'; exact absurd hl' Bool.false_ne_true

theorem faded_revokePass (root : Endpoint) (cap : ℕ) (u : Ledger N) (out : List Endpoint) :
    Faded u (revokePass root cap u out).1 := by
  unfold revokePass
  refine List.foldlRecOn (motive := fun s : Ledger N × List Endpoint × Bool => Faded u s.1) _ _ (fun _ => Or.inl rfl) ?_
  intro s hs i _
  exact hs.trans (revokeEdge_fades root cap s i)

theorem faded_revokeLoop (root : Endpoint) (cap fuel : ℕ) (u : Ledger N) (out : List Endpoint) :
    Faded u (revokeLoop root cap fuel u out).1 := by
  induction fuel generalizing u out with
  | zero => exact fun _ => Or.inl rfl
  | succ fuel ih =>
    rw [revokeLoop]
    cases (revokePass root cap u out).2.2 with
    | true => exact (faded_revokePass root cap u out).trans (ih _ _)
    | false => exact faded_revokePass root cap u out

/-- **A revocation computes the reachable set.** For every ledger, whatever its edges, every root and every buffer that holds
a whole ledger: the loop of `revoke_from` ends, within `N + 1` passes, the last of which changes nothing; and what it has
written and killed is what `Revokes` says. -/
theorem revokeFrom_reaches (l : Ledger N) (root : Endpoint) (cap : ℕ) (hcap : N ≤ cap) :
    (∀ fuel, N + 1 ≤ fuel → revokeLoop root cap fuel l [] = l.revokeFrom root cap) ∧
    revokePass root cap (l.revokeFrom root cap).1 (l.revokeFrom root cap).2 =
      ((l.revokeFrom root cap).1, (l.revokeFrom root cap).2, false) ∧
    Revokes l root (l.revokeFrom root cap).1 (l.revokeFrom root cap).2 := by
  obtain ⟨hwalk, hspared⟩ := revokeFrom_walk l root hcap
  obtain ⟨hreach, -, -⟩ := revokeFrom_spec l root cap hcap
  have hfaded : Faded l (l.revokeFrom root cap).1 := faded_revokeLoop root cap (N + 1) l []
  refine ⟨revokeLoop_ends hcap (N + 1) (Walk.start l root) (Nat.lt_succ_of_le (len_le l)), revokePass_of_spared cap hspared, ?_⟩
  generalize l.revokeFrom root cap = r at hwalk hspared hreach hfaded ⊢
  refine ⟨hreach, fun i hi hl => ⟨fun hd => (hwalk.killed i hi hl hd).1, fun hp => ?_⟩, hwalk.count_killed, fun i hk => ?_,
    fun i => ?_, fun hf => ⟨hwalk.nodup hf, fun hmem => hf.acyclic root ((hreach root).1 hmem)⟩⟩
  · -- a live edge out of the reached set would have been walked
    by_contra hlive
    rw [Bool.not_eq_false] at hlive
    obtain ⟨h1, h2⟩ := hspared i hi hlive
    rw [hwalk.sub i hi hlive] at h1 h2
    rcases hp with hp | hp
    · exact h1 hp
    · exact h2 hp
  · rcases hfaded i with h0 | ⟨hl, h0⟩
    · exact h0
    · exact absurd ⟨hl, by rw [h0]⟩ hk
  · rcases hfaded i with h0 | ⟨-, h0⟩ <;> rw [h0] <;> exact ⟨rfl, rfl⟩

/-- two edges into one end, and a cycle -/
def tangled : Ledger 4 :=
  ⟨fun i => match i with
    | 0 => ⟨⟨1, 7, 0⟩, ⟨2, 8, 0⟩, true⟩
    | 1 => ⟨⟨0, 6, 0⟩, ⟨1, 7, 0⟩, true⟩
    | 2 => ⟨⟨2, 8, 0⟩, ⟨1, 7, 0⟩, true⟩
    | _ => ⟨⟨3, 9, 0⟩, ⟨4, 10, 0⟩, true⟩⟩

theorem tangled_revoked : (tangled.revokeFrom ⟨0, 6, 0⟩ 4).2 = [⟨1, 7, 0⟩, ⟨2, 8, 0⟩, ⟨1, 7, 0⟩] ∧
    Revokes tangled ⟨0, 6, 0⟩ (tangled.revokeFrom ⟨0, 6, 0⟩ 4).1 (tangled.revokeFrom ⟨0, 6, 0⟩ 4).2 :=
  ⟨by decide, (revokeFrom_reaches tangled ⟨0, 6, 0⟩ 4 (by decide)).2.2⟩

/-! ## Splicing out -/

/-- edge `i` is outside the incarnation, at both ends -/
def Outside (l : Ledger N) (proc id i : ℕ) : Prop :=
  (l.edges i).parent.sameProc proc id = false ∧ (l.edges i).child.sameProc proc id = false

/-- what the edges of a forest give at one of them: it is the only one into its end, and does not leave it -/
theorem Forest.only {R : Endpoint → Endpoint → Prop} (h : Forest l R) {i : ℕ} (hi : i < N) (hl : (l.edges i).live = true) :
    (∀ a, l.Has a (l.edges i).child → a = (l.edges i).parent) ∧ ¬l.Has (l.edges i).child (l.edges i).child := by
  constructor
  · rintro a ⟨j, hj, he⟩
    have hji : j = i := h.unique j hj i hi (by rw [he]) hl (by rw [he])
    rw [← hji, he]
  · rintro ⟨j, hj, he⟩
    obtain ⟨rank, hr⟩ := h.rank
    have := hr j hj (by rw [he])
    rw [he] at this
    exact absurd this (lt_irrefl _)

/-- what one edge into the dead process turns the edges into -/
theorem spliceEdge_at {proc id i : ℕ} (hl : (l.edges i).live = true) (hc : (l.edges i).child.sameProc proc id = true) (j : ℕ) :
    (l.spliceEdge proc id i).edges j =
      if j = i then { (l.reparent (l.edges i)).edges i with live := false }
      else if j < N ∧ (l.edges j).live ∧ (l.edges j).parent = (l.edges i).child
        then { l.edges j with parent := (l.edges i).parent } else l.edges j := by
  have hif : ¬((l.edges i).live = false ∨ (l.edges i).child.sameProc proc id = false) := by
    rw [hl, hc]
    decide
  rw [spliceEdge]
  simp only [if_neg hif, kill, Table.put_apply]
  rfl

/-- an arrow of the new ledger is an old one that misses the end spliced out, or bypasses it -/
theorem Forest.spliceEdge_has {R : Endpoint → Endpoint → Prop} (h : Forest l R) {proc id i : ℕ} (hi : i < N)
    (hl : (l.edges i).live = true) (hc : (l.edges i).child.sameProc proc id = true) (a b : Endpoint) :
    (l.spliceEdge proc id i).Has a b ↔
      (l.Has a b ∧ a ≠ (l.edges i).child ∧ b ≠ (l.edges i).child) ∨
        (a = (l.edges i).parent ∧ l.Has (l.edges i).child b) := by
  obtain ⟨-, hself⟩ := h.only hi hl
  constructor
  · rintro ⟨j, hj, he⟩
    rw [spliceEdge_at hl hc] at he
    split_ifs at he with hji hp
    · exact absurd (congrArg Edge.live he) Bool.false_ne_true
    · obtain ⟨-, hlj, hp⟩ := hp
      have ha : (l.edges i).parent = a := congrArg Edge.parent he
      have hb : (l.edges j).child = b := congrArg Edge.child he
      exact Or.inr ⟨ha.symm, j, hj, by rw [← hp, ← hb, ← hlj]⟩
    · refine Or.inl ⟨⟨j, hj, he⟩, ?_, ?_⟩
      · rintro rfl
        exact hp ⟨hj, by rw [he], by rw [he]⟩
      · rintro rfl
        exact hji (h.unique j hj i hi (by rw [he]) hl (by rw [he]))
  · rintro (⟨⟨j, hj, he⟩, ha, hb⟩ | ⟨rfl, j, hj, he⟩)
    · refine ⟨j, hj, ?_⟩
      rw [spliceEdge_at hl hc, if_neg, if_neg, he]
      · rw [he]; exact fun hp => ha hp.2.2
      · rintro rfl; exact hb (by rw [he])
    · refine ⟨j, hj, ?_⟩
      rw [spliceEdge_at hl hc, if_neg, if_pos, he]
      · exact ⟨hj, by rw [he], by rw [he]⟩
      · rintro rfl
        exact hself ⟨j, hj, by rw [he]; rw [he]⟩

/-- **One edge into the dead process** is spliced out without loss for the others. -/
theorem Forest.spliceEdge_reaches {R : Endpoint → Endpoint → Prop} (h : Forest l R) (proc id : ℕ) {i : ℕ} (hi : i < N)
    {a b : Endpoint} (ha : a.sameProc proc id = false) (hb : b.sameProc proc id = false) :
    TransGen (l.spliceEdge proc id i).Has a b ↔ TransGen l.Has a b := by
  by_cases hc : (l.edges i).live = false ∨ (l.edges i).child.sameProc proc id = false
  · rw [Ledger.spliceEdge, if_pos hc]
  rw [not_or, Bool.not_eq_false, Bool.not_eq_false] at hc
  obtain ⟨hl, hc⟩ := hc
  obtain ⟨hin, hself⟩ := h.only hi hl
  apply transGen_bypass (has_edge hi hl) hin hself (h.spliceEdge_has hi hl hc)
  · rintro rfl; rw [hc] at ha; exact absurd ha (by decide)
  · rintro rfl; rw [hc] at hb; exact absurd hb (by decide)

theorem Forest.spliceLoop_reaches (h : Forest l fun _ _ => True) (proc id : ℕ) {a b : Endpoint}
    (ha : a.sameProc proc id = false) (hb : b.sameProc proc id = false) :
    TransGen (l.spliceLoop proc id).Has a b ↔ TransGen l.Has a b := by
  have loop : Forest (l.spliceLoop proc id) (fun _ _ => True) ∧
      (TransGen (l.spliceLoop proc id).Has a b ↔ TransGen l.Has a b) := by
    unfold spliceLoop
    refine List.foldlRecOn
      (motive := fun u : Ledger N => Forest u (fun _ _ => True) ∧ (TransGen u.Has a b ↔ TransGen l.Has a b))
      _ _ ⟨h, Iff.rfl⟩ ?_
    rintro u ⟨hu, hreach⟩ i hi
    have hi := List.mem_range.1 hi
    exact ⟨hu.spliceEdge (fun _ _ _ _ _ => trivial) proc id hi, (hu.spliceEdge_reaches proc id hi ha hb).trans hreach⟩
  exact loop.2

/-- an edge outside the incarnation is left alone by the loop -/
theorem spliceLoop_outside {proc id i : ℕ} (h : Outside l proc id i) : (l.spliceLoop proc id).edges i = l.edges i := by
  unfold spliceLoop
  refine List.foldlRecOn (motive := fun u : Ledger N => u.edges i = l.edges i) _ _ rfl ?_
  intro u hu j _
  by_cases hc : (u.edges j).live = false ∨ (u.edges j).child.sameProc proc id = false
  · rw [spliceEdge, if_pos hc]; exact hu
  rw [not_or, Bool.not_eq_false, Bool.not_eq_false] at hc
  obtain ⟨hl, hc⟩ := hc
  rw [spliceEdge_at hl hc, if_neg, if_neg, hu]
  · rintro ⟨-, -, hp⟩
    rw [← hp, hu, h.1] at hc
    exact absurd hc (by decide)
  · rintro rfl
    rw [hu, h.2] at hc
    exact absurd hc (by decide)

/-- dropping the edges out of the dead process loses no chain between the others: by now none leads into it -/
theorem dropWhere_reaches {proc id : ℕ} {u : Ledger N}
    (hclean : ∀ i < N, (u.edges i).live = true → (u.edges i).child.sameProc proc id = false) {a b : Endpoint}
    (ha : a.sameProc proc id = false) :
    TransGen (u.dropWhere fun e => e.parent.sameProc proc id).Has a b ↔ TransGen u.Has a b := by
  apply transGen_leaving (S := fun e => e.sameProc proc id = true)
  · rintro x y ⟨i, hi, he⟩
    have := hclean i hi (by rw [he])
    rw [he] at this
    exact ne_true_of_eq_false this
  · intro x y
    constructor
    · rintro ⟨i, hi, he⟩
      have hsub := sub_dropWhere u (fun e => e.parent.sameProc proc id) i hi (by rw [he])
      obtain ⟨hp, -⟩ := dropWhere_live hi (p := fun e => e.parent.sameProc proc id) (by rw [he])
      rw [← hsub, he] at hp
      exact ⟨⟨i, hi, by rw [← hsub, he]⟩, ne_true_of_eq_false hp⟩
    · rintro ⟨⟨i, hi, he⟩, hx⟩
      refine ⟨i, hi, ?_⟩
      rw [dropWhere]
      simp only [he, Bool.not_eq_true] at hx ⊢
      simp [hx]
  · exact ne_true_of_eq_false ha

/-- **Splicing out keeps exactly the surviving derivations.** In a forest, whatever the order of its edges: nothing of the
dead incarnation is left, the ends outside it reach each other as before, and the edges outside it are untouched. -/
theorem spliceOut_preserves (l : Ledger N) (h : IsForest l) (proc id : ℕ) :
    (∀ i < N, ((l.spliceOut proc id).edges i).live = true → Outside (l.spliceOut proc id) proc id i) ∧
    (∀ a b : Endpoint, a.sameProc proc id = false → b.sameProc proc id = false →
      (TransGen (l.spliceOut proc id).Has a b ↔ TransGen l.Has a b)) ∧
    ∀ i, Outside l proc id i → (l.spliceOut proc id).edges i = l.edges i := by
  refine ⟨fun i hi hl => spliceOut_clean hi hl, fun a b ha hb => ?_, fun i hout => ?_⟩
  · rw [spliceOut_eq]
    calc TransGen ((l.spliceLoop proc id).dropWhere fun e => e.parent.sameProc proc id).Has a b
        ↔ TransGen (l.spliceLoop proc id).Has a b := dropWhere_reaches (fun i hi hl => spliceLoop_clean hi hl) ha
      _ ↔ TransGen l.Has a b := h.forest.spliceLoop_reaches proc id ha hb
  · have hloop := spliceLoop_outside hout
    rw [spliceOut_eq, dropWhere]
    simp only [hloop]
    rw [if_neg]
    rintro ⟨-, -, hp⟩
    rw [hout.1] at hp
    exact absurd hp (by decide)

/-- a process with two capabilities, one handed on to itself and then to another, beside a second incarnation in its slot -/
def handedOn : Ledger 4 :=
  ⟨fun i => match i with
    | 0 => ⟨⟨1, 7, 1⟩, ⟨2, 8, 0⟩, true⟩
    | 1 => ⟨⟨1, 7, 0⟩, ⟨1, 7, 1⟩, true⟩
    | 2 => ⟨⟨0, 6, 0⟩, ⟨1, 7, 0⟩, true⟩
    | _ => ⟨⟨0, 6, 0⟩, ⟨1, 5, 0⟩, true⟩⟩

theorem handedOn_forest : IsForest handedOn := by
  have hf : Forest handedOn fun _ _ => True := by
    refine ⟨fun _ _ _ => trivial, ?_, fun e => 2 * e.proc + e.cap, ?_⟩ <;> decide
  exact hf.isForest

theorem handedOn_preserved : TransGen (handedOn.spliceOut 1 7).Has ⟨0, 6, 0⟩ ⟨2, 8, 0⟩ ∧
    (handedOn.spliceOut 1 7).edges 3 = handedOn.edges 3 := by
  obtain ⟨-, hreach, hout⟩ := spliceOut_preserves handedOn handedOn_forest 1 7
  refine ⟨(hreach _ _ (by decide) (by decide)).2 ?_, hout 3 ⟨by decide, by decide⟩⟩
  have h1 : handedOn.Has ⟨0, 6, 0⟩ ⟨1, 7, 0⟩ := ⟨2, by decide, rfl⟩
  have h2 : handedOn.Has ⟨1, 7, 0⟩ ⟨1, 7, 1⟩ := ⟨1, by decide, rfl⟩
  have h3 : handedOn.Has ⟨1, 7, 1⟩ ⟨2, 8, 0⟩ := ⟨0, by decide, rfl⟩
  exact ((TransGen.single h1).tail h2).tail h3

end Ledger

end Rustproof.Deleg
