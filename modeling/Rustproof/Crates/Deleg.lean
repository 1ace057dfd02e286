/-
The delegation ledger (`crates/deleg`): who handed which capability to whom, and what a revocation reaches.

Both ends of an edge are a process slot together with the identity of its occupant when the edge was made. The
operations are the source's loops over an array of `N` edges: `record`, `revokeFrom`, `spliceOut`, `forget`.

`Forest l R`: the live edges form a forest, and each relates its ends by `R`. Every operation keeps it, if `R` is transitive
(`Forest.record`, `Forest.spliceOut`, `Forest.sub`). `revokeFrom_spec`: a revocation reaches what lies below its root, and
nothing that is left lies below it.
-/
import Rustproof.Lib.Table

namespace Rustproof.Deleg

open Lib

/-- one end of an edge: a capability slot in one incarnation of a process slot -/
structure Endpoint where
  proc : ℕ
  id : ℕ
  cap : ℕ
deriving DecidableEq, Repr

def Endpoint.sameProc (e : Endpoint) (proc id : ℕ) : Bool := e.proc == proc && e.id == id

/-- `parent` handed a capability to `child` -/
structure Edge where
  parent : Endpoint
  child : Endpoint
  live : Bool
deriving DecidableEq, Repr

def DEAD : Edge := ⟨⟨0, 0, 0⟩, ⟨0, 0, 0⟩, false⟩

/-- a ledger of `N` edges -/
structure Ledger (N : ℕ) where
  edges : Table Edge

namespace Ledger

variable {N : ℕ}

def new : Ledger N := ⟨fun _ => DEAD⟩

/-- live edges -/
def len (l : Ledger N) : ℕ := ((List.range N).filter fun i => (l.edges i).live).length

/-- record a delegation in the first dead entry; a full ledger records nothing -/
def record (l : Ledger N) (parent child : Endpoint) : Bool × Ledger N :=
  match firstIdx N fun i => !(l.edges i).live with
  | some i => (true, ⟨l.edges.put i ⟨parent, child, true⟩⟩)
  | none => (false, l)

/-- mark edge `i` dead, leaving its ends as they are -/
def kill (l : Ledger N) (i : ℕ) : Ledger N := ⟨l.edges.put i { l.edges i with live := false }⟩

/-- one edge of a pass of `revoke_from`: an edge leaving the root or a reached end is reached; `cap` is `out.len()` -/
def revokeEdge (root : Endpoint) (cap : ℕ) (s : Ledger N × List Endpoint × Bool) (i : ℕ) :
    Ledger N × List Endpoint × Bool :=
  let e := s.1.edges i
  if e.live = false then s
  else if e.parent ≠ root ∧ e.parent ∉ s.2.1 then s
  else (s.1.kill i, if s.2.1.length < cap then s.2.1 ++ [e.child] else s.2.1, true)

/-- one pass over the whole array -/
def revokePass (root : Endpoint) (cap : ℕ) (l : Ledger N) (out : List Endpoint) : Ledger N × List Endpoint × Bool :=
  (List.range N).foldl (revokeEdge root cap) (l, out, false)

/-- passes until one makes no progress; a pass with progress kills an edge, so `N + 1` passes are enough -/
def revokeLoop (root : Endpoint) (cap : ℕ) : ℕ → Ledger N → List Endpoint → Ledger N × List Endpoint
  | 0, l, out => (l, out)
  | fuel + 1, l, out =>
    let r := revokePass root cap l out
    if r.2.2 then revokeLoop root cap fuel r.1 r.2.1 else (r.1, r.2.1)

/-- `revoke_from`: every end reachable from `root`, root excluded; the edges walked are dead afterwards -/
def revokeFrom (l : Ledger N) (root : Endpoint) (cap : ℕ) : Ledger N × List Endpoint :=
  revokeLoop root cap (N + 1) l []

/-- re-attach what leaves `inc.child` to `inc.parent` -/
def reparent (l : Ledger N) (inc : Edge) : Ledger N :=
  ⟨fun j => if j < N ∧ (l.edges j).live ∧ (l.edges j).parent = inc.child
    then { l.edges j with parent := inc.parent } else l.edges j⟩

/-- one edge of the first loop of `splice_out` -/
def spliceEdge (proc id : ℕ) (l : Ledger N) (i : ℕ) : Ledger N :=
  let inc := l.edges i
  if inc.live = false ∨ inc.child.sameProc proc id = false then l else (l.reparent inc).kill i

/-- drop every live edge satisfying `p` -/
def dropWhere (l : Ledger N) (p : Edge → Bool) : Ledger N :=
  ⟨fun j => if j < N ∧ (l.edges j).live ∧ p (l.edges j) then { l.edges j with live := false } else l.edges j⟩

/-- `splice_out`: re-parent over a dead process, then drop what is still rooted at it -/
def spliceOut (l : Ledger N) (proc id : ℕ) : Ledger N :=
  ((List.range N).foldl (spliceEdge proc id) l).dropWhere fun e => e.parent.sameProc proc id

/-- `forget`: drop every edge naming `e`, at both ends -/
def forget (l : Ledger N) (e : Endpoint) : Ledger N := l.dropWhere fun d => d.parent = e || d.child = e

/-- `a` delegated to `b`: some live edge says so -/
def Has (l : Ledger N) (a b : Endpoint) : Prop := ∃ i < N, l.edges i = ⟨a, b, true⟩

/-! ## Forests -/

/-- every live edge relates its ends by `R`, no end is delegated to twice, and no chain of delegations comes back -/
structure Forest (l : Ledger N) (R : Endpoint → Endpoint → Prop) : Prop where
  edge : ∀ i < N, (l.edges i).live = true → R (l.edges i).parent (l.edges i).child
  unique : ∀ i < N, ∀ j < N, (l.edges i).live = true → (l.edges j).live = true →
    (l.edges i).child = (l.edges j).child → i = j
  rank : ∃ rank : Endpoint → ℕ, ∀ i < N, (l.edges i).live = true → rank (l.edges i).parent < rank (l.edges i).child

/-- the live edges of `l'` are live edges of `l` -/
def Sub (l' l : Ledger N) : Prop := ∀ i < N, (l'.edges i).live = true → l'.edges i = l.edges i

theorem Sub.refl (l : Ledger N) : Sub l l := fun _ _ _ => rfl

theorem Sub.trans {l l' l'' : Ledger N} (h : Sub l'' l') (h' : Sub l' l) : Sub l'' l := fun i hi hl => by
  have h1 := h i hi hl
  rw [h1] at hl ⊢
  exact h' i hi hl

variable {l l' : Ledger N} {R : Endpoint → Endpoint → Prop}

theorem forest_new : Forest (new : Ledger N) R := by
  refine ⟨fun i _ h => ?_, fun i _ j _ h => ?_, fun _ => 0, fun i _ h => ?_⟩
  all_goals simp [new, DEAD] at h

theorem Forest.imp {R' : Endpoint → Endpoint → Prop} (h : Forest l R)
    (hR : ∀ i < N, (l.edges i).live = true → R (l.edges i).parent (l.edges i).child →
      R' (l.edges i).parent (l.edges i).child) : Forest l R' :=
  ⟨fun i hi hl => hR i hi hl (h.edge i hi hl), h.unique, h.rank⟩

/-- dropping edges keeps a forest -/
theorem Forest.sub (h : Forest l R) (hs : Sub l' l) : Forest l' R := by
  have live : ∀ i < N, (l'.edges i).live = true → (l.edges i).live = true := fun i hi hl => by rw [← hs i hi hl]; exact hl
  refine ⟨fun i hi hl => ?_, fun i hi j hj hli hlj he => ?_, ?_⟩
  · rw [hs i hi hl]; exact h.edge i hi (live i hi hl)
  · rw [hs i hi hli, hs j hj hlj] at he
    exact h.unique i hi j hj (live i hi hli) (live j hj hlj) he
  · obtain ⟨rank, hr⟩ := h.rank
    exact ⟨rank, fun i hi hl => by rw [hs i hi hl]; exact hr i hi (live i hi hl)⟩

theorem sub_kill (l : Ledger N) (i : ℕ) : Sub (l.kill i) l := fun j _ hl => by
  simp only [kill, Table.put_apply] at hl ⊢
  split_ifs at hl ⊢
  exact rfl

theorem kill_dead (l : Ledger N) (i : ℕ) : ((l.kill i).edges i).live = false := by simp [kill]

theorem kill_of_ne (l : Ledger N) {i j : ℕ} (h : j ≠ i) : (l.kill i).edges j = l.edges j := Table.put_of_ne _ h _

theorem sub_dropWhere (l : Ledger N) (p : Edge → Bool) : Sub (l.dropWhere p) l := fun j _ hl => by
  simp only [dropWhere] at hl ⊢
  split_ifs at hl ⊢
  exact rfl

theorem dropWhere_live {p : Edge → Bool} {i : ℕ} (hi : i < N) (h : ((l.dropWhere p).edges i).live = true) :
    p (l.edges i) = false ∧ (l.edges i).live = true := by
  simp only [dropWhere] at h
  split_ifs at h with hc
  refine ⟨?_, h⟩
  by_contra hp
  exact hc ⟨hi, h, by simpa using hp⟩

/-! ## Recording -/

theorem firstDead (h : l.len < N) : ∃ i, firstIdx N (fun i => !(l.edges i).live) = some i := by
  cases hf : firstIdx N fun i => !(l.edges i).live with
  | some i => exact ⟨i, rfl⟩
  | none =>
    have hall := firstIdx_none hf
    rw [len, List.filter_eq_self.2 fun i hi => ?_, List.length_range] at h
    · exact absurd h (lt_irrefl _)
    · simpa using hall i (List.mem_range.1 hi)

/-- a ledger with room records the edge -/
theorem record_spec (h : l.len < N) (p c : Endpoint) :
    ∃ i < N, (l.edges i).live = false ∧ l.record p c = (true, ⟨l.edges.put i ⟨p, c, true⟩⟩) := by
  obtain ⟨i, hi⟩ := firstDead h
  obtain ⟨hlt, hd, -⟩ := firstIdx_some hi
  exact ⟨i, hlt, by simpa using hd, by rw [record, hi]⟩

/-- handing a capability to an end that no edge names -/
theorem Forest.record (h : Forest l R) (hroom : l.len < N) {p c : Endpoint} (hR : R p c) (hne : p ≠ c)
    (hnew : ∀ i < N, (l.edges i).live = true → (l.edges i).parent ≠ c ∧ (l.edges i).child ≠ c) :
    Forest (l.record p c).2 R := by
  obtain ⟨k, hk, -, hrec⟩ := record_spec hroom p c
  rw [hrec]
  have key : ∀ i, (⟨l.edges.put k ⟨p, c, true⟩⟩ : Ledger N).edges i = if i = k then ⟨p, c, true⟩ else l.edges i :=
    fun _ => rfl
  refine ⟨fun i hi hl => ?_, fun i hi j hj hli hlj he => ?_, ?_⟩
  · rw [key] at hl ⊢
    split_ifs at hl ⊢
    · exact hR
    · exact h.edge i hi hl
  · rw [key] at hli hlj he
    rw [key] at he
    split_ifs at hli hlj he with h1 h2 h2
    · rw [h1, h2]
    · exact absurd he.symm (hnew j hj hlj).2
    · exact absurd he (hnew i hi hli).2
    · exact h.unique i hi j hj hli hlj he
  · obtain ⟨rank, hr⟩ := h.rank
    refine ⟨fun e => if e = c then rank p + 1 else rank e, fun i hi hl => ?_⟩
    rw [key] at hl ⊢
    split_ifs at hl with h1
    · simp [h1, hne]
    · simp only [h1, if_false, if_neg (hnew i hi hl).1, if_neg (hnew i hi hl).2]
      exact hr i hi hl

/-! ## Splicing out -/

/-- one incoming edge of a dead process is replaced by the edges that bypass it -/
theorem Forest.spliceEdge (h : Forest l R) (htrans : ∀ a b c, R a b → R b c → R a c) (proc id : ℕ) {i : ℕ} (hi : i < N) :
    Forest (l.spliceEdge proc id i) R := by
  rw [Ledger.spliceEdge]
  split_ifs with hc
  · exact h
  rw [not_or, Bool.not_eq_false, Bool.not_eq_false] at hc
  have hl := hc.1
  set inc := l.edges i
  -- an edge of the new ledger is an old one, or one that left `inc.child` and now leaves `inc.parent`
  have key : ∀ j < N, (((l.reparent inc).kill i).edges j).live = true → (l.edges j).live = true ∧ j ≠ i ∧
      (((l.reparent inc).kill i).edges j).child = (l.edges j).child ∧
      ((((l.reparent inc).kill i).edges j).parent = (l.edges j).parent ∨
        (l.edges j).parent = inc.child ∧ (((l.reparent inc).kill i).edges j).parent = inc.parent) := by
    intro j hj hlj
    by_cases hji : j = i
    · rw [hji, kill_dead] at hlj; exact absurd hlj (by decide)
    rw [kill_of_ne _ hji] at hlj ⊢
    simp only [reparent] at hlj ⊢
    split_ifs at hlj ⊢ with hp
    · exact ⟨hp.2.1, hji, rfl, Or.inr ⟨hp.2.2, rfl⟩⟩
    · exact ⟨hlj, hji, rfl, Or.inl rfl⟩
  refine ⟨fun j hj hlj => ?_, fun j hj m hm hlj hlm he => ?_, ?_⟩
  · obtain ⟨h1, -, h3, h4⟩ := key j hj hlj
    rw [h3]
    rcases h4 with h4 | ⟨h4, h5⟩
    · rw [h4]; exact h.edge j hj h1
    · rw [h5]; exact htrans _ _ _ (h.edge i hi hl) (h4 ▸ h.edge j hj h1)
  · obtain ⟨h1, -, h3, -⟩ := key j hj hlj
    obtain ⟨h1', -, h3', -⟩ := key m hm hlm
    exact h.unique j hj m hm h1 h1' (by rw [← h3, ← h3']; exact he)
  · obtain ⟨rank, hr⟩ := h.rank
    refine ⟨rank, fun j hj hlj => ?_⟩
    obtain ⟨h1, -, h3, h4⟩ := key j hj hlj
    rw [h3]
    rcases h4 with h4 | ⟨h4, h5⟩
    · rw [h4]; exact hr j hj h1
    · rw [h5]; exact (hr i hi hl).trans (h4 ▸ hr j hj h1)

theorem Forest.spliceOut (h : Forest l R) (htrans : ∀ a b c, R a b → R b c → R a c) (proc id : ℕ) :
    Forest (l.spliceOut proc id) R := by
  rw [Ledger.spliceOut]
  refine Forest.sub ?_ (sub_dropWhere _ _)
  exact List.foldlRecOn (motive := fun l : Ledger N => Forest l R) _ _ h fun l hl i hi =>
    hl.spliceEdge htrans proc id (List.mem_range.1 hi)

/-- splicing changes where edges come from, not where they lead or which slots they lie in -/
theorem spliceEdge_child (proc id : ℕ) (l : Ledger N) (i j : ℕ) :
    ((l.spliceEdge proc id i).edges j).child = (l.edges j).child ∧
      (((l.spliceEdge proc id i).edges j).live = true → (l.edges j).live = true) := by
  rw [Ledger.spliceEdge]
  split_ifs
  · exact ⟨rfl, fun h => h⟩
  · by_cases hji : j = i
    · rw [hji]
      refine ⟨?_, fun h => ?_⟩
      · simp only [kill, Table.put_self, reparent]
        split_ifs <;> rfl
      · rw [kill_dead] at h; exact absurd h (by decide)
    · rw [kill_of_ne _ hji]
      simp only [reparent]
      split_ifs <;> exact ⟨rfl, fun h => h⟩

/-- the first loop of `splice_out` -/
def spliceLoop (l : Ledger N) (proc id : ℕ) : Ledger N := (List.range N).foldl (spliceEdge proc id) l

theorem spliceOut_eq (l : Ledger N) (proc id : ℕ) :
    l.spliceOut proc id = (l.spliceLoop proc id).dropWhere fun e => e.parent.sameProc proc id := rfl

/-- the loop kills every edge into the dead process that it comes to -/
theorem spliceLoop_clean {proc id i : ℕ} (hi : i < N) (h : ((l.spliceLoop proc id).edges i).live = true) :
    ((l.spliceLoop proc id).edges i).child.sameProc proc id = false := by
  have loop : ∀ (n : ℕ) (j : ℕ), j < n →
      (((List.range n).foldl (spliceEdge proc id) l).edges j).live = true →
      (((List.range n).foldl (spliceEdge proc id) l).edges j).child.sameProc proc id = false := by
    intro n
    induction n with
    | zero => intro j hj; omega
    | succ n ih =>
      intro j hj hlj
      rw [List.range_succ, List.foldl_append, List.foldl_cons, List.foldl_nil] at hlj ⊢
      set u := (List.range n).foldl (spliceEdge proc id) l
      obtain ⟨hc, hlive⟩ := spliceEdge_child proc id u n j
      by_cases hjn : j = n
      · rw [hc, hjn]
        by_contra hsame
        rw [Bool.not_eq_false] at hsame
        have hun : (u.edges n).live = true := hjn ▸ hlive hlj
        rw [spliceEdge] at hlj
        rw [if_neg (by rw [hun, hsame]; decide), hjn, kill_dead] at hlj
        exact absurd hlj (by decide)
      · rw [hc]
        exact ih j (by omega) (hlive hlj)
  exact loop N i hi h

/-- **Nothing is left of a dead process.** -/
theorem spliceOut_clean {proc id i : ℕ} (hi : i < N) (h : ((l.spliceOut proc id).edges i).live = true) :
    ((l.spliceOut proc id).edges i).parent.sameProc proc id = false ∧
      ((l.spliceOut proc id).edges i).child.sameProc proc id = false := by
  have hsub := sub_dropWhere (l.spliceLoop proc id) (fun e => e.parent.sameProc proc id) i hi h
  rw [spliceOut_eq] at h ⊢
  obtain ⟨hparent, hlive⟩ := dropWhere_live hi h
  rw [hsub]
  exact ⟨hparent, spliceLoop_clean hi hlive⟩

/-! ## Revoking -/

theorem len_eq (l : Ledger N) : l.len = ((Finset.range N).filter fun i => (l.edges i).live = true).card := by
  rw [len, ← List.toFinset_card_of_nodup (List.nodup_range.filter _), List.toFinset_filter, List.toFinset_range]

theorem len_le (l : Ledger N) : l.len ≤ N := by
  rw [len_eq]
  exact (Finset.card_filter_le _ _).trans_eq (Finset.card_range N)

theorem len_kill {i : ℕ} (hi : i < N) (h : (l.edges i).live = true) : (l.kill i).len + 1 = l.len := by
  have hset : ((Finset.range N).filter fun j => ((l.kill i).edges j).live = true) =
      ((Finset.range N).filter fun j => (l.edges j).live = true).erase i := by
    ext j
    simp only [Finset.mem_filter, Finset.mem_erase, Finset.mem_range]
    by_cases hj : j = i
    · simp [hj, kill_dead]
    · simp [hj, kill_of_ne _ hj]
  rw [len_eq, len_eq, hset]
  exact Finset.card_erase_add_one (by simp [hi, h])

theorem Sub.has {a b : Endpoint} (h : Sub l' l) (hab : l'.Has a b) : l.Has a b := by
  obtain ⟨i, hi, he⟩ := hab
  exact ⟨i, hi, by rw [← h i hi (by rw [he]), he]⟩

theorem has_edge {i : ℕ} (hi : i < N) (h : (l.edges i).live = true) : l.Has (l.edges i).parent (l.edges i).child :=
  ⟨i, hi, by rw [← h]⟩

/-- how far a revocation of `root` has come: what it has reached lies below the root, and an edge is dead because both its
ends are -/
structure Walk (l : Ledger N) (root : Endpoint) (u : Ledger N) (out : List Endpoint) : Prop where
  sub : Sub u l
  below : ∀ d ∈ out, Relation.TransGen l.Has root d
  killed : ∀ i < N, (l.edges i).live = true → (u.edges i).live = false →
    ((l.edges i).parent = root ∨ (l.edges i).parent ∈ out) ∧ (l.edges i).child ∈ out
  count : out.length + u.len = l.len

/-- edge `i` is left over -/
def Spared (root : Endpoint) (u : Ledger N) (out : List Endpoint) (i : ℕ) : Prop :=
  (u.edges i).live = true → (u.edges i).parent ≠ root ∧ (u.edges i).parent ∉ out

theorem Walk.start (l : Ledger N) (root : Endpoint) : Walk l root l [] :=
  ⟨Sub.refl l, fun d hd => absurd hd List.not_mem_nil, fun i _ h h' => by rw [h] at h'; exact absurd h' (by decide),
    Nat.zero_add _⟩

/-- one edge of a pass: it is spared, or the walk goes on over it -/
theorem Walk.edge {root : Endpoint} {cap : ℕ} {s : Ledger N × List Endpoint × Bool} {i : ℕ} (hcap : N ≤ cap) (hi : i < N)
    (h : Walk l root s.1 s.2.1) :
    (revokeEdge root cap s i = s ∧ Spared root s.1 s.2.1 i) ∨
    (revokeEdge root cap s i).2.2 = true ∧ (revokeEdge root cap s i).1.len < s.1.len ∧
      Walk l root (revokeEdge root cap s i).1 (revokeEdge root cap s i).2.1 := by
  obtain ⟨u, out, progress⟩ := s
  rw [revokeEdge]
  simp only at h ⊢
  split_ifs with hl hp hroom
  · exact Or.inl ⟨rfl, fun h0 => by rw [h0] at hl; exact absurd hl (by decide)⟩
  · exact Or.inl ⟨rfl, fun _ => hp⟩
  · rw [Bool.not_eq_false] at hl
    have hkill := len_kill hi hl
    have he := h.sub i hi hl
    have hfrom : (l.edges i).parent = root ∨ (l.edges i).parent ∈ out := by rw [← he]; tauto
    refine Or.inr ⟨rfl, by simp only; omega, (sub_kill u i).trans h.sub, fun d hd => ?_, fun j hj hlj hdj => ?_, ?_⟩
    · rcases List.mem_append.1 hd with hd | hd
      · exact h.below d hd
      · rw [List.mem_singleton.1 hd, he]
        have hedge : l.Has (l.edges i).parent (l.edges i).child := has_edge hi (by rw [← he]; exact hl)
        rcases hfrom with hf | hf
        · rw [hf] at hedge; exact .single hedge
        · exact .tail (h.below _ hf) hedge
    · by_cases hji : j = i
      · rw [hji]
        exact ⟨hfrom.imp_right (List.mem_append_left _), List.mem_append_right _ (by rw [he]; exact List.mem_singleton_self _)⟩
      · rw [kill_of_ne _ hji] at hdj
        obtain ⟨h1, h2⟩ := h.killed j hj hlj hdj
        exact ⟨h1.imp_right (List.mem_append_left _), List.mem_append_left _ h2⟩
    · have := h.count
      rw [List.length_append, List.length_singleton]
      show out.length + 1 + (u.kill i).len = l.len
      omega
  · -- there is room for every live edge
    rw [Bool.not_eq_false] at hl
    have hkill := len_kill hi hl
    have := h.count
    have := len_le l
    omega

/-- a pass: it makes progress, or everything is spared -/
theorem Walk.pass {root : Endpoint} (cap : ℕ) {u : Ledger N} {out : List Endpoint} (hcap : N ≤ cap) (h : Walk l root u out) :
    Walk l root (revokePass root cap u out).1 (revokePass root cap u out).2.1 ∧
      ((revokePass root cap u out).2.2 = true → (revokePass root cap u out).1.len < u.len) ∧
      ((revokePass root cap u out).2.2 = false →
        ∀ i < N, Spared root (revokePass root cap u out).1 (revokePass root cap u out).2.1 i) := by
  have loop : ∀ n ≤ N, ∀ r, r = (List.range n).foldl (revokeEdge root cap) (u, out, false) →
      Walk l root r.1 r.2.1 ∧ (r.2.2 = true → r.1.len < u.len) ∧
        (r.2.2 = false → r = (u, out, false) ∧ ∀ i < n, Spared root u out i) := by
    intro n
    induction n with
    | zero => rintro - r rfl; exact ⟨h, fun h0 => absurd h0 Bool.false_ne_true, fun _ => ⟨rfl, fun i hi => by omega⟩⟩
    | succ n ih =>
      rintro hn r rfl
      rw [List.range_succ, List.foldl_append, List.foldl_cons, List.foldl_nil]
      obtain ⟨h1, h2, h3⟩ := ih (by omega) _ rfl
      generalize (List.range n).foldl (revokeEdge root cap) (u, out, false) = r at h1 h2 h3 ⊢
      rcases h1.edge hcap (show n < N by omega) with ⟨he, hsp⟩ | ⟨hp, hlt, hw⟩
      · rw [he]
        refine ⟨h1, h2, fun h0 => ?_⟩
        obtain ⟨rfl, hall⟩ := h3 h0
        refine ⟨rfl, fun i hi => ?_⟩
        rcases Nat.lt_succ_iff_lt_or_eq.1 hi with hi | rfl
        · exact hall i hi
        · exact hsp
      · refine ⟨hw, fun _ => ?_, fun h0 => by rw [hp] at h0; exact absurd h0 (by decide)⟩
        cases hr : r.2.2 with
        | true => exact hlt.trans (h2 hr)
        | false => rw [(h3 hr).1] at hlt ⊢; exact hlt
  obtain ⟨h1, h2, h3⟩ := loop N le_rfl _ rfl
  refine ⟨h1, h2, fun h0 => ?_⟩
  obtain ⟨he, hall⟩ := h3 h0
  have he' : revokePass root cap u out = (u, out, false) := he
  rw [he']
  exact hall

theorem Walk.loop {root : Endpoint} {cap : ℕ} (hcap : N ≤ cap) (fuel : ℕ) {u : Ledger N} {out : List Endpoint}
    (h : Walk l root u out) (hf : u.len < fuel) :
    Walk l root (revokeLoop root cap fuel u out).1 (revokeLoop root cap fuel u out).2 ∧
      ∀ i < N, Spared root (revokeLoop root cap fuel u out).1 (revokeLoop root cap fuel u out).2 i := by
  induction fuel generalizing u out with
  | zero => omega
  | succ fuel ih =>
    obtain ⟨h1, h2, h3⟩ := h.pass cap hcap
    rw [revokeLoop]
    cases hp : (revokePass root cap u out).2.2 with
    | true => rw [if_pos rfl]; exact ih h1 (by have := h2 hp; omega)
    | false => rw [if_neg (by decide)]; exact ⟨h1, h3 hp⟩

/-- **What a revocation reaches** is what lies below its root, and what is left is the rest. -/
theorem revokeFrom_spec (l : Ledger N) (root : Endpoint) (cap : ℕ) (hcap : N ≤ cap) :
    (∀ d, d ∈ (l.revokeFrom root cap).2 ↔ Relation.TransGen l.Has root d) ∧
    (∀ a b, (l.revokeFrom root cap).1.Has a b ↔ l.Has a b ∧ a ≠ root ∧ ¬Relation.TransGen l.Has root a) ∧
    Sub (l.revokeFrom root cap).1 l := by
  obtain ⟨h, hsp⟩ := (Walk.start l root).loop hcap (N + 1) (Nat.lt_succ_of_le (len_le l))
  rw [revokeFrom]
  generalize revokeLoop root cap (N + 1) l [] = r at h hsp
  -- an edge out of the root or of a reached end has been walked
  have walked : ∀ a b, l.Has a b → a = root ∨ a ∈ r.2 → b ∈ r.2 := by
    rintro a b ⟨i, hi, he⟩ ha
    have hl : (l.edges i).live = true := by rw [he]
    cases hu : (r.1.edges i).live with
    | true =>
      obtain ⟨h1, h2⟩ := hsp i hi hu
      rw [h.sub i hi hu, he] at h1 h2
      exact absurd ha (not_or.2 ⟨h1, h2⟩)
    | false => have := (h.killed i hi hl hu).2; rwa [he] at this
  have hmem : ∀ d, d ∈ r.2 ↔ Relation.TransGen l.Has root d := fun d => by
    refine ⟨h.below d, fun hd => ?_⟩
    induction hd with
    | single he => exact walked _ _ he (Or.inl rfl)
    | tail _ he ih => exact walked _ _ he (Or.inr ih)
  refine ⟨hmem, fun a b => ⟨fun hab => ⟨h.sub.has hab, ?_⟩, fun ⟨⟨i, hi, he⟩, h1, h2⟩ => ⟨i, hi, ?_⟩⟩, h.sub⟩
  · obtain ⟨i, hi, he⟩ := hab
    have := hsp i hi (by rw [he])
    rw [he] at this
    exact ⟨this.1, fun hd => this.2 ((hmem a).2 hd)⟩
  · have hl : (l.edges i).live = true := by rw [he]
    cases hu : (r.1.edges i).live with
    | true => rw [h.sub i hi hu, he]
    | false =>
      have := (h.killed i hi hl hu).1
      rw [he, hmem] at this
      exact absurd this (not_or.2 ⟨h1, h2⟩)

/-- along a chain of delegations the rank grows and a transitive relation holds -/
theorem Forest.below {a b : Endpoint} (h : Forest l R) (htrans : ∀ a b c, R a b → R b c → R a c)
    (hab : Relation.TransGen l.Has a b) : R a b ∧ a ≠ b := by
  obtain ⟨rank, hr⟩ := h.rank
  have hR : ∀ x y, l.Has x y → R x y ∧ rank x < rank y := by
    rintro x y ⟨i, hi, he⟩
    have hl : (l.edges i).live = true := by rw [he]
    have h1 := h.edge i hi hl
    have h2 := hr i hi hl
    rw [he] at h1 h2
    exact ⟨h1, h2⟩
  have key : R a b ∧ rank a < rank b := by
    induction hab with
    | single he => exact hR _ _ he
    | tail _ he ih => exact ⟨htrans _ _ _ ih.1 (hR _ _ he).1, ih.2.trans (hR _ _ he).2⟩
  exact ⟨key.1, fun he => by rw [he] at key; exact absurd key.2 (lt_irrefl _)⟩

end Ledger

end Rustproof.Deleg
