/-
The run queue (`crates/sched`): a round-robin queue of thread ids with a cursor.

The source keeps the ready threads packed into `slots[0..len]`; `queue` is that prefix.
-/
import Mathlib.Tactic

namespace Rustproof.Sched

/-- a run queue of capacity `N`; `cur` is meaningful while the queue is not empty -/
structure Scheduler (N : ℕ) where
  queue : List ℕ
  cur : ℕ
deriving DecidableEq, Repr

namespace Scheduler

variable {N : ℕ}

def new : Scheduler N := ⟨[], 0⟩

def contains (s : Scheduler N) (tid : ℕ) : Bool := s.queue.contains tid

/-- enqueue at the tail; a full queue, or one holding `tid`, is left as it is -/
def add (s : Scheduler N) (tid : ℕ) : Bool × Scheduler N :=
  if s.queue.length = N ∨ s.contains tid then (false, s) else (true, { s with queue := s.queue ++ [tid] })

def current (s : Scheduler N) : Option ℕ := if s.queue.length = 0 then none else s.queue[s.cur]?

/-- advance to the next ready thread -/
def next (s : Scheduler N) : Option ℕ × Scheduler N :=
  if s.queue.length = 0 then (none, s)
  else
    let cur := (s.cur + 1) % s.queue.length
    (s.queue[cur]?, { s with cur := cur })

/-- remove `tid`, closing the gap and keeping the cursor on a live slot -/
def remove (s : Scheduler N) (tid : ℕ) : Bool × Scheduler N :=
  match s.queue.findIdx? (· == tid) with
  | none => (false, s)
  | some idx =>
    let queue := s.queue.eraseIdx idx
    let cur :=
      if queue.length = 0 then 0
      else if idx < s.cur then s.cur - 1
      else if s.cur ≥ queue.length then 0
      else s.cur
    (true, ⟨queue, cur⟩)

/-- the queue holds no thread twice, fits, and the cursor names a live slot, or 0 when there is none -/
structure Ok (s : Scheduler N) : Prop where
  nodup : s.queue.Nodup
  fits : s.queue.length ≤ N
  cursor : s.cur < max s.queue.length 1

theorem ok_new : (new : Scheduler N).Ok := ⟨List.nodup_nil, Nat.zero_le _, Nat.zero_lt_one⟩

theorem contains_iff {s : Scheduler N} {t : ℕ} : s.contains t = true ↔ t ∈ s.queue := by simp [contains]

theorem ok_add {s : Scheduler N} (h : s.Ok) (tid : ℕ) : (s.add tid).2.Ok := by
  rw [add]
  by_cases hc : s.queue.length = N ∨ s.contains tid
  · rw [if_pos hc]; exact h
  rw [if_neg hc]
  push Not at hc
  obtain ⟨hlen, hnot⟩ := hc
  rw [Ne, contains_iff] at hnot
  have hfits := h.fits
  have hcur := h.cursor
  refine ⟨?_, ?_, ?_⟩
  · rw [List.nodup_append]
    refine ⟨h.nodup, List.nodup_singleton _, fun a ha b hb hab => hnot ?_⟩
    rw [List.mem_singleton] at hb
    rw [← hb, ← hab]; exact ha
  · rw [List.length_append, List.length_singleton]; omega
  · show s.cur < max (s.queue ++ [tid]).length 1
    rw [List.length_append, List.length_singleton]; omega

/-- a queue with room takes the thread -/
theorem mem_add {s : Scheduler N} {tid : ℕ} (hroom : tid ∉ s.queue → s.queue.length < N) {t : ℕ} :
    t ∈ (s.add tid).2.queue ↔ t ∈ s.queue ∨ t = tid := by
  rw [add]
  by_cases hmem : tid ∈ s.queue
  · rw [if_pos (Or.inr (contains_iff.2 hmem))]
    exact ⟨Or.inl, fun h => h.elim id fun e => e ▸ hmem⟩
  · have hlt := hroom hmem
    rw [if_neg (by rw [contains_iff]; push Not; exact ⟨by omega, hmem⟩)]
    simp

theorem current_mem {s : Scheduler N} {t : ℕ} (h : s.current = some t) : t ∈ s.queue := by
  rw [current] at h
  split_ifs at h
  exact List.mem_of_getElem? h

/-- a thread added at the tail does not move the cursor -/
theorem current_add {s : Scheduler N} {t : ℕ} (h : s.current = some t) (tid : ℕ) : (s.add tid).2.current = some t := by
  rw [add]
  split_ifs
  · exact h
  · rw [current] at h ⊢
    split_ifs at h with hlen
    have hlt : s.cur < s.queue.length := (List.getElem?_eq_some_iff.1 h).1
    rw [if_neg (by simp), List.getElem?_append_left hlt]
    exact h

theorem add_ok {s : Scheduler N} {tid : ℕ} (hn : tid ∉ s.queue) (hroom : s.queue.length < N) : (s.add tid).1 = true := by
  rw [add, if_neg]
  rintro (h | h)
  · omega
  · exact hn (contains_iff.1 h)

theorem current_none {s : Scheduler N} (hok : s.Ok) (h : s.current = none) : s.queue = [] := by
  rw [current] at h
  split_ifs at h with hq
  · exact List.length_eq_zero_iff.1 hq
  · have := hok.cursor
    rw [List.getElem?_eq_none_iff] at h
    omega

theorem next_queue (s : Scheduler N) : s.next.2.queue = s.queue := by
  rw [next]; split_ifs <;> rfl

/-- advancing makes the thread it names the current one -/
theorem next_current {s : Scheduler N} {t : ℕ} (h : s.next.1 = some t) : s.next.2.current = some t := by
  rw [next] at h ⊢
  split_ifs at h ⊢ with hq
  rw [current, if_neg hq]
  exact h

theorem next_some {s : Scheduler N} {t : ℕ} (h : t ∈ s.queue) : ∃ u, s.next.1 = some u := by
  have hq : s.queue.length ≠ 0 := (List.length_pos_of_mem h).ne'
  have hlt : (s.cur + 1) % s.queue.length < s.queue.length := Nat.mod_lt _ (Nat.pos_of_ne_zero hq)
  rw [next, if_neg hq]
  exact ⟨_, List.getElem?_eq_getElem hlt⟩

theorem ok_next {s : Scheduler N} (h : s.Ok) : s.next.2.Ok := by
  rw [next]
  by_cases hq : s.queue.length = 0
  · rw [if_pos hq]; exact h
  · rw [if_neg hq]
    refine ⟨h.nodup, h.fits, ?_⟩
    have := Nat.mod_lt (s.cur + 1) (Nat.pos_of_ne_zero hq)
    show (s.cur + 1) % s.queue.length < max s.queue.length 1
    omega

theorem mem_remove {s : Scheduler N} (h : s.Ok) {tid t : ℕ} :
    t ∈ (s.remove tid).2.queue ↔ t ∈ s.queue ∧ t ≠ tid := by
  rw [remove]
  cases hf : s.queue.findIdx? (· == tid) with
  | none =>
    rw [List.findIdx?_eq_none_iff] at hf
    refine ⟨fun ht => ⟨ht, fun e => ?_⟩, And.left⟩
    have := hf t ht
    simp [e] at this
  | some idx =>
    obtain ⟨hlt, hp, _⟩ := List.findIdx?_eq_some_iff_getElem.1 hf
    have hidx : s.queue[idx] = tid := by simpa using hp
    have herase : s.queue.eraseIdx idx = s.queue.erase tid := by
      rw [← hidx]
      exact (h.nodup.erase_getElem idx hlt).symm
    show t ∈ s.queue.eraseIdx idx ↔ _
    rw [herase, h.nodup.mem_erase_iff]
    exact And.comm

theorem ok_remove {s : Scheduler N} (h : s.Ok) (tid : ℕ) : (s.remove tid).2.Ok := by
  rw [remove]
  cases hf : s.queue.findIdx? (· == tid) with
  | none => exact h
  | some idx =>
    obtain ⟨hlt, _, _⟩ := List.findIdx?_eq_some_iff_getElem.1 hf
    have hlen : (s.queue.eraseIdx idx).length = s.queue.length - 1 := List.length_eraseIdx_of_lt hlt
    have hfits := h.fits
    have hcur := h.cursor
    refine ⟨h.nodup.eraseIdx idx, ?_, ?_⟩
    · show (s.queue.eraseIdx idx).length ≤ N; omega
    · simp only [hlen]
      split_ifs <;> omega

end Scheduler

end Rustproof.Sched
