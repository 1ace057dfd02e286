/-
The run queue over its slot array, and the cyclic list it implements.

Three levels. `SlotQueue` is the source's array of slots with its packed prefix, where a removal shifts the tail down
over the hole. `Scheduler` is the prefix alone. `Lib.CyclicList` is the cyclic list with a cursor, cut where threads are added.
- `Packs`, `packs_step`: the slots hold the queue, and every operation keeps that and answers alike.
- `Follows`, `follows_step`: the queue read from the cursor is the cycle, and every operation keeps that.
- `run_queue_exact`: what holds of the slots after any sequence of operations.
-/
import Rustproof.Crates.Sched
import Rustproof.Lib.CyclicList

namespace Rustproof.Sched

open Rustproof.Lib

/-- the operations of the run queue -/
inductive Op where
  | add (tid : ℕ)
  | next
  | remove (tid : ℕ)
deriving DecidableEq, Repr

/-! ## The slots -/

/-- `slots[0..len]` holds the ready threads, the rest of the `N` slots are `None` -/
structure SlotQueue (N : ℕ) where
  slots : List (Option ℕ)
  len : ℕ
  cur : ℕ
deriving DecidableEq, Repr

namespace SlotQueue

variable {N : ℕ}

def new : SlotQueue N := ⟨List.replicate N none, 0, 0⟩

def contains (s : SlotQueue N) (tid : ℕ) : Bool := (s.slots.take s.len).any (· == some tid)

def add (s : SlotQueue N) (tid : ℕ) : Bool × SlotQueue N :=
  if s.len = N ∨ s.contains tid then (false, s)
  else (true, { s with slots := s.slots.set s.len (some tid), len := s.len + 1 })

def current (s : SlotQueue N) : Option ℕ := if s.len = 0 then none else s.slots.getD s.cur none

def next (s : SlotQueue N) : Option ℕ × SlotQueue N :=
  if s.len = 0 then (none, s)
  else
    let cur := (s.cur + 1) % s.len
    (s.slots.getD cur none, { s with cur := cur })

/-- `for i in idx..idx + n { slots[i] = slots[i + 1] }` -/
def shiftDown (slots : List (Option ℕ)) (idx n : ℕ) : List (Option ℕ) :=
  (List.range' idx n).foldl (fun ss i => ss.set i (ss.getD (i + 1) none)) slots

def remove (s : SlotQueue N) (tid : ℕ) : Bool × SlotQueue N :=
  match (s.slots.take s.len).findIdx? (· == some tid) with
  | none => (false, s)
  | some idx =>
    let slots := shiftDown s.slots idx (s.len - 1 - idx)
    let len := s.len - 1
    let cur :=
      if len = 0 then 0
      else if idx < s.cur then s.cur - 1
      else if s.cur ≥ len then 0
      else s.cur
    (true, ⟨slots.set len none, len, cur⟩)

def step (s : SlotQueue N) : Op → SlotQueue N
  | .add tid => (s.add tid).2
  | .next => s.next.2
  | .remove tid => (s.remove tid).2

/-- the queue after a sequence of operations -/
def run (N : ℕ) (ops : List Op) : SlotQueue N := ops.foldl step new

/-- the threads in the live prefix -/
def threads (s : SlotQueue N) : List ℕ := (s.slots.take s.len).reduceOption

/-- the threads read once round from the cursor -/
def cycle (s : SlotQueue N) : List ℕ := s.threads.rotate s.cur

/-- what `n` consecutive calls of `next` return -/
def visits (s : SlotQueue N) : ℕ → List (Option ℕ)
  | 0 => []
  | n + 1 => s.next.1 :: s.next.2.visits n

theorem length_shiftDown (slots : List (Option ℕ)) (idx n : ℕ) : (shiftDown slots idx n).length = slots.length := by
  induction n with
  | zero => rfl
  | succ n ih =>
    rw [shiftDown, List.range'_concat, List.foldl_append]
    simpa [shiftDown] using ih

/-- the slots of the shifted span hold what was one above them -/
theorem getElem?_shiftDown (slots : List (Option ℕ)) (idx n j : ℕ) (h : idx + n < slots.length) :
    (shiftDown slots idx n)[j]? = if idx ≤ j ∧ j < idx + n then slots[j + 1]? else slots[j]? := by
  induction n generalizing j with
  | zero =>
    rw [if_neg (by omega)]
    rfl
  | succ n ih =>
    have ih := fun j => ih j (by omega)
    have hlen := length_shiftDown slots idx n
    have hfold : shiftDown slots idx (n + 1) =
        (shiftDown slots idx n).set (idx + n) ((shiftDown slots idx n).getD (idx + n + 1) none) := by
      simp [shiftDown, List.range'_concat]
    have hnew : (shiftDown slots idx n).getD (idx + n + 1) none = slots[idx + n + 1] := by
      rw [List.getD_eq_getElem?_getD, ih, if_neg (by omega), List.getElem?_eq_getElem (by omega)]
      rfl
    rw [hfold, hnew, List.getElem?_set]
    by_cases hj : idx + n = j
    · subst hj
      rw [if_pos rfl, if_pos (by omega), if_pos (by omega), List.getElem?_eq_getElem (by omega)]
    · rw [if_neg hj, ih j]
      by_cases hin : idx ≤ j ∧ j < idx + n
      · rw [if_pos hin, if_pos (by omega)]
      · rw [if_neg hin, if_neg (by omega)]

end SlotQueue

/-! ## The slots hold the queue -/

/-- the slots are the threads of `q` and then `None`, with the same cursor -/
structure Packs {N : ℕ} (s : SlotQueue N) (q : Scheduler N) : Prop where
  slots : s.slots = q.queue.map some ++ List.replicate (N - q.queue.length) none
  len : s.len = q.queue.length
  cur : s.cur = q.cur

namespace Scheduler

variable {N : ℕ}

def step (s : Scheduler N) : Op → Scheduler N
  | .add tid => (s.add tid).2
  | .next => s.next.2
  | .remove tid => (s.remove tid).2

theorem ok_step {s : Scheduler N} (h : s.Ok) (o : Op) : (s.step o).Ok := by
  cases o with
  | add tid => exact ok_add h tid
  | next => exact ok_next h
  | remove tid => exact ok_remove h tid

end Scheduler

section Packs

variable {N : ℕ} {s : SlotQueue N} {q : Scheduler N}

theorem packs_new : Packs (SlotQueue.new : SlotQueue N) Scheduler.new := ⟨rfl, rfl, rfl⟩

theorem Packs.live (h : Packs s q) : s.slots.take s.len = q.queue.map some := by
  rw [h.slots, h.len, List.take_left' (by simp)]

theorem Packs.threads_eq (h : Packs s q) : s.threads = q.queue := by
  rw [SlotQueue.threads, h.live]
  change (q.queue.map some).filterMap id = q.queue
  simp

theorem Packs.getD (h : Packs s q) {i : ℕ} (hi : i < q.queue.length) : s.slots.getD i none = q.queue[i]? := by
  rw [List.getD_eq_getElem?_getD, h.slots, List.getElem?_append_left (by simpa using hi)]
  simp [hi]

theorem Packs.contains_eq (h : Packs s q) (tid : ℕ) : s.contains tid = q.contains tid := by
  rw [Bool.eq_iff_iff, SlotQueue.contains, h.live, Scheduler.contains]
  simp

theorem packs_add (h : Packs s q) (hok : q.Ok) (tid : ℕ) :
    (s.add tid).1 = (q.add tid).1 ∧ Packs (s.add tid).2 (q.add tid).2 := by
  rw [SlotQueue.add, Scheduler.add, h.len, h.contains_eq]
  by_cases hc : q.queue.length = N ∨ q.contains tid = true
  · rw [if_pos hc, if_pos hc]
    exact ⟨rfl, h⟩
  · rw [if_neg hc, if_neg hc]
    have hfits := hok.fits
    have hlt : q.queue.length < N := by
      push Not at hc
      omega
    refine ⟨rfl, ?_, by simp, h.cur⟩
    obtain ⟨room, hroom⟩ : ∃ m, N - q.queue.length = m + 1 := ⟨N - q.queue.length - 1, by omega⟩
    have hroom' : N - (q.queue ++ [tid]).length = room := by simp; omega
    show s.slots.set q.queue.length (some tid) = _
    rw [h.slots, hroom, hroom', List.set_append_right _ _ (by simp)]
    simp [List.replicate_succ]

theorem packs_next (h : Packs s q) : s.next.1 = q.next.1 ∧ Packs s.next.2 q.next.2 := by
  rw [SlotQueue.next, Scheduler.next, h.len]
  by_cases hq : q.queue.length = 0
  · rw [if_pos hq, if_pos hq]
    exact ⟨rfl, h⟩
  · rw [if_neg hq, if_neg hq, h.cur]
    have hlt : (q.cur + 1) % q.queue.length < q.queue.length := Nat.mod_lt _ (Nat.pos_of_ne_zero hq)
    exact ⟨h.getD hlt, h.slots, rfl, rfl⟩

theorem packs_current (h : Packs s q) (hok : q.Ok) : s.current = q.current := by
  rw [SlotQueue.current, Scheduler.current, h.len]
  by_cases hq : q.queue.length = 0
  · rw [if_pos hq, if_pos hq]
  · have hcur := hok.cursor
    rw [if_neg hq, if_neg hq, h.cur, h.getD (by omega)]

/-- the shift over the hole, and the vacated slot cleared, leave the queue without the removed thread -/
theorem slots_remove (h : Packs s q) (hok : q.Ok) {idx : ℕ} (hidx : idx < q.queue.length) :
    (SlotQueue.shiftDown s.slots idx (q.queue.length - 1 - idx)).set (q.queue.length - 1) none =
      (q.queue.eraseIdx idx).map some ++ List.replicate (N - (q.queue.length - 1)) none := by
  have hfits := hok.fits
  have hN : s.slots.length = N := by
    rw [h.slots]
    simp [hfits]
  have herase : (q.queue.eraseIdx idx).length = q.queue.length - 1 := List.length_eraseIdx_of_lt hidx
  apply List.ext_getElem?
  intro j
  rw [List.getElem?_set, SlotQueue.length_shiftDown, SlotQueue.getElem?_shiftDown _ _ _ _ (by omega), hN]
  by_cases hlast : q.queue.length - 1 = j
  · rw [if_pos hlast, if_pos (by omega), List.getElem?_append_right (by simp [herase]; omega)]
    rw [List.getElem?_replicate, if_pos (by simp [herase]; omega)]
  rw [if_neg hlast]
  by_cases hlt : j < q.queue.length - 1
  · rw [List.getElem?_append_left (by simpa [herase] using hlt), List.getElem?_map, List.getElem?_eraseIdx]
    have hmap : ∀ i < q.queue.length, s.slots[i]? = q.queue[i]?.map some := fun i hi => by
      rw [h.slots, List.getElem?_append_left (by simpa using hi), List.getElem?_map]
    by_cases hj : j < idx
    · rw [if_neg (by omega), if_pos hj, hmap j (by omega)]
    · rw [if_pos (by omega), if_neg hj, hmap (j + 1) (by omega)]
  · rw [if_neg (by omega), h.slots, List.getElem?_append_right (by simp; omega),
      List.getElem?_append_right (by simp [herase]; omega), List.getElem?_replicate, List.getElem?_replicate]
    simp only [List.length_map, herase]
    by_cases hj : j < N
    · rw [if_pos (by omega), if_pos (by omega)]
    · rw [if_neg (by omega), if_neg (by omega)]

theorem packs_remove (h : Packs s q) (hok : q.Ok) (tid : ℕ) :
    (s.remove tid).1 = (q.remove tid).1 ∧ Packs (s.remove tid).2 (q.remove tid).2 := by
  have hfind : (s.slots.take s.len).findIdx? (· == some tid) = q.queue.findIdx? (· == tid) := by
    rw [h.live, List.findIdx?_map]
    congr 1
  rw [SlotQueue.remove, Scheduler.remove, hfind]
  cases hf : q.queue.findIdx? (· == tid) with
  | none => exact ⟨rfl, h⟩
  | some idx =>
    obtain ⟨hidx, _, _⟩ := List.findIdx?_eq_some_iff_getElem.1 hf
    have herase : (q.queue.eraseIdx idx).length = q.queue.length - 1 := List.length_eraseIdx_of_lt hidx
    refine ⟨rfl, ?_, ?_, ?_⟩
    · simp only [h.len, herase]
      exact slots_remove h hok hidx
    · simp only [h.len, herase]
    · simp only [h.len, h.cur, herase]

theorem packs_step (h : Packs s q) (hok : q.Ok) (o : Op) : Packs (s.step o) (q.step o) := by
  cases o with
  | add tid => exact (packs_add h hok tid).2
  | next => exact (packs_next h).2
  | remove tid => exact (packs_remove h hok tid).2

end Packs

/-! ## The queue from the cursor is the cycle -/

/-- the seam of the cycle is the end of the queue -/
structure Follows {N : ℕ} (q : Scheduler N) (r : CyclicList ℕ) : Prop where
  ahead : r.ahead = q.queue.drop q.cur
  behind : r.behind = q.queue.take q.cur

/-- the operations on the cycle: a thread is put in when it is not there and there are fewer than `N` -/
def cycleStep (N : ℕ) (r : CyclicList ℕ) : Op → CyclicList ℕ
  | .add tid => if h : tid ∉ r.order then if r.order.length < N then r.add tid h else r else r
  | .next => r.next
  | .remove tid => r.remove tid

section Follows

variable {N : ℕ} {q : Scheduler N} {r : CyclicList ℕ}

theorem follows_new : Follows (Scheduler.new : Scheduler N) CyclicList.empty := ⟨rfl, rfl⟩

theorem Follows.order_eq (h : Follows q r) (hok : q.Ok) : r.order = q.queue.rotate q.cur := by
  have hcur := hok.cursor
  rw [CyclicList.order, h.ahead, h.behind, List.rotate_eq_drop_append_take (by omega)]

theorem Follows.mem_iff (h : Follows q r) (hok : q.Ok) {t : ℕ} : t ∈ r.order ↔ t ∈ q.queue := by
  rw [h.order_eq hok, List.mem_rotate]

theorem Follows.length_eq (h : Follows q r) (hok : q.Ok) : r.order.length = q.queue.length := by
  rw [h.order_eq hok, List.length_rotate]

theorem Follows.current_eq (h : Follows q r) (hok : q.Ok) : q.current = r.current := by
  have hcur := hok.cursor
  rw [CyclicList.current, h.order_eq hok, Scheduler.current]
  by_cases hq : q.queue.length = 0
  · rw [if_pos hq, List.length_eq_zero_iff.1 hq]
    rfl
  · rw [if_neg hq, List.head?_rotate (by omega)]

theorem follows_add (h : Follows q r) (hok : q.Ok) (tid : ℕ) : Follows (q.step (.add tid)) (cycleStep N r (.add tid)) := by
  have hfits := hok.fits
  have hcur := hok.cursor
  show Follows (q.add tid).2 _
  rw [Scheduler.add, cycleStep, h.length_eq hok]
  by_cases hmem : tid ∈ q.queue
  · rw [if_pos (Or.inr (Scheduler.contains_iff.2 hmem)), dif_neg (by rw [h.mem_iff hok]; exact not_not.2 hmem)]
    exact h
  rw [dif_pos (by rwa [h.mem_iff hok])]
  by_cases hfull : q.queue.length < N
  · rw [if_pos hfull, if_neg (by rw [Scheduler.contains_iff]; push Not; exact ⟨by omega, hmem⟩)]
    have hle : q.cur ≤ q.queue.length := by omega
    refine ⟨?_, ?_⟩
    · show r.ahead ++ [tid] = (q.queue ++ [tid]).drop q.cur
      rw [h.ahead, List.drop_append_of_le_length hle]
    · show r.behind = (q.queue ++ [tid]).take q.cur
      rw [h.behind, List.take_append_of_le_length hle]
  · rw [if_neg hfull, if_pos (Or.inl (by omega))]
    exact h

/-- the cycle of two parts, the second of which ends where the cursor of the queue stands -/
theorem follows_ofParts {as bs : List ℕ} (hnd : (as ++ bs).Nodup) (hqueue : q.queue = bs ++ as)
    (hcur : q.cur = if q.queue.length ≤ bs.length then 0 else bs.length) :
    Follows q (CyclicList.ofParts as bs hnd) := by
  cases as with
  | nil =>
    rw [hqueue, List.append_nil, if_pos le_rfl] at hcur
    rw [List.append_nil] at hqueue
    exact ⟨by rw [hcur, hqueue]; rfl, by rw [hcur]; rfl⟩
  | cons a as =>
    rw [hqueue, if_neg (by simp)] at hcur
    exact ⟨by rw [hcur, hqueue, List.drop_left]; rfl, by rw [hcur, hqueue, List.take_left]; rfl⟩

theorem follows_next (h : Follows q r) (hok : q.Ok) : Follows q.next.2 r.next := by
  have hcur := hok.cursor
  rw [Scheduler.next]
  by_cases hq : q.queue.length = 0
  · have hnil : r.ahead = [] := by rw [h.ahead, List.length_eq_zero_iff.1 hq, List.drop_nil]
    rw [if_pos hq, CyclicList.next_of_nil hnil]
    exact h
  · have hlt : q.cur < q.queue.length := by omega
    have hcons : r.ahead = q.queue[q.cur] :: q.queue.drop (q.cur + 1) := by rw [h.ahead, List.drop_eq_getElem_cons hlt]
    obtain ⟨hnd, hnext⟩ := CyclicList.next_of_cons hcons
    have hbehind : r.behind ++ [q.queue[q.cur]] = q.queue.take (q.cur + 1) := by
      rw [h.behind, List.take_append_getElem hlt]
    rw [if_neg hq, hnext]
    refine follows_ofParts hnd ?_ ?_
    · rw [hbehind, List.take_append_drop]
    · show (q.cur + 1) % q.queue.length = _
      show _ = if q.queue.length ≤ _ then 0 else _
      rw [hbehind, List.length_take]
      by_cases hlast : q.queue.length ≤ q.cur + 1
      · have hwrap : q.cur + 1 = q.queue.length := by omega
        rw [if_pos (by omega), hwrap, Nat.mod_self]
      · rw [if_neg (by omega), Nat.mod_eq_of_lt (by omega)]
        omega

theorem follows_remove (h : Follows q r) (hok : q.Ok) (tid : ℕ) : Follows (q.remove tid).2 (r.remove tid) := by
  have hcur := hok.cursor
  have hparts : q.queue.take q.cur ++ q.queue.drop q.cur = q.queue := List.take_append_drop ..
  rw [Scheduler.remove, CyclicList.remove]
  cases hf : q.queue.findIdx? (· == tid) with
  | none =>
    have hnot : tid ∉ q.queue := fun hmem => by
      rw [List.findIdx?_eq_none_iff] at hf
      simpa using hf tid hmem
    have hahead : r.ahead.erase tid = q.queue.drop q.cur := by
      rw [h.ahead, List.erase_of_not_mem fun hm => hnot (List.mem_of_mem_drop hm)]
    have hbehind : r.behind.erase tid = q.queue.take q.cur := by
      rw [h.behind, List.erase_of_not_mem fun hm => hnot (List.mem_of_mem_take hm)]
    refine follows_ofParts _ (by rw [hahead, hbehind, hparts]) ?_
    show q.cur = if q.queue.length ≤ _ then 0 else _
    rw [hbehind, List.length_take]
    split_ifs <;> omega
  | some idx =>
    obtain ⟨hidx, hp, _⟩ := List.findIdx?_eq_some_iff_getElem.1 hf
    have htid : q.queue[idx] = tid := by simpa using hp
    have herase : q.queue.eraseIdx idx = q.queue.erase tid := by
      rw [← htid]
      exact (hok.nodup.erase_getElem idx hidx).symm
    have hlen : (q.queue.eraseIdx idx).length = q.queue.length - 1 := List.length_eraseIdx_of_lt hidx
    have hdisjoint := List.disjoint_of_nodup_append (hparts ▸ hok.nodup)
    by_cases hbefore : idx < q.cur
    · -- the thread lies behind the cursor, which moves down with the rest
      have hmem : tid ∈ q.queue.take q.cur := by
        rw [← htid]
        exact List.mem_take_iff_getElem.2 ⟨idx, by omega, rfl⟩
      have hahead : r.ahead.erase tid = q.queue.drop q.cur := by
        rw [h.ahead, List.erase_of_not_mem (hdisjoint hmem)]
      have hlen' : (r.behind.erase tid).length = q.cur - 1 := by
        rw [h.behind, List.length_erase_of_mem hmem, List.length_take]
        omega
      refine follows_ofParts _ ?_ ?_
      · show q.queue.eraseIdx idx = _
        rw [herase, hahead, h.behind, ← List.erase_append_left _ hmem, hparts]
      · simp only [hlen, hlen']
        split_ifs <;> omega
    · have hmem : tid ∈ q.queue.drop q.cur := by
        rw [← htid]
        exact List.mem_drop_iff_getElem.2 ⟨idx - q.cur, by omega, by congr 1; omega⟩
      have hbehind : r.behind.erase tid = q.queue.take q.cur := by
        rw [h.behind, List.erase_of_not_mem fun hm => hdisjoint hm hmem]
      have hnot : tid ∉ q.queue.take q.cur := fun hm => hdisjoint hm hmem
      refine follows_ofParts _ ?_ ?_
      · show q.queue.eraseIdx idx = _
        rw [herase, hbehind, h.ahead, ← List.erase_append_right _ hnot, hparts]
      · simp only [hlen, hbehind, List.length_take]
        split_ifs <;> omega

theorem follows_step (h : Follows q r) (hok : q.Ok) (o : Op) : Follows (q.step o) (cycleStep N r o) := by
  cases o with
  | add tid => exact follows_add h hok tid
  | next => exact follows_next h hok
  | remove tid => exact follows_remove h hok tid

end Follows

/-! ## The slots implement the cycle -/

/-- the cycle after a sequence of operations -/
def cycleRun (N : ℕ) (ops : List Op) : CyclicList ℕ := ops.foldl (cycleStep N) CyclicList.empty

/-- the slots hold a queue that follows the cycle -/
def Refines {N : ℕ} (s : SlotQueue N) (r : CyclicList ℕ) : Prop := ∃ q : Scheduler N, q.Ok ∧ Packs s q ∧ Follows q r

section Refines

variable {N : ℕ} {s : SlotQueue N} {r : CyclicList ℕ}

theorem Refines.step (h : Refines s r) (o : Op) : Refines (s.step o) (cycleStep N r o) := by
  obtain ⟨q, hok, hp, hf⟩ := h
  exact ⟨q.step o, Scheduler.ok_step hok o, packs_step hp hok o, follows_step hf hok o⟩

theorem run_refines (N : ℕ) (ops : List Op) : Refines (SlotQueue.run N ops) (cycleRun N ops) := by
  induction ops using List.reverseRecOn with
  | nil => exact ⟨Scheduler.new, Scheduler.ok_new, packs_new, follows_new⟩
  | append_singleton ops o ih =>
    rw [SlotQueue.run, cycleRun, List.foldl_append, List.foldl_append]
    exact ih.step o

theorem Refines.cycle_eq (h : Refines s r) : s.cycle = r.order := by
  obtain ⟨q, hok, hp, hf⟩ := h
  rw [SlotQueue.cycle, hp.threads_eq, hp.cur, hf.order_eq hok]

theorem Refines.current_eq (h : Refines s r) : s.current = r.current := by
  obtain ⟨q, hok, hp, hf⟩ := h
  rw [packs_current hp hok, hf.current_eq hok]

theorem Refines.len_eq (h : Refines s r) : s.len = r.order.length := by
  obtain ⟨q, hok, hp, hf⟩ := h
  rw [hp.len, hf.length_eq hok]

/-- the slots of the live prefix are the threads, the others are empty -/
theorem Refines.packed (h : Refines s r) :
    s.slots = s.threads.map some ++ List.replicate (N - s.len) none ∧ s.len = s.threads.length ∧
      s.threads.Nodup ∧ s.len ≤ N := by
  obtain ⟨q, hok, hp, hf⟩ := h
  rw [hp.threads_eq, hp.len]
  exact ⟨hp.slots, rfl, hok.nodup, hok.fits⟩

/-- `next` returns the thread it makes current -/
theorem Refines.next_eq (h : Refines s r) : s.next.1 = r.next.current := by
  obtain ⟨q, hok, hp, hf⟩ := h
  rw [(packs_next hp).1, ← (follows_next hf hok).current_eq (Scheduler.ok_next hok), Scheduler.next]
  by_cases hq : q.queue.length = 0
  · rw [if_pos hq, Scheduler.current, if_pos hq]
  · rw [if_neg hq, Scheduler.current, if_neg hq]

theorem Refines.visits_eq (h : Refines s r) (n : ℕ) : s.visits n = r.visits n := by
  induction n generalizing s r with
  | zero => rfl
  | succ n ih =>
    rw [SlotQueue.visits, CyclicList.visits, h.next_eq]
    exact congrArg _ (ih (h.step .next))

/-- a thread that is there, or a full queue: nothing changes -/
theorem Refines.add_refused (h : Refines s r) {t : ℕ} (hbad : t ∈ s.threads ∨ s.len = N) : s.add t = (false, s) := by
  obtain ⟨q, hok, hp, hf⟩ := h
  rw [SlotQueue.add, if_pos]
  rw [hp.contains_eq, Scheduler.contains_iff, ← hp.threads_eq]
  exact hbad.symm

theorem Refines.add_taken (h : Refines s r) {t : ℕ} (hnew : t ∉ s.threads) (hroom : s.len ≠ N) :
    (s.add t).1 = true ∧ (s.add t).2.threads = s.threads ++ [t] ∧ (s.add t).2.cur = s.cur := by
  obtain ⟨q, hok, hp, hf⟩ := h
  rw [hp.threads_eq] at hnew ⊢
  rw [hp.len] at hroom
  obtain ⟨hresult, hafter⟩ := packs_add hp hok t
  have hgo : ¬ (q.queue.length = N ∨ q.contains t = true) := by
    rw [Scheduler.contains_iff]
    tauto
  rw [hresult, hafter.threads_eq, hafter.cur, hp.cur, Scheduler.add, if_neg hgo]
  exact ⟨rfl, rfl, rfl⟩

/-- what `remove` answers -/
theorem Refines.remove_result (h : Refines s r) (t : ℕ) : (s.remove t).1 = true ↔ t ∈ s.threads := by
  obtain ⟨q, hok, hp, hf⟩ := h
  rw [(packs_remove hp hok t).1, hp.threads_eq, Scheduler.remove]
  cases hfind : q.queue.findIdx? (· == t) with
  | none =>
    rw [List.findIdx?_eq_none_iff] at hfind
    simp only [Bool.false_eq_true, false_iff]
    intro hmem
    simpa using hfind t hmem
  | some idx =>
    obtain ⟨hlt, hpred, _⟩ := List.findIdx?_eq_some_iff_getElem.1 hfind
    have htid : q.queue[idx] = t := by simpa using hpred
    simp only [true_iff]
    rw [← htid]
    exact List.getElem_mem hlt

end Refines

/-- **The run queue is a cyclic list with a cursor**: for every capacity and every sequence of operations. -/
theorem run_queue_exact (N : ℕ) (ops : List Op) :
    let s := SlotQueue.run N ops
    -- the slots hold the threads of the cycle, no thread twice
    (Refines s (cycleRun N ops) ∧ s.slots = s.threads.map some ++ List.replicate (N - s.len) none ∧
      s.len = s.threads.length ∧ s.threads.Nodup ∧ s.len ≤ N) ∧
    (∀ t, t ∈ s.threads ∨ s.len = N → s.add t = (false, s)) ∧
    (∀ t, t ∉ s.threads → s.len ≠ N →
      (s.add t).1 = true ∧ (s.add t).2.threads = s.threads ++ [t] ∧ (s.add t).2.cur = s.cur) ∧
    -- a removal takes the one thread out of the cyclic order
    (∀ t, ((s.remove t).1 = true ↔ t ∈ s.threads) ∧ (s.remove t).2.cycle = s.cycle.erase t) ∧
    (∀ t, s.current ≠ some t → (s.remove t).2.current = s.current) ∧
    (∀ t, s.current = some t → 1 < s.len → (s.remove t).2.current = s.next.1) ∧
    (s.current = none ↔ s.len = 0) ∧
    -- one lap of `next`
    (s.visits s.len).Perm (s.threads.map some) := by
  intro s
  have h : Refines s (cycleRun N ops) := run_refines N ops
  have hremove : ∀ t, Refines (s.remove t).2 ((cycleRun N ops).remove t) := fun t => h.step (.remove t)
  refine ⟨⟨h, h.packed⟩, fun t => h.add_refused, fun t => h.add_taken, fun t => ⟨h.remove_result t, ?_⟩, fun t hne => ?_,
    fun t hc hlen => ?_, ?_, ?_⟩
  · rw [(hremove t).cycle_eq, CyclicList.order_remove, h.cycle_eq]
  · rw [(hremove t).current_eq, h.current_eq]
    rw [h.current_eq] at hne
    cases hc : (cycleRun N ops).current with
    | some c => exact CyclicList.current_remove_of_ne _ hc fun e => hne (e ▸ hc)
    | none =>
      rw [CyclicList.current_eq_none] at hc ⊢
      rw [CyclicList.order_remove, hc, List.erase_nil]
  · rw [(hremove t).current_eq, h.next_eq]
    rw [h.current_eq] at hc
    rw [h.len_eq] at hlen
    rw [CyclicList.current_remove_current _ hc, CyclicList.current, CyclicList.order_next, List.head?_rotate hlen]
  · rw [h.current_eq, CyclicList.current_eq_none, h.len_eq, List.length_eq_zero_iff]
  · have hperm : ((cycleRun N ops).order.rotate 1).Perm s.threads := by
      rw [← h.cycle_eq, SlotQueue.cycle]
      exact (List.rotate_perm _ 1).trans (List.rotate_perm _ s.cur)
    rw [h.len_eq, h.visits_eq, CyclicList.visits_lap]
    exact hperm.map some

end Rustproof.Sched
