/-
Synchronous endpoints (`crates/ipc`): a rendezvous of senders and receivers over two ring buffers.

`Endpoint.send` and `Endpoint.recv` return what the scheduler has to do, an `IpcAction`. `rendezvous_fifo`: over every
sequence of the two calls, by whatever threads, the deliveries pair the accepted sends with the accepted receives in order,
each with the words of its send; nobody is passed over, and a queue that is full is the only refusal.
-/
import Rustproof.Lib.Table

namespace Rustproof.Ipc

open Lib

/-- message words transferred in one call -/
def MAX_WORDS : ℕ := 8

structure MessageInfo where
  label : ℕ
  length : ℕ
deriving DecidableEq, Repr

inductive IpcAction where
  | deliver (to_ from_ : ℕ) (msg : MessageInfo) (words : List ℕ) (wakeSender : Bool)
  | block (tid : ℕ)
  | queueFull (tid : ℕ)
  | nothing
deriving DecidableEq, Repr

/-- a sender parked with its message -/
structure BlockedSender where
  tid : ℕ
  msg : MessageInfo
  words : List ℕ
deriving DecidableEq, Repr

/-- a ring buffer of capacity `N`: `len` entries from `head` on -/
structure Queue (α : Type) (N : ℕ) where
  buf : Table (Option α)
  head : ℕ
  len : ℕ

namespace Queue

variable {α : Type} {N : ℕ}

def new : Queue α N := ⟨fun _ => none, 0, 0⟩

def isEmpty (q : Queue α N) : Bool := q.len == 0

def isFull (q : Queue α N) : Bool := q.len == N

/-- enqueue at the back, if there is room -/
def pushBack (q : Queue α N) (v : α) : Option (Queue α N) :=
  if q.isFull then none
  else some { q with buf := q.buf.put ((q.head + q.len) % N) (some v), len := q.len + 1 }

/-- dequeue from the front; an empty queue has nothing to give -/
def popFront (q : Queue α N) : Option α × Queue α N :=
  if q.len = 0 then (none, q)
  else (q.buf q.head, ⟨q.buf.put q.head none, (q.head + 1) % N, q.len - 1⟩)

end Queue

/-- an endpoint with wait queues of capacity `N` -/
structure Endpoint (N : ℕ) where
  sendQ : Queue BlockedSender N
  recvQ : Queue ℕ N

/-- the words of a call, cut off or padded with zeros to the message buffer -/
def copyWords (src : List ℕ) : List ℕ :=
  let n := if src.length < MAX_WORDS then src.length else MAX_WORDS
  src.take n ++ List.replicate (MAX_WORDS - n) 0

namespace Endpoint

variable {N : ℕ}

def new : Endpoint N := ⟨Queue.new, Queue.new⟩

/-- deliver to a waiting receiver, or park the sender with its message captured -/
def send (e : Endpoint N) (from_ : ℕ) (msg : MessageInfo) (words : List ℕ) : IpcAction × Endpoint N :=
  let buf := copyWords words
  match e.recvQ.popFront with
  | (some to_, recvQ) => (.deliver to_ from_ msg buf false, { e with recvQ := recvQ })
  | (none, recvQ) =>
    match e.sendQ.pushBack ⟨from_, msg, buf⟩ with
    | some sendQ => (.block from_, ⟨sendQ, recvQ⟩)
    | none => (.queueFull from_, { e with recvQ := recvQ })

/-- take the message of a waiting sender, or park the receiver -/
def recv (e : Endpoint N) (by_ : ℕ) : IpcAction × Endpoint N :=
  match e.sendQ.popFront with
  | (some s, sendQ) => (.deliver by_ s.tid s.msg s.words true, { e with sendQ := sendQ })
  | (none, sendQ) =>
    match e.recvQ.pushBack by_ with
    | some recvQ => (.block by_, ⟨sendQ, recvQ⟩)
    | none => (.queueFull by_, { e with sendQ := sendQ })

end Endpoint

/-- a call on an endpoint -/
inductive Call where
  | send (from_ : ℕ) (msg : MessageInfo) (words : List ℕ)
  | recv (by_ : ℕ)
deriving DecidableEq, Repr

def Endpoint.step {N : ℕ} (e : Endpoint N) : Call → IpcAction × Endpoint N
  | .send from_ msg words => e.send from_ msg words
  | .recv by_ => e.recv by_

/-- the calls of a run with their answers, and the endpoint after it -/
def Endpoint.run {N : ℕ} (e : Endpoint N) : List Call → List (Call × IpcAction) × Endpoint N
  | [] => ([], e)
  | c :: cs => ((c, (e.step c).1) :: ((e.step c).2.run cs).1, ((e.step c).2.run cs).2)

/-! ## The ring buffer is a queue -/

namespace Queue

variable {α : Type} {N : ℕ}

/-- the ring buffer holds `xs`, front first -/
structure Holds (q : Queue α N) (xs : List α) : Prop where
  len : q.len = xs.length
  le : xs.length ≤ N
  head : 0 < N → q.head < N
  cell : ∀ k v, xs[k]? = some v → q.buf ((q.head + k) % N) = some v

theorem holds_new : Holds (new : Queue α N) [] := by
  refine ⟨rfl, Nat.zero_le N, fun h => h, fun k v hk => ?_⟩
  exact absurd hk (by simp)

/-- the cells of `len ≤ N` entries are different -/
theorem cell_inj {head i j : ℕ} (hi : i < N) (hj : j < N) (h : (head + i) % N = (head + j) % N) : i = j := by
  have hmod : i % N = j % N := Nat.ModEq.add_left_cancel' head h
  rwa [Nat.mod_eq_of_lt hi, Nat.mod_eq_of_lt hj] at hmod

theorem Holds.isEmpty {q : Queue α N} {xs : List α} (h : Holds q xs) : q.isEmpty = xs.isEmpty := by
  unfold Queue.isEmpty
  rw [h.len]
  cases xs <;> rfl

theorem Holds.isFull {q : Queue α N} {xs : List α} (h : Holds q xs) : q.isFull = true ↔ xs.length = N := by
  unfold Queue.isFull
  rw [h.len, beq_iff_eq]

/-- enqueuing appends -/
theorem Holds.pushBack {q : Queue α N} {xs : List α} (h : Holds q xs) (v : α) (hroom : xs.length < N) :
    ∃ q', q.pushBack v = some q' ∧ Holds q' (xs ++ [v]) := by
  have hfull : ¬q.isFull = true := fun hf => absurd (h.isFull.1 hf) (by omega)
  refine ⟨_, if_neg hfull, ?_, ?_, h.head, fun k w hk => ?_⟩
  · simp [h.len]
  · simpa using hroom
  · show q.buf.put ((q.head + q.len) % N) (some v) ((q.head + k) % N) = some w
    rw [h.len]
    rcases Nat.lt_trichotomy k xs.length with hlt | rfl | hgt
    · have hne : (q.head + k) % N ≠ (q.head + xs.length) % N := fun he =>
        absurd (cell_inj (hlt.trans hroom) hroom he) hlt.ne
      rw [Table.put_of_ne _ hne]
      exact h.cell k w (by rwa [List.getElem?_append_left hlt] at hk)
    · rw [Table.put_self]
      simpa using hk
    · rw [List.getElem?_eq_none (by simp; omega)] at hk
      exact absurd hk (by simp)

/-- a full queue takes nothing -/
theorem Holds.pushBack_full {q : Queue α N} {xs : List α} (h : Holds q xs) (v : α) (hfull : xs.length = N) :
    q.pushBack v = none := if_pos (h.isFull.2 hfull)

/-- dequeuing takes the front -/
theorem Holds.popFront {q : Queue α N} {x : α} {xs : List α} (h : Holds q (x :: xs)) :
    ∃ q', q.popFront = (some x, q') ∧ Holds q' xs := by
  have hlen := h.len
  have hle := h.le
  rw [List.length_cons] at hlen hle
  have hpos : 0 < N := by omega
  have hhead := h.head hpos
  have hfront : q.buf q.head = some x := by
    have := h.cell 0 x rfl
    rwa [Nat.add_zero, Nat.mod_eq_of_lt hhead] at this
  unfold Queue.popFront
  rw [if_neg (by omega), hfront]
  refine ⟨_, rfl, ?_, by omega, fun _ => Nat.mod_lt _ hpos, fun k v hk => ?_⟩
  · show q.len - 1 = xs.length
    omega
  · show q.buf.put q.head none (((q.head + 1) % N + k) % N) = some v
    have hkl : k < xs.length := (List.getElem?_eq_some_iff.1 hk).1
    have hcell : ((q.head + 1) % N + k) % N = (q.head + (k + 1)) % N := by
      rw [Nat.mod_add_mod, Nat.add_assoc, Nat.add_comm 1 k]
    -- the front cell is not one of the others
    have hne : (q.head + (k + 1)) % N ≠ q.head := by
      intro he
      have he' : (q.head + (k + 1)) % N = (q.head + 0) % N := by rw [he, Nat.add_zero, Nat.mod_eq_of_lt hhead]
      exact absurd (cell_inj (by omega) hpos he') (Nat.succ_ne_zero k)
    rw [hcell, Table.put_of_ne _ hne]
    exact h.cell (k + 1) v (by rw [List.getElem?_cons_succ]; exact hk)

theorem Holds.popFront_empty {q : Queue α N} (h : Holds q []) : q.popFront = (none, q) := if_pos h.len

end Queue

/-! ## The rendezvous -/

/-- word `i` of the message is word `i` of the call, or zero past its end -/
def padded (words : List ℕ) : List ℕ := (List.range MAX_WORDS).map fun i => words.getD i 0

theorem copyWords_eq (src : List ℕ) : copyWords src = padded src := by
  unfold copyWords padded
  apply List.ext_getElem?
  intro i
  have hn : (if src.length < MAX_WORDS then src.length else MAX_WORDS) = min src.length MAX_WORDS := by
    split_ifs <;> omega
  simp only [hn]
  by_cases hi : i < MAX_WORDS
  · rw [List.getElem?_map, List.getElem?_range hi, Option.map_some, List.getD_eq_getElem?_getD]
    by_cases hs : i < src.length
    · rw [List.getElem?_append_left (by rw [List.length_take]; omega), List.getElem?_take_of_lt (by omega),
        List.getElem?_eq_getElem hs]
      rfl
    · rw [List.getElem?_append_right (by rw [List.length_take]; omega), List.getElem?_replicate,
        if_pos (by rw [List.length_take]; omega), List.getElem?_eq_none (Nat.le_of_not_lt hs)]
      rfl
  · rw [List.getElem?_eq_none, List.getElem?_eq_none]
    · simp; omega
    · simp; omega

def IpcAction.isFull : IpcAction → Bool
  | .queueFull _ => true
  | _ => false

/-- the send a call makes, with its message as it has to arrive, if it is accepted -/
def acceptedSend : Call × IpcAction → Option BlockedSender
  | (.send from_ msg words, a) => if a.isFull then none else some ⟨from_, msg, padded words⟩
  | (.recv _, _) => none

/-- the thread that a call receives for, if it is accepted -/
def acceptedRecv : Call × IpcAction → Option ℕ
  | (.send _ _ _, _) => none
  | (.recv by_, a) => if a.isFull then none else some by_

/-- what a call delivers, and to whom -/
def delivery : Call × IpcAction → Option (BlockedSender × ℕ)
  | (_, .deliver to_ from_ msg words _) => some (⟨from_, msg, words⟩, to_)
  | _ => none

namespace Endpoint

variable {N : ℕ}

/-- `ss` and `rs` wait, and not both -/
structure Waits (e : Endpoint N) (ss : List BlockedSender) (rs : List ℕ) : Prop where
  sends : e.sendQ.Holds ss
  recvs : e.recvQ.Holds rs
  one : ss = [] ∨ rs = []

theorem waits_new : Waits (new : Endpoint N) [] [] := ⟨Queue.holds_new, Queue.holds_new, Or.inl rfl⟩

/-- how many threads wait in the queue a call would join -/
def ownWaiters (e : Endpoint N) : Call → ℕ
  | .send _ _ _ => e.sendQ.len
  | .recv _ => e.recvQ.len

/-- what one call does to the waiting threads: what comes in goes out in order or waits behind -/
structure Serves (e : Endpoint N) (ss : List BlockedSender) (rs : List ℕ) (c : Call) (ss' : List BlockedSender)
    (rs' : List ℕ) : Prop where
  waits : Waits (e.step c).2 ss' rs'
  sends : ss ++ (acceptedSend (c, (e.step c).1)).toList = (delivery (c, (e.step c).1)).toList.map Prod.fst ++ ss'
  recvs : rs ++ (acceptedRecv (c, (e.step c).1)).toList = (delivery (c, (e.step c).1)).toList.map Prod.snd ++ rs'
  full : (e.step c).1.isFull = true ↔ e.ownWaiters c = N
  same : (e.step c).1.isFull = true → (e.step c).2 = e

theorem Serves.of_step {e e' : Endpoint N} {ss ss' : List BlockedSender} {rs rs' : List ℕ} {c : Call} {a : IpcAction}
    (hstep : e.step c = (a, e')) (hw : Waits e' ss' rs')
    (hs : ss ++ (acceptedSend (c, a)).toList = (delivery (c, a)).toList.map Prod.fst ++ ss')
    (hr : rs ++ (acceptedRecv (c, a)).toList = (delivery (c, a)).toList.map Prod.snd ++ rs')
    (hf : a.isFull = true ↔ e.ownWaiters c = N) (hsame : a.isFull = true → e' = e) : Serves e ss rs c ss' rs' :=
  ⟨hstep ▸ hw, hstep ▸ hs, hstep ▸ hr, hstep ▸ hf, hstep ▸ hsame⟩

theorem Waits.send {e : Endpoint N} {ss : List BlockedSender} {rs : List ℕ} (h : Waits e ss rs) (from_ : ℕ)
    (msg : MessageInfo) (words : List ℕ) : ∃ ss' rs', Serves e ss rs (.send from_ msg words) ss' rs' := by
  cases rs with
  | cons r rs =>
    -- a receiver waits, so no sender does
    obtain rfl : ss = [] := h.one.resolve_right (List.cons_ne_nil r rs)
    obtain ⟨q, hpop, hq⟩ := h.recvs.popFront
    have hstep : e.step (.send from_ msg words) = (.deliver r from_ msg (copyWords words) false, { e with recvQ := q }) := by
      simp only [step, Endpoint.send, hpop]
    have hN : 0 < N := (Nat.succ_pos _).trans_le h.recvs.le
    refine ⟨[], rs, Serves.of_step hstep ⟨h.sends, hq, Or.inl rfl⟩ ?_ ?_ ?_ ?_⟩
    · simp [acceptedSend, delivery, IpcAction.isFull, copyWords_eq]
    · simp [acceptedRecv, delivery]
    · simp only [IpcAction.isFull, Bool.false_eq_true, false_iff, ownWaiters]
      rw [h.sends.len]
      exact hN.ne
    · exact fun h0 => absurd h0 Bool.false_ne_true
  | nil =>
    have hpop := h.recvs.popFront_empty
    by_cases hroom : ss.length < N
    · obtain ⟨q, hpush, hq⟩ := h.sends.pushBack ⟨from_, msg, copyWords words⟩ hroom
      have hstep : e.step (.send from_ msg words) = (.block from_, ⟨q, e.recvQ⟩) := by
        simp only [step, Endpoint.send, hpop, hpush]
      refine ⟨ss ++ [⟨from_, msg, copyWords words⟩], [], Serves.of_step hstep ⟨hq, h.recvs, Or.inr rfl⟩ ?_ ?_ ?_ ?_⟩
      · simp [acceptedSend, delivery, IpcAction.isFull, copyWords_eq]
      · simp [acceptedRecv, delivery]
      · simp only [IpcAction.isFull, Bool.false_eq_true, false_iff, ownWaiters]
        rw [h.sends.len]
        exact hroom.ne
      · exact fun h0 => absurd h0 Bool.false_ne_true
    · have hfull : ss.length = N := le_antisymm h.sends.le (Nat.le_of_not_lt hroom)
      have hpush := h.sends.pushBack_full ⟨from_, msg, copyWords words⟩ hfull
      have hstep : e.step (.send from_ msg words) = (.queueFull from_, e) := by
        simp only [step, Endpoint.send, hpop, hpush]
      refine ⟨ss, [], Serves.of_step hstep h ?_ ?_ ?_ ?_⟩
      · simp [acceptedSend, delivery, IpcAction.isFull]
      · simp [acceptedRecv, delivery]
      · simp only [IpcAction.isFull, true_iff, ownWaiters]
        rw [h.sends.len, hfull]
      · exact fun _ => rfl

theorem Waits.recv {e : Endpoint N} {ss : List BlockedSender} {rs : List ℕ} (h : Waits e ss rs) (by_ : ℕ) :
    ∃ ss' rs', Serves e ss rs (.recv by_) ss' rs' := by
  cases ss with
  | cons s ss =>
    obtain rfl : rs = [] := h.one.resolve_left (List.cons_ne_nil s ss)
    obtain ⟨q, hpop, hq⟩ := h.sends.popFront
    have hstep : e.step (.recv by_) = (.deliver by_ s.tid s.msg s.words true, { e with sendQ := q }) := by
      simp only [step, Endpoint.recv, hpop]
    have hN : 0 < N := (Nat.succ_pos _).trans_le h.sends.le
    refine ⟨ss, [], Serves.of_step hstep ⟨hq, h.recvs, Or.inr rfl⟩ ?_ ?_ ?_ ?_⟩
    · simp [acceptedSend, delivery]
    · simp [acceptedRecv, delivery, IpcAction.isFull]
    · simp only [IpcAction.isFull, Bool.false_eq_true, false_iff, ownWaiters]
      rw [h.recvs.len]
      exact hN.ne
    · exact fun h0 => absurd h0 Bool.false_ne_true
  | nil =>
    have hpop := h.sends.popFront_empty
    by_cases hroom : rs.length < N
    · obtain ⟨q, hpush, hq⟩ := h.recvs.pushBack by_ hroom
      have hstep : e.step (.recv by_) = (.block by_, ⟨e.sendQ, q⟩) := by
        simp only [step, Endpoint.recv, hpop, hpush]
      refine ⟨[], rs ++ [by_], Serves.of_step hstep ⟨h.sends, hq, Or.inl rfl⟩ ?_ ?_ ?_ ?_⟩
      · simp [acceptedSend, delivery]
      · simp [acceptedRecv, delivery, IpcAction.isFull]
      · simp only [IpcAction.isFull, Bool.false_eq_true, false_iff, ownWaiters]
        rw [h.recvs.len]
        exact hroom.ne
      · exact fun h0 => absurd h0 Bool.false_ne_true
    · have hfull : rs.length = N := le_antisymm h.recvs.le (Nat.le_of_not_lt hroom)
      have hpush := h.recvs.pushBack_full by_ hfull
      have hstep : e.step (.recv by_) = (.queueFull by_, e) := by
        simp only [step, Endpoint.recv, hpop, hpush]
      refine ⟨[], rs, Serves.of_step hstep h ?_ ?_ ?_ ?_⟩
      · simp [acceptedSend, delivery]
      · simp [acceptedRecv, delivery, IpcAction.isFull]
      · simp only [IpcAction.isFull, true_iff, ownWaiters]
        rw [h.recvs.len, hfull]
      · exact fun _ => rfl

theorem Waits.serves {e : Endpoint N} {ss : List BlockedSender} {rs : List ℕ} (h : Waits e ss rs) (c : Call) :
    ∃ ss' rs', Serves e ss rs c ss' rs' := by
  cases c with
  | send from_ msg words => exact h.send from_ msg words
  | recv by_ => exact h.recv by_

/-- over a run, what comes in goes out in order or waits -/
theorem Waits.run {e : Endpoint N} {ss : List BlockedSender} {rs : List ℕ} (h : Waits e ss rs) (calls : List Call) :
    ∃ ss' rs', Waits (e.run calls).2 ss' rs' ∧
      ss ++ (e.run calls).1.filterMap acceptedSend = ((e.run calls).1.filterMap delivery).map Prod.fst ++ ss' ∧
      rs ++ (e.run calls).1.filterMap acceptedRecv = ((e.run calls).1.filterMap delivery).map Prod.snd ++ rs' := by
  induction calls generalizing e ss rs with
  | nil => exact ⟨ss, rs, h, by simp [Endpoint.run], by simp [Endpoint.run]⟩
  | cons c cs ih =>
    obtain ⟨ss₁, rs₁, hc⟩ := h.serves c
    obtain ⟨ss', rs', hw, hs, hr⟩ := ih hc.waits
    have hcons : ∀ {β : Type} (f : Call × IpcAction → Option β),
        (e.run (c :: cs)).1.filterMap f = (f (c, (e.step c).1)).toList ++ ((e.step c).2.run cs).1.filterMap f := by
      intro β f
      rw [Endpoint.run, List.filterMap_cons]
      cases f (c, (e.step c).1) <;> rfl
    refine ⟨ss', rs', hw, ?_, ?_⟩
    · calc ss ++ (e.run (c :: cs)).1.filterMap acceptedSend
          = (ss ++ (acceptedSend (c, (e.step c).1)).toList) ++ ((e.step c).2.run cs).1.filterMap acceptedSend := by
            rw [hcons, List.append_assoc]
        _ = (delivery (c, (e.step c).1)).toList.map Prod.fst ++
              (ss₁ ++ ((e.step c).2.run cs).1.filterMap acceptedSend) := by rw [hc.sends, List.append_assoc]
        _ = ((e.run (c :: cs)).1.filterMap delivery).map Prod.fst ++ ss' := by
            rw [hs, hcons, List.map_append, List.append_assoc]
    · calc rs ++ (e.run (c :: cs)).1.filterMap acceptedRecv
          = (rs ++ (acceptedRecv (c, (e.step c).1)).toList) ++ ((e.step c).2.run cs).1.filterMap acceptedRecv := by
            rw [hcons, List.append_assoc]
        _ = (delivery (c, (e.step c).1)).toList.map Prod.snd ++
              (rs₁ ++ ((e.step c).2.run cs).1.filterMap acceptedRecv) := by rw [hc.recvs, List.append_assoc]
        _ = ((e.run (c :: cs)).1.filterMap delivery).map Prod.snd ++ rs' := by
            rw [hr, hcons, List.map_append, List.append_assoc]

end Endpoint

/-- the calls of a run on a new endpoint, with their answers -/
def trace (N : ℕ) (calls : List Call) : List (Call × IpcAction) := ((Endpoint.new : Endpoint N).run calls).1

/-- the endpoint after it -/
def after (N : ℕ) (calls : List Call) : Endpoint N := ((Endpoint.new : Endpoint N).run calls).2

/-- lists that are taken from in step, one of them to its end, are paired in order -/
theorem eq_zip_of_append {α β : Type} {ps : List (α × β)} {xs : List α} {ys : List β} {xs' : List α} {ys' : List β}
    (hx : xs = ps.map Prod.fst ++ xs') (hy : ys = ps.map Prod.snd ++ ys') (hone : xs' = [] ∨ ys' = []) :
    ps = xs.zip ys := by
  have hzip : ps = (ps.map Prod.fst).zip (ps.map Prod.snd) := List.zip_of_prod rfl rfl
  rw [hx, hy, List.zip_append (by simp)]
  rcases hone with rfl | rfl
  · rw [List.zip_nil_left, List.append_nil, ← hzip]
  · rw [List.zip_nil_right, List.append_nil, ← hzip]

/-- **The endpoint is an exact FIFO rendezvous.** After every sequence of calls: one of the queues is empty; the deliveries
are the accepted sends, with their messages, paired in order with the accepted receives; whoever has not been served waits in
order; and the next call is refused exactly if its own queue holds `N` threads, and then changes nothing. -/
theorem rendezvous_fifo (N : ℕ) (calls : List Call) :
    ((after N calls).sendQ.isEmpty = true ∨ (after N calls).recvQ.isEmpty = true) ∧
    (trace N calls).filterMap delivery =
      ((trace N calls).filterMap acceptedSend).zip ((trace N calls).filterMap acceptedRecv) ∧
    (after N calls).sendQ.Holds
      (((trace N calls).filterMap acceptedSend).drop ((trace N calls).filterMap delivery).length) ∧
    (after N calls).recvQ.Holds
      (((trace N calls).filterMap acceptedRecv).drop ((trace N calls).filterMap delivery).length) ∧
    ∀ c, (((after N calls).step c).1.isFull = true ↔ (after N calls).ownWaiters c = N) ∧
      (((after N calls).step c).1.isFull = true → ((after N calls).step c).2 = after N calls) := by
  obtain ⟨ss, rs, hw, hs, hr⟩ := Endpoint.waits_new.run (N := N) calls
  rw [List.nil_append] at hs hr
  refine ⟨?_, eq_zip_of_append hs hr hw.one, ?_, ?_, fun c => ?_⟩
  · rw [after, hw.sends.isEmpty, hw.recvs.isEmpty]
    rcases hw.one with rfl | rfl
    · exact Or.inl rfl
    · exact Or.inr rfl
  · show Queue.Holds _ (List.drop _ ((Endpoint.new.run calls).1.filterMap acceptedSend))
    rw [hs, List.drop_left' (by rw [List.length_map]; rfl)]
    exact hw.sends
  · show Queue.Holds _ (List.drop _ ((Endpoint.new.run calls).1.filterMap acceptedRecv))
    rw [hr, List.drop_left' (by rw [List.length_map]; rfl)]
    exact hw.recvs
  · obtain ⟨ss', rs', hc⟩ := hw.serves c
    exact ⟨hc.full, hc.same⟩

end Rustproof.Ipc
