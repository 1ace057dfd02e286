/-
Programs over a state that may stop the machine, and the rules for reasoning about them.

`Prog ε σ α` runs from a state of type `σ` and either returns an `α` and a new state, or stops with a reason of type
`ε`. `wp x Q E s` says: run from `s`, `x` returns a result that satisfies `Q`, or stops with a reason that satisfies `E`.

The rules follow the program text: `wp_ret`, `wp_bind`, `wp_modify`, `wp_ite`, and for loops `wp_forEach`, which asks for
an invariant that one iteration preserves.
-/
import Mathlib.Tactic

namespace Rustproof.Lib

/-- a program over states `σ` that may stop the machine with a reason `ε` -/
def Prog (ε σ α : Type) := σ → Except ε (α × σ)

namespace Prog

variable {ε σ α β : Type}

def ret (a : α) : Prog ε σ α := fun s => .ok (a, s)

def bind (x : Prog ε σ α) (f : α → Prog ε σ β) : Prog ε σ β := fun s =>
  match x s with
  | .ok (a, s') => f a s'
  | .error e => .error e

instance : Monad (Prog ε σ) where
  pure := ret
  bind := bind

/-- stop the machine -/
def halt (e : ε) : Prog ε σ α := fun _ => .error e

/-- the current state -/
def get : Prog ε σ σ := fun s => .ok (s, s)

/-- apply a state transformer that cannot stop -/
def modify (f : σ → σ) : Prog ε σ Unit := fun s => .ok ((), f s)

/-- apply a state transformer that returns a value and cannot stop -/
def run (f : σ → α × σ) : Prog ε σ α := fun s => .ok (f s)

/-- `for b in bs { f b }` -/
def forEach (bs : List β) (f : β → Prog ε σ Unit) : Prog ε σ Unit :=
  match bs with
  | [] => ret ()
  | b :: bs => bind (f b) fun _ => forEach bs f

/-- `if c { x }` -/
def onlyIf (c : Prop) [Decidable c] (x : Prog ε σ Unit) : Prog ε σ Unit := if c then x else ret ()

/-- a loop that cannot stop and notes whether any iteration reported true: `for b in bs { any |= f(b) }` -/
def forAny (f : β → σ → Bool × σ) : List β → σ → Bool × σ
  | [], s => (false, s)
  | b :: bs, s =>
    let r := f b s
    let rest := forAny f bs r.2
    (r.1 || rest.1, rest.2)

/-- how `x` ends from `s`: it returns a result satisfying `Q`, or stops with a reason satisfying `E` -/
def wp (x : Prog ε σ α) (Q : α → σ → Prop) (E : ε → Prop) (s : σ) : Prop :=
  match x s with
  | .ok (a, s') => Q a s'
  | .error e => E e

variable {E E' : ε → Prop} {s : σ}

theorem wp_ok {x : Prog ε σ α} {Q : α → σ → Prop} (h : wp x Q E s) {a : α} {s' : σ} (hx : x s = .ok (a, s')) :
    Q a s' := by
  rwa [wp, hx] at h

theorem wp_error {x : Prog ε σ α} {Q : α → σ → Prop} (h : wp x Q E s) {e : ε} (hx : x s = .error e) : E e := by
  rwa [wp, hx] at h

/-- a program does what it does -/
theorem wp_self (x : Prog ε σ α) (s : σ) :
    wp x (fun a s' => x s = .ok (a, s')) (fun e => x s = .error e) s := by
  rw [wp]; cases x s <;> rfl

theorem wp_imp {x : Prog ε σ α} {Q R : α → σ → Prop} (h : wp x Q E s)
    (hQR : ∀ a s', x s = .ok (a, s') → Q a s' → R a s') (hE : ∀ e, E e → E' e) : wp x R E' s := by
  rw [wp] at h ⊢
  cases hx : x s with
  | ok r => rw [hx] at h; exact hQR r.1 r.2 hx h
  | error e => rw [hx] at h; exact hE e h

theorem wp_mono {x : Prog ε σ α} {Q R : α → σ → Prop} (h : wp x Q E s) (hQR : ∀ a s', Q a s' → R a s') :
    wp x R E s := wp_imp h (fun a s' _ => hQR a s') fun _ => id

theorem wp_and {x : Prog ε σ α} {Q R : α → σ → Prop} (hQ : wp x Q E s) (hR : wp x R E' s) :
    wp x (fun a s' => Q a s' ∧ R a s') (fun e => E e ∧ E' e) s := by
  rw [wp] at *
  cases hx : x s with
  | ok r => rw [hx] at hQ hR; exact ⟨hQ, hR⟩
  | error e => rw [hx] at hQ hR; exact ⟨hQ, hR⟩

@[simp] theorem wp_ret {a : α} {Q : α → σ → Prop} : wp (ret a : Prog ε σ α) Q E s ↔ Q a s := Iff.rfl

@[simp] theorem wp_bind' {x : Prog ε σ α} {f : α → Prog ε σ β} {Q : β → σ → Prop} :
    wp (bind x f) Q E s ↔ wp x (fun a => wp (f a) Q E) E s := by
  rw [wp, wp, bind]
  cases x s with
  | ok r => rfl
  | error e => rfl

@[simp] theorem wp_bind {x : Prog ε σ α} {f : α → Prog ε σ β} {Q : β → σ → Prop} :
    wp (x >>= f) Q E s ↔ wp x (fun a => wp (f a) Q E) E s := wp_bind'

@[simp] theorem wp_get {Q : σ → σ → Prop} : wp (get : Prog ε σ σ) Q E s ↔ Q s s := Iff.rfl

@[simp] theorem wp_modify {f : σ → σ} {Q : Unit → σ → Prop} :
    wp (modify f : Prog ε σ Unit) Q E s ↔ Q () (f s) := Iff.rfl

@[simp] theorem wp_run {f : σ → α × σ} {Q : α → σ → Prop} :
    wp (run f : Prog ε σ α) Q E s ↔ Q (f s).1 (f s).2 := Iff.rfl

theorem wp_ite {c : Prop} [Decidable c] {x y : Prog ε σ α} {Q : α → σ → Prop}
    (hx : c → wp x Q E s) (hy : ¬ c → wp y Q E s) : wp (if c then x else y) Q E s := by
  by_cases h : c
  · rw [if_pos h]; exact hx h
  · rw [if_neg h]; exact hy h

theorem wp_onlyIf {c : Prop} [Decidable c] {x : Prog ε σ Unit} {Q : Unit → σ → Prop}
    (hx : c → wp x Q E s) (hy : ¬ c → Q () s) : wp (onlyIf c x) Q E s := wp_ite hx hy

/-- what one iteration preserves, the loop preserves -/
theorem forAny_keep {f : β → σ → Bool × σ} {bs : List β} {I : σ → Prop} (hf : ∀ b ∈ bs, ∀ s, I s → I (f b s).2)
    (hs : I s) : I (forAny f bs s).2 := by
  induction bs generalizing s with
  | nil => exact hs
  | cons b bs ih =>
    exact ih (fun c hc => hf c (List.mem_cons_of_mem _ hc)) (hf b List.mem_cons_self s hs)

/-- a relation that is a preorder and holds across each iteration holds across the loop -/
theorem forAny_rel {f : β → σ → Bool × σ} {bs : List β} {R : σ → σ → Prop} (hrefl : ∀ s, R s s)
    (htrans : ∀ s t u, R s t → R t u → R s u) (hf : ∀ b ∈ bs, ∀ s, R s (f b s).2) (s : σ) : R s (forAny f bs s).2 :=
  forAny_keep (I := R s) (fun b hb t ht => htrans s t _ ht (hf b hb t)) (hrefl s)

/-- **The loop rule.** What one iteration preserves, the loop preserves. -/
theorem wp_forEach {bs : List β} {f : β → Prog ε σ Unit} {I : σ → Prop}
    (hstep : ∀ b ∈ bs, ∀ s, I s → wp (f b) (fun _ => I) E s) (hs : I s) :
    wp (forEach bs f) (fun _ => I) E s := by
  induction bs generalizing s with
  | nil => exact hs
  | cons b bs ih =>
    rw [forEach, wp_bind']
    exact wp_mono (hstep b List.mem_cons_self s hs) fun _ s' hs' =>
      ih (fun c hc => hstep c (List.mem_cons_of_mem _ hc)) hs'

/-- the loop rule with an invariant that knows which iterations are done -/
theorem wp_forEach_prefix {bs : List β} {f : β → Prog ε σ Unit} {I : List β → σ → Prop}
    (hstep : ∀ pre b post, bs = pre ++ b :: post → ∀ s, I pre s → wp (f b) (fun _ => I (pre ++ [b])) E s)
    (hs : I [] s) : wp (forEach bs f) (fun _ => I bs) E s := by
  suffices key : ∀ post pre, bs = pre ++ post → ∀ s, I pre s → wp (forEach post f) (fun _ => I bs) E s from
    key bs [] rfl s hs
  intro post
  induction post with
  | nil => intro pre h s hs; rw [List.append_nil] at h; rw [h]; exact hs
  | cons b post ih =>
    intro pre h s hs
    rw [forEach, wp_bind']
    exact wp_mono (hstep pre b post h s hs) fun _ s' hs' => ih (pre ++ [b]) (by simp [h]) s' hs'

@[simp] theorem wp_forEach_append {as bs : List β} {f : β → Prog ε σ Unit} {Q : Unit → σ → Prop} :
    wp (forEach (as ++ bs) f) Q E s ↔ wp (forEach as f) (fun _ => wp (forEach bs f) Q E) E s := by
  induction as generalizing s with
  | nil => exact Iff.rfl
  | cons a as ih =>
    rw [List.cons_append, forEach, forEach, wp_bind', wp_bind']
    exact ⟨fun h => wp_mono h fun _ _ => ih.1, fun h => wp_mono h fun _ _ => ih.2⟩

end Prog

end Rustproof.Lib
