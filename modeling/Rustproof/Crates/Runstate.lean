/-
What the kernel does when nothing is runnable, and who a rendezvous pairs with (`crates/runstate`).

Decisions over the vector of process states alone; `creditable` is the kernel's answer to "can this interrupt wait still
be answered".
-/
import Mathlib.Tactic

namespace Rustproof.Runstate

/-- why a process is not runnable -/
inductive Blocked where
  | no
  | send (ep : ℕ)
  | recv (ep : ℕ)
  | irq (line : ℕ)
deriving DecidableEq, Repr

/-- one process-table slot, reduced to what a scheduling decision depends on -/
structure Slot where
  live : Bool
  blocked : Blocked
deriving DecidableEq, Repr

def Slot.FREE : Slot := ⟨false, .no⟩

/-- what to do when the run queue has emptied -/
inductive Next where
  | park
  | deadlock
  | allDone
deriving DecidableEq, Repr

/-- slot `i` is a live interrupt waiter that `c` does not credit -/
def strandedAt (slots : List Slot) (creditable : ℕ → ℕ → Bool) (i : ℕ) : Bool :=
  match slots[i]? with
  | some ⟨true, .irq line⟩ => !creditable i line
  | _ => false

/-- interrupt waiters that can never be credited -/
def uncreditable (slots : List Slot) (creditable : ℕ → ℕ → Bool) : List ℕ :=
  (List.range slots.length).filter (strandedAt slots creditable)

/-- slot `i` is a live interrupt waiter that `c` credits -/
def waitingAt (slots : List Slot) (creditable : ℕ → ℕ → Bool) (i : ℕ) : Bool :=
  match slots[i]? with
  | some ⟨true, .irq line⟩ => creditable i line
  | _ => false

def classify (slots : List Slot) (creditable : ℕ → ℕ → Bool) : Next :=
  if (List.range slots.length).any (waitingAt slots creditable) then .park
  else if slots.any (·.live) then .deadlock
  else .allDone

/-- the process blocked receiving on `ep`, if any -/
def findRecv (slots : List Slot) (ep : ℕ) : Option ℕ := slots.findIdx? fun s => s.live && s.blocked == .recv ep

/-- the process blocked sending on `ep`, if any -/
def findSend (slots : List Slot) (ep : ℕ) : Option ℕ := slots.findIdx? fun s => s.live && s.blocked == .send ep

end Rustproof.Runstate
