import HeapSummary.Fault

/-!
# Monitors

A long computation polls its monitor at every loop boundary and stops when the monitor says so. A fuel monitor answers a
given number of polls and counts all of them, those that it refuses included. A monitor may answer as it likes, and a flag
may be raised while the computation runs; since a run polls finitely often, what it is answered is always a finite list.

`Polled` is the monad of such computations: the monitor is its state, and a computation ends early with a `Stop`.
-/

namespace HeapSummary

/-- A budget of polls. -/
structure Fuel where
  /-- Polls left to grant, or nothing for no limit. -/
  remaining : Option Nat
  consumed : Nat
  deriving DecidableEq

namespace Fuel

/-- The budget that stands for no limit. -/
def limit : Nat := 18446744073709551615

def unlimited : Fuel := ⟨none, 0⟩

def ofBudget (n : Nat) : Fuel := if n = limit then unlimited else ⟨some n, 0⟩

/-- Counts one poll and says whether it is granted. -/
def spend (f : Fuel) : Bool × Fuel :=
  match f.remaining with
  | none => (true, ⟨none, f.consumed + 1⟩)
  | some 0 => (false, ⟨some 0, f.consumed + 1⟩)
  | some (n + 1) => (true, ⟨some n, f.consumed + 1⟩)

end Fuel

inductive Monitor where
  /-- Grants every poll and counts none. -/
  | never
  | flag (raised : Bool)
  | fuel (fuel : Fuel)
  /-- Gives the listed answers one after another, and grants every poll after them. -/
  | scripted (answers : List Bool)
  deriving DecidableEq

namespace Monitor

/-- Whether to go on, and the monitor after the question. -/
def poll : Monitor → Bool × Monitor
  | never => (true, never)
  | flag raised => (!raised, flag raised)
  | fuel f => (f.spend.1, fuel f.spend.2)
  | scripted [] => (true, scripted [])
  | scripted (granted :: answers) => (granted, scripted answers)

/-- Polls counted so far, if the monitor counts them. -/
def consumed? : Monitor → Option Nat
  | fuel f => some f.consumed
  | _ => none

end Monitor

/-- Why a computation ended without a result. -/
inductive Stop where
  | canceled
  | fault (fault : Fault)
  deriving DecidableEq

def Stop.message : Stop → String
  | canceled => "object-graph computation canceled"
  | fault f => f.message

/-- Computations that poll a monitor. -/
abbrev Polled := EStateM Stop Monitor

namespace Polled

def poll : Polled Unit := fun m =>
  match m.poll with
  | (true, m') => .ok () m'
  | (false, m') => .error .canceled m'

/-- A checked operation as a step of a computation. -/
def attempt {α : Type} (r : Except Fault α) : Polled α := fun m =>
  match r with
  | .ok a => .ok a m
  | .error f => .error (.fault f) m

end Polled

end HeapSummary
