import HeapSummary.Monitor

/-!
# Monitor pools

Several monitors at once, numbered in order of creation. Copies of a flag share it: raising one raises all. A copy of a
fuel monitor has a budget of its own.
-/

namespace HeapSummary

/-- A monitor of a pool; flags are kept in the pool, by number. -/
inductive Monitor.Handle where
  | never
  | flag (cell : Nat)
  | fuel (fuel : Fuel)

structure Monitor.Pool where
  flags : Array Bool
  handles : Array Monitor.Handle

namespace Monitor.Pool

def empty : Pool := ⟨#[], #[]⟩

/-- The number that the next monitor gets. -/
def next (p : Pool) : Nat := p.handles.size

def add (p : Pool) (h : Handle) : Pool := { p with handles := p.handles.push h }

def addNever (p : Pool) : Pool := p.add .never

/-- A new flag, not raised. -/
def addFlag (p : Pool) : Pool := { p.add (.flag p.flags.size) with flags := p.flags.push false }

def addFuel (p : Pool) (f : Fuel) : Pool := p.add (.fuel f)

def copy? (p : Pool) (n : Nat) : Option Pool := p.handles[n]?.map p.add

/-- Raises the flag of monitor `n`. -/
def raise? (p : Pool) (n : Nat) : Option Pool :=
  match p.handles[n]? with
  | some (.flag cell) => some { p with flags := p.flags.setIfInBounds cell true }
  | _ => none

/-- Polls monitor `n`: whether to go on, and the pool afterwards. -/
def poll? (p : Pool) (n : Nat) : Option (Bool × Pool) :=
  match p.handles[n]? with
  | some .never => some (true, p)
  | some (.flag cell) => some (!(p.flags[cell]?.getD false), p)
  | some (.fuel f) => some (f.spend.1, { p with handles := p.handles.setIfInBounds n (.fuel f.spend.2) })
  | none => none

def consumed? (p : Pool) (n : Nat) : Option Nat :=
  match p.handles[n]? with
  | some (.fuel f) => some f.consumed
  | _ => none

end Monitor.Pool

end HeapSummary
