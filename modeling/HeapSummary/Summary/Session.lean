import HeapSummary.Monitor
import HeapSummary.Store

/-!
# Sessions

A session is the state of a computation that hands out interfaces: its monitor, and a record of what has been handed
out so far.
-/

namespace HeapSummary

/-- The interface of a procedure, with the store that its candidates live in. -/
structure Registration where
  procedure : Procedure
  interface : List Candidate
  store : Store
  deriving DecidableEq

structure Session where
  monitor : Monitor
  registered : List Registration
  deriving DecidableEq

/-- Computations that poll a monitor and register interfaces. -/
abbrev Recorded := EStateM Stop Session

namespace Recorded

/-- A computation that registers nothing. -/
def polled {α : Type} (run : Polled α) : Recorded α := fun session =>
  match run session.monitor with
  | .ok a m => .ok a { session with monitor := m }
  | .error stop m => .error stop { session with monitor := m }

def register (r : Registration) : Recorded Unit :=
  modify fun session => { session with registered := session.registered ++ [r] }

end Recorded

end HeapSummary
