import HeapSummary.Bounding.Pass
import HeapSummary.Monitor

/-!
# Reports

How the interface of one procedure was bounded.
-/

namespace HeapSummary

structure Report where
  node : CallNode
  name : String
  initial : Nat
  final : Nat
  /-- The passes that ran, each with the number of candidates that it removed. -/
  passes : List (Pass × Nat)
  deriving DecidableEq

namespace Report

/-- The share of an interface that is left, in percent. -/
def percentOf (initial final : Nat) : Float :=
  if initial = 0 then 100.0 else final.toFloat * 100.0 / initial.toFloat

def percent (r : Report) : Float := percentOf r.initial r.final

end Report

/-- Bounds the interface of a procedure. -/
def Bounding.run (o : Options) (immutables : IdSet .type) (s : Store) (p : Procedure) :
    Except Fault (Store × Report) := do
  let first ← Bounding.start s p
  let (last, passes) ← Pass.runAll o immutables Pass.order first
  return (last.store, ⟨p.node, p.name, first.size, last.size, passes⟩)

/-- Bounds the interfaces of procedures in turn. The monitor is asked before each. -/
def Bounding.runAll (o : Options) (immutables : IdSet .type) : List Procedure → Store → Polled (Store × List Report)
  | [], s => return (s, [])
  | p :: rest, s => do
    Polled.poll
    let (s, report) ← Polled.attempt (Bounding.run o immutables s p)
    let (s, reports) ← Bounding.runAll o immutables rest s
    return (s, report :: reports)

end HeapSummary
