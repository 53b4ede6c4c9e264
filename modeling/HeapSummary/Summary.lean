import HeapSummary.Propagation
import HeapSummary.Summary.Report
import HeapSummary.Summary.Session

/-!
# Summaries

The whole run: candidates propagate to callers, the interface of every procedure is bounded, and calls that were pruned
are folded into it. Interfaces are registered after everything else and after a last poll, so a canceled run has
registered nothing.
-/

namespace HeapSummary

structure Statistics where
  /-- The sizes of all interfaces together, right after propagation. -/
  candidates : Nat
  reports : List Report
  deriving DecidableEq

namespace Summary

/-- Folds the pruned calls of a procedure into its interface. The monitor is asked before each. -/
def foldPruned (g : CallGraph) (out : Propagation) (s : Store) (p : Procedure) : Polled Store := do
  let callees ← Polled.attempt (g.succs p.node)
  (callees.filter fun y => !g.isMember y).foldlM (fun s y => do
    Polled.poll
    let (s, _) ← Polled.attempt (s.fold p.node (out.get y))
    return s) s

/-- A report with the size that the interface has now. -/
def refresh (s : Store) (r : Report) : Report := { r with final := (s.interface r.node).size }

/-- Everything up to the registration of interfaces. -/
def analyze (p : Program) (o : Options) : Polled (Statistics × Store) := do
  let g ← Polled.attempt p.callGraph.withoutDispatch
  let own := Store.ofProgram p
  let out ← propagate p g own o.gatedPropagation
  let seeded ← out.seed g own
  let (bounded, reports) ← Bounding.runAll o (p.typesNamed o.immutableTypes) p.procedures seeded
  if o.foldPruned then
    let folded ← p.procedures.foldlM (foldPruned g out) bounded
    return (⟨seeded.count, reports.map (refresh folded)⟩, folded)
  else
    return (⟨seeded.count, reports⟩, bounded)

end Summary

/-- Summarizes a program and registers the interface of every procedure. -/
def summarize (p : Program) (o : Options) : Recorded Statistics := do
  let (stats, s) ← Recorded.polled (Summary.analyze p o)
  Recorded.polled Polled.poll
  p.procedures.forM fun proc => Recorded.register ⟨proc, (s.interface proc.node).toList, s⟩
  return stats

end HeapSummary
