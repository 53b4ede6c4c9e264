import HeapSummary.Propagation.Gated

/-!
# Propagation

The two ways to propagate behind one switch, and the interfaces that start from their result.
-/

namespace HeapSummary

/-- The candidates that reach each node, gated by points-to sets or not. -/
def propagate (p : Program) (g : CallGraph) (s : Store) (isGated : Bool) : Polled Propagation :=
  if isGated then Propagation.gated p g s else Propagation.plain g s

/-- Puts the candidates that reach a node into its interface, node by node. -/
def Propagation.seed (out : Propagation) (g : CallGraph) (s : Store) : Polled Store :=
  g.ids.foldlM (fun s x => do
    Polled.poll
    Polled.attempt (s.addAll x (out.get x))) s

end HeapSummary
