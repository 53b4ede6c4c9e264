import HeapSummary.CandidateGraph.Search

/-!
# Bounding an interface

The interface of one procedure while it is made smaller, together with its candidate graph. A candidate is removed or
merged in both at once.
-/

namespace HeapSummary

structure Bounding where
  store : Store
  procedure : Procedure
  graph : CandidateGraph
  deriving DecidableEq

namespace Bounding

def start (s : Store) (p : Procedure) : Except Fault Bounding := do
  let (s, g) ← CandidateGraph.build s p
  return ⟨s, p, g⟩

def node (b : Bounding) : CallNode := b.procedure.node

def interface (b : Bounding) : IdSet .candidate := b.store.interface b.node

def size (b : Bounding) : Nat := b.interface.size

def reachable (b : Bounding) (start : List Candidate) : Except Fault (IdSet .candidate) :=
  b.graph.reachable b.store start

/-- The field candidates of a set, ascending. -/
def fieldsOf (b : Bounding) (cs : IdSet .candidate) : Except Fault (List Candidate) := do
  let locations ← cs.toList.mapM fun c => return (c, ← b.store.location c)
  return (locations.filter fun (_, l) => l.isField).map Prod.fst

/-- Removes a candidate, if the interface has it. -/
def remove (b : Bounding) (c : Candidate) : Except Fault Bounding := do
  if c ∈ b.interface then
    return { b with store := b.store.remove b.node c, graph := ← b.graph.removeNode c }
  else
    return b

def removeAll (b : Bounding) (cs : List Candidate) : Except Fault Bounding := cs.foldlM remove b

/-- Merges a group into one candidate. -/
def mergeGroup (b : Bounding) (group : List Candidate) : Except Fault (Bounding × Candidate) := do
  let (s, m) ← b.store.merge b.node group
  return ({ b with store := s, graph := ← b.graph.mergeNodes group m }, m)

/-- Merges a group of two or more; a smaller one is left alone. -/
def merge (b : Bounding) (group : List Candidate) : Except Fault (Bounding × Option Candidate) := do
  if group.length < 2 then
    return (b, none)
  else
    let (b, m) ← b.mergeGroup group
    return (b, some m)

end Bounding

end HeapSummary
