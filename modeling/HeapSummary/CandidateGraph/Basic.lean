import HeapSummary.Store

/-!
# Candidate graphs

The candidate graph of a procedure has its roots and the candidates of its interface as nodes, and an edge wherever one
dereference leads from a candidate to another: an object that the first may hold is a base of the second. Edges are kept
at both ends, and removing or merging nodes patches them in place.
-/

namespace HeapSummary

structure CandidateGraph where
  roots : List Candidate
  nodes : IdSet .candidate
  succs : IdMap .candidate (IdSet .candidate)
  preds : IdMap .candidate (IdSet .candidate)
  deriving DecidableEq

namespace CandidateGraph

def contains (g : CandidateGraph) (c : Candidate) : Bool := g.nodes.contains c

def size (g : CandidateGraph) : Nat := g.nodes.size

def isEmpty (g : CandidateGraph) : Bool := g.nodes.isEmpty

def succsOf (g : CandidateGraph) (c : Candidate) : IdSet .candidate := g.succs.get c

def predsOf (g : CandidateGraph) (c : Candidate) : IdSet .candidate := g.preds.get c

/-- The objects that the roots may hold. -/
def rootsPts (g : CandidateGraph) (s : Store) : Except Fault PointsTo := do
  let locations ← g.roots.mapM s.location
  return IdSet.unionMap locations Location.pts

/-! ### Building -/

/-- The graph over given roots and fields, its edges read off the points-to sets. -/
def ofLocations (roots : List Candidate) (nodes : List (Candidate × Location))
    (fields : List (Candidate × FieldLocation)) : CandidateGraph where
  roots := roots
  nodes := IdSet.ofList (nodes.map Prod.fst)
  succs := nodes.foldl (fun m (c, l) =>
    m.set c (IdSet.ofList ((fields.filter fun (_, f) => f.reachableFrom l.pts).map Prod.fst))) IdMap.empty
  preds := fields.foldl (fun m (d, f) =>
    m.set d (IdSet.ofList ((nodes.filter fun (_, l) => f.reachableFrom l.pts).map Prod.fst))) IdMap.empty

/-- New candidates for the given roots, in order. -/
def addRoots (s : Store) : List Root → Store × List Candidate
  | [] => (s, [])
  | r :: rs =>
    let (s, c) := s.addRoot r
    let (s, cs) := addRoots s rs
    (s, c :: cs)

/-- The graph of a procedure over the current interface of its node. Its roots become candidates of the store. -/
def build (s : Store) (p : Procedure) : Except Fault (Store × CandidateGraph) := do
  let (s, roots) := addRoots s p.roots
  let interface := s.interface p.node
  let nodes ← (IdSet.ofList roots ∪ interface).toList.mapM fun c => return (c, ← s.location c)
  let fields ← interface.toList.mapM fun c => return (c, ← s.field c)
  return (s, ofLocations roots nodes fields)

/-! ### Patching -/

/-- The graph without a node and its edges. -/
def without (g : CandidateGraph) (c : Candidate) : CandidateGraph where
  roots := g.roots
  nodes := g.nodes.erase c
  succs := (g.predsOf c).toList.foldl (fun m p => m.modify p (·.erase c)) (g.succs.set c ∅)
  preds := (g.succsOf c).toList.foldl (fun m s => m.modify s (·.erase c)) (g.preds.set c ∅)

def removeNode (g : CandidateGraph) (c : Candidate) : Except Fault CandidateGraph :=
  if c ∈ g.roots then .error (.rootRemoved c) else .ok (g.without c)

/-- The graph with a further node between the given neighbours. -/
def withNode (g : CandidateGraph) (m : Candidate) (succs preds : IdSet .candidate) (loop : Bool) : CandidateGraph where
  roots := g.roots
  nodes := g.nodes.insert m
  succs := (preds.toList.foldl (fun t p => t.modify p (·.insert m)) g.succs).set m
    (if loop then succs.insert m else succs)
  preds := (succs.toList.foldl (fun t s => t.modify s (·.insert m)) g.preds).set m
    (if loop then preds.insert m else preds)

/-- Replaces a group by the node `m`, which inherits every edge into or out of the group. Edges inside the group become a
loop. -/
def mergeNodes (g : CandidateGraph) (group : List Candidate) (m : Candidate) : Except Fault CandidateGraph := do
  let members := IdSet.ofList group
  let succs := IdSet.unionMap group g.succsOf
  let preds := IdSet.unionMap group g.predsOf
  let loop := succs.intersects members || preds.intersects members
  let rest ← group.foldlM removeNode g
  return rest.withNode m (succs \ members) (preds \ members) loop

end CandidateGraph

end HeapSummary
