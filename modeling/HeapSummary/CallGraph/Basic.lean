import HeapSummary.Arena
import HeapSummary.Certainty
import HeapSummary.IdSet.Basic

/-!
# Call graphs

A call graph holds, for every node, the field accesses that the node performs itself and its calls, listed at both ends.
Some nodes are members of the pruned graph, whose edges are the calls between two members.
-/

namespace HeapSummary

/-- One dereference: a field of any object in `bases`, whose value may point to `pts`. -/
structure Access where
  field : Field
  bases : PointsTo
  pts : PointsTo
  type : Option TypeId
  primitive : Certainty
  deriving DecidableEq

/-- What a node does about threads. -/
inductive ThreadRole where
  | normal
  /-- Starts a thread, and so dispatches to a run method. -/
  | start
  /-- A run method. -/
  | run
  deriving DecidableEq

structure CallSite where
  name : String
  role : ThreadRole
  accesses : List Access
  succs : List CallNode
  preds : List CallNode
  deriving DecidableEq

structure CallGraph where
  nodes : Arena .callNode CallSite
  members : IdSet .callNode
  deriving DecidableEq

namespace CallGraph

def empty : CallGraph := ⟨Arena.empty, ∅⟩

instance : Inhabited CallGraph := ⟨empty⟩

def size (g : CallGraph) : Nat := g.nodes.size

def isEmpty (g : CallGraph) : Bool := g.nodes.isEmpty

def ids (g : CallGraph) : List CallNode := g.nodes.ids

/-- Adds a node without calls, a member of the pruned graph. -/
def addNode (g : CallGraph) (name : String) (role : ThreadRole) : CallGraph × CallNode :=
  let x := g.nodes.nextId
  (⟨g.nodes.push ⟨name, role, [], [], []⟩, g.members.insert x⟩, x)

def node (g : CallGraph) (x : CallNode) : Except Fault CallSite := g.nodes.read x

def succs (g : CallGraph) (x : CallNode) : Except Fault (List CallNode) := return (← g.node x).succs

def preds (g : CallGraph) (x : CallNode) : Except Fault (List CallNode) := return (← g.node x).preds

/-- Adds the call from `x` to `y`, unless it is there. -/
def addEdge (g : CallGraph) (x y : CallNode) : Except Fault CallGraph := do
  if y ∈ (← g.succs x) then
    return g
  let out := g.nodes.modify x fun d => { d with succs := d.succs ++ [y] }
  let _ ← out.read y
  return { g with nodes := out.modify y fun d => { d with preds := d.preds ++ [x] } }

def addAccess (g : CallGraph) (x : CallNode) (a : Access) : Except Fault CallGraph := do
  let _ ← g.node x
  return { g with nodes := g.nodes.modify x fun d => { d with accesses := d.accesses ++ [a] } }

def isMember (g : CallGraph) (x : CallNode) : Bool := g.members.contains x

def setMember (g : CallGraph) (x : CallNode) (member : Bool) : CallGraph :=
  { g with members := if member then g.members.insert x else g.members.erase x }

/-! ### Thread dispatch

A call from a thread start to a run method is no real call: the run method executes in another thread. -/

/-- The calls of `x` that only dispatch a thread. -/
def dispatches (g : CallGraph) (x : CallNode) : Except Fault (List CallNode) := do
  let d ← g.node x
  if d.role ≠ .start then
    return []
  let callees ← d.succs.mapM fun y => return (y, ← g.node y)
  return (callees.filter fun (_, e) => e.role = .run).map Prod.fst

def removeEdge (g : CallGraph) (x y : CallNode) : CallGraph :=
  let out := g.nodes.modify x fun d => { d with succs := d.succs.filter (· ≠ y) }
  { g with nodes := out.modify y fun d => { d with preds := d.preds.filter (· ≠ x) } }

/-- The call graph without thread dispatch. -/
def withoutDispatch (g : CallGraph) : Except Fault CallGraph :=
  g.ids.foldlM (fun h x => return (← g.dispatches x).foldl (fun h y => h.removeEdge x y) h) g

end CallGraph

end HeapSummary
