import HeapSummary.AccessPath.Table

/-!
# Alias contexts

What one calling context knows about the access paths of a procedure: classes of paths that denote the same object, and
pairs that denote different ones. A path is labelled with the class of its closest ancestor that has one and the steps
from there on, so paths of one label may be aliased.

Every merge gives out the next class number. A context is taken to see fewer merges than the reserved number, so that each
of these numbers may name a class; merging does not check that.
-/

namespace HeapSummary

structure AliasClass where
  id : AliasClassId
  paths : List Path
  deriving DecidableEq

namespace AliasClass

def meets (c : AliasClass) (paths : List Path) : Bool := c.paths.any fun p => p ∈ paths

/-- Takes the classes that meet a set of paths out of a list, where the set grows by each class taken. Gives the grown
set and the other classes. -/
def collect : List Path → List AliasClass → List Path × List AliasClass
  | paths, [] => (paths, [])
  | paths, c :: rest =>
    if c.meets paths then collect (paths ++ c.paths) rest
    else ((collect paths rest).1, c :: (collect paths rest).2)

end AliasClass

/-- The form in which paths are compared. -/
structure Label where
  aliasClass : Option AliasClassId
  steps : List Step
  deriving DecidableEq

def Label.text (l : Label) : String :=
  ".".intercalate ((l.aliasClass.map Id.name).toList ++ l.steps.map Step.name)

/-- Two paths that are known not to be aliased. -/
structure NoAlias where
  left : Path
  right : Path
  deriving DecidableEq

def NoAlias.captures (n : NoAlias) (a b : Path) : Bool := n = ⟨a, b⟩ ∨ n = ⟨b, a⟩

/-- A dependence between two nodes. One through the heap is real only if the nodes are aliased. -/
structure Dependence where
  source : DepNode
  target : DepNode
  throughHeap : Bool
  deriving DecidableEq

structure AliasContext where
  procedure : CallNode
  table : PathTable
  classes : List AliasClass
  noAlias : List NoAlias
  nextClass : AliasClassId
  deriving DecidableEq

namespace AliasContext

def start (procedure : CallNode) (t : PathTable) : AliasContext := ⟨procedure, t, [], [], ⟨0⟩⟩

/-- Makes two lists of paths one class, together with every class that meets them. -/
def merge (c : AliasContext) (fst snd : List Path) : AliasContext :=
  let (paths, others) := AliasClass.collect (fst ++ snd) c.classes
  { c with classes := others ++ [⟨c.nextClass, paths⟩], nextClass := ⟨c.nextClass.index + 1⟩ }

def classOf (c : AliasContext) (p : Path) : Option AliasClassId :=
  (c.classes.find? fun k => p ∈ k.paths).map AliasClass.id

/-- The label of a path. Without a class it is the whole path, which has to start at a root. -/
def label (c : AliasContext) (p : Path) : Except Fault Label := do
  let (found, steps) ← c.table.ascend c.classOf p
  if found.isNone && !steps.head?.any Step.isRoot then
    .error (.unrootedPath p)
  else
    return ⟨found, steps⟩

/-- Whether a path of one node and a path of the other have the same label. -/
def mayAlias (c : AliasContext) (x y : DepNode) : Except Fault Bool := do
  let left ← (c.table.pathsOf x).mapM c.label
  let right ← (c.table.pathsOf y).mapM c.label
  return left.any fun l => l ∈ right

def mayBeActive (c : AliasContext) (d : Dependence) : Except Fault Bool :=
  if d.throughHeap then c.mayAlias d.source d.target else return true

/-- The dependences that may be active, in their order. -/
def active (c : AliasContext) (ds : List Dependence) : Except Fault (List Dependence) := do
  let answers ← ds.mapM fun d => return (d, ← c.mayBeActive d)
  return (answers.filter Prod.snd).map Prod.fst

/-- Whether two paths may denote objects of one type. An unknown type may be any. -/
def compatible (c : AliasContext) (a b : Path) : Except Fault Bool := do
  match (← c.table.read a).type, (← c.table.read b).type with
  | some s, some t => return c.table.mayOverlap s t
  | _, _ => return true

def isAliased (c : AliasContext) (a b : Path) : Except Fault Bool := do
  if a = b then
    return true
  else if (← c.label a) = (← c.label b) then
    return true
  else if ← c.compatible a b then
    return !c.noAlias.any fun n => n.captures a b
  else
    return false

end AliasContext

end HeapSummary
