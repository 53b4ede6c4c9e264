import HeapSummary.Arena

/-!
# Access paths

An access path starts at a node of a dependence graph and goes on from field to field. Paths are kept in a table as a
last step and a parent, the path before that step, and paths of equal parent and last step are one path. A parent is
not looked up when it is given, so it may be entered later than its child; a path that is its own ancestor starts
nowhere, and following it is a fault.
-/

namespace HeapSummary

inductive Step where
  /-- The node that a path starts from. -/
  | root (node : DepNode)
  | field (field : Field)
  deriving DecidableEq

namespace Step

def name : Step → String
  | root x => x.name
  | field f => f.name

def isRoot : Step → Bool
  | root _ => true
  | field _ => false

end Step

structure AccessPath where
  parent : Option Path
  last : Step
  type : Option TypeId
  deriving DecidableEq

/-- The access paths of one procedure, the paths of each node of its dependence graph, and pairs of types that share no
instance. -/
structure PathTable where
  paths : Arena .path AccessPath
  attached : List (DepNode × Path)
  disjoint : List (TypeId × TypeId)
  deriving DecidableEq

namespace PathTable

def empty : PathTable := ⟨Arena.empty, [], []⟩

instance : Inhabited PathTable := ⟨empty⟩

/-! ### Paths -/

def find? (t : PathTable) (parent : Option Path) (last : Step) : Option Path :=
  (t.paths.entries.find? fun (_, d) => d.parent = parent ∧ d.last = last).map Prod.fst

/-- The path of a parent and a last step. A known path keeps the type that it was entered with. -/
def enter (t : PathTable) (d : AccessPath) : PathTable × Path :=
  match t.find? d.parent d.last with
  | some p => (t, p)
  | none => ({ t with paths := t.paths.push d }, t.paths.nextId)

def root (t : PathTable) (x : DepNode) (type : Option TypeId) : PathTable × Path := t.enter ⟨none, .root x, type⟩

def field (t : PathTable) (parent : Path) (f : Field) (type : Option TypeId) : PathTable × Path :=
  t.enter ⟨some parent, .field f, type⟩

def read (t : PathTable) (p : Path) : Except Fault AccessPath := t.paths.read p

def parent (t : PathTable) (p : Path) : Except Fault (Option Path) := return (← t.read p).parent

/-- Follows parents from `p` up to the first path that `stop` accepts, or else up to the root, for at most `fuel` paths.
Gives what `stop` found and the steps below it, followed by `suffix`. -/
def climb {α : Type} (t : PathTable) (stop : Path → Option α) : Nat → Path → List Step →
    Except Fault (Option α × List Step)
  | 0, p, _ => .error (.unrootedPath p)
  | fuel + 1, p, suffix =>
    match stop p with
    | some a => .ok (some a, suffix)
    | none => do
      let d ← t.read p
      match d.parent with
      | none => return (none, d.last :: suffix)
      | some q => t.climb stop fuel q (d.last :: suffix)

/-- Follows parents as far as the table goes: a path that is not its own ancestor has fewer ancestors than the table
has paths. -/
def ascend {α : Type} (t : PathTable) (stop : Path → Option α) (p : Path) : Except Fault (Option α × List Step) :=
  t.climb stop (t.paths.size + 1) p []

/-- All steps of a path, root first. -/
def steps (t : PathTable) (p : Path) : Except Fault (List Step) :=
  return (← t.ascend (fun _ => (none : Option Unit)) p).2

/-! ### Nodes and types -/

/-- Gives a node one more path. -/
def attach (t : PathTable) (x : DepNode) (p : Path) : PathTable :=
  if (x, p) ∈ t.attached then t else { t with attached := t.attached ++ [(x, p)] }

def pathsOf (t : PathTable) (x : DepNode) : List Path := (t.attached.filter fun (y, _) => y = x).map Prod.snd

/-- Declares that two types share no instance. A type shares its instances with itself. -/
def setDisjoint (t : PathTable) (a b : TypeId) : PathTable :=
  if a = b then t else { t with disjoint := (a, b) :: t.disjoint }

def mayOverlap (t : PathTable) (a b : TypeId) : Bool := (a, b) ∉ t.disjoint ∧ (b, a) ∉ t.disjoint

end PathTable

end HeapSummary
