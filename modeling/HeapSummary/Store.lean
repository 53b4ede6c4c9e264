import HeapSummary.Location
import HeapSummary.Total

/-!
# Candidate stores

All candidates of one run, with two sets for every call-graph node: the locals, for the accesses that the node performs
itself, and the interface, the live candidates that stand for its effect on the heap. Interfaces hold field candidates
only; merging replaces several of them by a new one.
-/

namespace HeapSummary

structure Store where
  arena : Arena .candidate Location
  locals : IdMap .callNode (IdSet .candidate)
  interfaces : IdMap .callNode (IdSet .candidate)
  /-- Nodes whose interface was ever written. -/
  touched : IdSet .callNode
  deriving DecidableEq

namespace Store

def empty : Store := ⟨Arena.empty, IdMap.empty, IdMap.empty, ∅⟩

instance : Inhabited Store := ⟨empty⟩

/-! ### Reading -/

def size (s : Store) : Nat := s.arena.size

def isEmpty (s : Store) : Bool := s.arena.isEmpty

def ids (s : Store) : List Candidate := s.arena.ids

def location (s : Store) (c : Candidate) : Except Fault Location := s.arena.read c

def field (s : Store) (c : Candidate) : Except Fault FieldLocation := do
  match ← s.location c with
  | .field l => return l
  | .root r => .error (.rootNotField c r.name)

def root (s : Store) (c : Candidate) : Except Fault Root := do
  match ← s.location c with
  | .root r => return r
  | .field _ => .error (.fieldNotRoot c)

/-- The field location of a candidate, if it has one. -/
def field? (s : Store) (c : Candidate) : Option FieldLocation := (s.arena.get? c).bind Location.field?

/-- The objects whose field a candidate accesses, none for a candidate that is no field. -/
def basesOf (s : Store) (c : Candidate) : PointsTo := ((s.field? c).map FieldLocation.bases).getD ∅

/-- The objects that a field candidate may hold. -/
def ptsOf (s : Store) (c : Candidate) : PointsTo := ((s.field? c).map FieldLocation.pts).getD ∅

/-- Whether a candidate is known to be primitive. -/
def isPrimitive (s : Store) (c : Candidate) : Bool := ((s.arena.get? c).map fun l => l.primitive.isYes).getD false

/-- Refuses a set with identifiers of no candidate in it. -/
def requireLocations (s : Store) (cs : IdSet .candidate) : Except Fault Unit :=
  cs.toList.forM fun c => discard (s.location c)

/-- Refuses a set with anything but field candidates in it. -/
def requireFields (s : Store) (cs : IdSet .candidate) : Except Fault Unit :=
  cs.toList.forM fun c => discard (s.field c)

def localsOf (s : Store) (x : CallNode) : IdSet .candidate := s.locals.get x

def interface (s : Store) (x : CallNode) : IdSet .candidate := s.interfaces.get x

/-- The sizes of all interfaces together. -/
def count (s : Store) : Nat := total (fun x => (s.interface x).size) s.touched.toList

/-! ### Accesses and roots -/

/-- Whether a candidate is the unmerged one for an access's field and bases. -/
def isFor (a : Access) (c : Candidate) : Location → Bool
  | .field l => l.origin = IdSet.singleton c && l.fields = IdSet.singleton a.field && l.bases = a.bases
  | .root _ => false

def findAccess? (s : Store) (a : Access) : Option Candidate :=
  (s.arena.entries.find? fun (c, l) => isFor a c l).map Prod.fst

/-- The candidate of an access. Accesses of one field on the same bases share it. -/
def addAccess (s : Store) (a : Access) : Store × Candidate :=
  match s.findAccess? a with
  | some c =>
    let revisit : Location → Location
      | .field l => .field (l.revisit a)
      | .root r => .root r
    ({ s with arena := s.arena.modify c revisit }, c)
  | none =>
    let c := s.arena.nextId
    ({ s with arena := s.arena.push (.field (.ofAccess c a)) }, c)

def addRoot (s : Store) (r : Root) : Store × Candidate :=
  ({ s with arena := s.arena.push (.root r) }, s.arena.nextId)

/-- Writes an interface. -/
def setInterface (s : Store) (x : CallNode) (cs : IdSet .candidate) : Store :=
  { s with interfaces := s.interfaces.set x cs, touched := s.touched.insert x }

/-- An access that node `x` performs itself. -/
def addLocal (s : Store) (x : CallNode) (a : Access) : Store :=
  let (s, c) := s.addAccess a
  { s.setInterface x ((s.interface x).insert c) with locals := s.locals.set x ((s.localsOf x).insert c) }

/-- The candidates of a program's accesses, each node's own in its locals and its interface. -/
def ofProgram (p : Program) : Store :=
  p.callGraph.nodes.entries.foldl (fun s (x, d) => d.accesses.foldl (fun s a => s.addLocal x a) s) empty

/-! ### Interfaces -/

/-- Puts a field candidate into an interface. -/
def add (s : Store) (x : CallNode) (c : Candidate) : Except Fault Store := do
  if (← s.location c).isField then
    return s.setInterface x ((s.interface x).insert c)
  else
    .error (.notFieldCandidate c)

def addAll (s : Store) (x : CallNode) (cs : IdSet .candidate) : Except Fault Store :=
  cs.toList.foldlM (fun s c => s.add x c) s

/-- Takes a candidate out of an interface, and tells whether it was there. -/
def withdraw (s : Store) (x : CallNode) (c : Candidate) : Store × Bool :=
  let (left, wasMember) := (s.interface x).remove c
  ({ s with interfaces := s.interfaces.set x left }, wasMember)

def remove (s : Store) (x : CallNode) (c : Candidate) : Store := (s.withdraw x c).1

/-- Replaces the group in an interface by one candidate that stands for all of it. One candidate alone stands for
itself. -/
def merge (s : Store) (x : CallNode) (group : List Candidate) : Except Fault (Store × Candidate) :=
  match group with
  | [] => .error .emptyMerge
  | [c] => return (← s.add x c, c)
  | c :: d :: rest => do
    let first ← s.field c
    let others ← (d :: rest).mapM s.field
    let merged := others.foldl FieldLocation.absorb first
    if merged.fields.isEmpty then
      .error (.mergeWithoutFields group)
    else
      let m := s.arena.nextId
      let kept := group.foldl IdSet.erase (s.interface x)
      return ({ s with arena := s.arena.push (.field merged) }.setInterface x (kept.insert m), m)

/-- Folds candidates into an interface as one, together with every interface candidate that already stands for part of
them. -/
def fold (s : Store) (x : CallNode) (folded : IdSet .candidate) : Except Fault (Store × Option Candidate) := do
  if folded.isEmpty then
    return (s, none)
  let parts ← folded.toList.mapM s.field
  let origin := IdSet.unionMap parts FieldLocation.origin
  let rest ← (s.interface x \ folded).toList.mapM fun c => return (c, ← s.field c)
  let overlapping := rest.filter fun (_, l) => l.origin.intersects origin
  let (s, m) ← s.merge x (folded.toList ++ overlapping.map Prod.fst)
  return (s, some m)

end Store

end HeapSummary
