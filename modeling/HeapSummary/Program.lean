import HeapSummary.CallGraph.Basic
import HeapSummary.IdMap

/-!
# Programs

What an analysis is given: the call graph with its accesses, the names of types and fields, and, for some nodes, a
procedure with the heap roots that it starts from.
-/

namespace HeapSummary

/-- A heap root of a procedure: a formal parameter, a static field or the exception value. -/
structure Root where
  name : String
  type : Option TypeId
  isStatic : Certainty
  isException : Certainty
  pts : PointsTo
  deriving DecidableEq

namespace Root

def formal (name : String) (type : Option TypeId) (pts : PointsTo) : Root := ⟨name, type, .no, .no, pts⟩

def staticField (name : String) (type : Option TypeId) (pts : PointsTo) : Root := ⟨name, type, .yes, .no, pts⟩

def exception (type : Option TypeId) (pts : PointsTo) : Root := ⟨"exc", type, .no, .yes, pts⟩

end Root

structure Procedure where
  node : CallNode
  name : String
  declaringType : Option TypeId
  isConstructor : Bool
  roots : List Root
  deriving DecidableEq

/-- The objects that the roots of a procedure may hold. -/
def Procedure.rootPts (p : Procedure) : PointsTo := IdSet.unionMap p.roots Root.pts

structure Program where
  callGraph : CallGraph
  types : Arena .type String
  fields : Arena .field String
  procs : IdMap .callNode (Option Procedure)
  deriving DecidableEq

namespace Program

def empty : Program := ⟨CallGraph.empty, Arena.empty, Arena.empty, IdMap.empty⟩

instance : Inhabited Program := ⟨empty⟩

def typeByName? (p : Program) (name : String) : Option TypeId :=
  (p.types.entries.find? fun (_, n) => n = name).map Prod.fst

/-- The type of a name, new unless the name is known. -/
def addType (p : Program) (name : String) : Program × TypeId :=
  match p.typeByName? name with
  | some t => (p, t)
  | none => ({ p with types := p.types.push name }, p.types.nextId)

/-- A new field, whatever its name. -/
def addField (p : Program) (name : String) : Program × Field :=
  ({ p with fields := p.fields.push name }, p.fields.nextId)

/-- Gives a node its procedure, in place of one that it had. -/
def addProcedure (p : Program) (proc : Procedure) : Program := { p with procs := p.procs.set proc.node (some proc) }

def procedure? (p : Program) (x : CallNode) : Option Procedure := p.procs.get x

/-- The procedures of the call graph's nodes, in node order. -/
def procedures (p : Program) : List Procedure := p.callGraph.ids.filterMap p.procedure?

/-- The types that have one of the given names. -/
def typesNamed (p : Program) (names : List String) : IdSet .type := IdSet.ofList (names.filterMap p.typeByName?)

end Program

end HeapSummary
