import HeapSummary.Program

/-!
# Heap locations

A candidate names a heap location that a procedure may touch: a root, or a location one field dereference away from
others. A field location made by merging stands for several accesses; its origin lists the unmerged candidates behind
it.
-/

namespace HeapSummary

structure FieldLocation where
  fields : IdSet .field
  /-- Objects whose field is accessed. -/
  bases : PointsTo
  /-- Objects that the field may hold. -/
  pts : PointsTo
  type : Option TypeId
  primitive : Certainty
  /-- Unmerged candidates that the location stands for. -/
  origin : IdSet .candidate
  deriving DecidableEq

namespace FieldLocation

/-- The location of an access, as the unmerged candidate `c`. -/
def ofAccess (c : Candidate) (a : Access) : FieldLocation :=
  ⟨IdSet.singleton a.field, a.bases, a.pts, a.type, a.primitive, IdSet.singleton c⟩

/-- Whether one of the objects can be a base. -/
def reachableFrom (l : FieldLocation) (reaching : PointsTo) : Bool := l.bases.intersects reaching

/-- Two types agree, or nothing is known. -/
def joinType (s t : Option TypeId) : Option TypeId := if s = t then s else none

/-- One location standing for both. -/
def absorb (l m : FieldLocation) : FieldLocation where
  fields := l.fields ∪ m.fields
  bases := l.bases ∪ m.bases
  pts := l.pts ∪ m.pts
  type := joinType l.type m.type
  primitive := l.primitive.join m.primitive
  origin := l.origin ∪ m.origin

/-- The same location seen through another access to it. -/
def revisit (l : FieldLocation) (a : Access) : FieldLocation :=
  { l with pts := l.pts ∪ a.pts, type := joinType l.type a.type, primitive := l.primitive.join a.primitive }

end FieldLocation

inductive Location where
  | root (root : Root)
  | field (field : FieldLocation)
  deriving DecidableEq

namespace Location

def pts : Location → PointsTo
  | root r => r.pts
  | field l => l.pts

def type : Location → Option TypeId
  | root r => r.type
  | field l => l.type

/-- Roots are references and never primitive. -/
def primitive : Location → Certainty
  | root _ => .no
  | field l => l.primitive

def isField : Location → Bool
  | root _ => false
  | field _ => true

def root? : Location → Option Root
  | root r => some r
  | field _ => none

def field? : Location → Option FieldLocation
  | root _ => none
  | field l => some l

end Location

end HeapSummary
