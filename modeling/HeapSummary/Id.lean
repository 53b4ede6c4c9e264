/-!
# Identifiers

Call-graph nodes, fields, candidates and the other entities of an analysis are named by numbers. The kind is part of an
identifier's type, so a field is never taken for a candidate. The largest number that fits 32 bits is reserved: it names
no entity and stands for "none yet".
-/

namespace HeapSummary

/-- The kinds of entity that carry identifiers. -/
inductive Kind where
  | candidate
  | callNode
  | type
  | field
  | instanceKey
  | path
  | depNode
  | aliasClass
  deriving DecidableEq

/-- The letters in front of an identifier's number when it is shown. -/
def Kind.tag : Kind → String
  | candidate => "c"
  | callNode => "cg"
  | type => "t"
  | field => "f"
  | instanceKey => "ik"
  | path => "ap"
  | depNode => "n"
  | aliasClass => "eq"

/-- An identifier of one kind. -/
@[ext]
structure Id (k : Kind) where
  index : Nat
  deriving DecidableEq

namespace Id

variable {k : Kind}

/-- The reserved number. -/
def reserved : Nat := 4294967295

/-- The identifier that names nothing. -/
def invalid : Id k := ⟨reserved⟩

instance : Inhabited (Id k) := ⟨invalid⟩

instance : LawfulBEq (Id k) where
  eq_of_beq h := of_decide_eq_true h
  rfl := decide_eq_true rfl

def isValid (x : Id k) : Bool := x != invalid

def isInvalid (x : Id k) : Bool := x == invalid

/-- Tag and number, as in `c3`. -/
def name (x : Id k) : String := k.tag ++ toString x.index

instance : ToString (Id k) := ⟨name⟩

end Id

/-! ### The entities -/

/-- An abstract heap location. -/
abbrev Candidate := Id .candidate

/-- A procedure instance in the call graph. -/
abbrev CallNode := Id .callNode

abbrev TypeId := Id .type

abbrev Field := Id .field

/-- An abstract object. -/
abbrev InstanceKey := Id .instanceKey

/-- An interned access path. -/
abbrev Path := Id .path

/-- A node of a dependence graph. -/
abbrev DepNode := Id .depNode

/-- A class of access paths that are taken for aliases. -/
abbrev AliasClassId := Id .aliasClass

end HeapSummary
