import HeapSummary.Id
import HeapSummary.IdSet.Words

/-!
# Sets of identifiers

A finite set of identifiers of one kind, packed into words. The word sequence is always trimmed, so two sets with the
same members are equal whatever their histories, and members are listed in ascending order.
-/

namespace HeapSummary

structure IdSet (k : Kind) where
  words : List UInt64
  trimmed : Words.Trimmed words
  deriving DecidableEq

namespace IdSet

variable {k : Kind}

def empty : IdSet k := ⟨[], Words.trimmed_nil⟩

instance : EmptyCollection (IdSet k) := ⟨empty⟩

instance : Inhabited (IdSet k) := ⟨∅⟩

def contains (s : IdSet k) (x : Id k) : Bool := Words.bit s.words x.index

instance : Membership (Id k) (IdSet k) := ⟨fun s x => s.contains x = true⟩

instance (x : Id k) (s : IdSet k) : Decidable (x ∈ s) := inferInstanceAs (Decidable (s.contains x = true))

/-! ### Updates

Each update also tells whether it changed the set. -/

/-- Puts `x` in, and tells whether it is new. -/
def add (s : IdSet k) (x : Id k) : IdSet k × Bool :=
  (⟨(Words.insert s.words x.index).1, Words.trimmed_insert s.trimmed _⟩, (Words.insert s.words x.index).2)

def insert (s : IdSet k) (x : Id k) : IdSet k := (s.add x).1

/-- Takes `x` out, and tells whether it was there. -/
def remove (s : IdSet k) (x : Id k) : IdSet k × Bool :=
  (⟨(Words.remove s.words x.index).1, Words.trimmed_remove _ _⟩, (Words.remove s.words x.index).2)

def erase (s : IdSet k) (x : Id k) : IdSet k := (s.remove x).1

/-- Puts the members of `t` in, and tells whether one of them is new. -/
def unionWith (s t : IdSet k) : IdSet k × Bool :=
  (⟨(Words.unionWith s.words t.words).1, Words.trimmed_unionWith s.trimmed t.trimmed⟩,
    (Words.unionWith s.words t.words).2)

instance : Union (IdSet k) := ⟨fun s t => (s.unionWith t).1⟩

def diff (s t : IdSet k) : IdSet k := ⟨Words.trim (Words.diff s.words t.words), Words.trimmed_trim _⟩

instance : SDiff (IdSet k) := ⟨diff⟩

/-! ### Questions -/

/-- Whether the sets share a member. -/
def intersects (s t : IdSet k) : Bool := Words.meets s.words t.words

def isSubset (s t : IdSet k) : Bool := Words.within s.words t.words

def isEmpty (s : IdSet k) : Bool := s.words.isEmpty

/-- The members, ascending. -/
def toList (s : IdSet k) : List (Id k) := (Words.membersFrom 0 s.words).map Id.mk

def size (s : IdSet k) : Nat := Words.count s.words

/-! ### From members -/

def insertAll (s : IdSet k) (xs : List (Id k)) : IdSet k := xs.foldl insert s

def ofList (xs : List (Id k)) : IdSet k := insertAll ∅ xs

def singleton (x : Id k) : IdSet k := insert ∅ x

def filter (s : IdSet k) (p : Id k → Bool) : IdSet k := ofList (s.toList.filter p)

/-- The union of the sets that `f` gives for the listed elements. -/
def unionMap {α : Type} (xs : List α) (f : α → IdSet k) : IdSet k := xs.foldl (fun s a => s ∪ f a) ∅

/-- The members by name, in braces. -/
def render (s : IdSet k) : String := "\x7b" ++ ", ".intercalate (s.toList.map Id.name) ++ "\x7d"

end IdSet

/-- The abstract objects that a location may hold. -/
abbrev PointsTo := IdSet .instanceKey

end HeapSummary
