import HeapSummary.Id

/-!
# Faults

A fault is a broken rule of use: an index outside its table, a root where a field is needed, a merge of nothing. It ends
the operation that meets it, and `Fault.message` is its one wording.
-/

namespace HeapSummary

inductive Fault where
  /-- A number too large for an identifier. -/
  | idTooLarge
  /-- The reserved number used as an identifier. -/
  | idReserved
  | outOfBounds (length index : Nat)
  | rootNotField (c : Candidate) (rootName : String)
  | fieldNotRoot (c : Candidate)
  /-- An interface holds field candidates only. -/
  | notFieldCandidate (c : Candidate)
  | emptyMerge
  | mergeWithoutFields (group : List Candidate)
  /-- The roots of a candidate graph stay in it. -/
  | rootRemoved (c : Candidate)
  | unrootedPath (p : Path)
  /-- A search takes more steps than any search does. -/
  | unfinishedSearch
  deriving DecidableEq

namespace Fault

def message : Fault → String
  | idTooLarge => "called `Result::unwrap()` on an `Err` value: TryFromIntError(PosOverflow)"
  | idReserved => "assertion failed: value != u32::MAX"
  | outOfBounds length index => s!"index out of bounds: the len is {length} but the index is {index}"
  | rootNotField c rootName => s!"{c} ({rootName}) is a root, not a field"
  | fieldNotRoot c => s!"{c} is a field, not a root"
  | notFieldCandidate c => s!"{c} is not a field candidate"
  | emptyMerge => "merge of zero candidates"
  | mergeWithoutFields group =>
    let names := ", ".intercalate (group.map Id.name)
    s!"merged candidate of [{names}] has no fields"
  | rootRemoved c => s!"root {c} cannot be removed from the candidate graph"
  | unrootedPath p => s!"access path {p} does not start at a root"
  | unfinishedSearch => "search takes too many steps"

end Fault

/-- The identifier with a given number, if the number may name an entity. -/
def Id.ofNat {k : Kind} (n : Nat) : Except Fault (Id k) :=
  if n > reserved then .error .idTooLarge
  else if n = reserved then .error .idReserved
  else .ok ⟨n⟩

theorem Id.ofNat_eq_ok {k : Kind} {n : Nat} {x : Id k} : Id.ofNat n = .ok x ↔ n < reserved ∧ x = ⟨n⟩ := by
  unfold Id.ofNat
  by_cases hlarge : n > reserved
  · have hnot : ¬ n < reserved := Nat.not_lt.2 (Nat.le_of_lt hlarge)
    simp [hlarge, hnot]
  · by_cases hreserved : n = reserved
    · simp [hreserved]
    · have hlt : n < reserved := Nat.lt_of_le_of_ne (Nat.not_lt.1 hlarge) hreserved
      simp [hlarge, hreserved, hlt, eq_comm]

end HeapSummary
