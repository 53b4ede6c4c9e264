import HeapSummary.Bounding.Basic

/-!
# Merging below a depth

Candidates are taken layer by layer, a layer being what one more dereference reaches from the roots. The layers stop
before one that would take too many candidates, or at a given depth. The last layer taken is the border: each of its
candidates absorbs what lies below it and was not taken. If the first layer is too large already, it collapses with
everything below it into one candidate.
-/

namespace HeapSummary.Bounding

/-- The depth at which merging starts by default: few candidates sit deeper. -/
def standardDepth : Nat := 5

/-- The layers taken so far. -/
structure Frontier where
  /-- Objects that the next layer may be based on. -/
  objects : PointsTo
  remaining : IdSet .candidate
  taken : IdSet .candidate
  border : List Candidate
  /-- Whether the first layer is too large. -/
  oversized : Bool

/-- Takes up to the given number of layers, and at most `max` candidates. -/
def takeLayers (s : Store) (max : Nat) : Nat → Frontier → Frontier
  | 0, f => f
  | depth + 1, f =>
    let layer := f.remaining.filter fun c => (s.basesOf c).intersects f.objects
    if layer.isEmpty then f
    else if f.taken.isEmpty && max < layer.size then
      { f with taken := layer, border := layer.toList, oversized := true }
    else if max < f.taken.size + layer.size then f
    else
      takeLayers s max depth {
        objects := if depth = 0 then f.objects else f.objects ∪ IdSet.unionMap layer.toList s.ptsOf
        remaining := f.remaining \ layer
        taken := f.taken ∪ layer
        border := layer.toList
        oversized := false }

/-- Merges a border candidate with what lies below it and was not taken. The merged candidate counts as taken. -/
def absorbBelow (state : Bounding × IdSet .candidate) (c : Candidate) : Except Fault (Bounding × IdSet .candidate) := do
  let (b, taken) := state
  if b.graph.contains c then
    let below ← b.fieldsOf (← b.reachable [c])
    match ← b.merge (c :: below.filter fun d => d ≠ c ∧ d ∉ taken) with
    | (b, some m) => return (b, taken.insert m)
    | (b, none) => return (b, taken)
  else
    return state

/-- Merges below the last layer that keeps the interface within `max` candidates. -/
def mergeBelowDepth (b : Bounding) (max depth : Nat) : Except Fault Bounding := do
  b.store.requireFields b.interface
  let f := takeLayers b.store max depth ⟨← b.graph.rootsPts b.store, b.interface, ∅, [], false⟩
  if f.oversized then
    let group ← b.fieldsOf (← b.reachable f.border)
    let (b, _) ← b.merge group
    return b
  else
    let (b, _) ← f.border.foldlM absorbBelow (b, f.taken)
    return b

end HeapSummary.Bounding
