import HeapSummary.Bounding.Basic

/-!
# Cutting

Two sorts of candidates are cut from an interface: those that no root reaches, and those that immutable types lead to,
whose instances never change. The latter are cut even if other candidates lead to them too. A constructor does change its
receiver, so the constructor of an immutable type keeps what its own type reaches, merged into one candidate.
-/

namespace HeapSummary.Bounding

/-- Cuts what no root reaches. -/
def cutUnreachable (b : Bounding) : Except Fault Bounding := do
  let reached ← b.reachable b.graph.roots
  b.removeAll (b.interface \ reached).toList

/-- The immutable type whose instances the procedure constructs. -/
def constructedType (b : Bounding) (immutables : IdSet .type) : Option TypeId :=
  if b.procedure.isConstructor then b.procedure.declaringType.filter immutables.contains else none

/-- The candidates of an immutable type, roots first: those to cut below and those of the constructed type. -/
def immutableCandidates (b : Bounding) (immutables : IdSet .type) :
    Except Fault (List Candidate × List Candidate) := do
  let typed ← (b.graph.roots ++ b.interface.toList).mapM fun c => return (c, (← b.store.location c).type)
  let immutable := typed.filter fun (_, t) => t.any immutables.contains
  let (own, others) := immutable.partition fun (_, t) => t = b.constructedType immutables
  return (others.map Prod.fst, own.map Prod.fst)

/-- Cuts what immutable types lead to, and merges what a constructed immutable type reaches. Cutting may leave candidates
that no root reaches, to be cut on request. -/
def cutImmutables (b : Bounding) (immutables : IdSet .type) (cutAfter : Bool) : Except Fault Bounding := do
  let (cut, own) ← b.immutableCandidates immutables
  if cut.isEmpty && own.isEmpty then
    return b
  let belowCut ← b.reachable cut
  let belowOwn ← b.reachable own
  let removed ← b.fieldsOf ((belowCut \ belowOwn) \ IdSet.ofList cut)
  let trimmed ← b.removeAll removed
  let group ← trimmed.fieldsOf (belowOwn \ IdSet.ofList own)
  let (merged, _) ← trimmed.merge group
  if !cut.isEmpty && cutAfter then
    merged.cutUnreachable
  else
    return merged

end HeapSummary.Bounding
