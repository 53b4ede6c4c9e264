import HeapSummary.Bounding.Basic

/-!
# Groups of roots

What is reached from some roots and from no other is merged into one candidate: from exception values, where detail
rarely matters, and, when an interface is too large, from static fields.
-/

namespace HeapSummary.Bounding

/-- Merges what only the selected roots reach. -/
def mergeOnlyFrom (b : Bounding) (select : Root → Bool) : Except Fault Bounding := do
  let roots ← b.graph.roots.mapM fun c => return (c, ← b.store.root c)
  let (selected, others) := roots.partition fun (_, r) => select r
  if selected.isEmpty then
    return b
  let fromSelected ← b.reachable (selected.map Prod.fst)
  let fromOthers ← b.reachable (others.map Prod.fst)
  let group ← b.fieldsOf (fromSelected \ fromOthers)
  let (b, _) ← b.merge group
  return b

/-- Merges what only exception values reach. -/
def mergeExceptions (b : Bounding) : Except Fault Bounding := b.mergeOnlyFrom fun r => r.isException.isYes

/-- Merges what only static fields reach. A root that may be static counts as another. -/
def mergeStatics (b : Bounding) : Except Fault Bounding := b.mergeOnlyFrom fun r => r.isStatic.isYes

end HeapSummary.Bounding
