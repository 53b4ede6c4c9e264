import HeapSummary.Bounding.Basic

/-!
# One candidate for a field and parent

Successors of one candidate that have a field in common are merged, until it has one successor for each field. The
search goes breadth-first from the roots. A candidate is looked at again after each merge under it; if it was merged
itself, the merged candidate takes its place. A merge under a later candidate does not bring the search back to it.
-/

namespace HeapSummary.Bounding

/-- The first group of two or more locations with a field in common, by ascending field. -/
def sharedField? (locations : List (Candidate × FieldLocation)) : Option (List Candidate) :=
  let fields := IdSet.unionMap locations fun (_, l) => l.fields
  let withField (f : Field) := (locations.filter fun (_, l) => l.fields.contains f).map Prod.fst
  (fields.toList.map withField).find? fun group => 1 < group.length

/-- Works the queue off. Not to be done with it after the given number of steps is a fault. -/
def mergeUnder : Nat → Bounding → IdSet .candidate → List Candidate → Except Fault Bounding
  | _, b, _, [] => .ok b
  | 0, _, _, _ :: _ => .error .unfinishedSearch
  | steps + 1, b, visited, c :: queue =>
    if b.graph.contains c then do
      let succs := b.graph.succsOf c
      let locations ← succs.toList.mapM fun d => return (d, ← b.store.field d)
      match sharedField? locations with
      | none => mergeUnder steps b (visited ∪ succs) (queue ++ (succs \ visited).toList)
      | some group =>
        let (b', m) ← b.mergeGroup group
        mergeUnder steps b' visited ((if b'.graph.contains c then c else m) :: queue)
    else mergeUnder steps b visited queue

/-- Steps that a search may take: each root and each candidate is dropped from the queue once, and each merge leaves one
candidate fewer and queues one at most. -/
def stepBound (b : Bounding) : Nat := b.graph.roots.length + 3 * b.interface.size

/-- Merges the successors that share a field, under every candidate that the roots reach. -/
def mergeSharedFields (b : Bounding) : Except Fault Bounding :=
  mergeUnder b.stepBound b (IdSet.ofList b.graph.roots) b.graph.roots

end HeapSummary.Bounding
