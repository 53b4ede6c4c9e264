import HeapSummary.CandidateGraph.Basic
import HeapSummary.IdSet.Lemmas

/-!
# Reachable candidates

Breadth-first search in a candidate graph. A definitely primitive candidate holds no objects: the search finds it but
does not go on from it. The candidates that the search starts from are always expanded.
-/

namespace HeapSummary

namespace CandidateGraph

/-- All ends of edges. -/
def targets (g : CandidateGraph) : IdSet .candidate := IdSet.unionMap g.succs.values fun cs => cs

theorem succsOf_subset_targets {g : CandidateGraph} {c d : Candidate} (h : d ∈ g.succsOf c) : d ∈ g.targets := by
  rcases IdMap.mem_values_or_default g.succs c with hmem | hdef
  · exact IdSet.mem_unionMap.2 ⟨_, hmem, h⟩
  · rw [succsOf, hdef] at h
    exact absurd h IdSet.not_mem_empty

/-- What an edge from `c` leads to and was not found before. -/
def freshFrom (g : CandidateGraph) (found : IdSet .candidate) (c : Candidate) : IdSet .candidate := g.succsOf c \ found

/-- Goes on from what is found, with a queue of candidates to expand. -/
def search (g : CandidateGraph) (s : Store) (found : IdSet .candidate) (queue : List Candidate) :
    Except Fault (IdSet .candidate) :=
  match queue with
  | [] => .ok found
  | c :: queue => do
    s.requireLocations (g.freshFrom found c)
    search g s (found ∪ g.freshFrom found c) (queue ++ (g.freshFrom found c).toList.filter fun d => !s.isPrimitive d)
termination_by 2 * (g.targets \ found).size + queue.length
decreasing_by
  have hsize : (g.targets \ found).size =
      (g.freshFrom found c).size + (g.targets \ (found ∪ g.freshFrom found c)).size :=
    IdSet.size_diff_union (fun d hd => succsOf_subset_targets (IdSet.mem_diff.1 hd).1)
      fun d hd => (IdSet.mem_diff.1 hd).2
  have hlen : ((g.freshFrom found c).toList.filter fun d => !s.isPrimitive d).length ≤ (g.freshFrom found c).size :=
    IdSet.length_toList (g.freshFrom found c) ▸ List.length_filter_le _ _
  simp only [List.length_append, List.length_cons]
  omega

/-- Everything reachable from the start, the start included. -/
def reachable (g : CandidateGraph) (s : Store) (start : List Candidate) : Except Fault (IdSet .candidate) :=
  g.search s (IdSet.ofList start) start

end CandidateGraph

end HeapSummary
