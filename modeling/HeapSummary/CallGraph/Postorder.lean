import HeapSummary.CallGraph.Basic
import HeapSummary.IdSet.Lemmas
import HeapSummary.Total

/-!
# Postorder

The members of the pruned graph in the order in which a depth-first search leaves them: callees before their callers,
except along cycles. The search tries its roots in node order and keeps its own stack.
-/

namespace HeapSummary.CallGraph

/-- A member on the search's stack, with the calls still to look at. -/
structure Frame where
  node : CallNode
  rest : List CallNode

/-- The calls of a node, none for a node that is not there. -/
def callees (g : CallGraph) (x : CallNode) : List CallNode := ((g.nodes.get? x).map CallSite.succs).getD []

/-- What members not yet visited can add to a search. -/
def openWork (g : CallGraph) (visited : IdSet .callNode) : Nat :=
  total (fun x => (g.callees x).length + 1) (g.members \ visited).toList

def stackWork (frames : List Frame) : Nat := total (fun f => f.rest.length + 1) frames

theorem openWork_insert {g : CallGraph} {visited : IdSet .callNode} {x : CallNode} (hm : x ∈ g.members)
    (hv : x ∉ visited) : g.openWork visited = (g.callees x).length + 1 + g.openWork (visited.insert x) := by
  have hperm := IdSet.toList_perm_cons_erase (s := g.members \ visited) (IdSet.mem_diff.2 ⟨hm, hv⟩)
  have herase : (g.members \ visited).erase x = g.members \ visited.insert x := by
    refine IdSet.ext fun y => ?_
    simp only [IdSet.mem_erase, IdSet.mem_diff, IdSet.mem_insert, not_or]
    exact and_left_comm
  rw [herase] at hperm
  exact total_perm hperm

/-- Depth-first search from the given roots, onto a stack. Members already left are listed last first. -/
def leave (g : CallGraph) (visited : IdSet .callNode) (frames : List Frame) (roots left : List CallNode) :
    Except Fault (List CallNode) :=
  match frames, roots with
  | [], [] => .ok left.reverse
  | [], r :: roots =>
    if _hr : r ∈ g.members ∧ r ∉ visited then
      match _hd : g.nodes.get? r with
      | some d => leave g (visited.insert r) [⟨r, d.succs⟩] roots left
      | none => .error (.outOfBounds g.size r.index)
    else leave g visited [] roots left
  | ⟨x, []⟩ :: frames, roots => leave g visited frames roots (x :: left)
  | ⟨x, y :: rest⟩ :: frames, roots =>
    if _hy : y ∈ g.members ∧ y ∉ visited then
      match _hd : g.nodes.get? y with
      | some d => leave g (visited.insert y) (⟨y, d.succs⟩ :: ⟨x, rest⟩ :: frames) roots left
      | none => .error (.outOfBounds g.size y.index)
    else leave g visited (⟨x, rest⟩ :: frames) roots left
termination_by g.openWork visited + stackWork frames + roots.length
decreasing_by
  · have hc : g.callees r = d.succs := by simp [callees, _hd]
    have := openWork_insert _hr.1 _hr.2
    simp only [stackWork, this, hc, total_cons, total_nil, List.length_cons]
    omega
  · simp only [List.length_cons]
    omega
  · simp only [stackWork, total_cons, List.length_nil]
    omega
  · have hc : g.callees y = d.succs := by simp [callees, _hd]
    have := openWork_insert _hy.1 _hy.2
    simp only [stackWork, this, hc, total_cons, List.length_cons]
    omega
  · simp only [stackWork, total_cons, List.length_cons]
    omega

/-- All members of the pruned graph, each after the members that it calls unless a cycle forbids it. -/
def postorder (g : CallGraph) : Except Fault (List CallNode) := g.leave ∅ [] g.ids []

end HeapSummary.CallGraph
