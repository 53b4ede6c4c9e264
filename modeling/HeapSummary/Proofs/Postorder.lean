import HeapSummary.Proofs.CallGraph
import Mathlib.Data.List.Chain

/-!
# The order in which a search leaves members

The depth-first search visits every member once. From then on the member is on the stack, until the search leaves it and
lists it. The stack is a path of calls between members with its end on top, so a member on it leads to all that are above
it. When the search leaves a member it has looked at all its calls. A member that it calls was visited by then: it was
left before, or it is still on the stack and leads back to the caller.
-/

namespace HeapSummary.CallGraph

variable {g : CallGraph} {visited : IdSet .callNode} {frames : List Frame} {roots left rest : List CallNode}
  {x y : CallNode}

/-- A call of the pruned graph. -/
def PrunedCall (g : CallGraph) (x y : CallNode) : Prop := x ∈ g.members ∧ y ∈ g.members ∧ g.Calls x y

/-- Along zero or more calls between members. -/
def PrunedReaches (g : CallGraph) : CallNode → CallNode → Prop := Relation.ReflTransGen g.PrunedCall

/-- What a frame has still to look at are calls of its node, and the other members that the node calls were visited. -/
def Frame.Scans (g : CallGraph) (visited : IdSet .callNode) (f : Frame) : Prop :=
  (∀ y ∈ f.rest, g.Calls f.node y) ∧ ∀ y ∈ g.members, g.Calls f.node y → y ∈ f.rest ∨ y ∈ visited

/-- A search under way. The members left are listed last first. -/
structure Leaving (g : CallGraph) (visited : IdSet .callNode) (frames : List Frame) (roots left : List CallNode) :
    Prop where
  mem_visited : ∀ x, x ∈ visited ↔ x ∈ frames.map Frame.node ∨ x ∈ left
  nodup : (frames.map Frame.node ++ left).Nodup
  members : ∀ x ∈ visited, x ∈ g.ids ∧ x ∈ g.members
  unvisited : ∀ x ∈ g.ids, x ∈ g.members → x ∈ visited ∨ x ∈ roots
  path : (frames.map Frame.node).IsChain fun y x => g.PrunedCall x y
  scans : ∀ f ∈ frames, f.Scans g visited
  settled : ∀ x ∈ left, ∀ y ∈ g.members, g.Calls x y → x = y ∨ [x, y].Sublist left ∨ g.PrunedReaches y x

theorem Frame.Scans.mono {visited' : IdSet .callNode} {f : Frame} (h : f.Scans g visited)
    (hsub : ∀ x ∈ visited, x ∈ visited') : f.Scans g visited' :=
  ⟨h.1, fun y hy hcall => (h.2 y hy hcall).imp_right (hsub y)⟩

theorem Frame.Scans.pass (h : Frame.Scans g visited ⟨x, y :: rest⟩) (hy : y ∈ g.members → y ∈ visited) :
    Frame.Scans g visited ⟨x, rest⟩ := by
  refine ⟨fun z hz => h.1 z (List.mem_cons_of_mem y hz), fun z hz hcall => ?_⟩
  rcases h.2 z hz hcall with hrest | hvisited
  · rcases List.mem_cons.1 hrest with rfl | hrest
    · exact .inr (hy hz)
    · exact .inl hrest
  · exact .inr hvisited

theorem scans_enter {d : CallSite} (hd : g.nodes.get? x = some d) (visited : IdSet .callNode) :
    Frame.Scans g visited ⟨x, d.succs⟩ := by
  have hcalls : ∀ y, g.Calls x y ↔ y ∈ d.succs := fun y => by simp [Calls, callees, hd]
  exact ⟨fun y hy => (hcalls y).2 hy, fun y _ hcall => .inl ((hcalls y).1 hcall)⟩

theorem prunedReaches_top {xs : List CallNode} (h : (x :: xs).IsChain fun y x => g.PrunedCall x y) (hy : y ∈ xs) :
    g.PrunedReaches y x := by
  have hpaths : (x :: xs).IsChain fun y x => g.PrunedReaches x y := h.imp fun _ _ hcall => .single hcall
  have : Trans (fun y x => g.PrunedReaches x y) (fun y x => g.PrunedReaches x y) fun y x => g.PrunedReaches x y :=
    ⟨fun hyx hzy => hzy.trans hyx⟩
  exact hpaths.rel_cons hy

namespace Leaving

theorem start (g : CallGraph) : Leaving g ∅ [] g.ids [] where
  mem_visited x := by simp
  nodup := .nil
  members x hx := absurd hx IdSet.not_mem_empty
  unvisited x hx _ := .inr hx
  path := .nil
  scans f hf := absurd hf List.not_mem_nil
  settled x hx := absurd hx List.not_mem_nil

/-- A member that was not visited goes on top of the stack, if the stack is empty or its top calls the member. The frames
below may go on meanwhile. -/
theorem enter {frames' : List Frame} {roots' : List CallNode} {d : CallSite} (h : Leaving g visited frames roots left)
    (hx : x ∈ g.members ∧ x ∉ visited) (hd : g.nodes.get? x = some d)
    (htop : ∀ y ∈ (frames.map Frame.node).head?, g.Calls y x) (hnodes : frames'.map Frame.node = frames.map Frame.node)
    (hscans : ∀ f ∈ frames', f.Scans g (visited.insert x)) (hroots : ∀ y ∈ roots, y = x ∨ y ∈ roots') :
    Leaving g (visited.insert x) (⟨x, d.succs⟩ :: frames') roots' left where
  mem_visited y := by rw [IdSet.mem_insert, h.mem_visited, List.map_cons, List.mem_cons, hnodes, or_assoc]
  nodup := by
    rw [List.map_cons, hnodes]
    exact List.nodup_cons.2 ⟨fun hmem => hx.2 ((h.mem_visited x).2 (List.mem_append.1 hmem)), h.nodup⟩
  members y hy := by
    rcases IdSet.mem_insert.1 hy with rfl | hy
    · exact ⟨mem_ids_iff.2 ⟨d, hd⟩, hx.1⟩
    · exact h.members y hy
  unvisited y hy hmem := by
    rw [IdSet.mem_insert]
    rcases h.unvisited y hy hmem with hvisited | hroot
    · exact .inl (.inr hvisited)
    · exact (hroots y hroot).imp_left .inl
  path := by
    rw [List.map_cons, hnodes]
    refine h.path.cons fun y hy => ⟨?_, hx.1, htop y hy⟩
    exact (h.members y ((h.mem_visited y).2 (.inl (List.mem_of_mem_head? hy)))).2
  scans := List.forall_mem_cons.2 ⟨scans_enter hd _, hscans⟩
  settled := h.settled

theorem skipRoot {r : CallNode} (h : Leaving g visited frames (r :: roots) left) (hr : ¬(r ∈ g.members ∧ r ∉ visited)) :
    Leaving g visited frames roots left where
  __ := h
  unvisited x hx hmem := by
    rcases h.unvisited x hx hmem with hvisited | hroot
    · exact .inl hvisited
    · rcases List.mem_cons.1 hroot with rfl | hroot
      · exact .inl (not_not.1 fun hout => hr ⟨hmem, hout⟩)
      · exact .inr hroot

theorem pass (h : Leaving g visited (⟨x, y :: rest⟩ :: frames) roots left) (hy : ¬(y ∈ g.members ∧ y ∉ visited)) :
    Leaving g visited (⟨x, rest⟩ :: frames) roots left where
  __ := h
  scans := by
    obtain ⟨hx, hframes⟩ := List.forall_mem_cons.1 h.scans
    exact List.forall_mem_cons.2 ⟨hx.pass fun hmem => not_not.1 fun hout => hy ⟨hmem, hout⟩, hframes⟩

theorem leave (h : Leaving g visited (⟨x, []⟩ :: frames) roots left) : Leaving g visited frames roots (x :: left) where
  mem_visited y := by rw [h.mem_visited, List.map_cons, List.mem_cons, List.mem_cons, or_left_comm, or_assoc]
  nodup := (List.perm_middle.nodup_iff).2 h.nodup
  members := h.members
  unvisited := h.unvisited
  path := h.path.tail
  scans f hf := h.scans f (List.mem_cons_of_mem _ hf)
  settled := by
    refine List.forall_mem_cons.2 ⟨fun y hy hcall => ?_, fun z hz y hy hcall => ?_⟩
    · have hseen := ((h.scans _ List.mem_cons_self).2 y hy hcall).resolve_left List.not_mem_nil
      rcases (h.mem_visited y).1 hseen with hstack | hleft
      · rcases List.mem_cons.1 hstack with rfl | hbelow
        · exact .inl rfl
        · exact .inr (.inr (prunedReaches_top h.path hbelow))
      · exact .inr (.inl ((List.singleton_sublist.2 hleft).cons_cons x))
    · exact (h.settled z hz y hy hcall).imp_right (.imp_left fun hsub => hsub.cons x)

theorem run {xs : List CallNode} (h : Leaving g visited frames roots left)
    (hrun : g.leave visited frames roots left = .ok xs) : ∃ last, Leaving g last [] [] xs.reverse := by
  fun_induction CallGraph.leave g visited frames roots left with
  | case1 visited left =>
    cases hrun
    exact ⟨visited, by rwa [List.reverse_reverse]⟩
  | case2 visited left r roots hr d hd ih =>
    refine ih (h.enter hr hd ?_ rfl ?_ fun y hy => List.mem_cons.1 hy) hrun
    · exact fun y hy => absurd hy (Option.not_mem_none y)
    · exact fun f hf => absurd hf List.not_mem_nil
  | case3 => cases hrun
  | case4 visited left r roots hr ih => exact ih (h.skipRoot hr) hrun
  | case5 visited left x frames roots ih => exact ih h.leave hrun
  | case6 visited left x y rest frames roots hy d hd ih =>
    have hsub : ∀ z ∈ visited, z ∈ visited.insert y := fun z hz => IdSet.mem_insert.2 (.inr hz)
    obtain ⟨hx, hframes⟩ := List.forall_mem_cons.1 h.scans
    refine ih (h.enter hy hd ?_ rfl ?_ fun z hz => .inr hz) hrun
    · rintro z ⟨⟩
      exact hx.1 y List.mem_cons_self
    · refine List.forall_mem_cons.2 ⟨(hx.mono hsub).pass fun _ => IdSet.mem_insert.2 (.inl rfl), fun f hf => ?_⟩
      exact (hframes f hf).mono hsub
  | case7 => cases hrun
  | case8 visited left x y rest frames roots hy ih => exact ih (h.pass hy) hrun

end Leaving

/-- Depth-first search lists every member of the graph once and nothing else. If a member calls another, the callee is
listed before the caller, unless calls between members lead from the callee back to the caller. -/
theorem postorder_callees_first (hg : g.Built) : ∃ xs, g.postorder = .ok xs ∧ xs.Nodup ∧
    (∀ x, x ∈ xs ↔ x ∈ g.ids ∧ g.isMember x = true) ∧
    ∀ u v, g.isMember u = true → g.isMember v = true → u ≠ v → g.Calls u v →
      [v, u].Sublist xs ∨ g.PrunedReaches v u := by
  obtain ⟨xs, hrun, _⟩ := hg.mirrored.exists_postorder
  obtain ⟨last, h⟩ := (Leaving.start g).run hrun
  have hmem : ∀ x, x ∈ xs ↔ x ∈ g.ids ∧ x ∈ g.members := by
    intro x
    have hlast : x ∈ last ↔ x ∈ xs := by simpa using h.mem_visited x
    rw [← hlast]
    exact ⟨h.members x, fun hx => (h.unvisited x hx.1 hx.2).resolve_right List.not_mem_nil⟩
  refine ⟨xs, hrun, (List.reverse_perm xs).nodup_iff.1 h.nodup, hmem, fun u v hu hv hne hcall => ?_⟩
  obtain ⟨d, hd, _⟩ := mem_callees.1 hcall
  have hleft : u ∈ xs.reverse := List.mem_reverse.2 ((hmem u).2 ⟨mem_ids_iff.2 ⟨d, hd⟩, hu⟩)
  exact ((h.settled u hleft v hv hcall).resolve_left hne).imp_left fun hsub => by simpa using hsub.reverse

/-- `main` calls `even`, and `even` and `odd` call each other. Only the pruned `log` leads from them back to `main`. -/
def callbackCalls : CallGraph where
  nodes := ⟨#[⟨"main", .normal, [], [⟨1⟩], [⟨3⟩]⟩, ⟨"even", .normal, [], [⟨2⟩, ⟨3⟩], [⟨0⟩, ⟨2⟩]⟩,
    ⟨"odd", .normal, [], [⟨1⟩], [⟨1⟩]⟩, ⟨"log", .normal, [], [⟨0⟩], [⟨1⟩]⟩]⟩
  members := IdSet.ofList [⟨0⟩, ⟨1⟩, ⟨2⟩]

theorem built_callbackCalls : callbackCalls.Built := by
  have nodes := (((Built.empty.addNode "main" .normal).addNode "even" .normal).addNode "odd" .normal).addNode "log" .normal
  have cycle := ((nodes.addEdge (x := ⟨0⟩) (y := ⟨1⟩) rfl).addEdge (x := ⟨1⟩) (y := ⟨2⟩) rfl).addEdge (x := ⟨2⟩)
    (y := ⟨1⟩) rfl
  have calls := (cycle.addEdge (x := ⟨1⟩) (y := ⟨3⟩) rfl).addEdge (x := ⟨3⟩) (y := ⟨0⟩) rfl
  exact calls.setMember ⟨3⟩ false

/-- All four nodes reach each other, but not through members, so `even` is listed before `main`. -/
theorem postorder_callbackCalls : callbackCalls.Built ∧ ∃ xs, callbackCalls.postorder = .ok xs ∧ xs.Nodup ∧
    (∀ x, x ∈ xs ↔ x ∈ callbackCalls.ids ∧ callbackCalls.isMember x = true) ∧ [⟨1⟩, ⟨0⟩].Sublist xs := by
  obtain ⟨xs, hrun, hnodup, hmem, horder⟩ := postorder_callees_first built_callbackCalls
  refine ⟨built_callbackCalls, xs, hrun, hnodup, hmem, ?_⟩
  refine (horder ⟨0⟩ ⟨1⟩ (by decide) (by decide) (by decide) (by decide)).resolve_right fun hback => ?_
  have hcycle : ∀ y, callbackCalls.PrunedReaches ⟨1⟩ y → y = ⟨1⟩ ∨ y = ⟨2⟩ := by
    intro y hy
    induction hy with
    | refl => exact .inl rfl
    | @tail x y _ hcall ih =>
      obtain ⟨_, hy, hcall⟩ := hcall
      rcases ih with rfl | rfl
      · have hcall : y ∈ [⟨2⟩, ⟨3⟩] := hcall
        rcases List.mem_pair.1 hcall with rfl | rfl
        · exact .inr rfl
        · exact absurd hy (by decide)
      · exact .inl (List.mem_singleton.1 hcall)
  exact absurd (hcycle ⟨0⟩ hback) (by decide)

end HeapSummary.CallGraph
