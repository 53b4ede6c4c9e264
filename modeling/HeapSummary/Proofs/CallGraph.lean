import HeapSummary.CallGraph.Postorder
import HeapSummary.Proofs.Outcome
import Mathlib.Logic.Relation

/-!
# Call graphs that operations build

A call is listed at both of its ends. `Built g` says that `g` came about by the operations of a call graph, and
`Built.mirrored` that the two lists of every such graph agree: `y` is a callee of `x` exactly if `x` is a caller of `y`.
An end of a call is therefore always a node. Taking thread dispatch out never fails on such a graph and gives another one
with the same nodes.
-/

namespace HeapSummary.CallGraph

variable {g g' : CallGraph} {u v x y : CallNode}

/-- The callers of a node, none for a node that is not there. -/
def callers (g : CallGraph) (x : CallNode) : List CallNode := ((g.nodes.get? x).map CallSite.preds).getD []

/-- The graphs that the operations give, thread dispatch taken out or not. -/
inductive Built : CallGraph → Prop
  | empty : Built empty
  | addNode {g : CallGraph} (h : Built g) (name : String) (role : ThreadRole) : Built (g.addNode name role).1
  | addEdge {g g' : CallGraph} {x y : CallNode} (h : Built g) (he : g.addEdge x y = .ok g') : Built g'
  | addAccess {g g' : CallGraph} {x : CallNode} {a : Access} (h : Built g) (ha : g.addAccess x a = .ok g') : Built g'
  | setMember {g : CallGraph} (h : Built g) (x : CallNode) (member : Bool) : Built (g.setMember x member)
  | withoutDispatch {g g' : CallGraph} (h : Built g) (hd : g.withoutDispatch = .ok g') : Built g'

/-- Every call is listed at both ends. -/
def Mirrored (g : CallGraph) : Prop := ∀ x y, y ∈ g.callees x ↔ x ∈ g.callers y

def Calls (g : CallGraph) (x y : CallNode) : Prop := y ∈ g.callees x

instance (g : CallGraph) (x y : CallNode) : Decidable (g.Calls x y) := inferInstanceAs (Decidable (y ∈ g.callees x))

/-- Along zero or more calls. -/
def Reaches (g : CallGraph) : CallNode → CallNode → Prop := Relation.ReflTransGen g.Calls

/-! ### Ends of calls -/

theorem mem_callees : y ∈ g.callees x ↔ ∃ d, g.nodes.get? x = some d ∧ y ∈ d.succs := by
  cases h : g.nodes.get? x <;> simp [callees, h]

theorem mem_callers : x ∈ g.callers y ↔ ∃ d, g.nodes.get? y = some d ∧ x ∈ d.preds := by
  cases h : g.nodes.get? y <;> simp [callers, h]

theorem mem_ids_iff : x ∈ g.ids ↔ ∃ d, g.nodes.get? x = some d := by
  constructor
  · intro h
    cases hx : g.nodes.get? x with
    | none =>
      have := Arena.get?_eq_none_iff.1 hx
      have := Arena.mem_ids.1 h
      omega
    | some d => exact ⟨d, rfl⟩
  · rintro ⟨d, hd⟩
    exact Arena.mem_ids.2 (Arena.lt_size_of_get? hd)

theorem Mirrored.callee_mem_ids (h : g.Mirrored) (hxy : y ∈ g.callees x) : y ∈ g.ids := by
  obtain ⟨d, hd, _⟩ := mem_callers.1 ((h x y).1 hxy)
  exact mem_ids_iff.2 ⟨d, hd⟩

theorem Mirrored.mem_ids_of_reaches (h : g.Mirrored) (hx : x ∈ g.ids) (hxy : g.Reaches x y) : y ∈ g.ids := by
  induction hxy with
  | refl => exact hx
  | tail _ hcall _ => exact h.callee_mem_ids hcall

theorem succs_eq_ok {succs : List CallNode} :
    g.succs x = .ok succs ↔ ∃ d, g.nodes.get? x = some d ∧ d.succs = succs := by
  unfold CallGraph.succs CallGraph.node
  simp only [Outcome.bind_eq_ok, Outcome.pure_eq_ok, Arena.read_eq_ok_iff]

theorem callees_of_succs {succs : List CallNode} (h : g.succs x = .ok succs) : g.callees x = succs := by
  obtain ⟨d, hd, rfl⟩ := succs_eq_ok.1 h
  simp [callees, hd]

theorem succs_of_mem_ids (hx : x ∈ g.ids) : g.succs x = .ok (g.callees x) := by
  obtain ⟨d, hd⟩ := mem_ids_iff.1 hx
  exact succs_eq_ok.2 ⟨d, hd, by simp [callees, hd]⟩

/-! ### Changing one end of calls

Adding and removing a call both change the callees of one node and the callers of another. -/

def editSuccs (g : CallGraph) (z : CallNode) (f : List CallNode → List CallNode) : CallGraph :=
  { g with nodes := g.nodes.modify z fun d => { d with succs := f d.succs } }

def editPreds (g : CallGraph) (z : CallNode) (f : List CallNode → List CallNode) : CallGraph :=
  { g with nodes := g.nodes.modify z fun d => { d with preds := f d.preds } }

section edits

variable {z : CallNode} {f : List CallNode → List CallNode}

@[simp] theorem ids_editSuccs : (g.editSuccs z f).ids = g.ids := by simp [editSuccs, ids, Arena.ids]

@[simp] theorem ids_editPreds : (g.editPreds z f).ids = g.ids := by simp [editPreds, ids, Arena.ids]

theorem callees_editSuccs (hz : z ∈ g.ids ∨ f [] = []) :
    (g.editSuccs z f).callees u = if u = z then f (g.callees u) else g.callees u := by
  unfold callees editSuccs
  rw [Arena.get?_modify]
  by_cases hu : u = z
  · subst hu
    cases hd : g.nodes.get? u with
    | none => simp [hz.resolve_left fun h => by simp [mem_ids_iff, hd] at h]
    | some d => simp
  · simp [hu, Ne.symm hu]

theorem callers_editPreds (hz : z ∈ g.ids ∨ f [] = []) :
    (g.editPreds z f).callers u = if u = z then f (g.callers u) else g.callers u := by
  unfold callers editPreds
  rw [Arena.get?_modify]
  by_cases hu : u = z
  · subst hu
    cases hd : g.nodes.get? u with
    | none => simp [hz.resolve_left fun h => by simp [mem_ids_iff, hd] at h]
    | some d => simp
  · simp [hu, Ne.symm hu]

@[simp] theorem callers_editSuccs : (g.editSuccs z f).callers u = g.callers u := by
  unfold callers editSuccs
  rw [Arena.get?_modify]
  split
  · cases g.nodes.get? u <;> rfl
  · rfl

@[simp] theorem callees_editPreds : (g.editPreds z f).callees u = g.callees u := by
  unfold callees editPreds
  rw [Arena.get?_modify]
  split
  · cases g.nodes.get? u <;> rfl
  · rfl

end edits

/-! ### Adding -/

theorem get?_nextId : g.nodes.get? g.nodes.nextId = none := Arena.get?_eq_none_iff.2 (Nat.le_refl _)

/-- What is read off every node, and is nothing for one without calls, a new node does not change. -/
theorem read_addNode (name : String) (role : ThreadRole) (read : CallSite → List CallNode)
    (hnew : read ⟨name, role, [], [], []⟩ = []) :
    (((g.addNode name role).1.nodes.get? x).map read).getD [] = ((g.nodes.get? x).map read).getD [] := by
  have hget : (g.addNode name role).1.nodes.get? x =
      if x = g.nodes.nextId then some ⟨name, role, [], [], []⟩ else g.nodes.get? x := Arena.get?_push _ _ _
  rw [hget]
  split
  · rename_i hx
    simp [hx, get?_nextId, hnew]
  · rfl

theorem callees_addNode (name : String) (role : ThreadRole) : (g.addNode name role).1.callees x = g.callees x :=
  read_addNode name role CallSite.succs rfl

theorem callers_addNode (name : String) (role : ThreadRole) : (g.addNode name role).1.callers x = g.callers x :=
  read_addNode name role CallSite.preds rfl

theorem mirrored_addNode (h : g.Mirrored) (name : String) (role : ThreadRole) : (g.addNode name role).1.Mirrored := by
  intro x y
  rw [callees_addNode, callers_addNode]
  exact h x y

/-- What adding a call did: the call was there, or it is now listed last at both ends. -/
theorem addEdge_cases (h : g.addEdge x y = .ok g') :
    g' = g ∨ (x ∈ g.ids ∧ y ∈ g.ids ∧ y ∉ g.callees x ∧ g' = (g.editSuccs x (· ++ [y])).editPreds y (· ++ [x])) := by
  unfold CallGraph.addEdge at h
  rw [Outcome.bind_eq_ok] at h
  obtain ⟨succs, hsuccs, h⟩ := h
  obtain ⟨d, hd, rfl⟩ := succs_eq_ok.1 hsuccs
  split at h
  · rw [Outcome.pure_eq_ok] at h
    exact .inl h.symm
  · rename_i hnew
    simp only [Outcome.bind_eq_ok, Outcome.pure_eq_ok, Arena.read_eq_ok_iff] at h
    obtain ⟨e, he, rfl⟩ := h
    have hy := Arena.lt_size_of_get? he
    rw [Arena.size_modify] at hy
    exact .inr ⟨mem_ids_iff.2 ⟨d, hd⟩, Arena.mem_ids.2 hy, by rwa [callees_of_succs hsuccs], rfl⟩

theorem callees_addEdge (hx : x ∈ g.ids) : ((g.editSuccs x (· ++ [y])).editPreds y (· ++ [x])).callees u =
    if u = x then g.callees u ++ [y] else g.callees u := by
  rw [callees_editPreds, callees_editSuccs (.inl hx)]

theorem callers_addEdge (hy : y ∈ g.ids) : ((g.editSuccs x (· ++ [y])).editPreds y (· ++ [x])).callers v =
    if v = y then g.callers v ++ [x] else g.callers v := by
  rw [callers_editPreds (.inl (ids_editSuccs.symm ▸ hy)), callers_editSuccs]

theorem mirrored_addEdge (h : g.Mirrored) (he : g.addEdge x y = .ok g') : g'.Mirrored := by
  obtain rfl | ⟨hx, hy, _, rfl⟩ := addEdge_cases he
  · exact h
  intro u v
  rw [callees_addEdge hx, callers_addEdge hy]
  have huv := h u v
  by_cases hu : u = x <;> by_cases hv : v = y <;> simp [hu, hv] at huv ⊢ <;> exact huv

theorem read_addAccess {a : Access} (ha : g.addAccess x a = .ok g') (read : CallSite → List CallNode)
    (hread : ∀ d : CallSite, read { d with accesses := d.accesses ++ [a] } = read d) :
    ((g'.nodes.get? u).map read).getD [] = ((g.nodes.get? u).map read).getD [] := by
  unfold CallGraph.addAccess at ha
  simp only [Outcome.bind_eq_ok, Outcome.pure_eq_ok] at ha
  obtain ⟨_, _, rfl⟩ := ha
  rw [Arena.get?_modify]
  split
  · cases g.nodes.get? u with
    | none => rfl
    | some d => exact hread d
  · rfl

theorem callees_addAccess {a : Access} (ha : g.addAccess x a = .ok g') : g'.callees u = g.callees u :=
  read_addAccess ha CallSite.succs fun _ => rfl

theorem callers_addAccess {a : Access} (ha : g.addAccess x a = .ok g') : g'.callers u = g.callers u :=
  read_addAccess ha CallSite.preds fun _ => rfl

theorem mirrored_addAccess {a : Access} (h : g.Mirrored) (ha : g.addAccess x a = .ok g') : g'.Mirrored := by
  intro u v
  rw [callees_addAccess ha, callers_addAccess ha]
  exact h u v

/-! ### Thread dispatch -/

theorem ids_removeEdge (g : CallGraph) (x y : CallNode) : (g.removeEdge x y).ids = g.ids := by
  show ((g.editSuccs x _).editPreds y _).ids = g.ids
  rw [ids_editPreds, ids_editSuccs]

theorem callees_removeEdge : (g.removeEdge x y).callees u =
    if u = x then (g.callees u).filter (· ≠ y) else g.callees u := by
  show ((g.editSuccs x _).editPreds y _).callees u = _
  rw [callees_editPreds, callees_editSuccs (.inr rfl)]

theorem callers_removeEdge : (g.removeEdge x y).callers v =
    if v = y then (g.callers v).filter (· ≠ x) else g.callers v := by
  show ((g.editSuccs x _).editPreds y _).callers v = _
  rw [callers_editPreds (.inr rfl), callers_editSuccs]

theorem mirrored_removeEdge (h : g.Mirrored) (x y : CallNode) : (g.removeEdge x y).Mirrored := by
  intro u v
  rw [callees_removeEdge, callers_removeEdge]
  have huv := h u v
  by_cases hu : u = x <;> by_cases hv : v = y <;> simp [hu, hv] at huv ⊢ <;> exact huv

/-- What taking out one call keeps, taking out all dispatch keeps. -/
theorem withoutDispatch_keeps {P : CallGraph → Prop} (hstep : ∀ g x y, P g → P (g.removeEdge x y)) (h : P g)
    (hd : g.withoutDispatch = .ok g') : P g' := by
  refine Outcome.foldlM_keeps (P := P) (fun g₁ x g₂ _ hg₁ hstep' => ?_) h hd
  simp only [Outcome.bind_eq_ok, Outcome.pure_eq_ok] at hstep'
  obtain ⟨ys, _, rfl⟩ := hstep'
  exact List.foldlRecOn ys _ hg₁ fun g hg y _ => hstep g x y hg

theorem ids_withoutDispatch (hd : g.withoutDispatch = .ok g') : g'.ids = g.ids :=
  withoutDispatch_keeps (P := fun h => h.ids = g.ids) (fun h x y hh => (ids_removeEdge h x y).trans hh) rfl hd

theorem Mirrored.exists_dispatches (h : g.Mirrored) (hx : x ∈ g.ids) : ∃ ys, g.dispatches x = .ok ys := by
  obtain ⟨d, hd⟩ := mem_ids_iff.1 hx
  have hnode : g.node x = .ok d := Arena.read_eq_ok_iff.2 hd
  have hcallees : ∀ y ∈ d.succs, ∃ e, g.node y = .ok e := by
    intro y hy
    obtain ⟨e, he⟩ := mem_ids_iff.1 (h.callee_mem_ids (mem_callees.2 ⟨d, hd, hy⟩))
    exact ⟨e, Arena.read_eq_ok_iff.2 he⟩
  obtain ⟨ps, hps⟩ := Outcome.exists_mapM_pair_eq_ok hcallees
  unfold CallGraph.dispatches
  by_cases hrole : d.role = .start
  · exact ⟨_, Outcome.bind_eq_ok.2 ⟨d, hnode, by rw [if_neg (not_not.2 hrole)]; exact Outcome.bind_eq_ok.2 ⟨ps, hps, rfl⟩⟩⟩
  · exact ⟨[], Outcome.bind_eq_ok.2 ⟨d, hnode, by rw [if_pos hrole]; rfl⟩⟩

theorem Mirrored.exists_withoutDispatch (h : g.Mirrored) : ∃ g', g.withoutDispatch = .ok g' := by
  unfold CallGraph.withoutDispatch
  have hloop : ∀ xs : List CallNode, (∀ x ∈ xs, x ∈ g.ids) → ∀ g₁ : CallGraph, ∃ g₂, xs.foldlM (fun h x => do
      return (← g.dispatches x).foldl (fun h y => h.removeEdge x y) h : _ → _ → Except Fault CallGraph) g₁ = .ok g₂ := by
    intro xs
    induction xs with
    | nil => exact fun _ g₁ => ⟨g₁, rfl⟩
    | cons x xs ih =>
      intro hxs g₁
      obtain ⟨ys, hys⟩ := h.exists_dispatches (hxs x List.mem_cons_self)
      obtain ⟨g₂, hg₂⟩ := ih (fun z hz => hxs z (List.mem_cons_of_mem x hz)) (ys.foldl (fun h y => h.removeEdge x y) g₁)
      refine ⟨g₂, ?_⟩
      rw [List.foldlM_cons, Outcome.bind_eq_ok]
      exact ⟨_, Outcome.bind_eq_ok.2 ⟨ys, hys, rfl⟩, hg₂⟩
  exact hloop g.ids (fun _ hx => hx) g

theorem Built.mirrored (h : g.Built) : g.Mirrored := by
  induction h with
  | empty =>
    intro x y
    simp [callees, callers, CallGraph.empty, Arena.empty, Arena.get?]
  | addNode _ name role ih => exact mirrored_addNode ih name role
  | addEdge _ he ih => exact mirrored_addEdge ih he
  | addAccess _ ha ih => exact mirrored_addAccess ih ha
  | setMember _ x member ih => exact ih
  | withoutDispatch _ hd ih => exact withoutDispatch_keeps (fun g x y hg => mirrored_removeEdge hg x y) ih hd

/-! ### Postorder -/

/-- A frame of the search, at a node and with nodes to look at. -/
def Frame.Within (g : CallGraph) (f : Frame) : Prop := f.node ∈ g.ids ∧ ∀ y ∈ f.rest, y ∈ g.ids

theorem Mirrored.within_enter (hg : g.Mirrored) {d : CallSite} (hd : g.nodes.get? x = some d) :
    Frame.Within g ⟨x, d.succs⟩ :=
  ⟨mem_ids_iff.2 ⟨d, hd⟩, fun _ hy => hg.callee_mem_ids (mem_callees.2 ⟨d, hd, hy⟩)⟩

theorem Mirrored.exists_leave (hg : g.Mirrored) {visited : IdSet .callNode} {frames : List Frame}
    {roots left : List CallNode} (hframes : ∀ f ∈ frames, f.Within g) (hroots : ∀ r ∈ roots, r ∈ g.ids)
    (hleft : ∀ x ∈ left, x ∈ g.ids) :
    ∃ xs, g.leave visited frames roots left = .ok xs ∧ ∀ x ∈ xs, x ∈ g.ids := by
  fun_induction leave g visited frames roots left with
  | case1 visited left => exact ⟨left.reverse, rfl, by simpa using hleft⟩
  | case2 visited left r roots hr d hd ih =>
    obtain ⟨_, hroots⟩ := List.forall_mem_cons.1 hroots
    exact ih (by simpa using hg.within_enter hd) hroots hleft
  | case3 visited left r roots hr hd =>
    obtain ⟨d, hd'⟩ := mem_ids_iff.1 (hroots r List.mem_cons_self)
    cases hd.symm.trans hd'
  | case4 visited left r roots hr ih => exact ih hframes (List.forall_mem_cons.1 hroots).2 hleft
  | case5 visited left x frames roots ih =>
    obtain ⟨hx, hframes⟩ := List.forall_mem_cons.1 hframes
    exact ih hframes hroots (List.forall_mem_cons.2 ⟨hx.1, hleft⟩)
  | case6 visited left x y rest frames roots hy d hd ih =>
    obtain ⟨hx, hframes⟩ := List.forall_mem_cons.1 hframes
    have hrest : Frame.Within g ⟨x, rest⟩ := ⟨hx.1, (List.forall_mem_cons.1 hx.2).2⟩
    exact ih (List.forall_mem_cons.2 ⟨hg.within_enter hd, List.forall_mem_cons.2 ⟨hrest, hframes⟩⟩) hroots hleft
  | case7 visited left x y rest frames roots hy hd =>
    obtain ⟨d, hd'⟩ := mem_ids_iff.1 ((hframes _ List.mem_cons_self).2 y List.mem_cons_self)
    cases hd.symm.trans hd'
  | case8 visited left x y rest frames roots hy ih =>
    obtain ⟨hx, hframes⟩ := List.forall_mem_cons.1 hframes
    exact ih (List.forall_mem_cons.2 ⟨⟨hx.1, (List.forall_mem_cons.1 hx.2).2⟩, hframes⟩) hroots hleft

theorem Mirrored.exists_postorder (hg : g.Mirrored) : ∃ xs, g.postorder = .ok xs ∧ ∀ x ∈ xs, x ∈ g.ids :=
  hg.exists_leave (by simp) (fun _ hr => hr) (by simp)

end HeapSummary.CallGraph
