import HeapSummary.Proofs.CallGraph

/-!
# Lists of calls, with and without thread dispatch

However a call graph came about, no list of callees or callers has a duplicate. Adding a call looks for it among the
callees only; that is enough for both lists, as they agree.

Taking thread dispatch out removes one call after another, each at both of its ends. `Stripped` says what that amounts to:
both lists of every node are filtered, and nothing else changes. The calls to remove are read off the callees of the graph
as it was. That the callers lose just the same calls is due to the agreement of the lists once more.
-/

namespace HeapSummary

/-- The node `x` without some of its calls, the others in their order. -/
def CallSite.without (cut : CallNode → CallNode → Bool) (x : CallNode) (d : CallSite) : CallSite :=
  { d with succs := d.succs.filter fun y => !cut x y, preds := d.preds.filter fun y => !cut y x }

namespace CallGraph

variable {g g' h : CallGraph} {cut cut' : CallNode → CallNode → Bool} {rest : List CallNode} {x y : CallNode}

/-! ### No duplicates -/

/-- No node has a callee or a caller twice. -/
def WithoutDuplicates (g : CallGraph) : Prop := ∀ x, (g.callees x).Nodup ∧ (g.callers x).Nodup

theorem withoutDuplicates_addEdge (hmirrored : g.Mirrored) (hg : g.WithoutDuplicates) (he : g.addEdge x y = .ok g') :
    g'.WithoutDuplicates := by
  obtain rfl | ⟨hx, hy, hnew, rfl⟩ := addEdge_cases he
  · exact hg
  have hnew' : x ∉ g.callers y := fun hmem => hnew ((hmirrored x y).2 hmem)
  have hadd : ∀ {l : List CallNode} {z : CallNode}, z ∉ l → l.Nodup → (l ++ [z]).Nodup := fun hz hl =>
    (List.perm_append_singleton _ _).nodup_iff.2 (List.nodup_cons.2 ⟨hz, hl⟩)
  intro u
  rw [callees_addEdge hx, callers_addEdge hy]
  constructor
  · split
    · rename_i hu
      exact hadd (hu ▸ hnew) (hg u).1
    · exact (hg u).1
  · split
    · rename_i hu
      exact hadd (hu ▸ hnew') (hg u).2
    · exact (hg u).2

theorem withoutDuplicates_removeEdge (hg : g.WithoutDuplicates) (x y : CallNode) :
    (g.removeEdge x y).WithoutDuplicates := by
  intro u
  rw [callees_removeEdge, callers_removeEdge]
  constructor
  · split
    · exact (hg u).1.filter _
    · exact (hg u).1
  · split
    · exact (hg u).2.filter _
    · exact (hg u).2

theorem Built.withoutDuplicates (hg : g.Built) : g.WithoutDuplicates := by
  induction hg with
  | empty => exact fun x => ⟨.nil, .nil⟩
  | addNode _ name role ih =>
    intro x
    rw [callees_addNode, callers_addNode]
    exact ih x
  | addEdge hg he ih => exact withoutDuplicates_addEdge hg.mirrored ih he
  | addAccess _ ha ih =>
    intro x
    rw [callees_addAccess ha, callers_addAccess ha]
    exact ih x
  | setMember _ x member ih => exact ih
  | withoutDispatch _ hd ih => exact withoutDispatch_keeps (fun _ x y h => withoutDuplicates_removeEdge h x y) ih hd

/-! ### Taking calls out -/

/-- Some calls were taken out at both ends, and nothing else was done. -/
structure Stripped (g : CallGraph) (cut : CallNode → CallNode → Bool) (g' : CallGraph) : Prop where
  nodes : ∀ x, g'.nodes.get? x = (g.nodes.get? x).map (CallSite.without cut x)
  members : g'.members = g.members

theorem stripped_nothing (g : CallGraph) : Stripped g (fun _ _ => false) g := by
  refine ⟨fun x => ?_, rfl⟩
  cases g.nodes.get? x <;> simp [CallSite.without]

theorem Stripped.trans (hs : Stripped g cut h) (hs' : Stripped h cut' g') :
    Stripped g (fun x y => cut x y || cut' x y) g' := by
  refine ⟨fun x => ?_, hs'.members.trans hs.members⟩
  rw [hs'.nodes, hs.nodes, Option.map_map]
  congr 1
  funext d
  simp only [Function.comp_apply, CallSite.without, List.filter_filter, Bool.not_or, Bool.and_comm]

theorem stripped_removeEdge (g : CallGraph) (x y : CallNode) :
    Stripped g (fun u v => u = x && v = y) (g.removeEdge x y) := by
  refine ⟨fun u => ?_, rfl⟩
  show ((g.nodes.modify x _).modify y _).get? u = _
  rw [Arena.get?_modify, Arena.get?_modify]
  cases g.nodes.get? u with
  | none => simp
  | some d =>
    have hsuccs : d.succs.filter (fun v => !(decide (u = x) && decide (v = y))) =
        if x = u then d.succs.filter (· ≠ y) else d.succs := by
      by_cases hx : x = u
      · simp [hx]
      · simp [hx, Ne.symm hx]
    have hpreds : d.preds.filter (fun v => !(decide (v = x) && decide (u = y))) =
        if y = u then d.preds.filter (· ≠ x) else d.preds := by
      by_cases hy : y = u
      · simp [hy]
      · simp [hy, Ne.symm hy]
    simp only [Option.map_some, CallSite.without, hsuccs, hpreds]
    split <;> split <;> rfl

/-- What is taken out matters only for the calls that are listed. -/
theorem Stripped.congr (hs : Stripped g cut g') (heq : ∀ x y, y ∈ g.callees x ∨ x ∈ g.callers y → cut x y = cut' x y) :
    Stripped g cut' g' := by
  refine ⟨fun x => ?_, hs.members⟩
  rw [hs.nodes]
  cases hd : g.nodes.get? x with
  | none => rfl
  | some d =>
    have hsuccs : d.succs.filter (fun y => !cut x y) = d.succs.filter fun y => !cut' x y :=
      List.filter_congr fun y hy => by rw [heq x y (.inl (mem_callees.2 ⟨d, hd, hy⟩))]
    have hpreds : d.preds.filter (fun y => !cut y x) = d.preds.filter fun y => !cut' y x :=
      List.filter_congr fun y hy => by rw [heq y x (.inr (mem_callers.2 ⟨d, hd, hy⟩))]
    simp only [Option.map_some, CallSite.without, hsuccs, hpreds]

theorem Stripped.eq (hs : Stripped g cut g') (hs' : Stripped g cut h) : g' = h := by
  obtain ⟨nodes, members⟩ := g'
  obtain ⟨nodes', members'⟩ := h
  have hnodes : nodes = nodes' := Arena.ext_get? fun x => (hs.nodes x).trans (hs'.nodes x).symm
  have hmembers : members = members' := hs.members.trans hs'.members.symm
  rw [hnodes, hmembers]

/-! ### Thread dispatch -/

def roleOf (g : CallGraph) (x : CallNode) : Option ThreadRole := (g.nodes.get? x).map CallSite.role

/-- A call from `x` to `y` only dispatches a thread: `x` starts threads and `y` is a run method. -/
def isDispatch (g : CallGraph) (x y : CallNode) : Bool := g.roleOf x = some .start && g.roleOf y = some .run

theorem Stripped.isDispatch_eq (hs : Stripped g cut g') : g'.isDispatch = g.isDispatch := by
  have hrole : ∀ x, g'.roleOf x = g.roleOf x := by
    intro x
    rw [roleOf, hs.nodes, Option.map_map]
    rfl
  funext x y
  rw [isDispatch, hrole, hrole]
  rfl

theorem mem_dispatches {ys : List CallNode} (hys : g.dispatches x = .ok ys) :
    y ∈ ys ↔ g.Calls x y ∧ g.isDispatch x y = true := by
  simp only [dispatches, node, Outcome.bind_eq_ok, Arena.read_eq_ok_iff] at hys
  obtain ⟨d, hd, hys⟩ := hys
  have hcalls : g.Calls x y ↔ y ∈ d.succs := by simp [Calls, callees, hd]
  split at hys
  · rename_i hrole
    cases hys
    simp [isDispatch, roleOf, hd, hrole]
  · rename_i hrole
    simp only [Outcome.bind_eq_ok, Outcome.pure_eq_ok] at hys
    obtain ⟨listed, hlisted, rfl⟩ := hys
    have hmem : ∀ e, (y, e) ∈ listed ↔ y ∈ d.succs ∧ g.nodes.get? y = some e := fun e => by
      rw [Outcome.mem_of_mapM_pair hlisted, Arena.read_eq_ok_iff]
    have hrun : g.isDispatch x y = true ↔ ∃ e, g.nodes.get? y = some e ∧ e.role = .run := by
      simp [isDispatch, roleOf, hd, not_not.1 hrole]
    rw [hcalls, hrun]
    constructor
    · intro hy
      obtain ⟨⟨y, e⟩, he, rfl⟩ := List.mem_map.1 hy
      obtain ⟨he, hrole⟩ := List.mem_filter.1 he
      exact ⟨((hmem e).1 he).1, e, ((hmem e).1 he).2, of_decide_eq_true hrole⟩
    · rintro ⟨hy, e, he, hrole⟩
      exact List.mem_map.2 ⟨(y, e), List.mem_filter.2 ⟨(hmem e).2 ⟨hy, he⟩, decide_eq_true hrole⟩, rfl⟩

theorem stripped_foldl_removeEdge (x : CallNode) (ys : List CallNode) (g : CallGraph) :
    Stripped g (fun u v => u = x && ys.contains v) (ys.foldl (fun h y => h.removeEdge x y) g) := by
  induction ys generalizing g with
  | nil => exact (stripped_nothing g).congr fun u v _ => by simp
  | cons y ys ih =>
    refine ((stripped_removeEdge g x y).trans (ih (g.removeEdge x y))).congr fun u v _ => ?_
    rw [List.contains_cons, Bool.and_or_distrib_left]
    rfl

/-- Dispatch is being taken out of `g`: nothing else was, and what is left of it is at nodes that are still to come. -/
def Stripping (g : CallGraph) (rest : List CallNode) (h : CallGraph) : Prop :=
  ∃ cut, Stripped g cut h ∧ (∀ x y, cut x y = true → g.isDispatch x y = true) ∧
    ∀ x y, g.Calls x y → g.isDispatch x y = true → x ∈ rest ∨ cut x y = true

theorem Stripping.step {ys : List CallNode} (hs : Stripping g (x :: rest) h) (hys : g.dispatches x = .ok ys) :
    Stripping g rest (ys.foldl (fun h y => h.removeEdge x y) h) := by
  obtain ⟨cut, hcut, hsound, hleft⟩ := hs
  refine ⟨_, hcut.trans (stripped_foldl_removeEdge x ys h), fun u v huv => ?_, fun u v hcall hdispatch => ?_⟩
  · simp only [Bool.or_eq_true, Bool.and_eq_true, decide_eq_true_eq, List.contains_iff_mem] at huv
    rcases huv with huv | ⟨rfl, hv⟩
    · exact hsound u v huv
    · exact ((mem_dispatches hys).1 hv).2
  · simp only [Bool.or_eq_true, Bool.and_eq_true, decide_eq_true_eq, List.contains_iff_mem]
    rcases hleft u v hcall hdispatch with hu | huv
    · rcases List.mem_cons.1 hu with rfl | hu
      · exact .inr (.inr ⟨rfl, (mem_dispatches hys).2 ⟨hcall, hdispatch⟩⟩)
      · exact .inl hu
    · exact .inr (.inl huv)

theorem stripped_withoutDispatch (hg : g.Mirrored) (hd : g.withoutDispatch = .ok g') : Stripped g g.isDispatch g' := by
  have hstart : Stripping g g.ids g := by
    refine ⟨_, stripped_nothing g, fun x y hcut => absurd hcut Bool.false_ne_true, fun x y hcall _ => .inl ?_⟩
    obtain ⟨d, hd, _⟩ := mem_callees.1 hcall
    exact mem_ids_iff.2 ⟨d, hd⟩
  obtain ⟨cut, hcut, hsound, hleft⟩ : Stripping g [] g' := by
    refine Outcome.foldlM_rest (P := Stripping g) (fun x rest h h' hs hstep => ?_) hstart hd
    simp only [Outcome.bind_eq_ok, Outcome.pure_eq_ok] at hstep
    obtain ⟨ys, hys, rfl⟩ := hstep
    exact hs.step hys
  refine hcut.congr fun x y hlisted => ?_
  have hcall : g.Calls x y := hlisted.elim id (hg x y).2
  exact Bool.eq_iff_iff.2 ⟨hsound x y, fun hdispatch => (hleft x y hcall hdispatch).resolve_left List.not_mem_nil⟩

/-- However a call graph came about: no node has a callee or a caller twice, callees and callers are nodes, and `v` is
listed as a callee of `u` just if `u` is listed as a caller of `v`. Taking thread dispatch out succeeds. It gives the same
nodes and members, with every list of calls in its order and less the calls from a thread start to a run method. Doing so
again changes nothing. -/
theorem calls_listed_at_both_ends (hg : g.Built) :
    (∀ x d, g.nodes.get? x = some d →
      d.succs.Nodup ∧ d.preds.Nodup ∧ (∀ y ∈ d.succs, y ∈ g.ids) ∧ ∀ y ∈ d.preds, y ∈ g.ids) ∧
    (∀ u v, v ∈ g.callees u ↔ u ∈ g.callers v) ∧
    ∃ g', g.withoutDispatch = .ok g' ∧ g'.ids = g.ids ∧ g'.members = g.members ∧
      (∀ x, g'.nodes.get? x = (g.nodes.get? x).map (CallSite.without g.isDispatch x)) ∧
      g'.withoutDispatch = .ok g' := by
  have hmirrored := hg.mirrored
  refine ⟨fun x d hd => ?_, hmirrored, ?_⟩
  · have hcallees : g.callees x = d.succs := by simp [callees, hd]
    have hcallers : g.callers x = d.preds := by simp [callers, hd]
    obtain ⟨hsuccs, hpreds⟩ := hg.withoutDuplicates x
    rw [hcallees] at hsuccs
    rw [hcallers] at hpreds
    refine ⟨hsuccs, hpreds, fun y hy => ?_, fun y hy => ?_⟩
    · exact hmirrored.callee_mem_ids (hcallees.symm ▸ hy)
    · obtain ⟨e, he, _⟩ := mem_callees.1 ((hmirrored y x).2 (hcallers.symm ▸ hy))
      exact mem_ids_iff.2 ⟨e, he⟩
  · obtain ⟨g', hg'⟩ := hmirrored.exists_withoutDispatch
    have hstripped := stripped_withoutDispatch hmirrored hg'
    refine ⟨g', hg', ids_withoutDispatch hg', hstripped.members, hstripped.nodes, ?_⟩
    -- a second time the same calls are taken out
    have hmirrored' := (hg.withoutDispatch hg').mirrored
    obtain ⟨again, hagain⟩ := hmirrored'.exists_withoutDispatch
    have htwice := hstripped.trans (stripped_withoutDispatch hmirrored' hagain)
    rw [hstripped.isDispatch_eq] at htwice
    simp only [Bool.or_self] at htwice
    rw [hagain, htwice.eq hstripped]

/-- `start` calls `run` to dispatch it and `log` as any method, and `main` calls `start`, and `run` by itself. -/
def threadCalls : CallGraph where
  nodes := ⟨#[⟨"main", .normal, [], [⟨1⟩, ⟨2⟩], []⟩, ⟨"start", .start, [], [⟨2⟩, ⟨3⟩], [⟨0⟩]⟩,
    ⟨"run", .run, [], [], [⟨1⟩, ⟨0⟩]⟩, ⟨"log", .normal, [], [], [⟨1⟩]⟩]⟩
  members := IdSet.ofList [⟨0⟩, ⟨1⟩, ⟨2⟩, ⟨3⟩]

theorem built_threadCalls : threadCalls.Built := by
  have nodes := (((Built.empty.addNode "main" .normal).addNode "start" .start).addNode "run" .run).addNode "log" .normal
  have calls := ((nodes.addEdge (x := ⟨0⟩) (y := ⟨1⟩) rfl).addEdge (x := ⟨1⟩) (y := ⟨2⟩) rfl).addEdge (x := ⟨1⟩)
    (y := ⟨3⟩) rfl
  exact calls.addEdge (x := ⟨0⟩) (y := ⟨2⟩) rfl

/-- Only the dispatch is taken out, at both of its ends. -/
theorem withoutDispatch_threadCalls : threadCalls.Built ∧ ∃ g', threadCalls.withoutDispatch = .ok g' ∧
    g'.nodes.get? ⟨1⟩ = some ⟨"start", .start, [], [⟨3⟩], [⟨0⟩]⟩ ∧ g'.nodes.get? ⟨2⟩ = some ⟨"run", .run, [], [], [⟨0⟩]⟩ ∧
    g'.withoutDispatch = .ok g' := by
  obtain ⟨_, _, g', hg', _, _, hnodes, hagain⟩ := calls_listed_at_both_ends built_threadCalls
  refine ⟨built_threadCalls, g', hg', ?_, ?_, hagain⟩
  · rw [hnodes]
    decide
  · rw [hnodes]
    decide

end CallGraph

end HeapSummary
