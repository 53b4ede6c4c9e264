import HeapSummary.CallGraph.Postorder
import HeapSummary.Propagation.Plain
import HeapSummary.Propagation.Reach

/-!
# Propagation gated by points-to sets

A candidate enters a procedure only if the procedure reaches it from its roots. Each procedure draws on its locals, on
what the procedures that it calls reach, and on the plain sets of the other nodes that it calls. Sweeps over all
procedures, callees mostly first, go on until nothing is reached any more.
-/

namespace HeapSummary

namespace Propagation

/-- A procedure with the calls that it draws on. -/
structure Site where
  procedure : Procedure
  /-- Callees with a procedure of their own. -/
  callees : List CallNode
  /-- The plain sets of all other callees. -/
  flattened : IdSet .candidate

namespace Site

def node (x : Site) : CallNode := x.procedure.node

/-- The sets that a site draws on besides its locals. -/
def incoming (x : Site) (reach : IdMap .callNode Reach) : List (IdSet .candidate) :=
  (x.callees.filter (· ≠ x.node)).map (fun y => (reach.get y).reached) ++ [x.flattened]

/-- Brings one site up to date. -/
def update (s : Store) (reach : IdMap .callNode Reach) (x : Site) : IdMap .callNode Reach :=
  reach.set x.node ((reach.get x.node).saturate s (x.incoming reach))

end Site

def sweep (s : Store) (sites : List Site) (reach : IdMap .callNode Reach) : IdMap .callNode Reach :=
  sites.foldl (Site.update s) reach

/-- Whether two states reach the same at every site. -/
def agree (sites : List Site) (reach reach' : IdMap .callNode Reach) : Bool :=
  sites.all fun x => (reach.get x.node).reached = (reach'.get x.node).reached

theorem grows_sweep (s : Store) (sites : List Site) (reach : IdMap .callNode Reach) (x : CallNode) :
    Reach.Grows s (reach.get x) ((sweep s sites reach).get x) := by
  unfold sweep
  induction sites generalizing reach with
  | nil => exact .refl s _
  | cons y ys ih =>
    refine Reach.Grows.trans ?_ (ih _)
    rw [Site.update, IdMap.get_set]
    split
    · rename_i h
      exact h ▸ Reach.grows_saturate s _ _
    · exact .refl s _

/-- Sweeps until one changes nothing. The monitor is asked once for the sweep and once for every site. -/
def converge (s : Store) (sites : List Site) (reach : IdMap .callNode Reach) : Polled (IdMap .callNode Reach) := do
  Polled.poll
  sites.forM fun _ => Polled.poll
  if _h : agree sites (sweep s sites reach) reach then
    return sweep s sites reach
  else
    converge s sites (sweep s sites reach)
termination_by total (fun x => (reach.get x.node).missing s) sites
decreasing_by
  obtain ⟨x, hx, hne⟩ : ∃ x ∈ sites, ((sweep s sites reach).get x.node).reached ≠ (reach.get x.node).reached := by
    simpa [agree] using _h
  exact total_lt (fun y _ => Reach.missing_le (grows_sweep s sites reach y.node)) hx
    (Reach.missing_lt (grows_sweep s sites reach x.node) hne)

/-- The nodes with a procedure: members of the pruned graph in postorder, then the others in node order. -/
def order (p : Program) (g : CallGraph) : Except Fault (List CallNode) := do
  let members := (← g.postorder).filter fun x => (p.procedure? x).isSome
  return members ++ (p.procedures.map Procedure.node).filter fun x => x ∉ members

/-- The site of a procedure, when exactly the nodes in `order` have one. -/
def site (g : CallGraph) (plain : Propagation) (order : List CallNode) (p : Procedure) : Except Fault Site := do
  let succs ← g.succs p.node
  return ⟨p, succs.filter (· ∈ order), IdSet.unionMap (succs.filter (· ∉ order)) plain.get⟩

/-- What a procedure reaches at first: the objects of its roots and no candidate. -/
def start (s : Store) (p : Procedure) : Reach := ⟨∅, s.localsOf p.node, p.rootPts⟩

/-- The candidates that reach each procedure from its roots; other nodes have their plain sets. -/
def gated (p : Program) (g : CallGraph) (s : Store) : Polled Propagation := do
  let plain ← plain g s
  let order ← Polled.attempt (order p g)
  let sites ← Polled.attempt ((order.filterMap p.procedure?).mapM (site g plain order))
  Polled.attempt (s.requireFields (everything plain))
  let reach ← converge s sites (sites.foldl (fun reach x => reach.set x.node (start s x.procedure)) IdMap.empty)
  return sites.foldl (fun result x => result.set x.node (reach.get x.node).reached) plain

end Propagation

end HeapSummary
