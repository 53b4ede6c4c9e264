import HeapSummary.IdSet.Lemmas
import HeapSummary.Monitor
import HeapSummary.Store
import HeapSummary.Total

/-!
# Plain propagation

Every candidate of a node reaches all nodes that can call it, however indirectly: a node's set is the union of the locals
of all nodes below it. The sets are found with a queue: a node whose set grew puts its callers back into it. A set of
marks goes along with the queue, so that no node waits in it twice.
-/

namespace HeapSummary

/-- Nodes that wait their turn, and marks on just these. -/
structure WorkQueue where
  waiting : List CallNode
  marked : IdSet .callNode
  nodup : waiting.Nodup
  marks : ∀ x, x ∈ marked ↔ x ∈ waiting

namespace WorkQueue

variable {q rest : WorkQueue} {x y : CallNode} {xs : List CallNode}

def ofNodes (xs : List CallNode) (nodup : xs.Nodup) : WorkQueue := ⟨xs, IdSet.ofList xs, nodup, fun _ => IdSet.mem_ofList⟩

/-- Takes the first node off the queue, and its mark with it. -/
def pop? (q : WorkQueue) : Option (CallNode × WorkQueue) :=
  match hq : q.waiting with
  | [] => none
  | x :: rest =>
    have hnodup : (x :: rest).Nodup := hq ▸ q.nodup
    some (x, {
      waiting := rest
      marked := (q.marked.remove x).1
      nodup := (List.nodup_cons.1 hnodup).2
      marks := fun y => by
        show y ∈ q.marked.erase x ↔ y ∈ rest
        rw [IdSet.mem_erase, q.marks, hq, List.mem_cons]
        constructor
        · exact fun hy => hy.2.resolve_left hy.1
        · exact fun hy => ⟨fun hyx => (List.nodup_cons.1 hnodup).1 (hyx ▸ hy), .inr hy⟩ })

/-- Puts a node at the end of the queue, unless it is marked. -/
def push (q : WorkQueue) (x : CallNode) : WorkQueue :=
  if hnew : (q.marked.add x).2 = true then {
    waiting := q.waiting ++ [x]
    marked := (q.marked.add x).1
    nodup := by
      have hx : x ∉ q.waiting := by simpa [IdSet.add_isNew, IdSet.contains_eq, q.marks] using hnew
      refine List.nodup_append.2 ⟨q.nodup, List.pairwise_singleton _ x, fun y hy z hz hyz => hx ?_⟩
      rwa [← List.mem_singleton.1 hz, ← hyz]
    marks := fun y => by
      show y ∈ q.marked.insert x ↔ y ∈ q.waiting ++ [x]
      rw [IdSet.mem_insert, q.marks, List.mem_append, List.mem_singleton, or_comm] }
  else q

theorem waiting_of_pop?_eq_none (h : q.pop? = none) : q.waiting = [] := by
  unfold pop? at h
  split at h
  · assumption
  · cases h

theorem waiting_of_pop? (h : q.pop? = some (x, rest)) : q.waiting = x :: rest.waiting := by
  unfold pop? at h
  split at h
  · cases h
  · cases h
    assumption

theorem mem_push : y ∈ (q.push x).waiting ↔ y ∈ q.waiting ∨ y = x := by
  unfold push
  split
  · simp
  · rename_i hold
    have hx : x ∈ q.waiting := by simpa [IdSet.add_isNew, IdSet.contains_eq, q.marks] using hold
    exact ⟨.inl, fun h => h.elim id fun h => h ▸ hx⟩

theorem mem_foldl_push : y ∈ (xs.foldl push q).waiting ↔ y ∈ q.waiting ∨ y ∈ xs := by
  induction xs generalizing q with
  | nil => simp
  | cons x xs ih => rw [List.foldl_cons, ih, mem_push, List.mem_cons, or_assoc]

theorem length_push_le (q : WorkQueue) (x : CallNode) : (q.push x).waiting.length ≤ q.waiting.length + 1 := by
  unfold push
  split <;> simp

theorem length_foldl_push_le (xs : List CallNode) (q : WorkQueue) :
    (xs.foldl push q).waiting.length ≤ q.waiting.length + xs.length := by
  induction xs generalizing q with
  | nil => simp
  | cons x xs ih =>
    have h1 := ih (q.push x)
    have h2 := length_push_le q x
    simp only [List.foldl_cons, List.length_cons]
    omega

end WorkQueue

/-- The candidates that reach each call-graph node. -/
abbrev Propagation := IdMap .callNode (IdSet .candidate)

namespace Propagation

/-- The locals of every node. -/
def ofLocals (g : CallGraph) (s : Store) : Propagation :=
  g.ids.foldl (fun out x => out.set x (s.localsOf x)) IdMap.empty

/-- Adds the sets of the listed callees to a set. The flag is raised when it grows. -/
def collect (out : Propagation) : List CallNode → IdSet .candidate → Bool → IdSet .candidate × Bool
  | [], v, changed => (v, changed)
  | y :: callees, v, changed =>
    let (v', grew) := v.unionWith (out.get y)
    collect out callees v' (changed || grew)

/-- A node's set with the sets of the listed callees, and whether it grew. -/
def gather (out : Propagation) (x : CallNode) (callees : List CallNode) : IdSet .candidate × Bool :=
  collect out callees (out.get x) false

/-! ### The measure of the queue

Sets only grow within the union of all sets, and a set that grows puts back no more nodes than the graph has calls. -/

def everything (out : Propagation) : IdSet .candidate := IdSet.unionMap out.values fun v => v

/-- How far the sets are from holding everything. -/
def deficit (g : CallGraph) (out : Propagation) : Nat :=
  total (fun x => (everything out \ out.get x).size) g.ids

def callCount (g : CallGraph) : Nat := total (fun d => d.preds.length) g.nodes.values

def queueWork (g : CallGraph) (out : Propagation) (queue : List CallNode) : Nat :=
  deficit g out * (callCount g + 1) + queue.length

theorem get_subset_everything {out : Propagation} {x : CallNode} {c : Candidate} (h : c ∈ out.get x) :
    c ∈ everything out := by
  rcases IdMap.mem_values_or_default out x with hmem | hdef
  · exact IdSet.mem_unionMap.2 ⟨_, hmem, h⟩
  · rw [hdef] at h
    exact absurd h IdSet.not_mem_empty

theorem mem_collect {out : Propagation} {callees : List CallNode} {v : IdSet .candidate} {changed : Bool} {c : Candidate} :
    c ∈ (collect out callees v changed).1 ↔ c ∈ v ∨ ∃ y ∈ callees, c ∈ out.get y := by
  induction callees generalizing v changed with
  | nil => simp [collect]
  | cons y callees ih =>
    have hunion : c ∈ (v.unionWith (out.get y)).1 ↔ c ∈ v ∨ c ∈ out.get y := IdSet.mem_union
    simp only [collect, ih, hunion, List.mem_cons, or_and_right, exists_or, exists_eq_left, or_assoc]

theorem mem_gather {out : Propagation} {x : CallNode} {callees : List CallNode} {c : Candidate} :
    c ∈ (gather out x callees).1 ↔ c ∈ out.get x ∨ ∃ y ∈ callees, c ∈ out.get y := mem_collect

theorem collect_changed {out : Propagation} {callees : List CallNode} {v : IdSet .candidate} {changed : Bool} :
    (collect out callees v changed).2 = true ↔ changed = true ∨ ∃ y ∈ callees, ∃ c ∈ out.get y, c ∉ v := by
  induction callees generalizing v changed with
  | nil => simp [collect]
  | cons y callees ih =>
    have hgrew : (v.unionWith (out.get y)).2 = true ↔ ∃ c ∈ out.get y, c ∉ v := by
      rw [IdSet.unionWith_grows, Bool.not_eq_true', ← Bool.not_eq_true, IdSet.isSubset_iff]
      simp only [Classical.not_forall, exists_prop]
    have hunion : ∀ c, c ∈ (v.unionWith (out.get y)).1 ↔ c ∈ v ∨ c ∈ out.get y := fun c => IdSet.mem_union
    simp only [collect, ih, Bool.or_eq_true, hgrew, List.mem_cons, or_and_right, exists_or, exists_eq_left, or_assoc]
    refine or_congr_right ?_
    -- what a later callee adds to the larger set it adds to the smaller one, and the rest the first callee has added
    constructor
    · rintro (hfirst | ⟨z, hz, c, hc, hnew⟩)
      · exact .inl hfirst
      · exact .inr ⟨z, hz, c, hc, fun hv => hnew ((hunion c).2 (.inl hv))⟩
    · rintro (hfirst | ⟨z, hz, c, hc, hnew⟩)
      · exact .inl hfirst
      · by_cases hy : c ∈ out.get y
        · exact .inl ⟨c, hy, hnew⟩
        · exact .inr ⟨z, hz, c, hc, fun hv => ((hunion c).1 hv).elim hnew hy⟩

theorem gather_grew {out : Propagation} {x : CallNode} {callees : List CallNode} :
    (gather out x callees).2 = true ↔ ∃ c ∈ (gather out x callees).1, c ∉ out.get x := by
  rw [gather, collect_changed]
  constructor
  · rintro (h | ⟨y, hy, c, hc, hnew⟩)
    · cases h
    · exact ⟨c, mem_collect.2 (.inr ⟨y, hy, hc⟩), hnew⟩
  · rintro ⟨c, hc, hnew⟩
    obtain ⟨y, hy, hc⟩ := (mem_collect.1 hc).resolve_left hnew
    exact .inr ⟨y, hy, c, hc, hnew⟩

theorem everything_set_subset {out : Propagation} {x : CallNode} {callees : List CallNode} {c : Candidate}
    (h : c ∈ everything (out.set x (gather out x callees).1)) : c ∈ everything out := by
  obtain ⟨v, hv, hc⟩ := IdSet.mem_unionMap.1 h
  rcases IdMap.mem_values_set hv with rfl | hv | rfl
  · rcases mem_gather.1 hc with hc | ⟨y, _, hc⟩
    · exact get_subset_everything hc
    · exact get_subset_everything hc
  · exact IdSet.mem_unionMap.2 ⟨v, hv, hc⟩
  · exact absurd hc IdSet.not_mem_empty

theorem deficit_gather_lt {g : CallGraph} {out : Propagation} {x : CallNode} {callees : List CallNode}
    (hx : x ∈ g.ids) (hgrew : (gather out x callees).2 = true) :
    deficit g (out.set x (gather out x callees).1) < deficit g out := by
  have hgrow : ∀ y c, c ∈ out.get y → c ∈ (out.set x (gather out x callees).1).get y := by
    intro y c hc
    rw [IdMap.get_set]
    split
    · rename_i hy
      exact mem_gather.2 (.inl (hy ▸ hc))
    · exact hc
  have hstep : ∀ y c, c ∈ everything (out.set x (gather out x callees).1) \ (out.set x (gather out x callees).1).get y →
      c ∈ everything out \ out.get y := by
    intro y c hc
    rw [IdSet.mem_diff] at hc ⊢
    exact ⟨everything_set_subset hc.1, fun h => hc.2 (hgrow y c h)⟩
  obtain ⟨c, hc, hnc⟩ := gather_grew.1 hgrew
  refine total_lt (fun y _ => IdSet.size_le_of_subset (hstep y)) hx ?_
  refine IdSet.size_lt_of_ssubset (y := c) (hstep x) ?_ (fun h => ?_)
  · rcases mem_gather.1 hc with h | ⟨y, _, h⟩
    · exact absurd h hnc
    · exact IdSet.mem_diff.2 ⟨get_subset_everything h, hnc⟩
  · rw [IdSet.mem_diff, IdMap.get_set_self] at h
    exact h.2 hc

theorem length_preds_le {g : CallGraph} {x : CallNode} {d : CallSite} (h : g.nodes.get? x = some d) :
    d.preds.length ≤ callCount g := by
  have hmem : d ∈ g.nodes.values := Array.mem_toList_iff.2 (Array.mem_of_getElem? h)
  exact le_total (f := fun d : CallSite => d.preds.length) hmem

theorem queueWork_grow_lt {g : CallGraph} {out : Propagation} {x : CallNode} {rest : WorkQueue} {d : CallSite}
    (hd : g.nodes.get? x = some d) (hgrew : (gather out x d.succs).2 = true) :
    queueWork g (out.set x (gather out x d.succs).1) (d.preds.foldl WorkQueue.push rest).waiting <
      queueWork g out (x :: rest.waiting) := by
  have hlt := deficit_gather_lt (Arena.mem_ids.2 (Arena.lt_size_of_get? hd)) hgrew
  have hlen := WorkQueue.length_foldl_push_le d.preds rest
  have hpreds := length_preds_le hd
  have hmul := Nat.mul_le_mul_right (callCount g + 1) (Nat.succ_le_of_lt hlt)
  rw [Nat.succ_mul] at hmul
  simp only [queueWork, List.length_cons]
  omega

/-- Works the queue off. -/
def settle (g : CallGraph) (out : Propagation) (queue : WorkQueue) : Polled Propagation :=
  match _hq : queue.pop? with
  | none => pure out
  | some (x, rest) => do
    Polled.poll
    match _hd : g.nodes.get? x with
    | none => throw (.fault (.outOfBounds g.size x.index))
    | some d =>
      if _hgrew : (gather out x d.succs).2 = true then
        settle g (out.set x (gather out x d.succs).1) (d.preds.foldl WorkQueue.push rest)
      else
        settle g out rest
termination_by queueWork g out queue.waiting
decreasing_by
  · rw [WorkQueue.waiting_of_pop? _hq]
    exact queueWork_grow_lt _hd _hgrew
  · rw [WorkQueue.waiting_of_pop? _hq]
    simp only [queueWork, List.length_cons]
    omega

/-- The candidates of all nodes that each node can call. -/
def plain (g : CallGraph) (s : Store) : Polled Propagation := do
  let out ← settle g (ofLocals g s) (.ofNodes g.ids g.nodes.nodup_ids)
  g.ids.foldlM (fun result x => do
    Polled.poll
    return result.set x (out.get x)) IdMap.empty

end Propagation

end HeapSummary
