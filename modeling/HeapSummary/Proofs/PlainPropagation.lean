import HeapSummary.Proofs.CallGraph
import HeapSummary.Proofs.IdMap
import HeapSummary.Propagation.Plain

/-!
# Plain propagation is reachability

With any monitor that does not cancel it, plain propagation ends, and it gives each node the locals of exactly the nodes
that the node reaches along calls, itself included.

The queue is worked off under one invariant (`Progress`): every call whose caller does not hold all that its callee holds
has its caller in the queue. A set that grows violates this only for the callers of its node, and these are put back.
What is in a set came along calls, so nothing else is ever in it.
-/

namespace HeapSummary

namespace Propagation

variable {g : CallGraph} {s : Store} {out : Propagation} {queue : List CallNode} {x : CallNode} {c : Candidate}

theorem mem_get_ofLocals : c ∈ (ofLocals g s).get x ↔ x ∈ g.ids ∧ c ∈ s.localsOf x := by
  unfold ofLocals
  by_cases hx : x ∈ g.ids
  · rw [IdMap.get_foldl_set_of_forall_eq (fun y => y) (v := s.localsOf x)
      (fun y _ hy => congrArg s.localsOf hy) (.inr ⟨x, hx, rfl⟩)]
    simp [hx]
  · rw [IdMap.get_foldl_set_of_forall_ne (fun y => y) (x := x) fun y hy hyx => hx (hyx ▸ hy)]
    simp [hx, default]

/-! ### The queue -/

/-- What holds while the queue is worked off. -/
structure Progress (g : CallGraph) (s : Store) (out : Propagation) (queue : List CallNode) : Prop where
  queued : ∀ x ∈ queue, x ∈ g.ids
  locals : ∀ x ∈ g.ids, ∀ c ∈ s.localsOf x, c ∈ out.get x
  /-- What is in a set came along calls. -/
  sound : ∀ x, ∀ c ∈ out.get x, x ∈ g.ids ∧ ∃ y, g.Reaches x y ∧ c ∈ s.localsOf y
  /-- A caller that lacks something of its callee waits in the queue. -/
  waiting : ∀ x y, g.Calls x y → x ∉ queue → ∀ c ∈ out.get y, c ∈ out.get x

theorem progress_start (g : CallGraph) (s : Store) :
    Progress g s (ofLocals g s) (WorkQueue.ofNodes g.ids g.nodes.nodup_ids).waiting where
  queued _ hx := hx
  locals x hx c hc := mem_get_ofLocals.2 ⟨hx, hc⟩
  sound x c hc := by
    obtain ⟨hx, hc⟩ := mem_get_ofLocals.1 hc
    exact ⟨hx, x, .refl, hc⟩
  waiting x y hxy hx := by
    obtain ⟨d, hd, _⟩ := CallGraph.mem_callees.1 hxy
    exact absurd (CallGraph.mem_ids_iff.2 ⟨d, hd⟩) hx

theorem Progress.drop (h : Progress g s out (x :: queue)) (hsame : ¬ (gather out x (g.callees x)).2 = true) :
    Progress g s out queue where
  queued y hy := h.queued y (List.mem_cons_of_mem x hy)
  locals := h.locals
  sound := h.sound
  waiting u v huv hu c hc := by
    by_cases hux : u = x
    · subst hux
      by_contra hnew
      exact hsame (gather_grew.2 ⟨c, mem_gather.2 (.inr ⟨v, huv, hc⟩), hnew⟩)
    · exact h.waiting u v huv (by simp [hux, hu]) c hc

/-- A node that grows leaves the queue, and its callers are in it. -/
theorem Progress.grow (hg : g.Mirrored) {rest : WorkQueue} (h : Progress g s out (x :: rest.waiting)) :
    Progress g s (out.set x (gather out x (g.callees x)).1) ((g.callers x).foldl WorkQueue.push rest).waiting where
  queued y hy := by
    rcases WorkQueue.mem_foldl_push.1 hy with hy | hy
    · exact h.queued y (List.mem_cons_of_mem x hy)
    · obtain ⟨d, hd, _⟩ := CallGraph.mem_callees.1 ((hg y x).2 hy)
      exact CallGraph.mem_ids_iff.2 ⟨d, hd⟩
  locals y hy c hc := by
    rw [IdMap.get_set]
    split
    · rename_i hyx
      exact mem_gather.2 (.inl (hyx ▸ h.locals y hy c hc))
    · exact h.locals y hy c hc
  sound y c hc := by
    rw [IdMap.get_set] at hc
    split at hc
    · rename_i hyx
      subst hyx
      rcases mem_gather.1 hc with hc | ⟨z, hz, hc⟩
      · exact h.sound y c hc
      · obtain ⟨_, w, hzw, hw⟩ := h.sound z c hc
        exact ⟨h.queued y List.mem_cons_self, w, .head hz hzw, hw⟩
    · exact h.sound y c hc
  waiting u v huv hu c hc := by
    rw [WorkQueue.mem_foldl_push, not_or] at hu
    -- `u` does not call `x`, or it would be back in the queue, so the set of `v` is the old one
    have hvx : v ≠ x := fun hvx => hu.2 ((hg u x).1 (hvx ▸ huv))
    rw [IdMap.get_set, if_neg hvx] at hc
    rw [IdMap.get_set]
    split
    · rename_i hux
      exact mem_gather.2 (.inr ⟨v, hux ▸ huv, hc⟩)
    · rename_i hux
      exact h.waiting u v huv (by simp [hux, hu.1]) c hc

theorem exists_returns_settle (hg : g.Mirrored) {queue : WorkQueue} (h : Progress g s out queue.waiting) :
    ∃ last, Polled.Returns (settle g out queue) last ∧ Progress g s last [] := by
  fun_induction settle g out queue with
  | case1 out queue hq => exact ⟨out, Polled.returns_pure out, WorkQueue.waiting_of_pop?_eq_none hq ▸ h⟩
  | case2 out queue x rest hq ihgrew ihsame =>
    rw [WorkQueue.waiting_of_pop? hq] at h
    obtain ⟨d, hd⟩ := CallGraph.mem_ids_iff.1 (h.queued x List.mem_cons_self)
    have hsuccs : g.callees x = d.succs := by simp [CallGraph.callees, hd]
    have hpreds : g.callers x = d.preds := by simp [CallGraph.callers, hd]
    by_cases hgrew : (gather out x d.succs).2 = true
    · obtain ⟨last, hrun, hlast⟩ := ihgrew d hd hgrew (hsuccs ▸ hpreds ▸ h.grow hg)
      refine ⟨last, Polled.returns_poll.bind ?_, hlast⟩
      split
      · simp_all
      · rename_i d' hd'
        cases hd.symm.trans hd'
        rwa [dif_pos hgrew]
    · obtain ⟨last, hrun, hlast⟩ := ihsame (h.drop (hsuccs ▸ hgrew))
      refine ⟨last, Polled.returns_poll.bind ?_, hlast⟩
      split
      · simp_all
      · rename_i d' hd'
        cases hd.symm.trans hd'
        rwa [dif_neg hgrew]

/-! ### The result -/

theorem Progress.mem_get_iff (hg : g.Mirrored) (h : Progress g s out []) :
    c ∈ out.get x ↔ x ∈ g.ids ∧ ∃ y, g.Reaches x y ∧ c ∈ s.localsOf y := by
  refine ⟨h.sound x c, ?_⟩
  rintro ⟨hx, y, hxy, hc⟩
  induction hxy using Relation.ReflTransGen.head_induction_on with
  | refl => exact h.locals y hx c hc
  | @head u v huv _ ih => exact h.waiting u v huv (by simp) c (ih (hg.callee_mem_ids huv))

theorem exists_returns_plain (hg : g.Mirrored) (s : Store) :
    ∃ out, Polled.Returns (plain g s) out ∧
      ∀ x c, c ∈ out.get x ↔ x ∈ g.ids ∧ ∃ y, g.Reaches x y ∧ c ∈ s.localsOf y := by
  obtain ⟨last, hrun, hlast⟩ := exists_returns_settle hg (progress_start g s)
  refine ⟨g.ids.foldl (fun result x => result.set x (last.get x)) IdMap.empty, hrun.bind ?_, fun x c => ?_⟩
  · refine Polled.returns_foldlM (fun result x _ => ?_) _
    exact Polled.returns_poll.bind (Polled.returns_pure _)
  · rw [← hlast.mem_get_iff hg]
    by_cases hx : x ∈ g.ids
    · rw [IdMap.get_foldl_set_of_forall_eq (fun y => y) (v := last.get x)
        (fun y _ hy => congrArg last.get hy) (.inr ⟨x, hx, rfl⟩)]
    · rw [IdMap.get_foldl_set_of_forall_ne (fun y => y) (x := x) fun y hy hyx => hx (hyx ▸ hy)]
      exact ⟨fun h => absurd h IdSet.not_mem_empty, fun h => absurd (hlast.sound x c h).1 hx⟩

/-- Plain propagation gives each node the locals of all nodes that it reaches along calls, so nodes that reach each other
get the same. -/
theorem plain_returns_locals_of_reachable (hg : g.Built) (s : Store) :
    ∃ out, Polled.Returns (plain g s) out ∧
      (∀ x ∈ g.ids, ∀ c, c ∈ out.get x ↔ ∃ y, g.Reaches x y ∧ c ∈ s.localsOf y) ∧
      ∀ x y, g.Reaches x y → g.Reaches y x → out.get x = out.get y := by
  obtain ⟨out, hrun, hout⟩ := exists_returns_plain hg.mirrored s
  refine ⟨out, hrun, fun x hx c => ?_, fun x y hxy hyx => IdSet.ext fun c => ?_⟩
  · simp [hout, hx]
  · have hkeep : ∀ {u v}, g.Reaches u v → u ∈ g.ids → v ∈ g.ids := fun huv hu =>
      hg.mirrored.mem_ids_of_reaches hu huv
    rw [hout, hout]
    constructor
    · rintro ⟨hx, z, hxz, hc⟩
      exact ⟨hkeep hxy hx, z, hyx.trans hxz, hc⟩
    · rintro ⟨hy, z, hyz, hc⟩
      exact ⟨hkeep hyx hy, z, hxy.trans hyz, hc⟩

/-- `main` calls `even`; `even` and `odd` call each other, and `odd` performs an access. -/
def mutualCalls : CallGraph where
  nodes := ⟨#[⟨"main", .normal, [], [⟨1⟩], []⟩, ⟨"even", .normal, [], [⟨2⟩], [⟨0⟩, ⟨2⟩]⟩,
    ⟨"odd", .normal, [⟨⟨0⟩, IdSet.singleton ⟨1⟩, ∅, none, .no⟩], [⟨1⟩], [⟨1⟩]⟩]⟩
  members := IdSet.ofList [⟨0⟩, ⟨1⟩, ⟨2⟩]

theorem built_mutualCalls : mutualCalls.Built := by
  have nodes := ((CallGraph.Built.empty.addNode "main" .normal).addNode "even" .normal).addNode "odd" .normal
  have calls := ((nodes.addEdge (x := ⟨0⟩) (y := ⟨1⟩) rfl).addEdge (x := ⟨1⟩) (y := ⟨2⟩) rfl).addEdge (x := ⟨2⟩)
    (y := ⟨1⟩) rfl
  exact calls.addAccess (x := ⟨2⟩) (a := ⟨⟨0⟩, IdSet.singleton ⟨1⟩, ∅, none, .no⟩) rfl

theorem plain_mutualCalls : mutualCalls.Built ∧
    ∃ out, Polled.Returns (plain mutualCalls (Store.ofProgram { Program.empty with callGraph := mutualCalls })) out ∧
      ⟨0⟩ ∈ out.get ⟨0⟩ ∧ out.get ⟨1⟩ = out.get ⟨2⟩ := by
  obtain ⟨out, hrun, hout, hcycle⟩ := plain_returns_locals_of_reachable built_mutualCalls
    (Store.ofProgram { Program.empty with callGraph := mutualCalls })
  have h01 : mutualCalls.Reaches ⟨0⟩ ⟨1⟩ := .single (by decide)
  have h12 : mutualCalls.Reaches ⟨1⟩ ⟨2⟩ := .single (by decide)
  have h21 : mutualCalls.Reaches ⟨2⟩ ⟨1⟩ := .single (by decide)
  exact ⟨built_mutualCalls, out, hrun, (hout ⟨0⟩ (by decide) ⟨0⟩).2 ⟨⟨2⟩, h01.trans h12, by decide⟩,
    hcycle ⟨1⟩ ⟨2⟩ h12 h21⟩

end Propagation

end HeapSummary
