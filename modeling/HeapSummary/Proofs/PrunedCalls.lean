import HeapSummary.Proofs.Faultless
import HeapSummary.Proofs.OriginPartition

/-!
# Every pruned call has one candidate that stands for it

If pruned calls are folded, the interface registered for a procedure has for each of its pruned calls one candidate that
stands for all that is propagated to the call. The fold of the call brings that candidate in. A later fold leaves it or
merges it into another, which then stands for the call too: candidates are never taken apart. Origins in an interface are
disjoint, so there is no second such candidate.
-/

namespace HeapSummary

namespace Store

variable {own s s' : Store} {x : CallNode} {cs folded : IdSet .candidate} {r : Option Candidate}

/-- One candidate of the interface stands for all of the set. -/
def Covers (s : Store) (x : CallNode) (cs : IdSet .candidate) : Prop :=
  ∃ c ∈ s.interface x, ∀ o ∈ cs, o ∈ s.originOf c

theorem Covers.of_interface_eq (h : s.Covers x cs) (hkeeps : Keeps s s') (heq : s'.interface x = s.interface x) :
    s'.Covers x cs := by
  obtain ⟨c, hc, hall⟩ := h
  exact ⟨c, heq ▸ hc, fun o ho => hkeeps.mem_originOf (hall o ho)⟩

theorem Covers.fold (h : s.Covers x cs) (hfold : s.fold x folded = .ok (s', r)) : s'.Covers x cs := by
  obtain ⟨_, rfl, _⟩ | ⟨group, m, hmerge, _⟩ := fold_eq_ok hfold
  · exact h
  have hgathered := gathered_of_merge hmerge
  obtain ⟨c, hc, hall⟩ := h
  by_cases hin : c ∈ group
  · refine ⟨m, (hgathered.interface m).2 (.inl rfl), fun o ho => ?_⟩
    exact (hgathered.origin o).2 ⟨c, hin, hall o ho⟩
  · refine ⟨c, (hgathered.interface c).2 (.inr ⟨hc, hin⟩), fun o ho => ?_⟩
    exact hgathered.keeps.mem_originOf (hall o ho)

theorem covers_fold (hown : own.Unmerged) (hkeeps : own.Keeps s) (hfields : ∀ c ∈ folded, ∃ u, own.field? c = some u)
    (hne : ∃ c, c ∈ folded) (hfold : s.fold x folded = .ok (s', r)) : s'.Covers x folded := by
  obtain ⟨rfl, _⟩ | ⟨group, m, hmerge, _, _, hgroup⟩ := fold_eq_ok hfold
  · obtain ⟨c, hc⟩ := hne
    exact absurd hc IdSet.not_mem_empty
  have hgathered := gathered_of_merge hmerge
  refine ⟨m, (hgathered.interface m).2 (.inl rfl), fun o ho => ?_⟩
  obtain ⟨u, hu⟩ := hfields o ho
  refine (hgathered.origin o).2 ⟨o, (hgroup o).2 (.inl ho), ?_⟩
  rw [hown.originOf_eq hkeeps hu, IdSet.mem_singleton]

end Store

namespace Summary

variable {g : CallGraph} {out : Propagation} {own s s' : Store} {o : Options}

theorem covers_of_inTurn {x : CallNode} {ys : List CallNode} {cs : IdSet .candidate}
    (h : InTurn (fun y s t => ∃ r, s.fold x (out.get y) = .ok (t, r)) ys s s') (hs : s.Covers x cs) :
    s'.Covers x cs := by
  induction h with
  | nil s => exact hs
  | cons hstep _ ih =>
    obtain ⟨r, hfold⟩ := hstep
    exact ih (hs.fold hfold)

/-- Each pruned call is covered by its own fold, and all later folds keep that. -/
theorem covers_foldPruned {q : Procedure} {mon mon' : Monitor} (hown : own.Unmerged) (hkeeps : own.Keeps s)
    (hout : ∀ y ∈ prunedCallees g q.node, ∀ c ∈ out.get y, ∃ u, own.field? c = some u)
    (h : foldPruned g out s q mon = .ok s' mon') :
    ∀ y ∈ prunedCallees g q.node, (∃ c, c ∈ out.get y) → s'.Covers q.node (out.get y) := by
  have hturn := inTurn_fold h
  clear h
  generalize prunedCallees g q.node = pruned at hout hturn ⊢
  induction hturn with
  | nil s => exact fun y hy => absurd hy List.not_mem_nil
  | @cons z rest s t s' hstep hrest ih =>
    obtain ⟨r, hfold⟩ := hstep
    intro y hy hne
    rcases List.mem_cons.1 hy with rfl | hy
    · exact covers_of_inTurn hrest (Store.covers_fold hown hkeeps (hout y List.mem_cons_self) hne hfold)
    · exact ih (hkeeps.trans (Store.keeps_fold hfold)) (fun z hz => hout z (List.mem_cons_of_mem _ hz)) y hy hne

theorem covers_analyze {p : Program} (hp : p.Built) (hon : o.foldPruned = true) {stats : Statistics} {mon mon' : Monitor}
    (h : analyze p o mon = .ok (stats, s) mon') :
    ∃ g out mon₁, p.callGraph.withoutDispatch = .ok g ∧
      propagate p g (Store.ofProgram p) o.gatedPropagation mon = .ok out mon₁ ∧
      ∀ q ∈ p.procedures, ∀ y ∈ prunedCallees g q.node, (∃ c, c ∈ out.get y) → s.Covers q.node (out.get y) := by
  obtain ⟨g, out, seeded, bounded, mon₁, mon₂, hg, hout, hseed, hbounded, hfolded⟩ := analyze_phases h
  refine ⟨g, out, mon₁, hg, hout, fun q hq y hy hne => ?_⟩
  have hadded := Propagation.added_seed hseed
  obtain ⟨hoff, _⟩ | ⟨_, hfolded⟩ := hfolded
  · rw [hon] at hoff
    cases hoff
  · obtain ⟨t, t', _, _, hkeeps, _, hfold, hafter⟩ := exists_foldPruned hp hadded hbounded hfolded hq
    have hcovers := covers_foldPruned (Store.unmerged_ofProgram p) hkeeps
      (fun _ hy _ => field_of_pruned hp hg hadded hy) hfold y hy hne
    exact hcovers.of_interface_eq hafter.2 hafter.1

end Summary

variable {p : Program} {o : Options}

/-- If pruned calls are folded, then for each call of a procedure that was pruned and has candidates propagated to it, one
candidate of the procedure's registered interface stands for all of these, and only one. -/
theorem pruned_calls_covered (hp : p.Built) (hfold : o.foldPruned = true) {stats : Statistics}
    {session session' : Session} (h : summarize p o session = .ok stats session') :
    ∃ g out mon registered, p.callGraph.withoutDispatch = .ok g ∧
      propagate p g (Store.ofProgram p) o.gatedPropagation session.monitor = .ok out mon ∧
      session'.registered = session.registered ++ registered ∧
      registered.map Registration.procedure = p.procedures ∧
      ∀ r ∈ registered, ∀ y ∈ g.callees r.procedure.node, g.isMember y = false → (∃ c, c ∈ out.get y) →
        ∃! c, c ∈ r.interface ∧ ∀ d ∈ out.get y, d ∈ r.store.originOf c := by
  obtain ⟨s, mon, hanalyze, hregistered⟩ := summarize_eq_ok h
  obtain ⟨g, out, mon₁, hg, hout, hcovers⟩ := Summary.covers_analyze hp hfold hanalyze
  obtain ⟨g', out', mon₂, hg', hout', hparted⟩ := Summary.partedWithin_analyze hp hanalyze
  obtain rfl : g = g' := Except.ok.inj (hg.symm.trans hg')
  obtain ⟨rfl, _⟩ := EStateM.Result.ok.inj (hout.symm.trans hout')
  refine ⟨g, out, mon₁, _, hg, hout, hregistered, by simp [Function.comp_def], fun r hr y hy hmember hne => ?_⟩
  obtain ⟨q, hq, rfl⟩ := List.mem_map.1 hr
  have hpruned : y ∈ Summary.prunedCallees g q.node := List.mem_filter.2 ⟨hy, by simp [hmember]⟩
  obtain ⟨c, hc, hall⟩ := hcovers q hq y hpruned hne
  obtain ⟨_, _, hparts, _⟩ := hparted q hq
  refine ⟨c, ⟨IdSet.mem_toList.2 hc, hall⟩, fun c' hc' => ?_⟩
  obtain ⟨hc', hall'⟩ := hc'
  obtain ⟨d, hd⟩ := hne
  exact hparts.unique c' (IdSet.mem_toList.1 hc') c hc d (hall' d hd) (hall d hd)

/-- The walker is pruned itself and calls itself; both other calls are pruned, and what they access overlaps. -/
def selfPrunedCalls : CallGraph where
  nodes := ⟨#[⟨"walk", .normal, [⟨⟨0⟩, IdSet.singleton ⟨1⟩, IdSet.singleton ⟨2⟩, none, .no⟩,
      ⟨⟨1⟩, IdSet.singleton ⟨2⟩, IdSet.singleton ⟨2⟩, none, .no⟩], [⟨1⟩, ⟨2⟩, ⟨0⟩], [⟨0⟩]⟩,
    ⟨"log", .normal, [⟨⟨2⟩, IdSet.singleton ⟨7⟩, ∅, none, .no⟩,
      ⟨⟨1⟩, IdSet.singleton ⟨2⟩, IdSet.singleton ⟨2⟩, none, .no⟩], [], [⟨0⟩]⟩,
    ⟨"dump", .normal, [⟨⟨2⟩, IdSet.singleton ⟨7⟩, ∅, none, .no⟩, ⟨⟨3⟩, IdSet.singleton ⟨8⟩, ∅, none, .no⟩], [], [⟨0⟩]⟩]⟩
  members := ∅

theorem built_selfPrunedCalls : selfPrunedCalls.Built := by
  have nodes := ((CallGraph.Built.empty.addNode "walk" .normal).addNode "log" .normal).addNode "dump" .normal
  have calls := ((nodes.addEdge (x := ⟨0⟩) (y := ⟨1⟩) rfl).addEdge (x := ⟨0⟩) (y := ⟨2⟩) rfl).addEdge (x := ⟨0⟩)
    (y := ⟨0⟩) rfl
  have walk := (calls.addAccess (x := ⟨0⟩) (a := ⟨⟨0⟩, IdSet.singleton ⟨1⟩, IdSet.singleton ⟨2⟩, none, .no⟩) rfl).addAccess
    (x := ⟨0⟩) (a := ⟨⟨1⟩, IdSet.singleton ⟨2⟩, IdSet.singleton ⟨2⟩, none, .no⟩) rfl
  have log := (walk.addAccess (x := ⟨1⟩) (a := ⟨⟨2⟩, IdSet.singleton ⟨7⟩, ∅, none, .no⟩) rfl).addAccess
    (x := ⟨1⟩) (a := ⟨⟨1⟩, IdSet.singleton ⟨2⟩, IdSet.singleton ⟨2⟩, none, .no⟩) rfl
  have dump := (log.addAccess (x := ⟨2⟩) (a := ⟨⟨2⟩, IdSet.singleton ⟨7⟩, ∅, none, .no⟩) rfl).addAccess
    (x := ⟨2⟩) (a := ⟨⟨3⟩, IdSet.singleton ⟨8⟩, ∅, none, .no⟩) rfl
  exact ((dump.setMember ⟨0⟩ false).setMember ⟨1⟩ false).setMember ⟨2⟩ false

def selfPrunedProgram : Program := { Program.empty.addProcedure listWalker with callGraph := selfPrunedCalls }

theorem built_selfPrunedProgram : selfPrunedProgram.Built :=
  (Program.Built.empty.addProcedure _).setCallGraph built_selfPrunedCalls

theorem covered_in_selfPrunedProgram : selfPrunedProgram.Built ∧ Options.standard.foldPruned = true ∧
    ∃ stats session r, summarize selfPrunedProgram .standard ⟨.never, []⟩ = .ok stats session ∧
      session.registered = [r] ∧
      (∃! c, c ∈ r.interface ∧ ∀ d ∈ IdSet.ofList [⟨0⟩, ⟨1⟩], d ∈ r.store.originOf c) ∧
      (∃! c, c ∈ r.interface ∧ ∀ d ∈ IdSet.ofList [⟨1⟩, ⟨2⟩], d ∈ r.store.originOf c) ∧
      ∃! c, c ∈ r.interface ∧ ∀ d ∈ IdSet.ofList [⟨2⟩, ⟨3⟩], d ∈ r.store.originOf c := by
  obtain ⟨stats, s, hprepare⟩ := Summary.exists_returns_prepare built_selfPrunedProgram .standard
  obtain ⟨mon, hok, _⟩ | ⟨hcancels, _⟩ := hprepare .never
  · have hrun : summarize selfPrunedProgram .standard ⟨.never, []⟩ =
        .ok stats ⟨mon, Summary.registrations selfPrunedProgram s⟩ := Summary.summarize_of_ok hok
    obtain ⟨out, mon', hout, hwalk, hlog, hdump⟩ : ∃ out mon', propagate selfPrunedProgram selfPrunedCalls
        (Store.ofProgram selfPrunedProgram) true .never = .ok out mon' ∧ out.get ⟨0⟩ = IdSet.ofList [⟨0⟩, ⟨1⟩] ∧
          out.get ⟨1⟩ = IdSet.ofList [⟨1⟩, ⟨2⟩] ∧ out.get ⟨2⟩ = IdSet.ofList [⟨2⟩, ⟨3⟩] := by
      decide +kernel
    obtain ⟨g, out', _, registered, hg, hout', heq, _, hcovered⟩ :=
      pruned_calls_covered built_selfPrunedProgram rfl hrun
    obtain rfl : selfPrunedCalls = g := Except.ok.inj hg
    obtain ⟨rfl, _⟩ := EStateM.Result.ok.inj (hout.symm.trans hout')
    obtain rfl : Summary.registrations selfPrunedProgram s = registered := heq
    have hcallees : ∀ y : CallNode, y ∈ [⟨1⟩, ⟨2⟩, ⟨0⟩] → y ∈ selfPrunedCalls.callees listWalker.node := fun _ hy => hy
    have hcalls := hcovered _ (List.mem_singleton_self _)
    have hself := hcalls ⟨0⟩ (hcallees _ (by decide)) rfl ⟨⟨0⟩, by rw [hwalk]; decide⟩
    have hfirst := hcalls ⟨1⟩ (hcallees _ (by decide)) rfl ⟨⟨1⟩, by rw [hlog]; decide⟩
    have hsecond := hcalls ⟨2⟩ (hcallees _ (by decide)) rfl ⟨⟨2⟩, by rw [hdump]; decide⟩
    rw [hwalk] at hself
    rw [hlog] at hfirst
    rw [hdump] at hsecond
    exact ⟨built_selfPrunedProgram, rfl, stats, _, _, hrun, rfl, hself, hfirst, hsecond⟩
  · exact absurd Monitor.neverCancels_never hcancels

end HeapSummary
