import HeapSummary.Proofs.Absorption
import HeapSummary.Proofs.Summary

/-!
# Interfaces stay within the limit

With a limit on interfaces, with unreachable candidates cut and at least one layer asked for, a bounded interface has at
most as many candidates as the limit says, or one. Folding pruned calls adds at most one candidate for each of them.

The first pass makes all candidates reached, the others keep them so, and what the last pass needs is just that.
-/

namespace HeapSummary

variable {o : Options} {limit : Nat} {immutables : IdSet .type}

namespace Pass

variable {pass : Pass} {b b' last : Bounding} {removed : List (Pass × Nat)}

theorem Runs.keeps (hcut : o.cutUnreachable = true) (h : Runs o immutables pass b b')
    (hb : b.Exact ∧ b.AllReached) : b'.Exact ∧ b'.AllReached := by
  refine ⟨hb.1.edits (h.edits hb.1), ?_⟩
  obtain ⟨_, hunreachable⟩ | ⟨_, himm⟩ | hmerges := h.cases hb.1
  · exact Bounding.allReached_cutUnreachable hb.1 hunreachable
  · exact hb.2.cutImmutables hb.1 (hcut ▸ himm)
  · exact hb.2.merges hb.1 hmerges

/-- The last pass does nothing to an interface within the limit, and brings any other within it. -/
theorem size_mergeBelowDepth (hdepth : 1 ≤ o.mergeDepth) (hlimit : o.maxInterface = some limit)
    (h : Runs o immutables .mergeBelowDepth b b') (hb : b.Exact ∧ b.AllReached) : b'.size ≤ max 1 limit := by
  obtain ⟨hnone, rfl⟩ | hsome := h
  · have hfits : ¬ limit < b'.size := by
      simpa [result?, exceeded?, hlimit, Option.filter] using hnone
    exact Nat.le_trans (Nat.not_lt.1 hfits) (Nat.le_max_right 1 limit)
  · obtain ⟨max, hmax, hrun⟩ := Option.map_eq_some_iff.1 hsome
    obtain rfl : limit = max := by
      have hfilter := Option.eq_some_of_filter_eq_some hmax
      rw [hlimit] at hfilter
      exact Option.some.inj hfilter
    exact Bounding.size_mergeBelowDepth hb.1 hb.2 hdepth hrun

theorem size_runAll_order (hcut : o.cutUnreachable = true) (hdepth : 1 ≤ o.mergeDepth)
    (hlimit : o.maxInterface = some limit) (hb : b.Exact) (h : runAll o immutables order b = .ok (last, removed)) :
    last.size ≤ max 1 limit := by
  obtain ⟨b₁, _, h₁, h⟩ := runAll_cons_eq_ok h
  obtain ⟨b₂, _, h₂, h⟩ := runAll_cons_eq_ok h
  obtain ⟨b₃, _, h₃, h⟩ := runAll_cons_eq_ok h
  obtain ⟨b₄, _, h₄, h⟩ := runAll_cons_eq_ok h
  obtain ⟨b₅, _, h₅, h⟩ := runAll_cons_eq_ok h
  obtain ⟨b₆, _, h₆, h⟩ := runAll_cons_eq_ok h
  cases h
  have hfirst : b.cutUnreachable = .ok b₁ := by
    simpa [Runs, result?, hcut] using h₁
  have hb₁ : b₁.Exact ∧ b₁.AllReached := ⟨hb.edits (h₁.edits hb), Bounding.allReached_cutUnreachable hb hfirst⟩
  have hb₅ : b₅.Exact ∧ b₅.AllReached := h₅.keeps hcut (h₄.keeps hcut (h₃.keeps hcut (h₂.keeps hcut hb₁)))
  exact size_mergeBelowDepth hdepth hlimit h₆ hb₅

end Pass

theorem Bounding.size_run (hcut : o.cutUnreachable = true) (hdepth : 1 ≤ o.mergeDepth)
    (hlimit : o.maxInterface = some limit) {s s' : Store} {p : Procedure} {report : Report}
    (h : Bounding.run o immutables s p = .ok (s', report)) : (s'.interface p.node).size ≤ max 1 limit := by
  obtain ⟨first, last, passes, hfirst, hlast, rfl, _⟩ := Bounding.run_eq_ok h
  have hsize := Pass.size_runAll_order hcut hdepth hlimit (exact_start hfirst) hlast
  rwa [Bounding.size, Bounding.interface, node_passes hfirst hlast] at hsize

/-- Bounding leaves every interface within the limit, or with one candidate, and the interface that a summary registers
for a procedure has at most one candidate more for each pruned call that was folded into it. -/
theorem interface_within_limit (hcut : o.cutUnreachable = true) (hdepth : 1 ≤ o.mergeDepth)
    (hlimit : o.maxInterface = some limit) :
    (∀ (immutables : IdSet .type) (s s' : Store) (p : Procedure) (report : Report),
      Bounding.run o immutables s p = .ok (s', report) → (s'.interface p.node).size ≤ max 1 limit) ∧
    ∀ (p : Program), p.Built → ∀ (session session' : Session) (stats : Statistics),
      summarize p o session = .ok stats session' → ∃ g registered, p.callGraph.withoutDispatch = .ok g ∧
        session'.registered = session.registered ++ registered ∧
        registered.map Registration.procedure = p.procedures ∧
        ∀ r ∈ registered, r.interface.length ≤
          max 1 limit + if o.foldPruned then (Summary.prunedCallees g r.procedure.node).length else 0 := by
  refine ⟨fun _ _ _ _ _ => Bounding.size_run hcut hdepth hlimit, fun p hp session session' stats h => ?_⟩
  obtain ⟨s, mon, hanalyze, hregistered⟩ := summarize_eq_ok h
  obtain ⟨g, out, seeded, bounded, hg, hbounded, hfolded⟩ := analyze_eq_ok hanalyze
  refine ⟨g, _, hg, hregistered, by simp [Function.comp_def], fun r hr => ?_⟩
  obtain ⟨q, hq, rfl⟩ := List.mem_map.1 hr
  show (s.interface q.node).toList.length ≤ _
  rw [IdSet.length_toList]
  have hsize : (bounded.interface q.node).size ≤ max 1 limit := by
    obtain ⟨t, t', ⟨report, hrun⟩, _, hafter⟩ := hbounded.interface_of_mem
      (fun _ _ _ ⟨_, hrun⟩ _ hy => Bounding.interface_run_of_ne hrun hy) hp.nodup_nodes hq
    rw [hafter]
    exact Bounding.size_run hcut hdepth hlimit hrun
  obtain ⟨hoff, rfl⟩ | ⟨hon, hfolded⟩ := hfolded
  · rw [if_neg (by simp [hoff])]
    exact hsize
  · obtain ⟨t, t', ⟨mon₁, mon₂, hfold⟩, hbefore, hafter⟩ := hfolded.interface_of_mem
      (fun _ _ _ ⟨_, _, hfold⟩ => (Summary.interface_foldPruned hfold).2) hp.nodup_nodes hq
    have hfold := (Summary.interface_foldPruned hfold).1
    rw [if_pos hon, hafter]
    rw [hbefore] at hfold
    exact Nat.le_trans hfold (Nat.add_le_add_right hsize _)

/-- A procedure that walks over a list and calls another, which was pruned. -/
def prunedCall : CallGraph where
  nodes := ⟨#[⟨"walk", .normal, [⟨⟨0⟩, IdSet.singleton ⟨1⟩, IdSet.singleton ⟨2⟩, none, .no⟩,
      ⟨⟨1⟩, IdSet.singleton ⟨2⟩, IdSet.singleton ⟨2⟩, none, .no⟩], [⟨1⟩], []⟩,
    ⟨"log", .normal, [⟨⟨2⟩, IdSet.singleton ⟨7⟩, ∅, none, .no⟩], [], [⟨0⟩]⟩]⟩
  members := IdSet.ofList [⟨0⟩]

theorem built_prunedCall : prunedCall.Built := by
  have calls := ((CallGraph.Built.empty.addNode "walk" .normal).addNode "log" .normal).addEdge (x := ⟨0⟩) (y := ⟨1⟩) rfl
  have head := calls.addAccess (x := ⟨0⟩) (a := ⟨⟨0⟩, IdSet.singleton ⟨1⟩, IdSet.singleton ⟨2⟩, none, .no⟩) rfl
  have next := head.addAccess (x := ⟨0⟩) (a := ⟨⟨1⟩, IdSet.singleton ⟨2⟩, IdSet.singleton ⟨2⟩, none, .no⟩) rfl
  have log := next.addAccess (x := ⟨1⟩) (a := ⟨⟨2⟩, IdSet.singleton ⟨7⟩, ∅, none, .no⟩) rfl
  exact log.setMember ⟨1⟩ false

def listWalker : Procedure := ⟨⟨0⟩, "walk", none, false, [.formal "list" none (IdSet.singleton ⟨1⟩)]⟩

def prunedProgram : Program := { Program.empty.addProcedure listWalker with callGraph := prunedCall }

theorem built_prunedProgram : prunedProgram.Built := (Program.Built.empty.addProcedure _).setCallGraph built_prunedCall

/-- One candidate may stay, and pruned calls are folded. -/
def tightOptions : Options := ⟨true, false, false, [], false, true, false, some 1, 1⟩

/-- Two accesses become one candidate, and the pruned call adds the other. -/
theorem interface_of_prunedProgram :
    (∃ immutables s s' report, Bounding.run tightOptions immutables s listWalker = .ok (s', report) ∧
      (s'.interface ⟨0⟩).size ≤ max 1 1) ∧
    prunedProgram.Built ∧ ∃ stats session, summarize prunedProgram tightOptions ⟨.never, []⟩ = .ok stats session ∧
      session.registered.map Registration.interface = [[⟨2⟩, ⟨4⟩]] ∧
      ∀ r ∈ session.registered, r.interface.length ≤ max 1 1 + 1 := by
  obtain ⟨hbounded, hsummary⟩ := interface_within_limit (o := tightOptions) rfl (Nat.le_refl 1) rfl
  obtain ⟨⟨stats, t⟩, _, hanalyze, rfl, hinterface⟩ : ∃ result mon,
      Summary.analyze prunedProgram tightOptions .never = .ok result mon ∧ mon = .never ∧
        (result.2.interface ⟨0⟩).toList = [⟨2⟩, ⟨4⟩] := by
    decide +kernel
  have hsession : summarize prunedProgram tightOptions ⟨.never, []⟩ =
      .ok stats ⟨.never, [⟨listWalker, (t.interface ⟨0⟩).toList, t⟩]⟩ := by
    refine Outcome.bind_run_eq_ok.2 ⟨(stats, t), ⟨.never, []⟩, ?_, rfl⟩
    rw [Recorded.polled, hanalyze]
  have hprocedures : prunedProgram.procedures = [listWalker] := rfl
  refine ⟨?_, built_prunedProgram, stats, _, hsession, congrArg (fun cs => [cs]) hinterface, fun r hr => ?_⟩
  · obtain ⟨_, _, seeded, _, _, hturn, _⟩ := analyze_eq_ok hanalyze
    rw [hprocedures] at hturn
    obtain _ | ⟨⟨report, hrun⟩, _⟩ := hturn
    exact ⟨_, seeded, _, report, hrun, hbounded _ _ _ _ _ hrun⟩
  · obtain ⟨g, registered, hg, heq, hmap, hsize⟩ := hsummary _ built_prunedProgram _ _ _ hsession
    cases hg
    rw [List.nil_append] at heq
    rw [hprocedures, ← heq] at hmap
    have hproc : r.procedure = listWalker := List.mem_singleton.1 (hmap ▸ List.mem_map_of_mem hr)
    have hr := hsize r (heq ▸ hr)
    rwa [hproc] at hr

end HeapSummary
