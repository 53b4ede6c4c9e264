import HeapSummary.Proofs.OriginPartition
import HeapSummary.Total

/-!
# Reports add up

Every pass is a run of edits, and no edit makes an interface larger: a merge puts one candidate in the place of a group
that is not empty. So the differences that passes note are the true ones, and they add up to what bounding removed.

A summary lists a report for each procedure, in order. The course of a procedure through the run is this: its interface
is as seeded when its turn comes to be bounded, as bounded when the turn comes to fold pruned calls into it, and as
registered from then on.
-/

namespace HeapSummary

open Relation (ReflTransGen)

/-! ### Sizes -/

namespace Bounding

variable {b b' : Bounding} {group : List Candidate} {m : Candidate}

theorem Removes.size_le (h : Removes b b') : b'.size ≤ b.size := by
  obtain ⟨c, hremove⟩ := h
  apply IdSet.size_le_of_subset
  intro d hd
  exact (((removed_remove hremove).interface d).1 hd).1

theorem Merging.size_le (h : Merging b group b' m) : b'.size ≤ b.size := by
  obtain ⟨c, hc⟩ := h.nonempty
  have hsub : b'.interface.size ≤ ((b.interface.erase c).insert m).size := by
    apply IdSet.size_le_of_subset
    intro d hd
    rcases h.mem_interface.1 hd with rfl | ⟨hin, hout⟩
    · exact IdSet.mem_insert.2 (.inl rfl)
    · have hne : d ≠ c := fun heq => hout (heq ▸ hc)
      exact IdSet.mem_insert.2 (.inr (IdSet.mem_erase.2 ⟨hne, hin⟩))
  have hinsert := IdSet.size_insert_le (b.interface.erase c) m
  have herase := IdSet.size_erase_add_one (h.members c hc)
  show b'.interface.size ≤ b.interface.size
  omega

theorem size_le_of_edits (h : ReflTransGen Edits b b') : b'.size ≤ b.size := by
  induction h with
  | refl => exact Nat.le_refl _
  | tail _ hstep ih =>
    rcases hstep with hremoves | ⟨group, m, hmerge⟩
    · exact Nat.le_trans hremoves.size_le ih
    · exact Nat.le_trans hmerge.size_le ih

end Bounding

theorem Pass.size_runAll {o : Options} {immutables : IdSet .type} {passes : List Pass} {b last : Bounding}
    {removed : List (Pass × Nat)} (hb : b.Exact) (h : runAll o immutables passes b = .ok (last, removed)) :
    b.size = last.size + total Prod.snd removed := by
  induction passes generalizing b removed with
  | nil =>
    cases h
    rfl
  | cons pass passes ih =>
    unfold runAll at h
    split at h
    · exact ih hb h
    · rename_i r hsome
      simp only [Outcome.bind_eq_ok, Outcome.pure_eq_ok] at h
      obtain ⟨next, rfl, ⟨last', rest⟩, hrest, h⟩ := h
      cases h
      have hedits := Runs.edits hb (.inr hsome)
      have hnext := Bounding.size_le_of_edits hedits
      have hrest : next.size = last'.size + total Prod.snd rest := ih (hb.edits hedits) hrest
      show b.size = last'.size + (b.size - next.size + total Prod.snd rest)
      omega

/-! ### Reports -/

/-- The report tells how the interface of `p` in `s` became that in `s'`. -/
structure Report.Tells (r : Report) (p : Procedure) (s s' : Store) : Prop where
  node : r.node = p.node
  name : r.name = p.name
  initial : r.initial = (s.interface p.node).size
  final : r.final = (s'.interface p.node).size
  removed : r.initial = r.final + total Prod.snd r.passes

namespace Bounding

variable {o : Options} {immutables : IdSet .type} {s₀ s s' : Store} {p : Procedure} {ps : List Procedure}
  {report : Report} {reports : List Report} {mon mon' : Monitor}

theorem tells_run (h : Bounding.run o immutables s p = .ok (s', report)) : report.Tells p s s' := by
  obtain ⟨first, last, passes, hfirst, hlast, rfl, rfl⟩ := run_eq_ok h
  refine ⟨rfl, rfl, ?_, ?_, Pass.size_runAll (exact_start hfirst) hlast⟩
  · show first.interface.size = (s.interface p.node).size
    rw [Bounding.interface, Bounding.node, procedure_start hfirst, interface_start hfirst]
  · show last.interface.size = (last.store.interface p.node).size
    rw [Bounding.interface, node_passes hfirst hlast]

open Summary (Undisturbed undisturbed_refl undisturbed_trans)

theorem undisturbed_run (h : Bounding.run o immutables s p = .ok (s', report)) {y : CallNode} (hy : y ≠ p.node) :
    Undisturbed y s s' :=
  ⟨interface_run_of_ne h hy, keeps_run h⟩

/-- Every procedure is bounded in turn, from the interface that it had at first to the one that it has in the end. -/
theorem reports_runAll (hnodes : (ps.map Procedure.node).Nodup) (hbefore : ∀ q ∈ ps, Undisturbed q.node s₀ s)
    (h : Bounding.runAll o immutables ps s mon = .ok (s', reports) mon') :
    List.Forall₂ (fun q report => ∃ t t', Undisturbed q.node s₀ t ∧ Bounding.run o immutables t q = .ok (t', report) ∧
      Undisturbed q.node t' s') ps reports := by
  induction ps generalizing s mon reports with
  | nil =>
    obtain ⟨heq, _⟩ := Outcome.pure_run_eq_ok.1 h
    cases heq
    exact .nil
  | cons p ps ih =>
    simp only [Bounding.runAll, Outcome.bind_run_eq_ok, Polled.attempt_eq_ok] at h
    obtain ⟨_, _, _, ⟨t, report⟩, _, ⟨hrun, _⟩, ⟨t', rest⟩, _, hrest, h⟩ := h
    obtain ⟨heq, rfl⟩ := Outcome.pure_run_eq_ok.1 h
    cases heq
    obtain ⟨hp, hnodes⟩ := List.nodup_cons.1 hnodes
    have hafter : Undisturbed p.node t t' := (inTurn_runAll hrest).aside (R := Undisturbed) undisturbed_refl
      undisturbed_trans (fun _ _ _ hrun _ hy => hrun.elim fun _ hrun => undisturbed_run hrun hy) hp
    refine .cons ⟨s, t, hbefore p List.mem_cons_self, hrun, hafter⟩ (ih hnodes (fun q hq => ?_) hrest)
    have hne : q.node ≠ p.node := fun heq => hp (heq ▸ List.mem_map_of_mem hq)
    exact undisturbed_trans _ _ _ _ (hbefore q (List.mem_cons_of_mem p hq)) (undisturbed_run hrun hne)

end Bounding

/-! ### The whole run -/

namespace Summary

/-- How a procedure came to its report and to its interface in the end: it was bounded in its turn, and then pruned calls
were folded into it, if they were to be. -/
inductive Course (o : Options) (immutables : IdSet .type) (g : CallGraph) (out : Propagation) (seeded s : Store)
    (q : Procedure) (report : Report) : Prop
  | kept {t t' : Store} (hoff : o.foldPruned = false) (hbefore : Undisturbed q.node seeded t)
      (hrun : Bounding.run o immutables t q = .ok (t', report)) (hafter : Undisturbed q.node t' s)
  | folded {t t' u u' : Store} {mon mon' : Monitor} {bounded : Report} (hon : o.foldPruned = true)
      (hbefore : Undisturbed q.node seeded t) (hrun : Bounding.run o immutables t q = .ok (t', bounded))
      (hbetween : Undisturbed q.node t' u) (hkeeps : seeded.Keeps u) (hfold : foldPruned g out u q mon = .ok u' mon')
      (hafter : Undisturbed q.node u' s) (hreport : report = refresh s bounded)

variable {p : Program} {o : Options} {stats : Statistics} {s : Store} {mon mon' : Monitor}

theorem course_analyze (hp : p.Built) (h : analyze p o mon = .ok (stats, s) mon') :
    ∃ g out seeded mon₁ mon₂, p.callGraph.withoutDispatch = .ok g ∧
      propagate p g (Store.ofProgram p) o.gatedPropagation mon = .ok out mon₁ ∧
      out.seed g (Store.ofProgram p) mon₁ = .ok seeded mon₂ ∧
      List.Forall₂ (Course o (p.typesNamed o.immutableTypes) g out seeded s) p.procedures stats.reports := by
  simp only [analyze, Outcome.bind_run_eq_ok, Polled.attempt_eq_ok] at h
  obtain ⟨g, _, ⟨hg, rfl⟩, out, mon₁, hout, seeded, mon₂, hseed, ⟨bounded, reports⟩, _, hbounded, h⟩ := h
  refine ⟨g, out, seeded, mon₁, mon₂, hg, hout, hseed, ?_⟩
  have hcourse := Bounding.reports_runAll hp.nodup_nodes (fun q _ => undisturbed_refl q.node seeded) hbounded
  split at h
  · rename_i hon
    obtain ⟨folded, _, hfolded, h⟩ := Outcome.bind_run_eq_ok.1 h
    obtain ⟨heq, _⟩ := Outcome.pure_run_eq_ok.1 h
    cases heq
    have hfold := fun q hq => exists_foldPruned hp (Propagation.added_seed hseed) (inTurn_runAll hbounded)
      (inTurn_foldPruned hfolded) (q := q) hq
    rw [List.forall₂_map_right_iff]
    refine ((List.forall₂_and_left _ _).2 ⟨fun q hq => hq, hcourse⟩).imp ?_
    rintro q r ⟨hq, t, t', hbefore, hrun, hafter⟩
    obtain ⟨u, u', _, _, hown, hbetween, hfold, hlast⟩ := hfold q hq
    have hkeeps : seeded.Keeps u :=
      ((inTurn_runAll hbounded).keeps fun _ _ _ hrun => hrun.elim fun _ => Bounding.keeps_run).trans hbetween.2
    exact .folded hon hbefore hrun (undisturbed_trans _ _ _ _ hafter hbetween) hkeeps hfold hlast rfl
  · rename_i hoff
    obtain ⟨heq, _⟩ := Outcome.pure_run_eq_ok.1 h
    cases heq
    refine hcourse.imp ?_
    rintro q r ⟨t, t', hbefore, hrun, hafter⟩
    exact .kept (Bool.not_eq_true _ ▸ hoff) hbefore hrun hafter

theorem Course.report {immutables : IdSet .type} {g : CallGraph} {out : Propagation} {seeded : Store} {q : Procedure}
    {report : Report} (h : Course o immutables g out seeded s q report) : ∃ t t' bounded,
      Undisturbed q.node seeded t ∧ Bounding.run o immutables t q = .ok (t', bounded) ∧
      report = { bounded with final := (s.interface q.node).size } ∧
      (o.foldPruned = false → report = bounded ∧ Undisturbed q.node t' s) := by
  cases h with
  | @kept t t' hoff hbefore hrun hafter =>
    refine ⟨t, t', report, hbefore, hrun, ?_, fun _ => ⟨rfl, hafter⟩⟩
    rw [hafter.1, ← (Bounding.tells_run hrun).final]
  | @folded t t' _ _ _ _ bounded hon hbefore hrun _ _ _ _ hreport =>
    refine ⟨t, t', bounded, hbefore, hrun, ?_, fun hoff => by simp [hon] at hoff⟩
    rw [hreport, refresh, (Bounding.tells_run hrun).node]

end Summary

open Bounding (Reached)

/-- No pass makes an interface larger, so the report of bounding adds up: the interface had its candidates in the end
and all those that passes removed. A summary has one report and one registration for each procedure, in order. The report
is that of bounding, but for the size in the end, which is that of the registered interface; and if no pruned calls are
folded then it is that of bounding. -/
theorem reports_add_up {p : Program} (hp : p.Built) (o : Options) :
    (∀ (s : Store) (q : Procedure) (b b' : Bounding) (pass : Pass), Reached s q b →
      pass.result? o (p.typesNamed o.immutableTypes) b = some (.ok b') → b'.size ≤ b.size) ∧
    (∀ s q s' report, Bounding.run o (p.typesNamed o.immutableTypes) s q = .ok (s', report) →
      report.initial = (s.interface q.node).size ∧ report.final = (s'.interface q.node).size ∧
      report.initial = report.final + total Prod.snd report.passes) ∧
    ∀ session stats session', summarize p o session = .ok stats session' →
      ∃ registered, session'.registered = session.registered ++ registered ∧
        registered.map Registration.procedure = p.procedures ∧
        List.Forall₂ (fun report r => report.node = r.procedure.node ∧ report.name = r.procedure.name ∧
            report.final = r.interface.length ∧
            (∃ s s' bounded, Bounding.run o (p.typesNamed o.immutableTypes) s r.procedure = .ok (s', bounded) ∧
              report = { bounded with final := r.interface.length }) ∧
            (o.foldPruned = false → report.initial = report.final + total Prod.snd report.passes))
          stats.reports registered := by
  refine ⟨fun s q b b' pass hb h => ?_, fun s q s' report h => ?_, fun session stats session' h => ?_⟩
  · exact Bounding.size_le_of_edits (Pass.Runs.edits hb.exact.1 (.inr h))
  · have htells := Bounding.tells_run h
    exact ⟨htells.initial, htells.final, htells.removed⟩
  obtain ⟨s, mon, hanalyze, hregistered⟩ := summarize_eq_ok h
  obtain ⟨g, out, seeded, _, _, _, _, _, hcourse⟩ := Summary.course_analyze hp hanalyze
  refine ⟨_, hregistered, by simp [Function.comp_def], ?_⟩
  rw [List.forall₂_map_right_iff]
  refine hcourse.flip.imp fun report q hq => ?_
  obtain ⟨t, t', bounded, _, hrun, hreport, hsame⟩ := hq.report
  rw [← IdSet.length_toList] at hreport
  have htells := Bounding.tells_run hrun
  refine ⟨?_, ?_, ?_, ⟨t, t', bounded, hrun, hreport⟩, fun hoff => ?_⟩
  · rw [hreport, htells.node]
  · rw [hreport, htells.name]
  · rw [hreport]
  · rw [(hsame hoff).1]
    exact htells.removed

/-- Cells under one parent are merged, and pruned calls are left out. -/
def mergingOptions : Options := { keepingOptions with foldPruned := false }

/-- The walker has three candidates at first. Two of them, for cells under one parent, become one. -/
theorem reports_of_overlappingProgram : overlappingProgram.Built ∧
    (∃ b b', Reached Bounding.listWalk Bounding.walk b ∧
      Pass.mergeSharedFields.result? mergingOptions ∅ b = some (.ok b') ∧ b'.size ≤ b.size) ∧
    ∃ stats session report r, summarize overlappingProgram mergingOptions ⟨.never, []⟩ = .ok stats session ∧
      stats.reports = [report] ∧ session.registered = [r] ∧ report.passes = [(.mergeSharedFields, 1)] ∧
      report.initial = 3 ∧ r.interface = [⟨0⟩, ⟨5⟩] ∧ report.final = r.interface.length ∧
      report.initial = report.final + total Prod.snd report.passes := by
  have hbuilt : overlappingProgram.Built := (Program.Built.empty.addProcedure _).setCallGraph built_overlappingCall
  obtain ⟨hpass, _, hsummary⟩ := reports_add_up hbuilt mergingOptions
  obtain ⟨⟨stats, t⟩, _, hanalyze, rfl, hinterface, htold⟩ : ∃ result mon,
      Summary.analyze overlappingProgram mergingOptions .never = .ok result mon ∧ mon = .never ∧
        (result.2.interface ⟨0⟩).toList = [⟨0⟩, ⟨5⟩] ∧
        (result.1.reports.map fun report => (report.passes, report.initial)) = [([(.mergeSharedFields, 1)], 3)] := by
    decide +kernel
  obtain ⟨report, hreports, hreport⟩ := List.map_eq_singleton_iff.1 htold
  obtain ⟨hpasses, hinitial⟩ := Prod.mk.inj hreport
  have hsession : summarize overlappingProgram mergingOptions ⟨.never, []⟩ =
      .ok stats ⟨.never, [⟨listWalker, (t.interface ⟨0⟩).toList, t⟩]⟩ := by
    refine Outcome.bind_run_eq_ok.2 ⟨(stats, t), ⟨.never, []⟩, ?_, rfl⟩
    rw [Recorded.polled, hanalyze]
  refine ⟨hbuilt, ?_, stats, _, report, _, hsession, hreports, rfl, hpasses, hinitial, hinterface, ?_⟩
  · obtain ⟨b, b', hreached, hmerge⟩ : ∃ b b', Reached Bounding.listWalk Bounding.walk b ∧
        b.mergeSharedFields = .ok b' :=
      ⟨_, _, .start rfl, rfl⟩
    exact ⟨b, b', hreached, congrArg some hmerge, hpass _ _ _ _ .mergeSharedFields hreached (congrArg some hmerge)⟩
  · obtain ⟨registered, heq, _, hall⟩ := hsummary _ _ _ hsession
    obtain rfl : [⟨listWalker, (t.interface ⟨0⟩).toList, t⟩] = registered := heq
    rw [hreports] at hall
    obtain ⟨_, _, hfinal, _, hsum⟩ := (List.forall₂_cons.1 hall).1
    exact ⟨hfinal, hsum rfl⟩

end HeapSummary
