import HeapSummary.Proofs.Faultless
import HeapSummary.Proofs.Reports

/-!
# Interfaces that end larger than they started

Bounding makes no interface larger, and folding a pruned call puts one candidate in the place of some. The candidates
that stand for part of what the interface started with are as many as that at most, since no two stand for the same. So
an interface grows only by candidates that stand for none of it. A fold makes such a candidate only if what is propagated
to the call is apart from what the interface started with. Plain propagation brings all of it to the caller, so nothing
is ever apart; gated propagation may keep it from the caller.
-/

namespace HeapSummary

/-- Has members, but none of the other set. -/
def IdSet.apartFrom {k : Kind} (s t : IdSet k) : Bool := !s.isEmpty && !s.intersects t

theorem IdSet.apartFrom_iff {k : Kind} {s t : IdSet k} :
    s.apartFrom t = true ↔ (∃ x, x ∈ s) ∧ ∀ x ∈ s, x ∉ t := by
  rw [apartFrom, Bool.and_eq_true, Bool.not_eq_true', Bool.not_eq_true', isEmpty_eq_false_iff, ← Bool.not_eq_true,
    intersects_iff]
  simp

/-! ### What an interface started with -/

namespace Store

variable {own s s' : Store} {x : CallNode} {c : Candidate} {cs folded : IdSet .candidate} {S : Set Candidate}
  {r : Option Candidate}

/-- The candidates of an interface that stand for part of the set. -/
def standing (s : Store) (x : CallNode) (cs : IdSet .candidate) : IdSet .candidate :=
  (s.interface x).filter fun c => (s.originOf c).intersects cs

/-- The candidates of an interface that stand for nothing in the set. -/
def foreign (s : Store) (x : CallNode) (cs : IdSet .candidate) : IdSet .candidate := s.interface x \ s.standing x cs

theorem mem_standing : c ∈ s.standing x cs ↔ c ∈ s.interface x ∧ ∃ o, o ∈ s.originOf c ∧ o ∈ cs := by
  rw [standing, IdSet.mem_filter, IdSet.intersects_iff]

theorem mem_foreign : c ∈ s.foreign x cs ↔ c ∈ s.interface x ∧ ∀ o ∈ s.originOf c, o ∉ cs := by
  rw [foreign, IdSet.mem_diff, mem_standing]
  constructor
  · rintro ⟨hc, hnot⟩
    exact ⟨hc, fun o ho hcs => hnot ⟨hc, o, ho, hcs⟩⟩
  · rintro ⟨hc, hnot⟩
    exact ⟨hc, fun ⟨_, o, ho, hcs⟩ => hnot o ho hcs⟩

theorem size_interface_eq (s : Store) (x : CallNode) (cs : IdSet .candidate) :
    (s.interface x).size = (s.standing x cs).size + (s.foreign x cs).size := by
  apply IdSet.size_eq_add
  · intro c
    rw [foreign, IdSet.mem_diff]
    have hsub : c ∈ s.standing x cs → c ∈ s.interface x := fun hc => (mem_standing.1 hc).1
    tauto
  · intro c hc hforeign
    exact (IdSet.mem_diff.1 hforeign).2 hc

/-- Origins are disjoint, so no more candidates stand for part of a set than it has members. -/
theorem Parted.size_standing_le (h : s.Parted x S) (cs : IdSet .candidate) : (s.standing x cs).size ≤ cs.size := by
  have hpick : ∀ c, ∃ o, c ∈ s.standing x cs → o ∈ s.originOf c ∧ o ∈ cs := by
    intro c
    by_cases hc : c ∈ s.standing x cs
    · obtain ⟨_, o, ho⟩ := mem_standing.1 hc
      exact ⟨o, fun _ => ho⟩
    · exact ⟨c, fun hin => absurd hin hc⟩
  choose pick hpick using hpick
  have hnodup : ((s.standing x cs).toList.map pick).Nodup := by
    refine List.pairwise_map.2 ((IdSet.toList_nodup _).imp_of_mem fun {c d} hc hd hne heq => hne ?_)
    rw [IdSet.mem_toList] at hc hd
    exact h.unique c (mem_standing.1 hc).1 d (mem_standing.1 hd).1 (pick c) (hpick c hc).1 (heq ▸ (hpick d hd).1)
  have hsub : (s.standing x cs).toList.map pick ⊆ cs.toList := by
    intro o ho
    obtain ⟨c, hc, rfl⟩ := List.mem_map.1 ho
    exact IdSet.mem_toList.2 (hpick c (IdSet.mem_toList.1 hc)).2
  have hlength := hnodup.length_le_of_subset hsub
  rwa [List.length_map, IdSet.length_toList, IdSet.length_toList] at hlength

/-- A fold makes at most one foreign candidate, and none unless what is folded is apart from the set. -/
theorem Parted.size_foreign_fold (h : s.Parted x S) (hself : ∀ c ∈ folded, s.originOf c = IdSet.singleton c)
    (hfold : s.fold x folded = .ok (s', r)) (cs : IdSet .candidate) :
    (s'.foreign x cs).size ≤ (s.foreign x cs).size + if folded.apartFrom cs then 1 else 0 := by
  obtain ⟨_, rfl, _⟩ | ⟨group, m, hmerge, _, _, hgroup⟩ := fold_eq_ok hfold
  · exact Nat.le_add_right _ _
  have hgathered := gathered_of_merge hmerge
  have hold : ∀ c ∈ s'.foreign x cs, c ≠ m → c ∈ s.foreign x cs := by
    intro c hc hne
    obtain ⟨hc, hnot⟩ := mem_foreign.1 hc
    have hin := (((hgathered.interface c).1 hc).resolve_left hne).1
    rw [h.originOf_eq hgathered.keeps hin] at hnot
    exact mem_foreign.2 ⟨hin, hnot⟩
  split
  · refine Nat.le_trans (IdSet.size_le_of_subset fun c hc => ?_) (IdSet.size_insert_le _ m)
    by_cases hne : c = m
    · exact IdSet.mem_insert.2 (.inl hne)
    · exact IdSet.mem_insert.2 (.inr (hold c hc hne))
  · rename_i hmeets
    apply IdSet.size_le_of_subset
    intro c hc
    apply hold c hc
    rintro rfl
    -- what is folded has a member of the set, and the merged candidate stands for it
    have hnonempty : ∃ d, d ∈ folded := by
      obtain ⟨d, hd⟩ := hgathered.nonempty
      rcases (hgroup d).1 hd with hd | ⟨_, e, he, _⟩
      · exact ⟨d, hd⟩
      · exact ⟨e, he⟩
    obtain ⟨o, ho, hcs⟩ : ∃ o ∈ folded, o ∈ cs := by
      by_contra hnone
      exact hmeets (IdSet.apartFrom_iff.2 ⟨hnonempty, fun o ho hcs => hnone ⟨o, ho, hcs⟩⟩)
    have horigin : o ∈ s.originOf o := by rw [hself o ho, IdSet.mem_singleton]
    exact (mem_foreign.1 hc).2 o ((hgathered.origin o).2 ⟨o, (hgroup o).2 (.inl ho), horigin⟩) hcs

end Store

/-! ### Folding pruned calls -/

namespace Summary

variable {p : Program} {o : Options} {g : CallGraph} {out : Propagation} {own s s' : Store} {q : Procedure}
  {mon mon' : Monitor} {cs : IdSet .candidate} {S : Set Candidate}

theorem size_foreign_foldPruned (hown : own.Unmerged) (hkeeps : own.Keeps s)
    (hout : ∀ y ∈ prunedCallees g q.node, ∀ c ∈ out.get y, ∃ u, own.field? c = some u)
    (h : foldPruned g out s q mon = .ok s' mon') (hs : s.Parted q.node S) (cs : IdSet .candidate) :
    (s'.foreign q.node cs).size ≤
      (s.foreign q.node cs).size + ((prunedCallees g q.node).filter fun y => (out.get y).apartFrom cs).length := by
  have hturn := inTurn_fold h
  clear h
  generalize prunedCallees g q.node = pruned at hout hturn ⊢
  induction hturn generalizing S with
  | nil s => exact Nat.le_refl _
  | @cons y rest s t s' hstep _ ih =>
    obtain ⟨r, hfold⟩ := hstep
    have hself : ∀ c ∈ out.get y, s.originOf c = IdSet.singleton c := by
      intro c hc
      obtain ⟨u, hu⟩ := hout y List.mem_cons_self c hc
      exact hown.originOf_eq hkeeps hu
    have hfirst := hs.size_foreign_fold hself hfold cs
    have hrest := ih (hkeeps.trans (Store.keeps_fold hfold)) (hs.fold hself hfold) fun z hz =>
      hout z (List.mem_cons_of_mem y hz)
    rw [List.filter_cons]
    split at hfirst <;> rename_i hapart
    · rw [if_pos hapart, List.length_cons]
      omega
    · rw [if_neg hapart]
      omega

theorem size_foldPruned (hown : own.Unmerged) (hkeeps : own.Keeps s)
    (hout : ∀ y ∈ prunedCallees g q.node, ∀ c ∈ out.get y, ∃ u, own.field? c = some u)
    (h : foldPruned g out s q mon = .ok s' mon') (hs : s.Parted q.node S) (hS : ∀ o ∈ S, o ∈ cs) :
    (s'.interface q.node).size ≤
      cs.size + ((prunedCallees g q.node).filter fun y => (out.get y).apartFrom cs).length := by
  have hnone : s.foreign q.node cs = ∅ := by
    apply IdSet.ext
    intro c
    refine ⟨fun hc => ?_, fun hc => absurd hc IdSet.not_mem_empty⟩
    obtain ⟨hc, hnot⟩ := Store.mem_foreign.1 hc
    obtain ⟨o, ho⟩ := hs.nonempty c hc
    exact absurd (hS o ((hs.union o).2 ⟨c, hc, ho⟩)) (hnot o ho)
  have hforeign := size_foreign_foldPruned hown hkeeps hout h hs cs
  have hstanding := (parted_foldPruned hown hkeeps hout h hs).size_standing_le cs
  rw [hnone] at hforeign
  rw [Store.size_interface_eq s' q.node cs]
  have hzero : (∅ : IdSet .candidate).size = 0 := rfl
  omega

/-! ### The whole run -/

/-- The pruned calls of `x` to which something is propagated, but nothing that is propagated to `x` or local to it. -/
def foreignCallees (p : Program) (g : CallGraph) (out : Propagation) (x : CallNode) : List CallNode :=
  (prunedCallees g x).filter fun y => (out.get y).apartFrom ((Store.ofProgram p).localsOf x ∪ out.get x)

theorem interface_seeded {seeded : Store} {x : CallNode} (hx : x ∈ g.ids)
    (hseed : out.seed g (Store.ofProgram p) mon = .ok seeded mon') :
    seeded.interface x = (Store.ofProgram p).localsOf x ∪ out.get x := by
  apply IdSet.ext
  intro c
  rw [(Propagation.added_seed hseed).interface, Store.showsLocals_ofProgram, IdSet.mem_union]
  exact or_congr_right (and_iff_right hx)

/-- Plain propagation brings to a node all that it brings to those that the node calls. -/
theorem foreignCallees_of_plain (hg : g.Mirrored) {x : CallNode} (hx : x ∈ g.ids)
    (hout : propagate p g (Store.ofProgram p) false mon = .ok out mon') : foreignCallees p g out x = [] := by
  obtain ⟨plain, hplain, hreach⟩ := Propagation.exists_returns_plain hg (Store.ofProgram p)
  obtain rfl := hplain.eq_of_ok hout
  apply List.filter_eq_nil_iff.2
  intro y hy hapart
  obtain ⟨⟨c, hc⟩, hnot⟩ := IdSet.apartFrom_iff.1 hapart
  have hcall : g.Calls x y := (List.mem_filter.1 hy).1
  obtain ⟨_, z, hyz, hlocal⟩ := (hreach y c).1 hc
  exact hnot c hc (IdSet.mem_union.2 (.inr ((hreach x c).2 ⟨hx, z, .head hcall hyz, hlocal⟩)))

theorem Course.final_le {immutables : IdSet .type} {seeded : Store} {report : Report} (hp : p.Built)
    (hg : p.callGraph.withoutDispatch = .ok g) (hseed : out.seed g (Store.ofProgram p) mon = .ok seeded mon')
    (hq : q ∈ p.procedures) (h : Course o immutables g out seeded s q report) :
    report.final ≤ report.initial + if o.foldPruned then (foreignCallees p g out q.node).length else 0 := by
  cases h with
  | @kept t t' hoff hbefore hrun hafter =>
    have hsum := (Bounding.tells_run hrun).removed
    omega
  | @folded t t' u u' _ _ bounded hon hbefore hrun hbetween hkeeps hfold hafter hreport =>
    have hx : q.node ∈ g.ids := CallGraph.ids_withoutDispatch hg ▸ hp.node_mem_ids hq
    have hadded := Propagation.added_seed hseed
    have hseeded := (parted_seeded hadded hx).of_interface_eq hbefore.2 hbefore.1
    obtain ⟨T, hT, hparted, _⟩ := (Bounding.partedWithin_run hrun hseeded).of_interface_eq hbetween.2 hbetween.1
    have hwithin : ∀ c ∈ T, c ∈ (Store.ofProgram p).localsOf q.node ∪ out.get q.node := fun c hc =>
      IdSet.mem_union.2 (hT hc)
    have hsize := size_foldPruned (Store.unmerged_ofProgram p) ((Store.keeps_of_arena hadded.arena).trans hkeeps)
      (fun _ hy _ => field_of_pruned hp hg hadded hy) hfold hparted hwithin
    have htells := Bounding.tells_run hrun
    have hinitial : report.initial = ((Store.ofProgram p).localsOf q.node ∪ out.get q.node).size := by
      rw [hreport, ← interface_seeded hx hseed, ← hbefore.1, ← htells.initial]
      rfl
    have hfinal : report.final = (u'.interface q.node).size := by
      rw [hreport, ← hafter.1, ← htells.node]
      rfl
    rw [if_pos hon, hinitial, hfinal]
    exact hsize

end Summary

/-- An interface ends with no more candidates than it started with and one for each foreign call, if pruned calls are
folded. So it never ends larger than it started if they are not folded, or if propagation is plain. -/
theorem final_size_bounded {p : Program} {o : Options} (hp : p.Built) {stats : Statistics} {session session' : Session}
    (h : summarize p o session = .ok stats session') :
    ∃ g out mon, p.callGraph.withoutDispatch = .ok g ∧
      propagate p g (Store.ofProgram p) o.gatedPropagation session.monitor = .ok out mon ∧
      List.Forall₂ (fun q report =>
          report.final ≤ report.initial + (if o.foldPruned then (Summary.foreignCallees p g out q.node).length else 0) ∧
          (o.foldPruned = false ∨ o.gatedPropagation = false → report.final ≤ report.initial))
        p.procedures stats.reports := by
  obtain ⟨s, mon, hanalyze, _⟩ := summarize_eq_ok h
  obtain ⟨g, out, seeded, mon₁, mon₂, hg, hout, hseed, hcourse⟩ := Summary.course_analyze hp hanalyze
  refine ⟨g, out, mon₁, hg, hout, ((List.forall₂_and_left _ _).2 ⟨fun q hq => hq, hcourse⟩).imp ?_⟩
  rintro q report ⟨hq, hcourse⟩
  have hfinal := hcourse.final_le hp hg hseed hq
  refine ⟨hfinal, fun hplain => ?_⟩
  rcases hplain with hoff | hplain
  · rwa [if_neg (by simp [hoff])] at hfinal
  · have hx : q.node ∈ g.ids := CallGraph.ids_withoutDispatch hg ▸ hp.node_mem_ids hq
    have hmirrored := (hp.callGraph_built.withoutDispatch hg).mirrored
    rw [hplain] at hout
    rw [Summary.foreignCallees_of_plain hmirrored hx hout, List.length_nil, ite_self] at hfinal
    exact hfinal

/-- Gated propagation keeps from the walker what is propagated to the pruned call, and plain propagation does not. So in the
first case the call may add a candidate, and in the second it adds none. -/
theorem final_size_prunedProgram : prunedProgram.Built ∧
    (∃ stats session report, summarize prunedProgram .standard ⟨.never, []⟩ = .ok stats session ∧
      stats.reports = [report] ∧ report.final ≤ report.initial + 1) ∧
    ∃ stats session report, summarize prunedProgram tightOptions ⟨.never, []⟩ = .ok stats session ∧
      stats.reports = [report] ∧ report.final ≤ report.initial := by
  have hsummary : ∀ o, ∃ stats session, summarize prunedProgram o ⟨.never, []⟩ = .ok stats session := by
    intro o
    obtain ⟨stats, s, hprepare⟩ := Summary.exists_returns_prepare built_prunedProgram o
    obtain ⟨mon, hok, _⟩ | ⟨hcancels, _⟩ := hprepare .never
    · exact ⟨stats, _, Summary.summarize_of_ok hok⟩
    · exact absurd Monitor.neverCancels_never hcancels
  have hsingle : ∀ {R : Procedure → Report → Prop} {reports : List Report},
      List.Forall₂ R prunedProgram.procedures reports → ∃ report, reports = [report] ∧ R listWalker report := by
    intro R reports hall
    obtain ⟨report, rest, hreport, hrest, rfl⟩ := List.forall₂_cons_left_iff.1 hall
    rw [List.forall₂_nil_left_iff.1 hrest]
    exact ⟨report, rfl, hreport⟩
  refine ⟨built_prunedProgram, ?_, ?_⟩
  · obtain ⟨stats, session, hrun⟩ := hsummary .standard
    obtain ⟨g, out, mon, hg, hout, hall⟩ := final_size_bounded built_prunedProgram hrun
    obtain ⟨out', mon', hout', hforeign⟩ : ∃ out' mon', propagate prunedProgram prunedCall
        (Store.ofProgram prunedProgram) true .never = .ok out' mon' ∧
          Summary.foreignCallees prunedProgram prunedCall out' ⟨0⟩ = [⟨1⟩] := by
      decide +kernel
    obtain rfl : prunedCall = g := Except.ok.inj hg
    obtain ⟨rfl, _⟩ := EStateM.Result.ok.inj (hout'.symm.trans hout)
    obtain ⟨report, hreports, hreport⟩ := hsingle hall
    have hfinal := hreport.1
    rw [show listWalker.node = ⟨0⟩ from rfl, hforeign] at hfinal
    exact ⟨stats, session, report, hrun, hreports, hfinal⟩
  · obtain ⟨stats, session, hrun⟩ := hsummary tightOptions
    obtain ⟨_, _, _, _, _, hall⟩ := final_size_bounded built_prunedProgram hrun
    obtain ⟨report, hreports, hreport⟩ := hsingle hall
    exact ⟨stats, session, report, hrun, hreports, hreport.2 (.inr rfl)⟩

/-- The walker accesses two candidates, and a third comes in with the pruned call. -/
theorem larger_in_prunedProgram : prunedProgram.Built ∧
    ∃ stats session report, summarize prunedProgram .standard ⟨.never, []⟩ = .ok stats session ∧
      stats.reports = [report] ∧ report.initial = 2 ∧ report.final = 3 := by
  obtain ⟨⟨stats, t⟩, _, hanalyze, rfl, hsizes⟩ : ∃ result mon,
      Summary.analyze prunedProgram .standard .never = .ok result mon ∧ mon = .never ∧
        (result.1.reports.map fun report => (report.initial, report.final)) = [(2, 3)] := by
    decide +kernel
  obtain ⟨report, hreports, hreport⟩ := List.map_eq_singleton_iff.1 hsizes
  obtain ⟨hinitial, hfinal⟩ := Prod.mk.inj hreport
  have hsession : summarize prunedProgram .standard ⟨.never, []⟩ =
      .ok stats ⟨.never, [⟨listWalker, (t.interface ⟨0⟩).toList, t⟩]⟩ := by
    refine Outcome.bind_run_eq_ok.2 ⟨(stats, t), ⟨.never, []⟩, ?_, rfl⟩
    rw [Recorded.polled, hanalyze]
  exact ⟨built_prunedProgram, stats, _, report, hsession, hreports, hinitial, hfinal⟩

end HeapSummary
