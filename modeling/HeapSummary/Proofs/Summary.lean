import HeapSummary.Proofs.Passes
import HeapSummary.Summary

/-!
# What a summary does to each interface

A summary works on one procedure after another, first to bound its interface and then to fold pruned calls into it.
Either step changes the interface of that procedure's node and no other, and procedures have nodes of their own. So the
interface that is registered for a procedure came about in its own two steps only.
-/

namespace HeapSummary

open Relation (ReflTransGen)

/-! ### Bounding one procedure -/

namespace Pass

variable {o : Options} {immutables : IdSet .type} {pass : Pass} {passes : List Pass} {b b' last : Bounding}
  {removed : List (Pass × Nat)}

/-- The pass took `b` to `b'`, or was not to run. -/
def Runs (o : Options) (immutables : IdSet .type) (pass : Pass) (b b' : Bounding) : Prop :=
  (pass.result? o immutables b = none ∧ b' = b) ∨ pass.result? o immutables b = some (.ok b')

theorem runAll_cons_eq_ok (h : runAll o immutables (pass :: passes) b = .ok (last, removed)) :
    ∃ next rest, Runs o immutables pass b next ∧ runAll o immutables passes next = .ok (last, rest) := by
  unfold runAll at h
  split at h
  · rename_i hnone
    exact ⟨b, removed, .inl ⟨hnone, rfl⟩, h⟩
  · rename_i r hsome
    simp only [Outcome.bind_eq_ok, Outcome.pure_eq_ok] at h
    obtain ⟨next, rfl, ⟨last', rest⟩, hrest, h⟩ := h
    cases h
    exact ⟨next, rest, .inr hsome, hrest⟩

theorem Runs.cases (hb : b.Exact) (h : Runs o immutables pass b b') :
    (o.cutUnreachable = true ∧ b.cutUnreachable = .ok b') ∨
    (o.cutImmutables = true ∧ b.cutImmutables immutables o.cutUnreachable = .ok b') ∨
    ReflTransGen Bounding.Merges b b' := by
  obtain ⟨_, rfl⟩ | h := h
  · exact .inr (.inr .refl)
  cases pass <;> simp only [result?, Option.ite_none_right_eq_some, Option.map_eq_some_iff, Option.some.injEq] at h
  case cutUnreachable => exact .inl h
  case mergeExceptions => exact .inr (.inr (Bounding.merges_mergeOnlyFrom hb h.2))
  case cutImmutables => exact .inr (.inl h)
  case mergeSharedFields => exact .inr (.inr (Bounding.merges_mergeUnder hb h.2))
  case mergeStatics =>
    obtain ⟨_, _, h⟩ := h
    exact .inr (.inr (Bounding.merges_mergeOnlyFrom hb h))
  case mergeBelowDepth =>
    obtain ⟨_, _, h⟩ := h
    exact .inr (.inr (Bounding.merges_mergeBelowDepth hb h))

theorem Runs.edits (hb : b.Exact) (h : Runs o immutables pass b b') : ReflTransGen Bounding.Edits b b' := by
  obtain ⟨_, hcut⟩ | ⟨_, himm⟩ | hmerges := h.cases hb
  · exact Bounding.edits_of_removes (Bounding.removes_cutUnreachable hcut)
  · exact Bounding.edits_cutImmutables hb himm
  · exact Bounding.edits_of_merges hmerges

theorem runAll_keeps {P : Bounding → Prop} (hpass : ∀ pass b b', P b → Runs o immutables pass b b' → P b') (hb : P b)
    (h : runAll o immutables passes b = .ok (last, removed)) : P last := by
  induction passes generalizing b removed with
  | nil =>
    cases h
    exact hb
  | cons pass passes ih =>
    obtain ⟨next, rest, hruns, hrest⟩ := runAll_cons_eq_ok h
    exact ih (hpass pass b next hb hruns) hrest

theorem edits_runAll (hb : b.Exact) (h : runAll o immutables passes b = .ok (last, removed)) :
    ReflTransGen Bounding.Edits b last := by
  refine runAll_keeps (fun pass b₁ b₂ hedits hruns => ?_) ReflTransGen.refl h
  exact hedits.trans (hruns.edits (hb.edits hedits))

end Pass

namespace Bounding

variable {o : Options} {immutables : IdSet .type} {s s' : Store} {p : Procedure} {report : Report}
  {passes : List Pass} {first last : Bounding} {removed : List (Pass × Nat)}

theorem run_eq_ok (h : Bounding.run o immutables s p = .ok (s', report)) : ∃ first last passes,
    Bounding.start s p = .ok first ∧ Pass.runAll o immutables Pass.order first = .ok (last, passes) ∧ s' = last.store ∧
      report = ⟨p.node, p.name, first.size, last.size, passes⟩ := by
  simp only [Bounding.run, Outcome.bind_eq_ok, Outcome.pure_eq_ok] at h
  obtain ⟨first, hfirst, ⟨last, passes⟩, hlast, h⟩ := h
  cases h
  exact ⟨first, last, passes, hfirst, hlast, rfl, rfl⟩

theorem sameFrame_passes (hfirst : Bounding.start s p = .ok first)
    (hlast : Pass.runAll o immutables passes first = .ok (last, removed)) : SameFrame first last :=
  sameFrame_of_edits (Pass.edits_runAll (exact_start hfirst) hlast)

theorem node_passes (hfirst : Bounding.start s p = .ok first)
    (hlast : Pass.runAll o immutables passes first = .ok (last, removed)) : last.node = p.node :=
  congrArg Procedure.node ((sameFrame_passes hfirst hlast).procedure.trans (procedure_start hfirst))

theorem keeps_run (h : Bounding.run o immutables s p = .ok (s', report)) : s.Keeps s' := by
  obtain ⟨first, last, passes, hfirst, hlast, rfl, _⟩ := run_eq_ok h
  exact (keeps_start hfirst).trans (sameFrame_passes hfirst hlast).candidates

theorem interface_run_of_ne (h : Bounding.run o immutables s p = .ok (s', report)) {y : CallNode} (hy : y ≠ p.node) :
    s'.interface y = s.interface y := by
  obtain ⟨first, last, passes, hfirst, hlast, rfl, _⟩ := run_eq_ok h
  have hnode : first.node = p.node := congrArg Procedure.node (procedure_start hfirst)
  rw [(sameFrame_passes hfirst hlast).others y (hnode ▸ hy), interface_start hfirst]

end Bounding

/-! ### One after another -/

/-- Each element of a list in turn takes one store to the next. -/
inductive InTurn {α : Type} (step : α → Store → Store → Prop) : List α → Store → Store → Prop
  | nil (s : Store) : InTurn step [] s s
  | cons {a : α} {rest : List α} {s t s' : Store} (h : step a s t) (hrest : InTurn step rest t s') :
      InTurn step (a :: rest) s s'

theorem InTurn.keeps {α : Type} {step : α → Store → Store → Prop} {as : List α} {s s' : Store}
    (hstep : ∀ a s t, step a s t → s.Keeps t) (h : InTurn step as s s') : s.Keeps s' := by
  induction h with
  | nil s => exact .refl s
  | cons h _ ih => exact (hstep _ _ _ h).trans ih

variable {step : Procedure → Store → Store → Prop} {ps : List Procedure} {s s' : Store}

section frame

variable {R : CallNode → Store → Store → Prop} (hrefl : ∀ x s, R x s s)
  (htrans : ∀ x s t u, R x s t → R x t u → R x s u) (hstep : ∀ p s t, step p s t → ∀ y, y ≠ p.node → R y s t)

include hrefl htrans hstep

theorem InTurn.aside (h : InTurn step ps s s') {y : CallNode} (hy : y ∉ ps.map Procedure.node) : R y s s' := by
  induction h with
  | nil s => exact hrefl y s
  | cons h _ ih =>
    rw [List.map_cons, List.mem_cons, not_or] at hy
    exact htrans _ _ _ _ (hstep _ _ _ h y hy.1) (ih hy.2)

/-- What steps on other procedures keep of a node holds from the start to the node's own step, and from there to the
end. -/
theorem InTurn.around (hnodes : (ps.map Procedure.node).Nodup) (h : InTurn step ps s s') {p : Procedure} (hp : p ∈ ps) :
    ∃ t t', R p.node s t ∧ step p t t' ∧ R p.node t' s' := by
  induction h with
  | nil s => cases hp
  | @cons q rest s t s' h hrest ih =>
    obtain ⟨hq, hnodes⟩ := List.nodup_cons.1 hnodes
    rcases List.mem_cons.1 hp with rfl | hp
    · exact ⟨s, t, hrefl _ s, h, hrest.aside hrefl htrans hstep hq⟩
    · obtain ⟨u, u', hbefore, hu, hafter⟩ := ih hnodes hp
      have hne : p.node ≠ q.node := fun heq => hq (heq ▸ List.mem_map_of_mem hp)
      exact ⟨u, u', htrans _ _ _ _ (hstep _ _ _ h _ hne) hbefore, hu, hafter⟩

end frame

theorem InTurn.interface_of_mem (hstep : ∀ p s t, step p s t → ∀ y, y ≠ p.node → t.interface y = s.interface y)
    (hnodes : (ps.map Procedure.node).Nodup) (h : InTurn step ps s s') {p : Procedure} (hp : p ∈ ps) :
    ∃ t t', step p t t' ∧ t.interface p.node = s.interface p.node ∧ s'.interface p.node = t'.interface p.node := by
  obtain ⟨t, t', hbefore, ht, hafter⟩ := h.around (R := fun x s t => t.interface x = s.interface x) (fun _ _ => rfl)
    (fun _ _ _ _ h h' => h'.trans h) hstep hnodes hp
  exact ⟨t, t', ht, hbefore, hafter⟩

/-! ### Folding pruned calls -/

namespace Store

variable {s s' : Store} {x : CallNode}

theorem interface_fold {folded : IdSet .candidate} {r : Option Candidate} (h : s.fold x folded = .ok (s', r)) :
    (s'.interface x).size ≤ (s.interface x).size + 1 ∧ ∀ y, y ≠ x → s'.interface y = s.interface y := by
  obtain ⟨_, rfl, _⟩ | ⟨group, m, hmerge, _⟩ := fold_eq_ok h
  · exact ⟨Nat.le_succ _, fun y _ => rfl⟩
  · have hgathered := gathered_of_merge hmerge
    refine ⟨Nat.le_trans (IdSet.size_le_of_subset fun d hd => ?_) (IdSet.size_insert_le _ m), hgathered.others⟩
    exact IdSet.mem_insert.2 (((hgathered.interface d).1 hd).imp_right And.left)

theorem keeps_fold {folded : IdSet .candidate} {r : Option Candidate} (h : s.fold x folded = .ok (s', r)) :
    s.Keeps s' := by
  obtain ⟨_, rfl, _⟩ | ⟨group, m, hmerge, _⟩ := fold_eq_ok h
  · exact .refl _
  · exact (gathered_of_merge hmerge).keeps

end Store

namespace Summary

variable {g : CallGraph} {out : Propagation} {s s' : Store} {p : Procedure} {mon mon' : Monitor}

/-- The calls of `x` that were pruned. -/
def prunedCallees (g : CallGraph) (x : CallNode) : List CallNode := (g.callees x).filter fun y => !g.isMember y

theorem inTurn_fold (h : foldPruned g out s p mon = .ok s' mon') :
    InTurn (fun y s t => ∃ r, s.fold p.node (out.get y) = .ok (t, r)) (prunedCallees g p.node) s s' := by
  simp only [foldPruned, Outcome.bind_run_eq_ok, Polled.attempt_eq_ok] at h
  obtain ⟨callees, _, ⟨hcallees, rfl⟩, h⟩ := h
  rw [prunedCallees, CallGraph.callees_of_succs hcallees]
  generalize callees.filter (fun y => !g.isMember y) = pruned at h ⊢
  induction pruned generalizing s mon with
  | nil =>
    obtain ⟨rfl, _⟩ := Outcome.pure_run_eq_ok.1 h
    exact .nil s
  | cons y pruned ih =>
    simp only [List.foldlM_cons, Outcome.bind_run_eq_ok, Polled.attempt_eq_ok] at h
    obtain ⟨t, mon₁, ⟨_, _, _, ⟨t', r⟩, _, ⟨hfold, _⟩, ht⟩, h⟩ := h
    obtain ⟨rfl, rfl⟩ := Outcome.pure_run_eq_ok.1 ht
    exact .cons ⟨r, hfold⟩ (ih h)

theorem keeps_foldPruned (h : foldPruned g out s p mon = .ok s' mon') : s.Keeps s' :=
  (inTurn_fold h).keeps fun _ _ _ ⟨_, hfold⟩ => Store.keeps_fold hfold

theorem interface_foldPruned (h : foldPruned g out s p mon = .ok s' mon') :
    (s'.interface p.node).size ≤ (s.interface p.node).size + (prunedCallees g p.node).length ∧
    ∀ y, y ≠ p.node → s'.interface y = s.interface y := by
  have hturn := inTurn_fold h
  clear h
  generalize prunedCallees g p.node = pruned at hturn ⊢
  induction hturn with
  | nil s => exact ⟨Nat.le_refl _, fun y _ => rfl⟩
  | @cons y rest s t s' hstep _ ih =>
    obtain ⟨r, hfold⟩ := hstep
    obtain ⟨hsize, hothers⟩ := Store.interface_fold hfold
    obtain ⟨hsize', hothers'⟩ := ih
    refine ⟨?_, fun z hz => (hothers' z hz).trans (hothers z hz)⟩
    calc (s'.interface p.node).size
      _ ≤ (t.interface p.node).size + rest.length := hsize'
      _ ≤ (s.interface p.node).size + 1 + rest.length := Nat.add_le_add_right hsize _
      _ = (s.interface p.node).size + (y :: rest).length := by rw [List.length_cons]; omega

end Summary

/-! ### The whole run -/

variable {o : Options} {immutables : IdSet .type} {mon mon' : Monitor}

theorem inTurn_runAll {reports : List Report} (h : Bounding.runAll o immutables ps s mon = .ok (s', reports) mon') :
    InTurn (fun p s t => ∃ report, Bounding.run o immutables s p = .ok (t, report)) ps s s' := by
  induction ps generalizing s mon reports with
  | nil =>
    obtain ⟨heq, _⟩ := Outcome.pure_run_eq_ok.1 h
    cases heq
    exact .nil _
  | cons p ps ih =>
    simp only [Bounding.runAll, Outcome.bind_run_eq_ok, Polled.attempt_eq_ok] at h
    obtain ⟨_, _, _, ⟨t, report⟩, _, ⟨hrun, _⟩, ⟨t', rest⟩, _, hrest, h⟩ := h
    obtain ⟨heq, rfl⟩ := Outcome.pure_run_eq_ok.1 h
    cases heq
    exact .cons ⟨report, hrun⟩ (ih hrest)

theorem inTurn_foldPruned {g : CallGraph} {out : Propagation}
    (h : ps.foldlM (Summary.foldPruned g out) s mon = .ok s' mon') :
    InTurn (fun p s t => ∃ mon mon', Summary.foldPruned g out s p mon = .ok t mon') ps s s' := by
  induction ps generalizing s mon with
  | nil =>
    obtain ⟨rfl, _⟩ := Outcome.pure_run_eq_ok.1 h
    exact .nil s
  | cons p ps ih =>
    rw [List.foldlM_cons, Outcome.bind_run_eq_ok] at h
    obtain ⟨t, mon₁, hfold, h⟩ := h
    exact .cons ⟨mon, mon₁, hfold⟩ (ih h)

/-- A run that ends propagates, seeds the interfaces, bounds every one of them and then folds pruned calls into it, if it
is to. -/
theorem analyze_phases {p : Program} {stats : Statistics} (h : Summary.analyze p o mon = .ok (stats, s) mon') :
    ∃ g out seeded bounded mon₁ mon₂, p.callGraph.withoutDispatch = .ok g ∧
      propagate p g (Store.ofProgram p) o.gatedPropagation mon = .ok out mon₁ ∧
      out.seed g (Store.ofProgram p) mon₁ = .ok seeded mon₂ ∧
      InTurn (fun q s t => ∃ report, Bounding.run o (p.typesNamed o.immutableTypes) s q = .ok (t, report)) p.procedures
        seeded bounded ∧
      (o.foldPruned = false ∧ s = bounded ∨ o.foldPruned = true ∧
        InTurn (fun q s t => ∃ mon mon', Summary.foldPruned g out s q mon = .ok t mon') p.procedures bounded s) := by
  simp only [Summary.analyze, Outcome.bind_run_eq_ok, Polled.attempt_eq_ok] at h
  obtain ⟨g, _, ⟨hg, rfl⟩, out, mon₁, hout, seeded, mon₂, hseeded, ⟨bounded, reports⟩, _, hbounded, h⟩ := h
  refine ⟨g, out, seeded, bounded, mon₁, mon₂, hg, hout, hseeded, inTurn_runAll hbounded, ?_⟩
  split at h
  · rename_i hfold
    obtain ⟨folded, _, hfolded, h⟩ := Outcome.bind_run_eq_ok.1 h
    obtain ⟨heq, _⟩ := Outcome.pure_run_eq_ok.1 h
    cases heq
    exact .inr ⟨hfold, inTurn_foldPruned hfolded⟩
  · rename_i hfold
    obtain ⟨heq, _⟩ := Outcome.pure_run_eq_ok.1 h
    cases heq
    exact .inl ⟨Bool.not_eq_true _ ▸ hfold, rfl⟩

theorem analyze_eq_ok {p : Program} {stats : Statistics} (h : Summary.analyze p o mon = .ok (stats, s) mon') :
    ∃ g out seeded bounded, p.callGraph.withoutDispatch = .ok g ∧
      InTurn (fun q s t => ∃ report, Bounding.run o (p.typesNamed o.immutableTypes) s q = .ok (t, report)) p.procedures
        seeded bounded ∧
      (o.foldPruned = false ∧ s = bounded ∨ o.foldPruned = true ∧
        InTurn (fun q s t => ∃ mon mon', Summary.foldPruned g out s q mon = .ok t mon') p.procedures bounded s) := by
  obtain ⟨g, out, seeded, bounded, _, _, hg, _, _, hphases⟩ := analyze_phases h
  exact ⟨g, out, seeded, bounded, hg, hphases⟩

namespace Recorded

variable {session session' : Session}

theorem polled_eq_ok {α : Type} {run : Polled α} {a : α} (h : polled run session = .ok a session') :
    ∃ mon, run session.monitor = .ok a mon ∧ session' = { session with monitor := mon } := by
  unfold polled at h
  split at h
  · rename_i hrun
    cases h
    exact ⟨_, hrun, rfl⟩
  · cases h

theorem forM_register {α : Type} (f : α → Registration) (xs : List α) (session : Session) :
    xs.forM (fun x => register (f x)) session =
      .ok () { session with registered := session.registered ++ xs.map f } := by
  induction xs generalizing session with
  | nil =>
    rw [List.map_nil, List.append_nil]
    rfl
  | cons x xs ih =>
    refine Outcome.bind_run_eq_ok.2 ⟨(), _, rfl, ?_⟩
    rw [ih, List.append_assoc, List.map_cons, List.singleton_append]

end Recorded

namespace Summary

/-- What is registered in the end: every procedure with its interface. -/
def registrations (p : Program) (s : Store) : List Registration :=
  p.procedures.map fun q => ⟨q, (s.interface q.node).toList, s⟩

/-- Everything before the registrations, the last poll included. -/
def prepare (p : Program) (o : Options) : Polled (Statistics × Store) := do
  let result ← analyze p o
  Polled.poll
  return result

variable {p : Program} {stats : Statistics} {mon mon' : Monitor} {earlier : List Registration}

theorem summarize_of_error {stop : Stop} (h : prepare p o mon = .error stop mon') :
    summarize p o ⟨mon, earlier⟩ = .error stop ⟨mon', earlier⟩ := by
  rcases Outcome.bind_run_eq_error.1 h with hanalyze | ⟨⟨stats, s⟩, mon₁, hanalyze, h⟩
  · exact Outcome.bind_run_eq_error.2 (.inl (by simp [Recorded.polled, hanalyze]))
  · refine Outcome.bind_run_eq_error.2 (.inr ⟨(stats, s), ⟨mon₁, earlier⟩, by simp [Recorded.polled, hanalyze], ?_⟩)
    obtain hpoll | ⟨_, _, _, h⟩ := Outcome.bind_run_eq_error.1 h
    · exact Outcome.bind_run_eq_error.2 (.inl (by simp [Recorded.polled, hpoll]))
    · cases h

theorem summarize_of_ok (h : prepare p o mon = .ok (stats, s) mon') :
    summarize p o ⟨mon, earlier⟩ = .ok stats ⟨mon', earlier ++ registrations p s⟩ := by
  simp only [prepare, Outcome.bind_run_eq_ok] at h
  obtain ⟨_, mon₁, hanalyze, _, mon₂, hpoll, h⟩ := h
  obtain ⟨rfl, rfl⟩ := Outcome.pure_run_eq_ok.1 h
  refine Outcome.bind_run_eq_ok.2 ⟨(stats, s), ⟨mon₁, earlier⟩, by simp [Recorded.polled, hanalyze], ?_⟩
  refine Outcome.bind_run_eq_ok.2 ⟨(), ⟨mon₂, earlier⟩, by simp [Recorded.polled, hpoll], ?_⟩
  exact Outcome.bind_run_eq_ok.2 ⟨(), _, Recorded.forM_register _ _ _, rfl⟩

end Summary

theorem summarize_eq_ok {p : Program} {stats : Statistics} {session session' : Session}
    (h : summarize p o session = .ok stats session') :
    ∃ s mon, Summary.analyze p o session.monitor = .ok (stats, s) mon ∧
      session'.registered = session.registered ++ p.procedures.map fun q => ⟨q, (s.interface q.node).toList, s⟩ := by
  simp only [summarize, Outcome.bind_run_eq_ok] at h
  obtain ⟨⟨stats', s⟩, _, hanalyze, _, _, hpoll, _, _, hregister, h⟩ := h
  obtain ⟨mon, hrun, rfl⟩ := Recorded.polled_eq_ok hanalyze
  obtain ⟨mon', _, rfl⟩ := Recorded.polled_eq_ok hpoll
  obtain ⟨rfl, rfl⟩ := Outcome.pure_run_eq_ok.1 h
  rw [Recorded.forM_register] at hregister
  cases hregister
  exact ⟨s, mon, hrun, rfl⟩

end HeapSummary
