import HeapSummary.Proofs.Faultless
import HeapSummary.Proofs.RenamedPasses
import HeapSummary.Proofs.Reports
import HeapSummary.Proofs.RootedInterface

/-!
# Procedures are bounded independently

All procedures share one store. Bounding one adds roots and merged candidates to it, so those of the next get later
identifiers; but it changes no other interface, no locals and no candidate that was there. Thus a procedure finds its
interface as it was seeded, in a store that has only grown since, and grown by candidates that are not its own. Bounding it
there or in the seeded store differs by a renaming that lets the identifiers skip what was added: the report is the same,
and so is the data of the interface.
-/

namespace HeapSummary

open Outcome (Agree)
open Summary (Undisturbed undisturbed_refl)

/-! ### The renaming -/

/-- Leaves the first `n` identifiers as they are and moves the others up. -/
def shift (n k : Nat) (c : Candidate) : Candidate := if c.index < n then c else ⟨c.index + k⟩

theorem shift_of_lt {n k : Nat} {c : Candidate} (h : c.index < n) : shift n k c = c := if_pos h

theorem shift_of_le {n k : Nat} {c : Candidate} (h : n ≤ c.index) : shift n k c = ⟨c.index + k⟩ :=
  if_neg (Nat.not_lt.2 h)

theorem ascending_shift (n k : Nat) : Ascending (shift n k) := by
  intro c d hlt
  by_cases hd : d.index < n
  · rw [shift_of_lt hd, shift_of_lt (Nat.lt_trans hlt hd)]
    exact hlt
  · rw [shift_of_le (Nat.not_lt.1 hd)]
    by_cases hc : c.index < n
    · rw [shift_of_lt hc]
      exact Nat.lt_add_right k hlt
    · rw [shift_of_le (Nat.not_lt.1 hc)]
      exact Nat.add_lt_add_right hlt k

namespace Store

variable {s t : Store} {x : CallNode}

/-- What the interface of a node stands for, in the order of its candidates. -/
def interfaceData (s : Store) (x : CallNode) : List (Option FieldLocation) := (s.interface x).toList.map s.field?

theorem Alike.interfaceData {ρ : Candidate → Candidate} (h : Alike ρ x s t) :
    t.interfaceData x = s.interfaceData x := by
  rw [Store.interfaceData, Store.interfaceData, h.interface, IdSet.toList_map h.ascending, List.map_map]
  exact List.map_congr_left fun c _ => h.field? c

theorem interfaceData_of_undisturbed (hfields : ∀ c ∈ s.interface x, ∃ f, s.field? c = some f)
    (h : Undisturbed x s t) : t.interfaceData x = s.interfaceData x := by
  rw [interfaceData, interfaceData, h.1]
  refine List.map_congr_left fun c hc => ?_
  obtain ⟨f, hf⟩ := hfields c (IdSet.mem_toList.1 hc)
  rw [hf, h.2.field? hf]

/-- A store that has grown by work on other nodes is the same but for the renaming. -/
theorem alike_of_undisturbed (hfields : ∀ c ∈ s.interface x, ∃ f, s.field? c = some f) (h : Undisturbed x s t) :
    Alike (shift s.size (t.size - s.size)) x s t where
  ascending := ascending_shift _ _
  get c := by
    have hsize := h.2.size_le
    by_cases hc : c.index < s.size
    · obtain ⟨l, hl⟩ : ∃ l, s.arena.get? c = some l := by
        apply Option.ne_none_iff_exists'.1
        intro hnone
        exact Nat.not_le.2 hc (Arena.get?_eq_none_iff.1 hnone)
      rw [shift_of_lt hc, hl, h.2 c l hl]
    · have hc := Nat.not_lt.1 hc
      rw [shift_of_le hc, Arena.get?_eq_none_iff.2 hc, Arena.get?_eq_none_iff]
      show t.size ≤ c.index + (t.size - s.size)
      omega
  fresh i := by
    have hsize := h.2.size_le
    rw [shift_of_le (Nat.le_add_right _ i)]
    show (⟨s.size + i + (t.size - s.size)⟩ : Candidate) = ⟨t.size + i⟩
    congr 1
    omega
  interface := by
    rw [h.1]
    refine (IdSet.map_eq_self fun c hc => shift_of_lt ?_).symm
    obtain ⟨f, hf⟩ := hfields c hc
    exact Arena.lt_size_of_get? (field?_eq_some.1 hf)

end Store

/-! ### Bounding one procedure -/

theorem CandidateGraph.locals_addRoots (s : Store) (rs : List Root) : (addRoots s rs).1.locals = s.locals := by
  induction rs generalizing s with
  | nil => rfl
  | cons r rs ih => exact ih _

namespace Bounding

variable {ρ : Candidate → Candidate} {own s s' t t' : Store} {o : Options} {immutables : IdSet .type} {p : Procedure}
  {report : Report}

theorem locals_run (h : Bounding.run o immutables s p = .ok (s', report)) : s'.locals = s.locals := by
  obtain ⟨first, last, passes, hfirst, hlast, rfl, _⟩ := run_eq_ok h
  have hstart := CandidateGraph.locals_addRoots s p.roots
  rw [addRoots_of_start hfirst] at hstart
  exact (sameFrame_passes hfirst hlast).locals.trans hstart

theorem fields_run (h : Bounding.run o immutables s p = .ok (s', report)) :
    ∀ c ∈ s'.interface p.node, ∃ f, s'.field? c = some f := by
  obtain ⟨first, last, passes, hfirst, hlast, rfl, _⟩ := run_eq_ok h
  have hfields := ((exact_start hfirst).edits (Pass.edits_runAll (exact_start hfirst) hlast)).fields
  rwa [Bounding.interface, node_passes hfirst hlast] at hfields

theorem start_of_alike (h : Store.Alike ρ p.node s t) : Agree (Alike ρ) (Bounding.start s p) (Bounding.start t p) := by
  intro b d hb hd
  obtain ⟨hstore, hroots⟩ := h.addRoots p.roots
  rw [addRoots_of_start hb, addRoots_of_start hd] at hstore hroots
  refine ⟨exact_start hb, exact_start hd, ?_, hroots, ?_⟩
  · rw [procedure_start hb, procedure_start hd]
  · rwa [Bounding.node, procedure_start hb]

theorem run_of_alike (h : Store.Alike ρ p.node s t) (o : Options) (immutables : IdSet .type) :
    Agree (fun out out' => Store.Alike ρ p.node out.1 out'.1 ∧ out'.2 = out.2) (Bounding.run o immutables s p)
      (Bounding.run o immutables t p) := by
  refine .bind (start_of_alike h) fun first first' hfirst hfirst' halike => ?_
  refine .bind (Pass.runAll_of_alike halike o immutables Pass.order) ?_
  rintro ⟨last, passes⟩ ⟨last', passes'⟩ hlast _ ⟨hend, rfl⟩
  refine .pure ⟨node_passes hfirst hlast ▸ hend.store, ?_⟩
  rw [halike.size, hend.size]

/-- Work on other nodes changes neither the report on a procedure nor the data of its interface. -/
theorem run_of_undisturbed (hown : own.Unmerged) (hs : own.Sound s) (h : Undisturbed p.node s t)
    (hrun : Bounding.run o immutables t p = .ok (t', report)) :
    ∃ alone, Bounding.run o immutables s p = .ok (alone, report) ∧
      t'.interfaceData p.node = alone.interfaceData p.node := by
  obtain ⟨⟨alone, report'⟩, halone, _⟩ := yields_run hown hs o immutables p
  have halike := Store.alike_of_undisturbed (hs.fields p.node) h
  obtain ⟨hend, hreport⟩ := run_of_alike halike o immutables _ _ halone hrun
  cases hreport
  exact ⟨alone, halone, hend.interfaceData⟩

end Bounding

/-! ### Any selection in any order -/

/-- The procedure was bounded as it would have been alone, right after seeding. -/
def AsAlone (o : Options) (immutables : IdSet .type) (seeded bounded : Store) (q : Procedure) (report : Report) : Prop :=
  ∃ alone, Bounding.run o immutables seeded q = .ok (alone, report) ∧
    bounded.interfaceData q.node = alone.interfaceData q.node

theorem Bounding.asAlone {own seeded bounded t t' : Store} {o : Options} {immutables : IdSet .type} {q : Procedure}
    {report : Report} (hown : own.Unmerged) (hs : own.Sound seeded) (hbefore : Undisturbed q.node seeded t)
    (hrun : Bounding.run o immutables t q = .ok (t', report)) (hafter : Undisturbed q.node t' bounded) :
    AsAlone o immutables seeded bounded q report := by
  obtain ⟨alone, halone, hdata⟩ := run_of_undisturbed hown hs hbefore hrun
  exact ⟨alone, halone, (Store.interfaceData_of_undisturbed (fields_run hrun) hafter).trans hdata⟩

/-- Bounding changes no other interface, no locals and no candidate of the store. Procedures in any selection and order
are bounded, each to the report and the interface data that it would have if it alone were bounded right after seeding.
In particular the reports of a whole run are these, but for the sizes after pruned calls are folded. -/
theorem bounded_independently {p : Program} (hp : p.Built) (o : Options) :
    (∀ s q s' report, Bounding.run o (p.typesNamed o.immutableTypes) s q = .ok (s', report) →
      (∀ y, y ≠ q.node → s'.interface y = s.interface y) ∧ s'.locals = s.locals ∧ s.Keeps s') ∧
    ∃ g out seeded, p.callGraph.withoutDispatch = .ok g ∧
      Polled.Returns (propagate p g (Store.ofProgram p) o.gatedPropagation) out ∧
      Polled.Returns (out.seed g (Store.ofProgram p)) seeded ∧
      (∀ ps : List Procedure, (ps.map Procedure.node).Nodup → ∃ bounded reports,
        Polled.Returns (Bounding.runAll o (p.typesNamed o.immutableTypes) ps seeded) (bounded, reports) ∧
        List.Forall₂ (AsAlone o (p.typesNamed o.immutableTypes) seeded bounded) ps reports) ∧
      ∀ mon mon' stats s, Summary.analyze p o mon = .ok (stats, s) mon' →
        List.Forall₂ (fun q report =>
            (∃ alone bounded, Bounding.run o (p.typesNamed o.immutableTypes) seeded q = .ok (alone, bounded) ∧
              report = { bounded with final := (s.interface q.node).size }) ∧
            (o.foldPruned = false → AsAlone o (p.typesNamed o.immutableTypes) seeded s q report))
          p.procedures stats.reports := by
  have hown := Store.unmerged_ofProgram p
  obtain ⟨g, hg⟩ := hp.callGraph_built.mirrored.exists_withoutDispatch
  obtain ⟨out, hout, hfields⟩ := Propagation.exists_returns_propagate hp hg o.gatedPropagation
  obtain ⟨seeded, hseed, hs⟩ := Propagation.exists_returns_seed (g := g) (Store.sound_ofProgram p) hfields
  refine ⟨fun s q s' report h => ?_, g, out, seeded, hg, hout, hseed, fun ps hnodes => ?_, fun mon mon' stats s h => ?_⟩
  · exact ⟨fun y => Bounding.interface_run_of_ne h, Bounding.locals_run h, Bounding.keeps_run h⟩
  · obtain ⟨⟨bounded, reports⟩, hreturns, _⟩ :=
      Bounding.exists_returns_runAll hown hs o (p.typesNamed o.immutableTypes) ps
    refine ⟨bounded, reports, hreturns, ?_⟩
    obtain ⟨mon, hrun, _⟩ | ⟨hcancels, _⟩ := hreturns .never
    · refine (Bounding.reports_runAll hnodes (fun q _ => undisturbed_refl q.node seeded) hrun).imp ?_
      rintro q report ⟨t, t', hbefore, hrun, hafter⟩
      exact Bounding.asAlone hown hs hbefore hrun hafter
    · exact absurd Monitor.neverCancels_never hcancels
  · obtain ⟨g', out', seeded', _, _, hg', hout', hseed', hcourse⟩ := Summary.course_analyze hp h
    obtain rfl : g = g' := Except.ok.inj (hg.symm.trans hg')
    obtain rfl := hout.eq_of_ok hout'
    obtain rfl := hseed.eq_of_ok hseed'
    refine hcourse.imp fun q report hq => ?_
    obtain ⟨t, t', bounded, hbefore, hrun, hreport, hkept⟩ := hq.report
    obtain ⟨alone, halone, _⟩ := Bounding.run_of_undisturbed hown hs hbefore hrun
    refine ⟨⟨alone, bounded, halone, hreport⟩, fun hoff => ?_⟩
    obtain ⟨rfl, hafter⟩ := hkept hoff
    exact Bounding.asAlone hown hs hbefore hrun hafter

open Bounding (numberedAccess)

/-- Two procedures that walk over lists of their own, each with two accesses to cells. -/
def twinCalls : CallGraph where
  nodes := ⟨#[⟨"left", .normal, [numberedAccess 0 [1] [2] none, numberedAccess 1 [2] [2] none,
      numberedAccess 1 [2, 3] [2] none], [], []⟩,
    ⟨"right", .normal, [numberedAccess 0 [5] [6] none, numberedAccess 1 [6] [6] none,
      numberedAccess 1 [6, 7] [6] none], [], []⟩]⟩
  members := IdSet.ofList [⟨0⟩, ⟨1⟩]

theorem built_twinCalls : twinCalls.Built := by
  have nodes := (CallGraph.Built.empty.addNode "left" .normal).addNode "right" .normal
  have left := ((nodes.addAccess (x := ⟨0⟩) (a := numberedAccess 0 [1] [2] none) rfl).addAccess (x := ⟨0⟩)
    (a := numberedAccess 1 [2] [2] none) rfl).addAccess (x := ⟨0⟩) (a := numberedAccess 1 [2, 3] [2] none) rfl
  exact ((left.addAccess (x := ⟨1⟩) (a := numberedAccess 0 [5] [6] none) rfl).addAccess (x := ⟨1⟩)
    (a := numberedAccess 1 [6] [6] none) rfl).addAccess (x := ⟨1⟩) (a := numberedAccess 1 [6, 7] [6] none) rfl

def leftWalk : Procedure := ⟨⟨0⟩, "left", none, false, [.formal "list" none (IdSet.singleton ⟨1⟩)]⟩

def rightWalk : Procedure := ⟨⟨1⟩, "right", none, false, [.formal "list" none (IdSet.singleton ⟨5⟩)]⟩

def twinProgram : Program :=
  { (Program.empty.addProcedure leftWalk).addProcedure rightWalk with callGraph := twinCalls }

theorem built_twinProgram : twinProgram.Built :=
  ((Program.Built.empty.addProcedure _).addProcedure _).setCallGraph built_twinCalls

-- The evaluated runs below are nested, and so is the instance that decides them.
set_option synthInstance.maxSize 256

/-- Whichever walk is bounded first, its merged candidate comes before that of the other. The reports and the data of the
interfaces are the same. -/
theorem bounded_independently_twinProgram : twinProgram.Built ∧
    ∃ seeded first second r r',
      Bounding.runAll .standard ∅ [leftWalk, rightWalk] seeded .never = .ok (first, [r, r']) .never ∧
      Bounding.runAll .standard ∅ [rightWalk, leftWalk] seeded .never = .ok (second, [r', r]) .never ∧
      (first.interface ⟨0⟩).toList = [⟨0⟩, ⟨7⟩] ∧ (second.interface ⟨0⟩).toList = [⟨0⟩, ⟨9⟩] ∧
      first.interfaceData ⟨0⟩ = second.interfaceData ⟨0⟩ ∧ first.interfaceData ⟨1⟩ = second.interfaceData ⟨1⟩ := by
  obtain ⟨out, _, hout, seeded, _, hseed, ⟨⟨first, reports⟩, _, hfirst, rfl, hids, hlength⟩, ⟨second, reports'⟩, _, hsecond,
      rfl, hids', hlength'⟩ : ∃ out mon,
        propagate twinProgram twinCalls (Store.ofProgram twinProgram) true .never = .ok out mon ∧
        ∃ seeded mon, out.seed twinCalls (Store.ofProgram twinProgram) .never = .ok seeded mon ∧
        (∃ left mon, Bounding.runAll .standard ∅ [leftWalk, rightWalk] seeded .never = .ok left mon ∧ mon = .never ∧
          (left.1.interface ⟨0⟩).toList = [⟨0⟩, ⟨7⟩] ∧ left.2.length = 2) ∧
        ∃ right mon, Bounding.runAll .standard ∅ [rightWalk, leftWalk] seeded .never = .ok right mon ∧ mon = .never ∧
          (right.1.interface ⟨0⟩).toList = [⟨0⟩, ⟨9⟩] ∧ right.2.length = 2 := by
    decide +kernel
  obtain ⟨r, r', rfl⟩ := List.length_eq_two.1 hlength
  obtain ⟨q', q, rfl⟩ := List.length_eq_two.1 hlength'
  obtain ⟨_, g, out', seeded', hg, hout', hseed', horders, _⟩ := bounded_independently built_twinProgram .standard
  obtain rfl : twinCalls = g := Except.ok.inj hg
  obtain rfl := hout'.eq_of_ok hout
  obtain rfl := hseed'.eq_of_ok hseed
  obtain ⟨_, _, hreturns, hall⟩ := horders [leftWalk, rightWalk] (by decide)
  obtain ⟨rfl, rfl⟩ := Prod.mk.inj (hreturns.eq_of_ok hfirst)
  obtain ⟨_, _, hreturns', hall'⟩ := horders [rightWalk, leftWalk] (by decide)
  obtain ⟨rfl, rfl⟩ := Prod.mk.inj (hreturns'.eq_of_ok hsecond)
  simp only [List.forall₂_cons, List.forall₂_nil_right_iff, and_true] at hall hall'
  obtain ⟨⟨left, hleft, hdata⟩, right, hright, hdata'⟩ := hall
  obtain ⟨⟨_, hagain', hsame'⟩, _, hagain, hsame⟩ := hall'
  obtain ⟨rfl, rfl⟩ := Prod.mk.inj (Except.ok.inj (hleft.symm.trans hagain))
  obtain ⟨rfl, rfl⟩ := Prod.mk.inj (Except.ok.inj (hright.symm.trans hagain'))
  exact ⟨built_twinProgram, seeded, first, second, r, r', hfirst, hsecond, hids, hids', hdata.trans hsame.symm,
    hdata'.trans hsame'.symm⟩

end HeapSummary
