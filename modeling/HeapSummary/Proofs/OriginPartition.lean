import HeapSummary.Proofs.Origins
import HeapSummary.Proofs.Seeding
import HeapSummary.Proofs.InterfaceBound

/-!
# Interfaces partition what they stand for

The candidates that are registered for a procedure stand for unmerged candidates, each of them for some and no two for
the same. Together they stand for nothing but the procedure's own candidates, those propagated to it and those folded
into it, and if nothing is cut then for all of these.

The invariant is that the interface partitions a set of unmerged candidates. At first each candidate stands for itself.
Removing shrinks the set and merging within the interface keeps it. Folding may bring back a candidate that was cut, or
one that a merged candidate stands for already. It takes such a candidate into the merge, so it only adds to the set what
is folded.
-/

namespace HeapSummary

open Relation (ReflTransGen)

namespace Store

variable {own s s' : Store} {x : CallNode} {c m : Candidate} {group : List Candidate} {S T : Set Candidate}

theorem Unmerged.originOf_eq (hown : own.Unmerged) (hkeeps : Keeps own s) {u : FieldLocation}
    (hu : own.field? c = some u) : s.originOf c = IdSet.singleton c := by
  rw [originOf_of_field (hkeeps.field? hu), hown.origin_eq hu]

/-- The candidates stand for the members of `S`, each candidate for some and no two for the same. -/
structure Partitions (s : Store) (cs : List Candidate) (S : Set Candidate) : Prop where
  nonempty : ∀ c ∈ cs, ∃ o, o ∈ s.originOf c
  disjoint : cs.Pairwise fun c d => ∀ o ∈ s.originOf c, o ∉ s.originOf d
  union : ∀ o, o ∈ S ↔ ∃ c ∈ cs, o ∈ s.originOf c

/-- The interface of `x` partitions `S`. -/
structure Parted (s : Store) (x : CallNode) (S : Set Candidate) : Prop where
  nonempty : ∀ c ∈ s.interface x, ∃ o, o ∈ s.originOf c
  unique : ∀ c ∈ s.interface x, ∀ d ∈ s.interface x, ∀ o, o ∈ s.originOf c → o ∈ s.originOf d → c = d
  union : ∀ o, o ∈ S ↔ ∃ c ∈ s.interface x, o ∈ s.originOf c

theorem Parted.partitions (h : s.Parted x S) : s.Partitions (s.interface x).toList S where
  nonempty c hc := h.nonempty c (IdSet.mem_toList.1 hc)
  disjoint := by
    refine (IdSet.toList_nodup _).imp_of_mem fun {c d} hc hd hne o ho ho' => hne ?_
    exact h.unique c (IdSet.mem_toList.1 hc) d (IdSet.mem_toList.1 hd) o ho ho'
  union o := by simp [h.union]

theorem Parted.congr (h : s.Parted x S) (hST : ∀ o, o ∈ S ↔ o ∈ T) : s.Parted x T :=
  (Set.ext hST : S = T) ▸ h

theorem Parted.originOf_eq (h : s.Parted x S) (hkeeps : Keeps s s') (hc : c ∈ s.interface x) :
    s'.originOf c = s.originOf c := by
  obtain ⟨o, ho⟩ := h.nonempty c hc
  obtain ⟨f, hf⟩ := exists_field_of_mem_originOf ho
  exact hkeeps.originOf hf

theorem Parted.subset (h : s.Parted x S) (hkeeps : Keeps s s') (hsub : ∀ c ∈ s'.interface x, c ∈ s.interface x) :
    s'.Parted x {o | ∃ c ∈ s'.interface x, o ∈ s.originOf c} where
  nonempty c hc := by
    rw [h.originOf_eq hkeeps (hsub c hc)]
    exact h.nonempty c (hsub c hc)
  unique c hc d hd o ho ho' := by
    rw [h.originOf_eq hkeeps (hsub c hc)] at ho
    rw [h.originOf_eq hkeeps (hsub d hd)] at ho'
    exact h.unique c (hsub c hc) d (hsub d hd) o ho ho'
  union o := exists_congr fun c => and_congr_right fun hc => by rw [h.originOf_eq hkeeps (hsub c hc)]

theorem Parted.of_interface_eq (h : s.Parted x S) (hkeeps : Keeps s s') (heq : s'.interface x = s.interface x) :
    s'.Parted x S := by
  refine (h.subset hkeeps fun c hc => heq ▸ hc).congr fun o => ?_
  rw [h.union, Set.mem_ofPred_eq, heq]

/-- A merge adds what the group stands for, if the group has all of the interface that stands for part of it. -/
theorem Parted.gather (h : s.Parted x S) (hg : Gathered s x group s' m)
    (hnonempty : ∀ c ∈ group, ∃ o, o ∈ s.originOf c)
    (hclosed : ∀ c ∈ s.interface x, ∀ d ∈ group, ∀ o, o ∈ s.originOf c → o ∈ s.originOf d → c ∈ group) :
    s'.Parted x (S ∪ {o | ∃ c ∈ group, o ∈ s.originOf c}) := by
  have hkept : ∀ c ∈ s.interface x, s'.originOf c = s.originOf c := fun c hc => h.originOf_eq hg.keeps hc
  -- What stays in the interface stands for nothing that the group stands for.
  have hapart : ∀ c ∈ s.interface x, c ∉ group → ∀ o, o ∈ s'.originOf c → o ∉ s'.originOf m := by
    intro c hc hout o ho hm
    obtain ⟨d, hd, hod⟩ := (hg.origin o).1 hm
    exact hout (hclosed c hc d hd o (hkept c hc ▸ ho) hod)
  refine ⟨fun c hc => ?_, fun c hc d hd o ho ho' => ?_, fun o => ?_⟩
  · rcases (hg.interface c).1 hc with rfl | ⟨hc, _⟩
    · obtain ⟨d, hd⟩ := hg.nonempty
      obtain ⟨o, ho⟩ := hnonempty d hd
      exact ⟨o, (hg.origin o).2 ⟨d, hd, ho⟩⟩
    · rw [hkept c hc]
      exact h.nonempty c hc
  · rcases (hg.interface c).1 hc with rfl | ⟨hc, hcout⟩ <;> rcases (hg.interface d).1 hd with rfl | ⟨hd, hdout⟩
    · rfl
    · exact absurd ho (hapart d hd hdout o ho')
    · exact absurd ho' (hapart c hc hcout o ho)
    · exact h.unique c hc d hd o (hkept c hc ▸ ho) (hkept d hd ▸ ho')
  · rw [Set.mem_union, h.union, Set.mem_ofPred_eq]
    constructor
    · rintro (⟨c, hc, ho⟩ | hgroup)
      · by_cases hin : c ∈ group
        · exact ⟨m, (hg.interface m).2 (.inl rfl), (hg.origin o).2 ⟨c, hin, ho⟩⟩
        · exact ⟨c, (hg.interface c).2 (.inr ⟨hc, hin⟩), (hkept c hc).symm ▸ ho⟩
      · exact ⟨m, (hg.interface m).2 (.inl rfl), (hg.origin o).2 hgroup⟩
    · rintro ⟨c, hc, ho⟩
      rcases (hg.interface c).1 hc with rfl | ⟨hc, _⟩
      · exact .inr ((hg.origin o).1 ho)
      · exact .inl ⟨c, hc, hkept c hc ▸ ho⟩

theorem Parted.fold {folded : IdSet .candidate} {r : Option Candidate} (h : s.Parted x S)
    (hself : ∀ c ∈ folded, s.originOf c = IdSet.singleton c) (hfold : s.fold x folded = .ok (s', r)) :
    s'.Parted x (S ∪ {c | c ∈ folded}) := by
  obtain ⟨rfl, rfl, _⟩ | ⟨group, m, hmerge, _, _, hgroup⟩ := fold_eq_ok hfold
  · exact h.congr fun o => by simp
  have hmem : ∀ o, (∃ d ∈ folded, o ∈ s.originOf d) ↔ o ∈ folded := by
    intro o
    constructor
    · rintro ⟨d, hd, ho⟩
      rw [hself d hd, IdSet.mem_singleton] at ho
      exact ho ▸ hd
    · intro ho
      exact ⟨o, ho, by rw [hself o ho, IdSet.mem_singleton]⟩
  have hparted := h.gather (gathered_of_merge hmerge) (fun c hc => ?_) (fun c hc d hd o ho ho' => ?_)
  · refine hparted.congr fun o => ?_
    simp only [Set.mem_union, Set.mem_ofPred_eq]
    constructor
    · rintro (ho | ⟨c, hc, ho⟩)
      · exact .inl ho
      · rcases (hgroup c).1 hc with hc | ⟨hc, _⟩
        · exact .inr ((hmem o).1 ⟨c, hc, ho⟩)
        · exact .inl ((h.union o).2 ⟨c, hc, ho⟩)
    · refine Or.imp_right fun ho => ?_
      obtain ⟨d, hd, hod⟩ := (hmem o).2 ho
      exact ⟨d, (hgroup d).2 (.inl hd), hod⟩
  · rcases (hgroup c).1 hc with hc | ⟨hc, _⟩
    · exact ⟨c, by rw [hself c hc, IdSet.mem_singleton]⟩
    · exact h.nonempty c hc
  · rcases (hgroup d).1 hd with hfolded | ⟨hin, _⟩
    · exact (hgroup c).2 (.inr ⟨hc, d, hfolded, o, ho, ho'⟩)
    · rwa [h.unique c hc d hin o ho ho']

variable {o : Options}

/-- The interface of `x` partitions part of `S`, and all of it if no cut is to be made. -/
def PartedWithin (o : Options) (s : Store) (x : CallNode) (S : Set Candidate) : Prop :=
  ∃ T ⊆ S, s.Parted x T ∧ (o.cutUnreachable = false → o.cutImmutables = false → T = S)

theorem PartedWithin.of_interface_eq (h : s.PartedWithin o x S) (hkeeps : Keeps s s')
    (heq : s'.interface x = s.interface x) : s'.PartedWithin o x S := by
  obtain ⟨T, hT, hparted, hall⟩ := h
  exact ⟨T, hT, hparted.of_interface_eq hkeeps heq, hall⟩

end Store

/-! ### Bounding -/

namespace Bounding

variable {b b' : Bounding} {cs group : List Candidate} {m : Candidate} {S : Set Candidate}

theorem Removed.parted (h : Removed b cs b') (hb : b.store.Parted b.node S) :
    ∃ T ⊆ S, b'.store.Parted b'.node T := by
  have hnode : b'.node = b.node := congrArg Procedure.node h.procedure
  have hsub : ∀ c ∈ b'.store.interface b.node, c ∈ b.store.interface b.node := fun c hc =>
    ((h.interface c).1 (by rwa [Bounding.interface, hnode])).1
  rw [hnode]
  refine ⟨_, fun o ho => ?_, hb.subset (Store.keeps_of_arena h.arena) hsub⟩
  obtain ⟨c, hc, ho⟩ := ho
  exact (hb.union o).2 ⟨c, hsub c hc, ho⟩

theorem Merging.parted (h : Merging b group b' m) (hb : b.store.Parted b.node S) : b'.store.Parted b'.node S := by
  have hgathered := h.store.gathered h.nonempty
  have hparted := hb.gather hgathered (fun c hc => hb.nonempty c (h.members c hc)) fun c hc d hd o ho ho' => by
    rwa [hb.unique c hc d (h.members d hd) o ho ho']
  rw [h.node]
  refine hparted.congr fun o => ⟨?_, .inl⟩
  rintro (ho | ⟨c, hc, ho⟩)
  · exact ho
  · exact (hb.union o).2 ⟨c, h.members c hc, ho⟩

theorem parted_merges (h : ReflTransGen Merges b b') (hb : b.store.Parted b.node S) : b'.store.Parted b'.node S := by
  induction h with
  | refl => exact hb
  | tail _ hstep ih =>
    obtain ⟨group, m, hmerge⟩ := hstep
    exact hmerge.parted ih

theorem parted_edits (h : ReflTransGen Edits b b') (hb : b.store.Parted b.node S) :
    ∃ T ⊆ S, b'.store.Parted b'.node T := by
  induction h with
  | refl => exact ⟨S, subset_rfl, hb⟩
  | tail _ hstep ih =>
    obtain ⟨T, hT, hparted⟩ := ih
    rcases hstep with ⟨c, hremove⟩ | ⟨group, m, hmerge⟩
    · obtain ⟨U, hU, hparted⟩ := (removed_remove hremove).parted hparted
      exact ⟨U, hU.trans hT, hparted⟩
    · exact ⟨T, hT, hmerge.parted hparted⟩

variable {o : Options} {immutables : IdSet .type} {s s' : Store} {p : Procedure} {report : Report}

theorem partedWithin_runs {pass : Pass} (hb : b.Exact) (h : b.store.PartedWithin o b.node S)
    (hruns : Pass.Runs o immutables pass b b') : b'.store.PartedWithin o b'.node S := by
  obtain ⟨T, hT, hparted, hall⟩ := h
  obtain ⟨U, hU, hparted'⟩ := parted_edits (hruns.edits hb) hparted
  obtain ⟨hcut, _⟩ | ⟨hcut, _⟩ | hmerges := hruns.cases hb
  · exact ⟨U, hU.trans hT, hparted', fun hoff => by simp [hcut] at hoff⟩
  · exact ⟨U, hU.trans hT, hparted', fun _ hoff => by simp [hcut] at hoff⟩
  · exact ⟨T, hT, parted_merges hmerges hparted, hall⟩

theorem partedWithin_run (h : Bounding.run o immutables s p = .ok (s', report)) (hs : s.Parted p.node S) :
    s'.PartedWithin o p.node S := by
  obtain ⟨first, last, passes, hfirst, hlast, rfl, _⟩ := run_eq_ok h
  have hexact := exact_start hfirst
  have hnode : first.node = p.node := congrArg Procedure.node (procedure_start hfirst)
  have hnode' : last.node = first.node :=
    congrArg Procedure.node (sameFrame_of_edits (Pass.edits_runAll hexact hlast)).procedure
  have hstart : first.store.PartedWithin o first.node S := by
    rw [hnode]
    exact ⟨S, subset_rfl, hs.of_interface_eq (keeps_start hfirst) (interface_start hfirst p.node), fun _ _ => rfl⟩
  obtain ⟨_, hlast⟩ := Pass.runAll_keeps (P := fun b => b.Exact ∧ b.store.PartedWithin o b.node S)
    (fun _ _ _ hb hruns => ⟨hb.1.edits (hruns.edits hb.1), partedWithin_runs hb.1 hb.2 hruns⟩) ⟨hexact, hstart⟩ hlast
  rwa [hnode', hnode] at hlast

end Bounding

/-! ### Folding pruned calls -/

namespace Summary

variable {g : CallGraph} {out : Propagation} {own s s' : Store} {p : Procedure} {mon mon' : Monitor} {S : Set Candidate}

theorem parted_foldPruned (hown : own.Unmerged) (hkeeps : own.Keeps s)
    (hout : ∀ y ∈ prunedCallees g p.node, ∀ c ∈ out.get y, ∃ u, own.field? c = some u)
    (h : foldPruned g out s p mon = .ok s' mon') (hs : s.Parted p.node S) :
    s'.Parted p.node (S ∪ {c | ∃ y ∈ prunedCallees g p.node, c ∈ out.get y}) := by
  have hturn := inTurn_fold h
  clear h
  generalize prunedCallees g p.node = pruned at hout hturn ⊢
  induction hturn generalizing S with
  | nil s => exact hs.congr fun o => by simp
  | @cons y rest s t s' hstep _ ih =>
    obtain ⟨r, hfold⟩ := hstep
    have hself : ∀ c ∈ out.get y, s.originOf c = IdSet.singleton c := by
      intro c hc
      obtain ⟨u, hu⟩ := hout y List.mem_cons_self c hc
      exact hown.originOf_eq hkeeps hu
    have hrest := ih (hkeeps.trans (Store.keeps_fold hfold)) (hs.fold hself hfold) fun z hz =>
      hout z (List.mem_cons_of_mem y hz)
    refine hrest.congr fun o => ?_
    simp only [Set.mem_union, Set.mem_ofPred_eq, List.exists_mem_cons_iff, or_assoc]

theorem partedWithin_foldPruned {o : Options} (hown : own.Unmerged) (hkeeps : own.Keeps s)
    (hout : ∀ y ∈ prunedCallees g p.node, ∀ c ∈ out.get y, ∃ u, own.field? c = some u)
    (h : foldPruned g out s p mon = .ok s' mon') (hs : s.PartedWithin o p.node S) :
    s'.PartedWithin o p.node (S ∪ {c | ∃ y ∈ prunedCallees g p.node, c ∈ out.get y}) := by
  obtain ⟨T, hT, hparted, hall⟩ := hs
  refine ⟨_, Set.union_subset_union_left _ hT, parted_foldPruned hown hkeeps hout h hparted, fun hu hi => ?_⟩
  rw [hall hu hi]

end Summary

/-! ### The whole run -/

namespace Summary

variable {p : Program} {o : Options} {g : CallGraph} {out : Propagation} {seeded s : Store} {x : CallNode}

/-- The candidates of a node's own accesses and those propagated to it. -/
def seeds (p : Program) (out : Propagation) (x : CallNode) : Set Candidate :=
  {c | c ∈ (Store.ofProgram p).localsOf x ∨ c ∈ out.get x}

/-- What the interface of `x` may stand for: the seeds and, if pruned calls are folded, what is propagated to the pruned
callees. -/
def sources (p : Program) (o : Options) (g : CallGraph) (out : Propagation) (x : CallNode) : Set Candidate :=
  seeds p out x ∪ {c | o.foldPruned = true ∧ ∃ y ∈ prunedCallees g x, c ∈ out.get y}

theorem parted_seeded (hadded : (Store.ofProgram p).Added (fun x c => x ∈ g.ids ∧ c ∈ out.get x) seeded)
    (hx : x ∈ g.ids) : seeded.Parted x (seeds p out x) := by
  have hmem : ∀ c, c ∈ seeded.interface x ↔ c ∈ seeds p out x := by
    intro c
    rw [hadded.interface, Store.showsLocals_ofProgram]
    exact or_congr_right (and_iff_right hx)
  have hself : ∀ c ∈ seeded.interface x, seeded.originOf c = IdSet.singleton c := by
    intro c hc
    obtain ⟨u, hu⟩ : ∃ u, (Store.ofProgram p).field? c = some u := by
      rcases (hmem c).1 hc with hc | hc
      · exact Store.localsAreFields_ofProgram p x c hc
      · exact hadded.fields x c ⟨hx, hc⟩
    exact (Store.unmerged_ofProgram p).originOf_eq (Store.keeps_of_arena hadded.arena) hu
  refine ⟨fun c hc => ⟨c, by simp [hself c hc]⟩, fun c hc d hd o ho ho' => ?_, fun o => ?_⟩
  · rw [hself c hc, IdSet.mem_singleton] at ho
    rw [hself d hd, IdSet.mem_singleton] at ho'
    exact ho.symm.trans ho'
  · rw [← hmem]
    constructor
    · intro ho
      exact ⟨o, ho, by simp [hself o ho]⟩
    · rintro ⟨c, hc, ho⟩
      rw [hself c hc, IdSet.mem_singleton] at ho
      exact ho ▸ hc

/-- What the work on other nodes does not touch. -/
def Undisturbed (x : CallNode) (s t : Store) : Prop := t.interface x = s.interface x ∧ s.Keeps t

theorem undisturbed_refl (x : CallNode) (s : Store) : Undisturbed x s s := ⟨rfl, .refl s⟩

theorem undisturbed_trans (x : CallNode) (s t u : Store) (h : Undisturbed x s t) (h' : Undisturbed x t u) :
    Undisturbed x s u :=
  ⟨h'.1.trans h.1, h.2.trans h'.2⟩

theorem field_of_pruned (hp : p.Built) (hg : p.callGraph.withoutDispatch = .ok g)
    (hadded : (Store.ofProgram p).Added (fun x c => x ∈ g.ids ∧ c ∈ out.get x) seeded) {y : CallNode} {c : Candidate}
    (hy : y ∈ prunedCallees g x) (hc : c ∈ out.get y) : ∃ u, (Store.ofProgram p).field? c = some u := by
  have hmirrored := (hp.callGraph_built.withoutDispatch hg).mirrored
  exact hadded.fields y c ⟨hmirrored.callee_mem_ids (List.mem_filter.1 hy).1, hc⟩

/-- When the turn of a procedure comes, its interface is as bounded, and after its turn it stays as it is. -/
theorem exists_foldPruned (hp : p.Built) {bounded : Store} {q : Procedure} {new : CallNode → Candidate → Prop}
    (hadded : (Store.ofProgram p).Added new seeded)
    (hbounded : InTurn (fun q s t => ∃ report, Bounding.run o (p.typesNamed o.immutableTypes) s q = .ok (t, report))
      p.procedures seeded bounded)
    (hfolded : InTurn (fun q s t => ∃ mon mon', foldPruned g out s q mon = .ok t mon') p.procedures bounded s)
    (hq : q ∈ p.procedures) :
    ∃ t t' mon mon', (Store.ofProgram p).Keeps t ∧ Undisturbed q.node bounded t ∧
      foldPruned g out t q mon = .ok t' mon' ∧ Undisturbed q.node t' s := by
  obtain ⟨t, t', hbefore, ⟨mon, mon', hfold⟩, hafter⟩ := hfolded.around (R := Undisturbed) undisturbed_refl
    undisturbed_trans (fun _ _ _ ⟨_, _, hfold⟩ y hy =>
      ⟨(interface_foldPruned hfold).2 y hy, keeps_foldPruned hfold⟩) hp.nodup_nodes hq
  have hstart : (Store.ofProgram p).Keeps seeded := Store.keeps_of_arena hadded.arena
  have hrest : seeded.Keeps bounded := hbounded.keeps fun _ _ _ ⟨_, hrun⟩ => Bounding.keeps_run hrun
  exact ⟨t, t', mon, mon', (hstart.trans hrest).trans hbefore.2, hbefore, hfold, hafter⟩

theorem partedWithin_analyze (hp : p.Built) {stats : Statistics} {mon mon' : Monitor}
    (h : analyze p o mon = .ok (stats, s) mon') :
    ∃ g out mon₁, p.callGraph.withoutDispatch = .ok g ∧
      propagate p g (Store.ofProgram p) o.gatedPropagation mon = .ok out mon₁ ∧
      ∀ q ∈ p.procedures, s.PartedWithin o q.node (sources p o g out q.node) := by
  obtain ⟨g, out, seeded, bounded, mon₁, mon₂, hg, hout, hseed, hbounded, hfolded⟩ := analyze_phases h
  refine ⟨g, out, mon₁, hg, hout, fun q hq => ?_⟩
  have hadded := Propagation.added_seed hseed
  have hwithin : bounded.PartedWithin o q.node (seeds p out q.node) := by
    obtain ⟨t, t', hbefore, ⟨report, hrun⟩, hafter⟩ := hbounded.around (R := Undisturbed) undisturbed_refl
      undisturbed_trans (fun _ _ _ ⟨_, hrun⟩ _ hy => ⟨Bounding.interface_run_of_ne hrun hy, Bounding.keeps_run hrun⟩)
      hp.nodup_nodes hq
    have hx : q.node ∈ g.ids := CallGraph.ids_withoutDispatch hg ▸ hp.node_mem_ids hq
    have hseeded := (parted_seeded hadded hx).of_interface_eq hbefore.2 hbefore.1
    exact (Bounding.partedWithin_run hrun hseeded).of_interface_eq hafter.2 hafter.1
  obtain ⟨hoff, rfl⟩ | ⟨hon, hfolded⟩ := hfolded
  · have hsources : sources p o g out q.node = seeds p out q.node := by simp [sources, hoff]
    rwa [hsources]
  · obtain ⟨t, t', _, _, hkeeps, hbefore, hfold, hafter⟩ := exists_foldPruned hp hadded hbounded hfolded hq
    have hsources : sources p o g out q.node = seeds p out q.node ∪ {c | ∃ y ∈ prunedCallees g q.node, c ∈ out.get y} := by
      simp [sources, hon]
    rw [hsources]
    exact (partedWithin_foldPruned (Store.unmerged_ofProgram p) hkeeps (fun _ hy _ => field_of_pruned hp hg hadded hy)
      hfold (hwithin.of_interface_eq hbefore.2 hbefore.1)).of_interface_eq hafter.2 hafter.1

end Summary

variable {p : Program} {o : Options}

/-- The origins of the candidates that a summary registers for a procedure are nonempty and pairwise disjoint. Their
union has nothing in it but what the interface may stand for, and all of that if neither cut is made. -/
theorem registered_origins_partition (hp : p.Built) {stats : Statistics} {session session' : Session}
    (h : summarize p o session = .ok stats session') :
    ∃ g out mon registered, p.callGraph.withoutDispatch = .ok g ∧
      propagate p g (Store.ofProgram p) o.gatedPropagation session.monitor = .ok out mon ∧
      session'.registered = session.registered ++ registered ∧
      registered.map Registration.procedure = p.procedures ∧
      ∀ r ∈ registered, ∃ S ⊆ Summary.sources p o g out r.procedure.node, r.store.Partitions r.interface S ∧
        (o.cutUnreachable = false → o.cutImmutables = false → S = Summary.sources p o g out r.procedure.node) := by
  obtain ⟨s, mon, hanalyze, hregistered⟩ := summarize_eq_ok h
  obtain ⟨g, out, mon₁, hg, hout, hparted⟩ := Summary.partedWithin_analyze hp hanalyze
  refine ⟨g, out, mon₁, _, hg, hout, hregistered, by simp [Function.comp_def], fun r hr => ?_⟩
  obtain ⟨q, hq, rfl⟩ := List.mem_map.1 hr
  obtain ⟨S, hS, hparted, hall⟩ := hparted q hq
  exact ⟨S, hS, hparted.partitions, hall⟩

/-- The list walker reads cells of a second kind too, and the pruned call reads a cell that the walker reads. -/
def overlappingCall : CallGraph where
  nodes := ⟨#[⟨"walk", .normal, [⟨⟨0⟩, IdSet.singleton ⟨1⟩, IdSet.singleton ⟨2⟩, none, .no⟩,
      ⟨⟨1⟩, IdSet.singleton ⟨2⟩, IdSet.singleton ⟨2⟩, none, .no⟩,
      ⟨⟨1⟩, IdSet.ofList [⟨2⟩, ⟨3⟩], IdSet.singleton ⟨2⟩, none, .no⟩], [⟨1⟩], []⟩,
    ⟨"log", .normal, [⟨⟨2⟩, IdSet.singleton ⟨7⟩, ∅, none, .no⟩,
      ⟨⟨1⟩, IdSet.singleton ⟨2⟩, IdSet.singleton ⟨2⟩, none, .no⟩], [], [⟨0⟩]⟩]⟩
  members := IdSet.ofList [⟨0⟩]

theorem built_overlappingCall : overlappingCall.Built := by
  have cells := built_prunedCall.addAccess (x := ⟨0⟩)
    (a := ⟨⟨1⟩, IdSet.ofList [⟨2⟩, ⟨3⟩], IdSet.singleton ⟨2⟩, none, .no⟩) rfl
  exact cells.addAccess (x := ⟨1⟩) (a := ⟨⟨1⟩, IdSet.singleton ⟨2⟩, IdSet.singleton ⟨2⟩, none, .no⟩) rfl

def overlappingProgram : Program := { Program.empty.addProcedure listWalker with callGraph := overlappingCall }

/-- Nothing is cut, cells under one parent are merged, and pruned calls are folded. -/
def keepingOptions : Options := ⟨false, false, false, [], true, true, true, none, 1⟩

/-- The two kinds of cells are merged, and the merged candidate takes in the pruned call, which reads such a cell. -/
theorem origins_of_overlappingProgram : overlappingProgram.Built ∧
    ∃ stats session r, summarize overlappingProgram keepingOptions ⟨.never, []⟩ = .ok stats session ∧
      session.registered = [r] ∧ r.interface = [⟨0⟩, ⟨6⟩] ∧ r.store.Partitions r.interface {⟨0⟩, ⟨1⟩, ⟨2⟩, ⟨3⟩} := by
  have hbuilt : overlappingProgram.Built := (Program.Built.empty.addProcedure _).setCallGraph built_overlappingCall
  obtain ⟨⟨stats, t⟩, _, hanalyze, rfl, hinterface⟩ : ∃ result mon,
      Summary.analyze overlappingProgram keepingOptions .never = .ok result mon ∧ mon = .never ∧
        (result.2.interface ⟨0⟩).toList = [⟨0⟩, ⟨6⟩] := by
    decide +kernel
  have hsession : summarize overlappingProgram keepingOptions ⟨.never, []⟩ =
      .ok stats ⟨.never, [⟨listWalker, (t.interface ⟨0⟩).toList, t⟩]⟩ := by
    refine Outcome.bind_run_eq_ok.2 ⟨(stats, t), ⟨.never, []⟩, ?_, rfl⟩
    rw [Recorded.polled, hanalyze]
  obtain ⟨out, mon, hout, hwalk, hlog⟩ : ∃ out mon, propagate overlappingProgram overlappingCall
      (Store.ofProgram overlappingProgram) true .never = .ok out mon ∧
        out.get ⟨0⟩ = IdSet.ofList [⟨0⟩, ⟨1⟩, ⟨2⟩] ∧ out.get ⟨1⟩ = IdSet.ofList [⟨1⟩, ⟨3⟩] := by
    decide +kernel
  obtain ⟨g, out', mon', registered, hg, hout', heq, hmap, hparts⟩ := registered_origins_partition hbuilt hsession
  obtain rfl : overlappingCall = g := Except.ok.inj hg
  obtain ⟨rfl, rfl⟩ := EStateM.Result.ok.inj (hout.symm.trans hout')
  obtain rfl : [⟨listWalker, (t.interface ⟨0⟩).toList, t⟩] = registered := heq
  obtain ⟨S, _, hpartitions, hall⟩ := hparts _ (List.mem_singleton_self _)
  have hsources : Summary.sources overlappingProgram keepingOptions overlappingCall out ⟨0⟩ =
      {⟨0⟩, ⟨1⟩, ⟨2⟩, ⟨3⟩} := by
    have hlocals : (Store.ofProgram overlappingProgram).localsOf ⟨0⟩ = IdSet.ofList [⟨0⟩, ⟨1⟩, ⟨2⟩] := rfl
    have hpruned : Summary.prunedCallees overlappingCall ⟨0⟩ = [⟨1⟩] := rfl
    ext c
    simp only [Summary.sources, Summary.seeds, hlocals, hwalk, hpruned, Set.mem_union, Set.mem_ofPred_eq, IdSet.mem_ofList,
      exists_eq_left, hlog, List.mem_cons, List.not_mem_nil, or_false, or_self,
      Set.mem_insert_iff, Set.mem_singleton_iff]
    tauto
  rw [hall rfl rfl, show listWalker.node = ⟨0⟩ from rfl, hsources] at hpartitions
  exact ⟨hbuilt, stats, _, _, hsession, rfl, hinterface, hpartitions⟩

end HeapSummary
