import HeapSummary.Proofs.GatedPropagation
import HeapSummary.Proofs.PassesSucceed
import HeapSummary.Proofs.Seeding
import HeapSummary.Proofs.Summary

/-!
# A summary meets no fault

A summary of a program that operations built ends with a result, or a monitor cancels it. Propagation brings field
candidates of the program only. From then on the store is sound: it traces back to those candidates, and interfaces hold
field candidates only. Seeding, bounding an interface and folding a pruned call into it succeed on a sound store and
leave one. The monitor is polled between these steps and decides nothing else, so every run that ends gives the same.

Two conditions that a run relies on are not among the faults, as no step tests them: a postorder lists nodes of its graph
only, and what a procedure reaches when the sweeps end is apart from what it has pending. Both hold in every run, by
`CallGraph.Mirrored.exists_postorder` and `Propagation.exists_converge_apart`.
-/

namespace HeapSummary

open Outcome (Yields)

/-! ### Sound stores -/

namespace Store

variable {own s : Store} {x : CallNode} {c : Candidate} {cs : IdSet .candidate}

/-- The store traces back to the candidates of `own`, and interfaces hold field candidates only. -/
structure Sound (own s : Store) : Prop where
  traces : own.Traces s
  fields : ∀ x, ∀ c ∈ s.interface x, ∃ f, s.field? c = some f

theorem sound_ofProgram (p : Program) : Sound (ofProgram p) (ofProgram p) where
  traces := traces_self (unmerged_ofProgram p)
  fields x c hc := localsAreFields_ofProgram p x c (showsLocals_ofProgram p x ▸ hc)

theorem Sound.exists_field (hs : own.Sound s) (hc : ∃ f, own.field? c = some f) : ∃ f, s.field? c = some f := by
  obtain ⟨f, hf⟩ := hc
  exact ⟨f, hs.traces.keeps.field? hf⟩

theorem Sound.added {s' : Store} {new : CallNode → Candidate → Prop} (hs : own.Sound s) (h : s.Added new s') :
    own.Sound s' where
  traces := hs.traces.of_arena h.arena
  fields y d hd := by
    have hfield : ∃ f, s.field? d = some f := by
      rcases (h.interface y d).1 hd with hd | hd
      · exact hs.fields y d hd
      · exact h.fields y d hd
    rwa [Store.field?, ← h.arena] at hfield

theorem Sound.add (hs : own.Sound s) (x : CallNode) (hc : ∃ f, own.field? c = some f) :
    Yields (s.add x c) own.Sound := by
  obtain ⟨f, hf⟩ := hs.exists_field hc
  have hadd : s.add x c = .ok (s.setInterface x ((s.interface x).insert c)) :=
    Outcome.bind_eq_ok.2 ⟨.field f, location_eq_ok.2 (field?_eq_some.1 hf), rfl⟩
  exact ⟨_, hadd, hs.added (added_add hadd)⟩

theorem Sound.addAll (hs : own.Sound s) (x : CallNode) (hcs : ∀ c ∈ cs, ∃ f, own.field? c = some f) :
    Yields (s.addAll x cs) own.Sound :=
  .foldlM (fun _ c hc hs => hs.add x (hcs c (IdSet.mem_toList.1 hc))) hs

theorem Sound.merge {s' : Store} {group : List Candidate} {m : Candidate} (hs : own.Sound s)
    (h : s.merge x group = .ok (s', m)) (hgroup : ∀ c ∈ group, ∃ f, s.field? c = some f) : own.Sound s' where
  traces := hs.traces.merge h
  fields y d hd := by
    have hgathered := gathered_of_merge h
    have hold : d ∈ s.interface y → ∃ f, s'.field? d = some f := by
      intro hd
      obtain ⟨f, hf⟩ := hs.fields y d hd
      exact ⟨f, hgathered.keeps.field? hf⟩
    by_cases hy : y = x
    · subst hy
      rcases (hgathered.interface d).1 hd with rfl | hd
      · obtain ⟨c, hc⟩ := hgathered.nonempty
        obtain ⟨f, hf⟩ := hgroup c hc
        obtain ⟨o, ho⟩ := (hs.traces.stands c f hf).nonempty
        apply exists_field_of_mem_originOf
        exact (hgathered.origin o).2 ⟨c, hc, by rwa [originOf_of_field hf]⟩
      · exact hold hd.1
    · exact hold (hgathered.others y hy ▸ hd)

theorem Sound.fold (hown : own.Unmerged) (hs : own.Sound s) (x : CallNode)
    (hfolded : ∀ c ∈ cs, ∃ f, own.field? c = some f) : Yields (s.fold x cs) fun out => own.Sound out.1 := by
  unfold Store.fold
  split
  · exact .pure hs
  rename_i hempty
  have hread : ∀ c ∈ cs.toList, ∃ f, s.field? c = some f := fun c hc =>
    hs.exists_field (hfolded c (IdSet.mem_toList.1 hc))
  obtain ⟨parts, hparts⟩ : ∃ parts, cs.toList.mapM s.field = .ok parts := by
    apply Outcome.exists_mapM_eq_ok
    intro c hc
    obtain ⟨f, hf⟩ := hread c hc
    exact ⟨f, field_eq_ok.2 hf⟩
  obtain ⟨rest, hrest⟩ : ∃ rest,
      ((s.interface x \ cs).toList.mapM fun c => return (c, ← s.field c)) = .ok rest := by
    apply Outcome.exists_mapM_pair_eq_ok
    intro c hc
    obtain ⟨f, hf⟩ := hs.fields x c (IdSet.mem_diff.1 (IdSet.mem_toList.1 hc)).1
    exact ⟨f, field_eq_ok.2 hf⟩
  refine .bind_ok hparts (.bind_ok hrest ?_)
  dsimp only
  generalize hgroup : cs.toList ++ (rest.filter _).map Prod.fst = group
  have hfields : ∀ c ∈ group, ∃ f, s.field? c = some f := by
    intro c hc
    rw [← hgroup, List.mem_append, List.mem_map] at hc
    rcases hc with hc | ⟨⟨d, f⟩, hd, rfl⟩
    · exact hread c hc
    · exact ⟨f, field_eq_ok.1 ((Outcome.mem_of_mapM_pair hrest).1 (List.mem_filter.1 hd).1).2⟩
  have hne : group ≠ [] := by
    obtain ⟨c, hc⟩ := IdSet.isEmpty_eq_false_iff.1 (Bool.not_eq_true _ ▸ hempty)
    rw [← hgroup]
    exact List.append_ne_nil_of_left_ne_nil (List.ne_nil_of_mem (IdSet.mem_toList.2 hc)) _
  obtain ⟨s', m, hmerge⟩ := hs.traces.exists_merge hown x hne hfields
  refine .bind_ok hmerge ?_
  exact .pure (hs.merge hmerge hfields)

end Store

/-! ### Propagation -/

namespace Propagation

variable {p : Program} {g : CallGraph}

theorem exists_converge_apart (hp : p.Built) (hg : g.Mirrored) {s : Store} {plain : Propagation} {visit : List CallNode}
    (hvisit : Visits p g visit) : ∃ sites last, (visit.filterMap p.procedure?).mapM (site g plain visit) = .ok sites ∧
      Polled.Returns (converge s sites
        (sites.foldl (fun reach x => reach.set x.node (start s x.procedure)) IdMap.empty)) last ∧
      ∀ x ∈ sites, (last.get x.node).reached.intersects (last.get x.node).pending = false := by
  obtain ⟨sites, hsites, hs⟩ := exists_sites hp hg plain hvisit
  obtain ⟨last, hrun, hlast, _⟩ := exists_returns_converge hg hs (justified_start (s := s) hs)
  refine ⟨sites, last, hsites, hrun, fun x hx => ?_⟩
  rw [Bool.eq_false_iff, Ne, IdSet.intersects_iff]
  rintro ⟨c, hreached, hpending⟩
  exact (hlast.tracks x hx).apart c hpending hreached

theorem exists_returns_propagate (hp : p.Built) (hg : p.callGraph.withoutDispatch = .ok g) (isGated : Bool) :
    ∃ out, Polled.Returns (propagate p g (Store.ofProgram p) isGated) out ∧
      ∀ x, ∀ c ∈ out.get x, ∃ f, (Store.ofProgram p).field? c = some f := by
  have hmirrored : g.Mirrored := (hp.callGraph_built.withoutDispatch hg).mirrored
  obtain ⟨plain, out, hplain, hgated, hreach, hsub, _⟩ :=
    exists_returns_gated hp hmirrored (CallGraph.ids_withoutDispatch hg)
  have hfields : ∀ x, ∀ c ∈ plain.get x, ∃ f, (Store.ofProgram p).field? c = some f := fun _ _ =>
    field?_of_mem_plain (Store.localsAreFields_ofProgram p) hreach
  cases isGated with
  | false => exact ⟨plain, hplain, hfields⟩
  | true => exact ⟨out, hgated, fun x c hc => hfields x c (hsub x c hc)⟩

variable {out : Propagation} {own s : Store}

theorem exists_returns_seed (hs : own.Sound s) (hout : ∀ x, ∀ c ∈ out.get x, ∃ f, own.field? c = some f) :
    ∃ seeded, Polled.Returns (out.seed g s) seeded ∧ own.Sound seeded := by
  apply Polled.exists_returns_foldlM _ hs
  intro s x _ hs
  obtain ⟨s', hadd, hs'⟩ := hs.addAll x (hout x)
  exact ⟨s', Polled.returns_poll.bind (Polled.returns_attempt hadd), hs'⟩

end Propagation

/-! ### Bounding and folding -/

namespace Bounding

variable {own s : Store}

theorem yields_run (hown : own.Unmerged) (hs : own.Sound s) (o : Options) (immutables : IdSet .type) (p : Procedure) :
    Yields (Bounding.run o immutables s p) fun out => own.Sound out.1 := by
  obtain ⟨first, hfirst, hsound⟩ := sound_start hs.traces p (hs.fields p.node)
  obtain ⟨⟨last, passes⟩, hlast, hlastSound⟩ := (guards_sound hown).runAll hsound o immutables Pass.order
  have hrun : Bounding.run o immutables s p =
      .ok (last.store, ⟨p.node, p.name, first.size, last.size, passes⟩) :=
    Outcome.bind_eq_ok.2 ⟨first, hfirst, Outcome.bind_eq_ok.2 ⟨(last, passes), hlast, rfl⟩⟩
  refine ⟨_, hrun, hlastSound.traces, fun x c hc => ?_⟩
  by_cases hx : x = p.node
  · rw [hx, ← node_passes hfirst hlast] at hc
    exact hlastSound.exact.fields c hc
  · rw [interface_run_of_ne hrun hx] at hc
    obtain ⟨f, hf⟩ := hs.fields x c hc
    exact ⟨f, (keeps_run hrun).field? hf⟩

theorem exists_returns_runAll (hown : own.Unmerged) (hs : own.Sound s) (o : Options) (immutables : IdSet .type)
    (ps : List Procedure) : ∃ out, Polled.Returns (Bounding.runAll o immutables ps s) out ∧ own.Sound out.1 := by
  induction ps generalizing s with
  | nil => exact ⟨(s, []), Polled.returns_pure _, hs⟩
  | cons p ps ih =>
    obtain ⟨⟨t, report⟩, hrun, ht⟩ := yields_run hown hs o immutables p
    obtain ⟨⟨s', reports⟩, hrest, hs'⟩ := ih ht
    refine ⟨(s', report :: reports), ?_, hs'⟩
    exact Polled.returns_poll.bind ((Polled.returns_attempt hrun).bind (hrest.bind (Polled.returns_pure _)))

end Bounding

namespace Summary

variable {p : Program} {g : CallGraph} {out : Propagation} {own s : Store}

theorem exists_returns_foldPruned (hown : own.Unmerged) (hs : own.Sound s)
    (hout : ∀ x, ∀ c ∈ out.get x, ∃ f, own.field? c = some f) {q : Procedure} (hq : q.node ∈ g.ids) :
    ∃ s', Polled.Returns (foldPruned g out s q) s' ∧ own.Sound s' := by
  refine (Polled.returns_attempt (CallGraph.succs_of_mem_ids hq)).exists_bind ?_
  apply Polled.exists_returns_foldlM _ hs
  intro s y _ hs
  obtain ⟨⟨s', r⟩, hfold, hs'⟩ := hs.fold hown q.node (hout y)
  exact ⟨s', Polled.returns_poll.bind ((Polled.returns_attempt hfold).bind (Polled.returns_pure _)), hs'⟩

/-! ### The whole run -/

theorem exists_returns_analyze (hp : p.Built) (o : Options) :
    ∃ result, Polled.Returns (analyze p o) result ∧ (Store.ofProgram p).Sound result.2 := by
  have hown := Store.unmerged_ofProgram p
  obtain ⟨g, hg⟩ := hp.callGraph_built.mirrored.exists_withoutDispatch
  obtain ⟨out, hpropagate, hout⟩ := Propagation.exists_returns_propagate hp hg o.gatedPropagation
  obtain ⟨seeded, hseed, hseeded⟩ := Propagation.exists_returns_seed (g := g) (Store.sound_ofProgram p) hout
  obtain ⟨⟨bounded, reports⟩, hbound, hbounded⟩ :=
    Bounding.exists_returns_runAll hown hseeded o (p.typesNamed o.immutableTypes) p.procedures
  obtain ⟨folded, hfold, hfolded⟩ : ∃ folded,
      Polled.Returns (p.procedures.foldlM (foldPruned g out) bounded) folded ∧ (Store.ofProgram p).Sound folded := by
    apply Polled.exists_returns_foldlM _ hbounded
    intro s q hq hs
    exact exists_returns_foldPruned hown hs hout (CallGraph.ids_withoutDispatch hg ▸ hp.node_mem_ids hq)
  refine (Polled.returns_attempt hg).exists_bind (hpropagate.exists_bind (hseed.exists_bind (hbound.exists_bind ?_)))
  dsimp only
  split
  · exact hfold.exists_bind ⟨_, Polled.returns_pure _, hfolded⟩
  · exact ⟨_, Polled.returns_pure _, hbounded⟩

theorem exists_returns_prepare (hp : p.Built) (o : Options) :
    ∃ stats s, Polled.Returns (prepare p o) (stats, s) := by
  obtain ⟨⟨stats, s⟩, hanalyze, _⟩ := exists_returns_analyze hp o
  exact ⟨stats, s, hanalyze.bind (Polled.returns_poll.bind (Polled.returns_pure _))⟩

end Summary

/-- A summary of a program that operations built meets no fault. Whatever the monitor, it ends with the same statistics
and registers the same interfaces, or it is canceled with nothing registered, and only a monitor that refuses a poll
sooner or later cancels it. -/
theorem summarize_meets_no_fault {p : Program} (hp : p.Built) (o : Options) :
    ∃ stats s, ∀ mon earlier,
      (∃ mon', summarize p o ⟨mon, earlier⟩ = .ok stats ⟨mon', earlier ++ Summary.registrations p s⟩) ∨
      ¬ mon.NeverCancels ∧ ∃ mon', summarize p o ⟨mon, earlier⟩ = .error .canceled ⟨mon', earlier⟩ := by
  obtain ⟨stats, s, hprepare⟩ := Summary.exists_returns_prepare hp o
  refine ⟨stats, s, fun mon earlier => ?_⟩
  obtain ⟨mon', hok, _⟩ | ⟨hnot, mon', herror⟩ := hprepare mon
  · exact .inl ⟨mon', Summary.summarize_of_ok hok⟩
  · exact .inr ⟨hnot, mon', Summary.summarize_of_error herror⟩

/-- `run` calls itself and a pruned call; fields and types are in no table. -/
def strayCalls : CallGraph where
  nodes := ⟨#[⟨"run", .normal, [⟨⟨40⟩, IdSet.singleton ⟨1⟩, IdSet.singleton ⟨2⟩, some ⟨50⟩, .no⟩,
      ⟨⟨40⟩, IdSet.singleton ⟨2⟩, IdSet.singleton ⟨1⟩, none, .maybe⟩], [⟨1⟩, ⟨0⟩], [⟨0⟩]⟩,
    ⟨"log", .normal, [⟨⟨41⟩, IdSet.singleton ⟨2⟩, ∅, some ⟨50⟩, .yes⟩], [], [⟨0⟩]⟩]⟩
  members := IdSet.ofList [⟨0⟩]

theorem built_strayCalls : strayCalls.Built := by
  have nodes := (CallGraph.Built.empty.addNode "run" .normal).addNode "log" .normal
  have calls := (nodes.addEdge (x := ⟨0⟩) (y := ⟨1⟩) rfl).addEdge (x := ⟨0⟩) (y := ⟨0⟩) rfl
  have accesses := (calls.addAccess (x := ⟨0⟩)
    (a := ⟨⟨40⟩, IdSet.singleton ⟨1⟩, IdSet.singleton ⟨2⟩, some ⟨50⟩, .no⟩) rfl).addAccess (x := ⟨0⟩)
    (a := ⟨⟨40⟩, IdSet.singleton ⟨2⟩, IdSet.singleton ⟨1⟩, none, .maybe⟩) rfl
  exact (accesses.addAccess (x := ⟨1⟩) (a := ⟨⟨41⟩, IdSet.singleton ⟨2⟩, ∅, some ⟨50⟩, .yes⟩) rfl).setMember ⟨1⟩ false

def strayRun : Procedure := ⟨⟨0⟩, "run", some ⟨50⟩, true, [.formal "this" (some ⟨60⟩) (IdSet.singleton ⟨1⟩)]⟩

/-- A second procedure is at no node of the call graph. -/
def strayProgram : Program :=
  { (Program.empty.addProcedure strayRun).addProcedure ⟨⟨7⟩, "lost", none, false, []⟩ with callGraph := strayCalls }

theorem built_strayProgram : strayProgram.Built :=
  ((Program.Built.empty.addProcedure _).addProcedure _).setCallGraph built_strayCalls

theorem summarize_strayProgram : strayProgram.Built ∧
    ∃ stats session, summarize strayProgram .standard ⟨.never, []⟩ = .ok stats session ∧
      session.registered.map Registration.procedure = [strayRun] := by
  obtain ⟨stats, s, hruns⟩ := summarize_meets_no_fault built_strayProgram .standard
  obtain ⟨mon, hrun⟩ | ⟨hcancels, _⟩ := hruns .never []
  · exact ⟨built_strayProgram, stats, _, hrun, rfl⟩
  · exact absurd Monitor.neverCancels_never hcancels

end HeapSummary
