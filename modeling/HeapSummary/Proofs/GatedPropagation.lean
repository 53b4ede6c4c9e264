import HeapSummary.Proofs.PlainPropagation
import HeapSummary.Proofs.Program
import HeapSummary.Proofs.Reach
import HeapSummary.Propagation.Gated
import Mathlib.Data.Set.Defs

/-!
# Gated propagation is a least fixpoint

A family of candidate sets, one for each node with a procedure, is closed if it contains every candidate that a node draws
on and touches. Gated propagation gives the least closed family, and plain sets to all other nodes.

Whatever a site takes is drawn on and touched, so no closed family lacks it (`Justified`); the sweeps end when a whole
sweep reached nothing new, and such a sweep has left every site settled, so the result is closed itself. Neither half
looks at the order of the sites: every order that visits the nodes with a procedure gives the same result.
-/

namespace HeapSummary.Propagation

/-! ### Closed families -/

section families

variable (p : Program) (g : CallGraph) (s : Store) (plain : Propagation)

/-- What a node draws on: its locals, the sets of the callees with a procedure, the plain sets of the other callees. -/
def Draws (family : CallNode → Set Candidate) (x : CallNode) (c : Candidate) : Prop :=
  c ∈ s.localsOf x ∨ (∃ y ∈ g.callees x, (p.procedure? y).isSome ∧ c ∈ family y) ∨
    ∃ y ∈ g.callees x, p.procedure? y = none ∧ c ∈ plain.get y

/-- A base of the candidate is an object of the roots, or one that a candidate of the set may hold. -/
def Touches (q : Procedure) (cs : Set Candidate) (c : Candidate) : Prop :=
  ∃ o ∈ s.basesOf c, o ∈ q.rootPts ∨ ∃ d ∈ cs, o ∈ s.ptsOf d

/-- Whatever a node with a procedure draws on and touches is in its set. -/
def Closed (family : CallNode → Set Candidate) : Prop :=
  ∀ x ∈ g.ids, ∀ q, p.procedure? x = some q →
    ∀ c, Draws p g s plain family x c → Touches s q (family x) c → c ∈ family x

/-- Closed, and at every node with a procedure contained in all closed families. -/
structure IsLeastClosed (family : CallNode → Set Candidate) : Prop where
  closed : Closed p g s plain family
  least : ∀ other, Closed p g s plain other →
    ∀ x ∈ g.ids, (p.procedure? x).isSome → ∀ c ∈ family x, c ∈ other x

end families

variable {p : Program} {g : CallGraph} {s : Store} {plain : Propagation} {sites : List Site}
  {reach : IdMap .callNode Reach}

theorem Draws.mono {family other : CallNode → Set Candidate} (h : ∀ y, ∀ c ∈ family y, c ∈ other y) {x : CallNode}
    {c : Candidate} (hc : Draws p g s plain family x c) : Draws p g s plain other x c := by
  refine hc.imp_right (Or.imp_left ?_)
  rintro ⟨y, hcall, hsome, hc⟩
  exact ⟨y, hcall, hsome, h y c hc⟩

theorem Touches.mono {q : Procedure} {cs ds : Set Candidate} (h : ∀ d ∈ cs, d ∈ ds) {c : Candidate}
    (hc : Touches s q cs c) : Touches s q ds c := by
  obtain ⟨o, hbase, ho⟩ := hc
  refine ⟨o, hbase, ho.imp_right ?_⟩
  rintro ⟨d, hd, ho⟩
  exact ⟨d, h d hd, ho⟩

/-! ### Sites -/

/-- Gated propagation that visits the nodes with a procedure in a given order, after plain propagation. -/
def gatedAlong (p : Program) (g : CallGraph) (s : Store) (plain : Propagation) (visit : List CallNode) :
    Polled Propagation := do
  let sites ← Polled.attempt ((visit.filterMap p.procedure?).mapM (site g plain visit))
  Polled.attempt (s.requireFields (everything plain))
  let reach ← converge s sites (sites.foldl (fun reach x => reach.set x.node (start s x.procedure)) IdMap.empty)
  return sites.foldl (fun result x => result.set x.node (reach.get x.node).reached) plain

theorem gated_eq_gatedAlong (p : Program) (g : CallGraph) (s : Store) :
    gated p g s = (do
      let plain ← Propagation.plain g s
      let visit ← Polled.attempt (order p g)
      gatedAlong p g s plain visit) := rfl

/-- A visiting order lists exactly the nodes with a procedure. -/
def Visits (p : Program) (g : CallGraph) (visit : List CallNode) : Prop :=
  ∀ x, x ∈ visit ↔ x ∈ g.ids ∧ (p.procedure? x).isSome

theorem exists_order (hp : p.Built) (hg : g.Mirrored) (hids : g.ids = p.callGraph.ids) :
    ∃ visit, order p g = .ok visit ∧ Visits p g visit := by
  obtain ⟨left, hleft, hnodes⟩ := hg.exists_postorder
  refine ⟨_, Outcome.bind_eq_ok.2 ⟨left, hleft, rfl⟩, fun x => ?_⟩
  have hprocs : x ∈ p.procedures.map Procedure.node ↔ x ∈ g.ids ∧ (p.procedure? x).isSome := by
    simp only [Program.procedures, List.mem_map, List.mem_filterMap, ← hids]
    constructor
    · rintro ⟨q, ⟨y, hy, hq⟩, rfl⟩
      rw [hp.procedure_node hq, hq]
      exact ⟨hy, rfl⟩
    · rintro ⟨hx, hsome⟩
      obtain ⟨q, hq⟩ := Option.isSome_iff_exists.1 hsome
      exact ⟨q, ⟨x, hx, hq⟩, hp.procedure_node hq⟩
  simp only [List.mem_append, List.mem_filter, hprocs, decide_eq_true_eq]
  constructor
  · rintro (⟨hx, hsome⟩ | ⟨hx, _⟩)
    · exact ⟨hnodes x hx, hsome⟩
    · exact hx
  · intro hx
    by_cases hmem : x ∈ left ∧ (p.procedure? x).isSome
    · exact .inl hmem
    · exact .inr ⟨hx, hmem⟩

/-- What the sites know of the graph. -/
structure Surveyed (p : Program) (g : CallGraph) (plain : Propagation) (sites : List Site) : Prop where
  node : ∀ x ∈ sites, x.node ∈ g.ids ∧ p.procedure? x.node = some x.procedure
  callees : ∀ x ∈ sites, ∀ y, y ∈ x.callees ↔ y ∈ g.callees x.node ∧ (p.procedure? y).isSome
  flattened : ∀ x ∈ sites, ∀ c, c ∈ x.flattened ↔ ∃ y ∈ g.callees x.node, p.procedure? y = none ∧ c ∈ plain.get y
  complete : ∀ y ∈ g.ids, (p.procedure? y).isSome → ∃ x ∈ sites, x.node = y

theorem exists_sites (hp : p.Built) (hg : g.Mirrored) (plain : Propagation) {visit : List CallNode}
    (hvisit : Visits p g visit) :
    ∃ sites, (visit.filterMap p.procedure?).mapM (site g plain visit) = .ok sites ∧ Surveyed p g plain sites := by
  have hnode : ∀ q ∈ visit.filterMap p.procedure?, q.node ∈ g.ids ∧ p.procedure? q.node = some q := by
    intro q hq
    obtain ⟨x, hx, hq⟩ := List.mem_filterMap.1 hq
    rw [hp.procedure_node hq]
    exact ⟨((hvisit x).1 hx).1, hq⟩
  refine ⟨_, Outcome.mapM_eq_ok_map fun q hq => Outcome.bind_eq_ok.2 ⟨_, CallGraph.succs_of_mem_ids (hnode q hq).1, rfl⟩,
    fun x hx => ?_, fun x hx y => ?_, fun x hx c => ?_, fun y hy hsome => ?_⟩
  · obtain ⟨q, hq, rfl⟩ := List.mem_map.1 hx
    exact hnode q hq
  · obtain ⟨q, hq, rfl⟩ := List.mem_map.1 hx
    rw [List.mem_filter, decide_eq_true_eq, hvisit]
    exact ⟨fun h => ⟨h.1, h.2.2⟩, fun h => ⟨h.1, hg.callee_mem_ids h.1, h.2⟩⟩
  · obtain ⟨q, hq, rfl⟩ := List.mem_map.1 hx
    have hnone : ∀ y ∈ g.callees q.node, y ∉ visit ↔ p.procedure? y = none := by
      intro y hy
      rw [hvisit y]
      simp [hg.callee_mem_ids hy]
    simp only [IdSet.mem_unionMap, List.mem_filter, decide_eq_true_eq]
    constructor
    · rintro ⟨y, ⟨hy, hnot⟩, hc⟩
      exact ⟨y, hy, (hnone y hy).1 hnot, hc⟩
    · rintro ⟨y, hy, hnot, hc⟩
      exact ⟨y, ⟨hy, (hnone y hy).2 hnot⟩, hc⟩
  · obtain ⟨q, hq⟩ := Option.isSome_iff_exists.1 hsome
    have hmem : q ∈ visit.filterMap p.procedure? := List.mem_filterMap.2 ⟨y, (hvisit y).2 ⟨hy, hsome⟩, hq⟩
    exact ⟨_, List.mem_map_of_mem hmem, hp.procedure_node hq⟩

/-! ### What the sweeps keep -/

/-- The parts of every site's reach belong together, and no closed family lacks what is reached. -/
structure Justified (p : Program) (g : CallGraph) (s : Store) (plain : Propagation) (sites : List Site)
    (reach : IdMap .callNode Reach) : Prop where
  tracks : ∀ x ∈ sites, Reach.Tracks s x.procedure (reach.get x.node)
  below : ∀ family, Closed p g s plain family → ∀ x ∈ sites, ∀ c ∈ (reach.get x.node).reached, c ∈ family x.node

theorem Surveyed.procedure_eq (h : Surveyed p g plain sites) {x y : Site} (hx : x ∈ sites) (hy : y ∈ sites)
    (hxy : x.node = y.node) : x.procedure = y.procedure :=
  Option.some.inj (((h.node x hx).2.symm.trans (congrArg p.procedure? hxy)).trans (h.node y hy).2)

theorem tracks_start (s : Store) (q : Procedure) : Reach.Tracks s q (start s q) where
  apart c _ := IdSet.not_mem_empty
  covers c hc := .inl hc
  pending_local c hc := hc
  objects o := by simp [start]

theorem justified_start (h : Surveyed p g plain sites) : Justified p g s plain sites
    (sites.foldl (fun reach x => reach.set x.node (start s x.procedure)) IdMap.empty) := by
  have hget : ∀ x ∈ sites, (sites.foldl (fun reach x => reach.set x.node (start s x.procedure)) IdMap.empty).get x.node =
      start s x.procedure := fun x hx =>
    IdMap.get_foldl_set_of_forall_eq Site.node (fun y hy hyx => by rw [h.procedure_eq hy hx hyx]) (.inr ⟨x, hx, rfl⟩)
  refine ⟨fun x hx => ?_, fun family _ x hx c hc => ?_⟩
  · rw [hget x hx]
    exact tracks_start s x.procedure
  · rw [hget x hx] at hc
    exact absurd hc IdSet.not_mem_empty

theorem draws_of_mem_incoming (hg : g.Mirrored) (hs : Surveyed p g plain sites) (h : Justified p g s plain sites reach)
    {family : CallNode → Set Candidate} (hfamily : Closed p g s plain family) {x : Site} (hx : x ∈ sites)
    {t : IdSet .candidate} (ht : t ∈ x.incoming reach) {c : Candidate} (hc : c ∈ t) :
    Draws p g s plain family x.node c := by
  unfold Site.incoming at ht
  rcases List.mem_append.1 ht with ht | ht
  · obtain ⟨y, hy, rfl⟩ := List.mem_map.1 ht
    obtain ⟨hcall, hsome⟩ := (hs.callees x hx y).1 (List.mem_filter.1 hy).1
    obtain ⟨z, hz, rfl⟩ := hs.complete y (hg.callee_mem_ids hcall) hsome
    exact .inr (.inl ⟨z.node, hcall, hsome, h.below family hfamily z hz c hc⟩)
  · rw [List.mem_singleton.1 ht] at hc
    exact .inr (.inr ((hs.flattened x hx c).1 hc))

theorem below_of_takes {family : CallNode → Set Candidate} (hfamily : Closed p g s plain family) {x : CallNode}
    {q : Procedure} (hx : x ∈ g.ids) (hq : p.procedure? x = some q) {r r' : Reach} (htracks : Reach.Tracks s q r)
    (hbelow : ∀ c ∈ r.reached, c ∈ family x)
    (hrun : Relation.ReflTransGen (Reach.Takes s (Draws p g s plain family x)) r r') :
    ∀ c ∈ r'.reached, c ∈ family x := by
  induction hrun with
  | refl => exact hbelow
  | @tail r₁ r₂ hrun hstep ih =>
    obtain ⟨d, hdraws, htouch, rfl⟩ := hstep
    intro c hc
    rcases IdSet.mem_insert.1 hc with rfl | hc
    · obtain ⟨o, hbase, ho⟩ := Reach.touches_iff.1 htouch
      refine hfamily x hx q hq c hdraws ⟨o, hbase, ?_⟩
      refine (((htracks.of_takes hrun).objects o).1 ho).imp_right ?_
      rintro ⟨d, hd, ho⟩
      exact ⟨d, ih d hd, ho⟩
    · exact ih c hc

theorem Justified.update (hg : g.Mirrored) (hs : Surveyed p g plain sites) (h : Justified p g s plain sites reach)
    {x : Site} (hx : x ∈ sites) : Justified p g s plain sites (x.update s reach) := by
  have htracks := h.tracks x hx
  refine ⟨fun y hy => ?_, fun family hfamily y hy c hc => ?_⟩
  · rw [Site.update, IdMap.get_set]
    split
    · rename_i hyx
      rw [hs.procedure_eq hy hx hyx]
      exact htracks.of_takes (Reach.takes_saturate (S := fun _ => True) (fun _ _ => trivial) fun _ _ _ _ => trivial)
    · exact h.tracks y hy
  · rw [Site.update, IdMap.get_set] at hc
    split at hc
    · rename_i hyx
      rw [hyx]
      obtain ⟨hnode, hproc⟩ := hs.node x hx
      refine below_of_takes hfamily hnode hproc htracks (h.below family hfamily x hx)
        (Reach.takes_saturate (fun d hd => .inl (htracks.pending_local d hd)) fun t ht d hd => ?_) c hc
      exact draws_of_mem_incoming hg hs h hfamily hx ht hd
    · exact h.below family hfamily y hy c hc

theorem Justified.sweep (hg : g.Mirrored) (hs : Surveyed p g plain sites) (h : Justified p g s plain sites reach) :
    Justified p g s plain sites (sweep s sites reach) :=
  List.foldlRecOn sites _ h fun _ hreach _ hx => hreach.update hg hs hx

/-! ### The last sweep -/

theorem incoming_congr {reach' : IdMap .callNode Reach} (h : ∀ y, reach'.get y = reach.get y) (x : Site) :
    x.incoming reach' = x.incoming reach := by
  simp [Site.incoming, h]

/-- A sweep that reaches nothing new has changed nothing, and every site was settled. -/
theorem sweep_eq_self (htracks : ∀ x ∈ sites, Reach.Tracks s x.procedure (reach.get x.node))
    (hsame : ∀ x ∈ sites, ((sweep s sites reach).get x.node).reached = (reach.get x.node).reached) :
    (∀ y, (sweep s sites reach).get y = reach.get y) ∧
      ∀ x ∈ sites, Reach.Settled s (x.incoming reach) (reach.get x.node) := by
  induction sites generalizing reach with
  | nil => exact ⟨fun _ => rfl, by simp⟩
  | cons x todo ih =>
    have hstep : ∀ y, (x.update s reach).get y = reach.get y := by
      have hx : ((reach.get x.node).saturate s (x.incoming reach)).reached = (reach.get x.node).reached := by
        refine IdSet.ext fun c => ⟨fun hc => ?_, (Reach.grows_saturate s _ _).1 c⟩
        have hgrow := (grows_sweep s todo (x.update s reach) x.node).1 c
        rw [Site.update, IdMap.get_set_self] at hgrow
        exact hsame x List.mem_cons_self ▸ hgrow hc
      intro y
      rw [Site.update, Reach.saturate_eq_self (htracks x List.mem_cons_self) hx, IdMap.get_set]
      split
      · rename_i hyx
        rw [hyx]
      · rfl
    have hrest := @ih (x.update s reach)
      (fun y hy => by rw [hstep]; exact htracks y (List.mem_cons_of_mem x hy))
      (fun y hy => by rw [hstep]; exact hsame y (List.mem_cons_of_mem x hy))
    refine ⟨fun y => (hrest.1 y).trans (hstep y), fun y hy => ?_⟩
    rcases List.mem_cons.1 hy with rfl | hy
    · have hsettled : Reach.Settled s (y.incoming reach) ((reach.get y.node).saturate s (y.incoming reach)) :=
        Reach.settled_saturate (htracks y List.mem_cons_self)
      have hget := hstep y.node
      rw [Site.update, IdMap.get_set_self] at hget
      rwa [hget] at hsettled
    · have hsettled := hrest.2 y hy
      rwa [incoming_congr hstep, hstep] at hsettled

theorem exists_returns_converge (hg : g.Mirrored) (hs : Surveyed p g plain sites)
    (h : Justified p g s plain sites reach) :
    ∃ last, Polled.Returns (converge s sites reach) last ∧ Justified p g s plain sites last ∧
      ∀ x ∈ sites, Reach.Settled s (x.incoming last) (last.get x.node) := by
  fun_induction converge s sites reach with
  | case1 reach ih =>
    by_cases hagree : agree sites (sweep s sites reach) reach
    · refine ⟨sweep s sites reach, Polled.returns_poll.bind ((Polled.returns_forM_poll sites).bind ?_), h.sweep hg hs, ?_⟩
      · rw [dif_pos hagree]
        exact Polled.returns_pure _
      · have hsame : ∀ x ∈ sites, ((sweep s sites reach).get x.node).reached = (reach.get x.node).reached := by
          simpa [agree] using hagree
        obtain ⟨hget, hsettled⟩ := sweep_eq_self h.tracks hsame
        intro x hx
        rw [incoming_congr hget, hget]
        exact hsettled x hx
    · obtain ⟨last, hrun, hlast⟩ := ih hagree (h.sweep hg hs)
      refine ⟨last, Polled.returns_poll.bind ((Polled.returns_forM_poll sites).bind ?_), hlast⟩
      rwa [dif_neg hagree]

/-! ### The result -/

theorem closed_of_settled (hg : g.Mirrored) (hs : Surveyed p g plain sites) (h : Justified p g s plain sites reach)
    (hsettled : ∀ x ∈ sites, Reach.Settled s (x.incoming reach) (reach.get x.node))
    {family : CallNode → Set Candidate} (hfamily : ∀ x ∈ sites, ∀ c, c ∈ family x.node ↔ c ∈ (reach.get x.node).reached) :
    Closed p g s plain family := by
  intro y hy q hq c hdraws htouches
  obtain ⟨x, hx, rfl⟩ := hs.complete y hy (by rw [hq]; rfl)
  have hproc : x.procedure = q := Option.some.inj ((hs.node x hx).2.symm.trans hq)
  have htouch : (reach.get x.node).touches s c = true := by
    obtain ⟨o, hbase, ho⟩ := htouches
    refine Reach.touches_iff.2 ⟨o, hbase, ((h.tracks x hx).objects o).2 ?_⟩
    rw [hproc]
    refine ho.imp_right ?_
    rintro ⟨d, hd, ho⟩
    exact ⟨d, (hfamily x hx d).1 hd, ho⟩
  have hpulled : ∀ t ∈ x.incoming reach, c ∈ t → c ∈ (reach.get x.node).reached := fun t ht hc =>
    ((hsettled x hx).2 t ht c hc).resolve_right (by simp [htouch])
  rw [hfamily x hx]
  rcases hdraws with hlocal | ⟨y, hcall, hsome, hc⟩ | hflat
  · refine ((h.tracks x hx).covers c hlocal).resolve_left fun hpending => ?_
    simp [(hsettled x hx).1 c hpending] at htouch
  · obtain ⟨z, hz, rfl⟩ := hs.complete y (hg.callee_mem_ids hcall) hsome
    rw [hfamily z hz] at hc
    by_cases hself : z.node = x.node
    · rwa [hself] at hc
    · have hcallee : z.node ∈ x.callees.filter (· ≠ x.node) :=
        List.mem_filter.2 ⟨(hs.callees x hx z.node).2 ⟨hcall, hsome⟩, by simpa using hself⟩
      exact hpulled _ (List.mem_append_left _ (List.mem_map_of_mem hcallee)) hc
  · exact hpulled _ (List.mem_append_right _ (List.mem_singleton.2 rfl)) ((hs.flattened x hx c).2 hflat)

theorem exists_returns_gatedAlong (hp : p.Built) (hg : g.Mirrored) {visit : List CallNode} (hvisit : Visits p g visit)
    (hfields : ∀ c ∈ everything plain, ∃ l, s.field? c = some l) :
    ∃ out, Polled.Returns (gatedAlong p g s plain visit) out ∧
      (∀ x, ¬ (x ∈ g.ids ∧ (p.procedure? x).isSome) → out.get x = plain.get x) ∧
      IsLeastClosed p g s plain fun x => {c | c ∈ out.get x} := by
  obtain ⟨sites, hsites, hs⟩ := exists_sites hp hg plain hvisit
  obtain ⟨last, hrun, hlast, hsettled⟩ := exists_returns_converge hg hs (justified_start (s := s) hs)
  have hget : ∀ x ∈ sites, (sites.foldl (fun result x => result.set x.node (last.get x.node).reached) plain).get x.node =
      (last.get x.node).reached := fun x hx =>
    IdMap.get_foldl_set_of_forall_eq Site.node (fun y hy hyx => by rw [hyx]) (.inr ⟨x, hx, rfl⟩)
  refine ⟨sites.foldl (fun result x => result.set x.node (last.get x.node).reached) plain, ?_, fun x hx => ?_, ?_, ?_⟩
  · exact (Polled.returns_attempt hsites).bind ((Polled.returns_attempt (Store.requireFields_eq_ok hfields)).bind
      (hrun.bind (Polled.returns_pure _)))
  · refine IdMap.get_foldl_set_of_forall_ne Site.node fun y hy hyx => hx ?_
    obtain ⟨hnode, hproc⟩ := hs.node y hy
    rw [← hyx, hproc]
    exact ⟨hnode, rfl⟩
  · refine closed_of_settled hg hs hlast hsettled fun x hx c => ?_
    rw [← hget x hx]
    exact Iff.rfl
  · intro other hother x hx hsome c hc
    obtain ⟨y, hy, rfl⟩ := hs.complete x hx hsome
    exact hlast.below other hother y hy c (hget y hy ▸ hc)

theorem IsLeastClosed.eq {family other : CallNode → Set Candidate} (h : IsLeastClosed p g s plain family)
    (hother : IsLeastClosed p g s plain other) {x : CallNode} (hx : x ∈ g.ids) (hsome : (p.procedure? x).isSome)
    (c : Candidate) : c ∈ family x ↔ c ∈ other x :=
  ⟨h.least other hother.closed x hx hsome c, hother.least family h.closed x hx hsome c⟩

theorem field?_of_mem_plain (hs : s.LocalsAreFields)
    (hplain : ∀ x c, c ∈ plain.get x ↔ x ∈ g.ids ∧ ∃ y, g.Reaches x y ∧ c ∈ s.localsOf y) {x : CallNode}
    {c : Candidate} (hc : c ∈ plain.get x) : ∃ l, s.field? c = some l := by
  obtain ⟨_, y, _, hlocal⟩ := (hplain x c).1 hc
  exact hs y c hlocal

theorem field?_of_mem_everything (hs : s.LocalsAreFields)
    (hplain : ∀ x c, c ∈ plain.get x ↔ x ∈ g.ids ∧ ∃ y, g.Reaches x y ∧ c ∈ s.localsOf y) {c : Candidate}
    (hc : c ∈ everything plain) : ∃ l, s.field? c = some l := by
  obtain ⟨v, hv, hc⟩ := IdSet.mem_unionMap.1 hc
  obtain ⟨x, rfl⟩ := IdMap.exists_get_of_mem_values hv
  exact field?_of_mem_plain hs hplain hc

/-- Plain sets contain the locals and the plain sets of all callees, so they need no gate to be closed. -/
theorem closed_plain
    (hplain : ∀ x c, c ∈ plain.get x ↔ x ∈ g.ids ∧ ∃ y, g.Reaches x y ∧ c ∈ s.localsOf y) :
    Closed p g s plain fun x => {c | c ∈ plain.get x} := by
  intro x hx q _ c hdraws _
  have hcallee : ∀ y ∈ g.callees x, c ∈ plain.get y → c ∈ plain.get x := by
    intro y hcall hc
    obtain ⟨_, z, hreach, hlocal⟩ := (hplain y c).1 hc
    exact (hplain x c).2 ⟨hx, z, .head hcall hreach, hlocal⟩
  rcases hdraws with hlocal | ⟨y, hcall, _, hc⟩ | ⟨y, hcall, _, hc⟩
  · exact (hplain x c).2 ⟨hx, x, .refl, hlocal⟩
  · exact hcallee y hcall hc
  · exact hcallee y hcall hc

theorem exists_returns_gated (hp : p.Built) (hg : g.Mirrored) (hids : g.ids = p.callGraph.ids) :
    ∃ plain out, Polled.Returns (Propagation.plain g (Store.ofProgram p)) plain ∧
      Polled.Returns (gated p g (Store.ofProgram p)) out ∧
      (∀ x c, c ∈ plain.get x ↔ x ∈ g.ids ∧ ∃ y, g.Reaches x y ∧ c ∈ (Store.ofProgram p).localsOf y) ∧
      (∀ x, ∀ c ∈ out.get x, c ∈ plain.get x) ∧
      IsLeastClosed p g (Store.ofProgram p) plain fun x => {c | c ∈ out.get x} := by
  obtain ⟨plain, hrun, hplain⟩ := exists_returns_plain hg (Store.ofProgram p)
  obtain ⟨visit, horder, hvisit⟩ := exists_order hp hg hids
  obtain ⟨out, hgated, hother, hleast⟩ := exists_returns_gatedAlong hp hg hvisit fun c hc =>
    field?_of_mem_everything (Store.localsAreFields_ofProgram p) hplain hc
  refine ⟨plain, out, hrun, hrun.bind ((Polled.returns_attempt horder).bind hgated), hplain, fun x c hc => ?_, hleast⟩
  by_cases hx : x ∈ g.ids ∧ (p.procedure? x).isSome
  · exact hleast.least _ (closed_plain hplain) x hx.1 hx.2 c hc
  · rwa [hother x hx] at hc

/-- Gated propagation over the call graph of a program, thread dispatch taken out or not, gives every node with a
procedure its set in the least closed family and every other node its plain set. Visiting the procedures in another order
gives the same. -/
theorem gated_returns_least_closed (hp : p.Built) :
    ∃ stripped, p.callGraph.withoutDispatch = .ok stripped ∧
      ∀ g, g = p.callGraph ∨ g = stripped →
        ∃ plain out, Polled.Returns (Propagation.plain g (Store.ofProgram p)) plain ∧
          Polled.Returns (gated p g (Store.ofProgram p)) out ∧
          (∀ x ∈ g.ids, p.procedure? x = none → out.get x = plain.get x) ∧
          (IsLeastClosed p g (Store.ofProgram p) plain fun x => {c | c ∈ out.get x}) ∧
          ∀ visit, Visits p g visit →
            ∃ out', Polled.Returns (gatedAlong p g (Store.ofProgram p) plain visit) out' ∧ ∀ x, out'.get x = out.get x := by
  have hbuilt := hp.callGraph_built
  obtain ⟨stripped, hstripped⟩ := hbuilt.mirrored.exists_withoutDispatch
  refine ⟨stripped, hstripped, fun g hg => ?_⟩
  have hmirrored : g.Mirrored := by
    rcases hg with rfl | rfl
    · exact hbuilt.mirrored
    · exact (hbuilt.withoutDispatch hstripped).mirrored
  have hids : g.ids = p.callGraph.ids := by
    rcases hg with rfl | rfl
    · rfl
    · exact CallGraph.ids_withoutDispatch hstripped
  obtain ⟨plain, hplain, hreach⟩ := exists_returns_plain hmirrored (Store.ofProgram p)
  have hfields : ∀ c ∈ everything plain, ∃ l, (Store.ofProgram p).field? c = some l := fun c hc =>
    field?_of_mem_everything (Store.localsAreFields_ofProgram p) hreach hc
  obtain ⟨visit, horder, hvisit⟩ := exists_order hp hmirrored hids
  obtain ⟨out, hrun, hother, hleast⟩ := exists_returns_gatedAlong hp hmirrored hvisit hfields
  refine ⟨plain, out, hplain, ?_, fun x _ hnone => hother x (by simp [hnone]), hleast, fun visit' hvisit' => ?_⟩
  · rw [gated_eq_gatedAlong]
    exact hplain.bind ((Polled.returns_attempt horder).bind hrun)
  · obtain ⟨out', hrun', hother', hleast'⟩ := exists_returns_gatedAlong hp hmirrored hvisit' hfields
    refine ⟨out', hrun', fun x => ?_⟩
    by_cases hx : x ∈ g.ids ∧ (p.procedure? x).isSome
    · exact IdSet.ext fun c => hleast'.eq hleast hx.1 hx.2 c
    · rw [hother x hx, hother' x hx]

/-- `main` calls `callee`, which accesses an object of `main`, the object held there, and one of its own. -/
def calleeAccesses : CallGraph where
  nodes := ⟨#[⟨"main", .normal, [], [⟨1⟩], []⟩,
    ⟨"callee", .normal, [⟨⟨0⟩, IdSet.singleton ⟨1⟩, IdSet.singleton ⟨2⟩, none, .no⟩,
      ⟨⟨1⟩, IdSet.singleton ⟨2⟩, ∅, none, .no⟩, ⟨⟨0⟩, IdSet.singleton ⟨9⟩, ∅, none, .no⟩], [], [⟨0⟩]⟩]⟩
  members := IdSet.ofList [⟨0⟩, ⟨1⟩]

theorem built_calleeAccesses : calleeAccesses.Built := by
  have calls := ((CallGraph.Built.empty.addNode "main" .normal).addNode "callee" .normal).addEdge (x := ⟨0⟩) (y := ⟨1⟩) rfl
  exact ((calls.addAccess (x := ⟨1⟩) (a := ⟨⟨0⟩, IdSet.singleton ⟨1⟩, IdSet.singleton ⟨2⟩, none, .no⟩) rfl).addAccess
    (x := ⟨1⟩) (a := ⟨⟨1⟩, IdSet.singleton ⟨2⟩, ∅, none, .no⟩) rfl).addAccess
    (x := ⟨1⟩) (a := ⟨⟨0⟩, IdSet.singleton ⟨9⟩, ∅, none, .no⟩) rfl

def calleeProgram : Program :=
  { (Program.empty.addProcedure ⟨⟨0⟩, "main", none, false, [.formal "p" none (IdSet.singleton ⟨1⟩)]⟩).addProcedure
      ⟨⟨1⟩, "callee", none, false, [.formal "q" none (IdSet.ofList [⟨1⟩, ⟨9⟩])]⟩ with callGraph := calleeAccesses }

theorem built_calleeProgram : calleeProgram.Built :=
  ((Program.Built.empty.addProcedure _).addProcedure _).setCallGraph built_calleeAccesses

theorem not_mem_ptsOf_calleeProgram (d : Candidate) : ⟨9⟩ ∉ (Store.ofProgram calleeProgram).ptsOf d := by
  obtain ⟨_ | _ | _ | n⟩ := d
  · decide
  · decide
  · decide
  · have hnone : (Store.ofProgram calleeProgram).arena.get? ⟨n + 3⟩ = none :=
      Arena.get?_eq_none_iff.2 (Nat.le_add_left 3 n)
    simp [Store.ptsOf, Store.field?, hnone]

theorem gated_calleeProgram : calleeProgram.Built ∧
    ∃ out, Polled.Returns (gated calleeProgram calleeAccesses (Store.ofProgram calleeProgram)) out ∧
      ⟨0⟩ ∈ out.get ⟨0⟩ ∧ ⟨1⟩ ∈ out.get ⟨0⟩ ∧ ⟨2⟩ ∉ out.get ⟨0⟩ := by
  obtain ⟨stripped, _, hall⟩ := gated_returns_least_closed built_calleeProgram
  obtain ⟨plain, out, _, hrun, _, hleast, _⟩ := hall calleeAccesses (.inl rfl)
  have h10 : ⟨0⟩ ∈ out.get ⟨1⟩ :=
    hleast.closed ⟨1⟩ (by decide) _ rfl ⟨0⟩ (.inl (by decide)) ⟨⟨1⟩, by decide, .inl (by decide)⟩
  have h11 : ⟨1⟩ ∈ out.get ⟨1⟩ :=
    hleast.closed ⟨1⟩ (by decide) _ rfl ⟨1⟩ (.inl (by decide)) ⟨⟨2⟩, by decide, .inr ⟨⟨0⟩, h10, by decide⟩⟩
  have h00 : ⟨0⟩ ∈ out.get ⟨0⟩ :=
    hleast.closed ⟨0⟩ (by decide) _ rfl ⟨0⟩ (.inr (.inl ⟨⟨1⟩, by decide, by decide, h10⟩))
      ⟨⟨1⟩, by decide, .inl (by decide)⟩
  have h01 : ⟨1⟩ ∈ out.get ⟨0⟩ :=
    hleast.closed ⟨0⟩ (by decide) _ rfl ⟨1⟩ (.inr (.inl ⟨⟨1⟩, by decide, by decide, h11⟩))
      ⟨⟨2⟩, by decide, .inr ⟨⟨0⟩, h00, by decide⟩⟩
  -- all candidates but the access to the object of `callee` form a closed family at `main`
  have hother : Closed calleeProgram calleeAccesses (Store.ofProgram calleeProgram) plain
      fun x => {c | x = ⟨0⟩ → c ≠ ⟨2⟩} := by
    rintro x _ q hq c _ ⟨o, hbase, htouch⟩ rfl rfl
    cases hq
    have hbases : (Store.ofProgram calleeProgram).basesOf ⟨2⟩ = IdSet.singleton ⟨9⟩ := by decide
    rw [hbases, IdSet.mem_singleton] at hbase
    subst hbase
    rcases htouch with hroot | ⟨d, _, hd⟩
    · exact absurd hroot (by decide)
    · exact not_mem_ptsOf_calleeProgram d hd
  exact ⟨built_calleeProgram, out, hrun, h00, h01,
    fun h02 => hleast.least _ hother ⟨0⟩ (by decide) (by decide) ⟨2⟩ h02 rfl rfl⟩

end HeapSummary.Propagation
