import HeapSummary.Proofs.Passes

/-!
# Merging below a depth absorbs every deeper candidate

If the roots reach the whole interface, then merging below a depth leaves at most the limit of candidates, or one.

Cutting what is unreachable makes all candidates reached, and merging keeps them so, since it sends paths to paths
(`Merging.found_image`). Once layers are taken, every candidate that was not taken is found from some border candidate:
the first edge that leaves the taken candidates on a path from a root starts in the border. The border is worked off
under this invariant. A candidate that the next border candidate does not absorb is found from a later one, and merging
does not hide it, as it stays its own image and so does the later border candidate.
-/

namespace HeapSummary

namespace Bounding

open CandidateGraph (image image_of_mem image_of_not_mem Expands Found)
open Relation (ReflTransGen)

variable {b b' : Bounding} {c d m : Candidate} {group start : List Candidate} {max depth : Nat} {R : PointsTo}

/-- The roots reach every candidate of the interface. -/
def AllReached (b : Bounding) : Prop := ∀ c ∈ b.interface, b.graph.Found b.store b.graph.roots c

/-! ### Cutting establishes it -/

theorem mem_interface_cutUnreachable (h : b.cutUnreachable = .ok b') :
    c ∈ b'.interface ↔ c ∈ b.interface ∧ b.graph.Found b.store b.graph.roots c := by
  simp only [cutUnreachable, Outcome.bind_eq_ok] at h
  obtain ⟨reached, hreached, h⟩ := h
  rw [(removed_removeAll h).interface, IdSet.mem_toList, IdSet.mem_diff, CandidateGraph.mem_reachable hreached]
  tauto

theorem Removed.found {cs : List Candidate} (h : Removed b cs b') (hb : b.Exact) (hb' : b'.Exact)
    (hkept : ∀ d, b.graph.Found b.store start d → d ∉ cs) (hc : b.graph.Found b.store start c) :
    b'.graph.Found b'.store start c := by
  induction hc with
  | start hc => exact .start hc
  | @step c d hc hexp hd ih =>
    have hexp' : Expands b'.store start c := by
      unfold Expands Store.isPrimitive at hexp ⊢
      rwa [h.arena]
    refine .step ih hexp' ((hb'.edges c d).2 ?_)
    obtain ⟨hcnode, _, hlead⟩ := (hb.edges c d).1 hd
    refine ⟨?_, ?_, ?_⟩
    · rw [hb'.nodes, h.roots, h.interface]
      exact ((hb.nodes c).1 hcnode).imp_right fun hmem => ⟨hmem, hkept c hc⟩
    · rw [hb'.nodes, h.interface]
      exact .inr ⟨hb.target_mem_interface hd, hkept d (.step hc hexp hd)⟩
    · unfold Store.Leads Store.objectsOf Store.field? at hlead ⊢
      rwa [h.arena]

theorem allReached_cutUnreachable (hb : b.Exact) (h : b.cutUnreachable = .ok b') : b'.AllReached := by
  intro c hc
  have hb' : b'.Exact := hb.edits (edits_of_removes (removes_cutUnreachable h))
  have hfound := ((mem_interface_cutUnreachable h).1 hc).2
  simp only [cutUnreachable, Outcome.bind_eq_ok] at h
  obtain ⟨reached, hreached, h⟩ := h
  have hremoved := removed_removeAll h
  rw [hremoved.roots]
  refine hremoved.found hb hb' (fun d hd hcut => ?_) hfound
  rw [IdSet.mem_toList, IdSet.mem_diff] at hcut
  exact hcut.2 ((CandidateGraph.mem_reachable hreached).2 hd)

/-! ### Merging keeps it -/

theorem Merging.isPrimitive_image (h : Merging b group b' m) (hb : b.Exact) (hc : c ∈ b.graph.nodes)
    (hprim : b.store.isPrimitive c = false) : b'.store.isPrimitive (image group m c) = false := by
  by_cases hgroup : c ∈ group
  · rw [image_of_mem hgroup, Bool.eq_false_iff]
    intro hm
    rw [h.store.primitive.1 hm c hgroup] at hprim
    cases hprim
  · rwa [image_of_not_mem hgroup, Store.isPrimitive, h.store.keeps c (h.ne_of_mem_nodes hb hc)]

theorem Merging.found_image (h : Merging b group b' m) (hb : b.Exact) (hstart : ∀ c ∈ start, c ∉ group)
    (hc : b.graph.Found b.store start c) : b'.graph.Found b'.store start (image group m c) := by
  induction hc with
  | start hc =>
    rw [image_of_not_mem (hstart _ hc)]
    exact .start hc
  | step _ hexp hd ih =>
    refine .step ih (hexp.imp (fun hc => ?_) fun hprim => ?_) (h.edge_image hb hd)
    · rwa [image_of_not_mem (hstart _ hc)]
    · exact h.isPrimitive_image hb ((hb.edges _ _).1 hd).1 hprim

theorem AllReached.merging (hall : b.AllReached) (h : Merging b group b' m) (hb : b.Exact) : b'.AllReached := by
  intro c hc
  obtain ⟨a, ha, rfl⟩ := h.exists_image hc
  rw [h.roots]
  exact h.found_image hb (fun r hr hgroup => hb.not_mem_roots_of_interface (h.members r hgroup) hr) (hall a ha)

theorem AllReached.merges (hall : b.AllReached) (hb : b.Exact) (h : ReflTransGen Merges b b') : b'.AllReached := by
  induction h with
  | refl => exact hall
  | tail hrun hstep ih =>
    obtain ⟨group, m, hmerging⟩ := hstep
    exact ih.merging hmerging (hb.edits (edits_of_merges hrun))

theorem AllReached.cutImmutables {immutables : IdSet .type} (hall : b.AllReached) (hb : b.Exact)
    (h : b.cutImmutables immutables true = .ok b') : b'.AllReached := by
  obtain ⟨trimmed, merged, hremoves, hmerges, hcut | ⟨rfl, htrimmed⟩⟩ := cutImmutables_cases hb h
  · exact allReached_cutUnreachable ((hb.edits (edits_of_removes hremoves)).edits (edits_of_merges hmerges)) hcut
  · obtain rfl := htrimmed rfl
    exact hall.merges hb hmerges

/-! ### From the roots to the border -/

theorem mem_rootsPts (h : b.graph.rootsPts b.store = .ok R) {o : InstanceKey} :
    o ∈ R ↔ ∃ c ∈ b.graph.roots, o ∈ b.store.objectsOf c := by
  simp only [CandidateGraph.rootsPts, Outcome.bind_eq_ok, Outcome.pure_eq_ok] at h
  obtain ⟨locations, hlocations, rfl⟩ := h
  rw [IdSet.mem_unionMap]
  refine Outcome.exists_iff_of_mapM hlocations fun c l hl => ?_
  rw [Store.objectsOf_of_get (Store.location_eq_ok.1 hl)]

theorem based_of_root (hb : b.Exact) (hR : b.graph.rootsPts b.store = .ok R) (hc : c ∈ b.graph.roots)
    (hd : d ∈ b.graph.succsOf c) : Based b.store R d := by
  obtain ⟨o, hbase, ho⟩ := Store.leads_iff.1 ((hb.edges c d).1 hd).2.2
  exact ⟨o, hbase, (mem_rootsPts hR).2 ⟨c, hc, ho⟩⟩

theorem based_of_interface (hb : b.Exact) (hc : c ∈ b.interface) (hd : d ∈ b.graph.succsOf c) :
    Based b.store (b.store.ptsOf c) d := by
  obtain ⟨f, hf⟩ := hb.fields c hc
  rw [Store.ptsOf_of_field hf]
  exact Store.leads_iff.1 ((hb.edges c d).1 hd).2.2

theorem expands_of_interface (hb : b.Exact) (hc : c ∈ b.interface) (h : Expands b.store b.graph.roots c) :
    Expands b.store start c :=
  .inr (h.resolve_left (hb.not_mem_roots_of_interface hc))

theorem found_of_collapsed {f : Frontier} (hb : b.Exact) (hR : b.graph.rootsPts b.store = .ok R)
    (hf : f.Collapsed b.store R b.interface) (hc : b.graph.Found b.store b.graph.roots c) (hmem : c ∈ b.interface) :
    b.graph.Found b.store f.border c := by
  induction hc with
  | start hc => exact absurd hc (hb.not_mem_roots_of_interface hmem)
  | @step c d _ hexp hd ih =>
    rcases (hb.nodes c).1 ((hb.edges c d).1 hd).1 with hroot | hc
    · exact .start ((hf.2 d).2 ⟨hmem, based_of_root hb hR hroot hd⟩)
    · exact .step (ih hc) (expands_of_interface hb hc hexp) hd

/-- If what is taken is sealed, everything else is found from a border candidate. -/
theorem found_of_sealed {f : Frontier} (hb : b.Exact) (hR : b.graph.rootsPts b.store = .ok R)
    (hf : f.Sealed b.store R b.interface) (hc : b.graph.Found b.store b.graph.roots c) (hmem : c ∈ b.interface)
    (hout : c ∉ f.taken) : ∃ a ∈ f.border, b.graph.Found b.store [a] c := by
  induction hc with
  | start hc => exact absurd hc (hb.not_mem_roots_of_interface hmem)
  | @step c d _ hexp hd ih =>
    obtain ⟨hroots, htaken⟩ := hf d hmem hout
    rcases (hb.nodes c).1 ((hb.edges c d).1 hd).1 with hroot | hc
    · exact absurd (based_of_root hb hR hroot hd) hroots
    · by_cases hin : c ∈ f.taken
      · have hborder : c ∈ f.border := htaken c hin (based_of_interface hb hc hd)
        have hself : b.graph.Found b.store [c] c := .start List.mem_cons_self
        exact ⟨c, hborder, hself.step (.inl List.mem_cons_self) hd⟩
      · obtain ⟨a, ha, hfound⟩ := ih hc hin
        exact ⟨a, ha, hfound.step (expands_of_interface hb hc hexp) hd⟩

/-! ### Working the border off -/

/-- The border is worked off down to `rest`: what is taken of the interface is within the limit, and what is not taken
is found from a border candidate that is still to come. -/
structure Absorbing (max : Nat) (b : Bounding) (taken : IdSet .candidate) (rest : List Candidate) : Prop where
  exact : b.Exact
  nodup : rest.Nodup
  border : ∀ c ∈ rest, c ∈ b.interface ∧ c ∈ taken
  size : (b.interface.filter taken.contains).size ≤ max
  covered : ∀ d ∈ b.interface, d ∉ taken → ∃ c ∈ rest, b.graph.Found b.store [c] d

theorem Merging.size_taken_le {taken : IdSet .candidate} (h : Merging b group b' m) (hc : c ∈ group)
    (htaken : c ∈ taken) :
    (b'.interface.filter (taken.insert m).contains).size ≤ (b.interface.filter taken.contains).size := by
  have hsub : ∀ x ∈ b'.interface.filter (taken.insert m).contains,
      x ∈ ((b.interface.filter taken.contains).erase c).insert m := by
    intro x hx
    obtain ⟨hx, hxtaken⟩ := IdSet.mem_filter.1 hx
    rw [IdSet.mem_insert]
    rcases h.mem_interface.1 hx with rfl | ⟨hx, hxgroup⟩
    · exact .inl rfl
    · refine (IdSet.mem_insert.1 hxtaken).imp_right fun hxtaken => IdSet.mem_erase.2 ⟨?_, ?_⟩
      · exact fun hxc => hxgroup (hxc ▸ hc)
      · exact IdSet.mem_filter.2 ⟨hx, hxtaken⟩
  calc (b'.interface.filter (taken.insert m).contains).size
    _ ≤ (((b.interface.filter taken.contains).erase c).insert m).size := IdSet.size_le_of_subset hsub
    _ ≤ ((b.interface.filter taken.contains).erase c).size + 1 := IdSet.size_insert_le _ m
    _ = (b.interface.filter taken.contains).size :=
      IdSet.size_erase_add_one (IdSet.mem_filter.2 ⟨h.members c hc, htaken⟩)

theorem Absorbing.step {taken taken' : IdSet .candidate} {rest : List Candidate}
    (h : Absorbing max b taken (c :: rest)) (hstep : absorbBelow (b, taken) c = .ok (b', taken')) :
    Absorbing max b' taken' rest := by
  obtain ⟨hc, hctaken⟩ := h.border c List.mem_cons_self
  obtain ⟨hcrest, hnodup⟩ := List.nodup_cons.1 h.nodup
  have hrest : ∀ a ∈ rest, a ∈ b.interface ∧ a ∈ taken := fun a ha => h.border a (List.mem_cons_of_mem c ha)
  obtain ⟨hout, _⟩ | ⟨_, rfl, rfl, hnone⟩ | ⟨_, group, m, _, _, hmerging, rfl, hgroup⟩ :=
    absorbBelow_cases h.exact (h.exact.not_mem_roots_of_interface hc) hstep
  · exact absurd hc hout
  · refine ⟨h.exact, hnodup, hrest, h.size, fun d hd hdtaken => ?_⟩
    obtain ⟨a, ha, hfound⟩ := h.covered d hd hdtaken
    rcases List.mem_cons.1 ha with rfl | ha
    · rcases hnone d hfound with rfl | htaken
      · exact absurd hctaken hdtaken
      · exact absurd htaken hdtaken
    · exact ⟨a, ha, hfound⟩
  · have hcgroup : c ∈ group := (hgroup c).2 (.inl rfl)
    have hstays : ∀ a ∈ rest, a ∉ group := by
      intro a ha hin
      rcases (hgroup a).1 hin with rfl | ⟨_, huntaken⟩
      · exact hcrest ha
      · exact huntaken (hrest a ha).2
    refine ⟨hmerging.exact h.exact, hnodup, fun a ha => ⟨?_, ?_⟩, ?_, fun d hd hdtaken => ?_⟩
    · exact hmerging.mem_interface.2 (.inr ⟨(hrest a ha).1, hstays a ha⟩)
    · exact IdSet.mem_insert.2 (.inr (hrest a ha).2)
    · exact Nat.le_trans (hmerging.size_taken_le hcgroup hctaken) h.size
    · -- what `c` did not absorb is found from a later border candidate, and both are their own images
      obtain ⟨hdm, hdtaken⟩ := not_or.1 fun hd => hdtaken (IdSet.mem_insert.2 hd)
      obtain ⟨hd, hdgroup⟩ := (hmerging.mem_interface.1 hd).resolve_left hdm
      obtain ⟨a, ha, hfound⟩ := h.covered d hd hdtaken
      rcases List.mem_cons.1 ha with rfl | ha
      · exact absurd ((hgroup d).2 (.inr ⟨hfound, hdtaken⟩)) hdgroup
      · have hfound' := hmerging.found_image h.exact (fun x hx => List.mem_singleton.1 hx ▸ hstays a ha) hfound
        rw [image_of_not_mem hdgroup] at hfound'
        exact ⟨a, ha, hfound'⟩

theorem Absorbing.run {taken taken' : IdSet .candidate} {rest : List Candidate} (h : Absorbing max b taken rest)
    (hrun : rest.foldlM absorbBelow (b, taken) = .ok (b', taken')) : Absorbing max b' taken' [] :=
  Outcome.foldlM_rest (P := fun rest state => Absorbing max state.1 state.2 rest)
    (fun _ _ _ _ h hstep => h.step hstep) h hrun

theorem Absorbing.size_le {taken : IdSet .candidate} (h : Absorbing max b taken []) : b.size ≤ max := by
  refine Nat.le_trans (IdSet.size_le_of_subset fun c hc => IdSet.mem_filter.2 ⟨hc, ?_⟩) h.size
  by_contra htaken
  obtain ⟨_, hnil, _⟩ := h.covered c hc htaken
  exact List.not_mem_nil hnil

theorem size_merge_all {r : Option Candidate} (hall : ∀ c, c ∈ group ↔ c ∈ b.interface)
    (h : b.merge group = .ok (b', r)) : b'.size ≤ 1 := by
  obtain ⟨hlen, rfl, _⟩ | ⟨m, hlen, _, hmerge⟩ := merge_eq_ok h
  · have hsize : b'.interface.toList.length ≤ group.length :=
      (IdSet.toList_nodup _).length_le_of_subset fun c hc => (hall c).2 (IdSet.mem_toList.1 hc)
    rw [IdSet.length_toList] at hsize
    exact Nat.le_trans hsize (Nat.le_of_lt_succ hlen)
  · have hmerging := merging_of_mergeGroup hlen (fun c => (hall c).1) hmerge
    have hsub : ∀ c ∈ b'.interface, c ∈ IdSet.singleton m := by
      intro c hc
      rcases hmerging.mem_interface.1 hc with rfl | ⟨hc, hgroup⟩
      · exact IdSet.mem_singleton.2 rfl
      · exact absurd ((hall c).2 hc) hgroup
    exact Nat.le_trans (IdSet.size_le_of_subset hsub) (IdSet.size_insert_le ∅ m)

theorem absorbing_of_sealed {f : Frontier} (hb : b.Exact) (hall : b.AllReached)
    (hR : b.graph.rootsPts b.store = .ok R) (hlayered : f.Layered max b.interface)
    (hsealed : f.Sealed b.store R b.interface) : Absorbing max b f.taken f.border := by
  refine ⟨hb, hlayered.nodup, fun c hc => ?_, ?_, fun d hd hout => ?_⟩
  · exact ⟨hlayered.taken c (hlayered.border c hc), hlayered.border c hc⟩
  · exact Nat.le_trans (IdSet.size_le_of_subset fun c hc => (IdSet.mem_filter.1 hc).2) hlayered.size
  · exact found_of_sealed hb hR hsealed (hall d hd) hd hout

theorem size_mergeBelowDepth (hb : b.Exact) (hall : b.AllReached) (hdepth : 1 ≤ depth)
    (h : b.mergeBelowDepth max depth = .ok b') : b'.size ≤ Nat.max 1 max := by
  obtain ⟨R, hR, ⟨hover, found, group, r, hfound, hgroup, hmerge⟩ | ⟨hover, taken, hrun⟩⟩ := mergeBelowDepth_cases h
  · obtain hcollapsed | ⟨hfits, _⟩ := takeLayers_initial b.store max depth R b.interface
    · refine Nat.le_trans (size_merge_all (fun c => ?_) hmerge) (Nat.le_max_left 1 max)
      have hborder : ∀ a ∈ (takeLayers b.store max depth (.initial R b.interface)).border, a ∈ b.interface :=
        fun a ha => mem_of_mem_border ha
      rw [hb.mem_fieldsOf_reachable hborder hfound hgroup]
      exact ⟨hb.mem_interface_of_found hborder, fun hc => found_of_collapsed hb hR hcollapsed (hall c hc) hc⟩
    · rw [hover] at hfits
      cases hfits
  · obtain ⟨hcollapsed, _⟩ | ⟨_, hlayered, hsealed⟩ := takeLayers_initial b.store max depth R b.interface
    · rw [hover] at hcollapsed
      cases hcollapsed
    · have hstart := absorbing_of_sealed hb hall hR hlayered (hsealed (Nat.ne_of_gt hdepth))
      exact Nat.le_trans (hstart.run hrun).size_le (Nat.le_max_right 1 max)

end Bounding

end HeapSummary
