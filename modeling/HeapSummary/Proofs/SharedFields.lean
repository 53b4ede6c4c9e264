import HeapSummary.Proofs.PassesSucceed

/-!
# Successors that share a field

Successors of one candidate that have a field in common are merged, under one candidate after the other. A merge under a
later candidate may give an earlier one two successors with a field in common again, if the group had other fields too:
the merged candidate has all of them. A field is safe from that if every candidate that has a field in common with one
that has it has it too (`Pervasive`), so a group has it as a whole or not at all. In an interface of unmerged candidates,
which have one field each, all fields are.

The argument is an invariant of the search. A candidate that was visited and is not waiting has at most one successor
with the field, and its successors were visited too, or they are successors of the candidate that is being worked on. A
merge keeps this, since it sends successors to successors and changes who has the field for nobody.
-/

namespace HeapSummary

open CandidateGraph (image image_of_mem image_of_not_mem)

namespace Store

variable {s s' : Store}

/-- Every candidate has one field. -/
def SingleFields (s : Store) : Prop := ∀ c l, s.field? c = some l → ∃ f, l.fields = IdSet.singleton f

theorem SingleFields.addAccess (h : s.SingleFields) (a : Access) : (s.addAccess a).1.SingleFields := by
  intro c l hl
  rw [field?_eq_some] at hl
  unfold Store.addAccess at hl
  split at hl
  · simp only [Arena.get?_modify] at hl
    split at hl
    · obtain ⟨loc, hloc, hrevisit⟩ := Option.map_eq_some_iff.1 hl
      cases loc with
      | root r => cases hrevisit
      | field l₀ =>
        cases hrevisit
        exact h c l₀ (field?_eq_some.2 hloc)
    · exact h c l (field?_eq_some.2 hl)
  · simp only [Arena.get?_push] at hl
    split at hl
    · cases hl
      exact ⟨a.field, rfl⟩
    · exact h c l (field?_eq_some.2 hl)

theorem singleFields_ofProgram (p : Program) : (ofProgram p).SingleFields := by
  refine List.foldlRecOn _ _ (fun c l hl => ?_) fun s hs node _ => ?_
  · rw [field?_eq_some] at hl
    cases hl
  · exact List.foldlRecOn _ _ hs fun s hs a _ => hs.addAccess a

end Store

namespace CandidateGraph

/-- Edges lead from a root to `c`. -/
def Below (g : CandidateGraph) (c : Candidate) : Prop :=
  ∃ r ∈ g.roots, Relation.ReflTransGen (fun a d => d ∈ g.succsOf a) r c

theorem Below.succ {g : CandidateGraph} {c d : Candidate} (hc : g.Below c) (hd : d ∈ g.succsOf c) : g.Below d := by
  obtain ⟨r, hr, hpath⟩ := hc
  exact ⟨r, hr, hpath.tail hd⟩

end CandidateGraph

namespace Bounding

variable {b b' : Bounding} {s : Store} {p : Procedure} {c d m : Candidate} {group queue : List Candidate}
  {visited : IdSet .candidate} {f : Field}

/-! ### Groups -/

section groups

variable {locations : List (Candidate × FieldLocation)} {succs : IdSet .candidate}
  (hlocations : (succs.toList.mapM fun d => return (d, ← b.store.field d)) = .ok locations)

include hlocations

theorem map_filter_locations (f : Field) : (locations.filter fun e => e.2.fields.contains f).map Prod.fst =
    succs.toList.filter fun d => f ∈ b.store.fieldsOf d := by
  rw [← Outcome.map_fst_of_mapM_pair hlocations, List.filter_map]
  refine congrArg _ (List.filter_congr fun e he => ?_)
  have hread := ((Outcome.mem_of_mapM_pair hlocations).1 he).2
  rw [Function.comp_apply, Store.fieldsOf_of_field (Store.field_eq_ok.1 hread), IdSet.contains_eq]

theorem eq_filter_of_sharedField (h : sharedField? locations = some group) :
    2 ≤ group.length ∧ ∃ f, group = succs.toList.filter fun d => f ∈ b.store.fieldsOf d := by
  refine ⟨(mem_of_sharedField h).1, ?_⟩
  obtain ⟨f, _, rfl⟩ := List.mem_map.1 (List.mem_of_find?_eq_some h)
  exact ⟨f, map_filter_locations hlocations f⟩

theorem eq_of_sharedField_none (h : sharedField? locations = none) (hc : c ∈ succs) (hd : d ∈ succs)
    (hfc : f ∈ b.store.fieldsOf c) (hfd : f ∈ b.store.fieldsOf d) : c = d := by
  have hmem : f ∈ IdSet.unionMap locations fun e => e.2.fields := by
    obtain ⟨e, he, rfl⟩ : ∃ e ∈ locations, e.1 = c := by
      rw [← List.mem_map, Outcome.map_fst_of_mapM_pair hlocations]
      exact IdSet.mem_toList.2 hc
    have hread := ((Outcome.mem_of_mapM_pair hlocations).1 he).2
    rw [Store.fieldsOf_of_field (Store.field_eq_ok.1 hread)] at hfc
    exact IdSet.mem_unionMap.2 ⟨e, he, hfc⟩
  have hshort := List.find?_eq_none.1 h _ (List.mem_map_of_mem (IdSet.mem_toList.2 hmem))
  rw [map_filter_locations hlocations] at hshort
  by_contra hne
  have hpair : [c, d].length ≤ (succs.toList.filter fun d => f ∈ b.store.fieldsOf d).length := by
    apply List.Nodup.length_le_of_subset (by simpa using hne)
    intro e he
    rcases List.mem_pair.1 he with rfl | rfl
    · exact List.mem_filter.2 ⟨IdSet.mem_toList.2 hc, by simpa using hfc⟩
    · exact List.mem_filter.2 ⟨IdSet.mem_toList.2 hd, by simpa using hfd⟩
  simp only [decide_eq_true_eq] at hshort
  exact hshort hpair

end groups

/-! ### One merge -/

/-- At most one successor of `c` has the field. -/
def OneForField (b : Bounding) (f : Field) (c : Candidate) : Prop :=
  ∀ d ∈ b.graph.succsOf c, ∀ e ∈ b.graph.succsOf c, f ∈ b.store.fieldsOf d → f ∈ b.store.fieldsOf e → d = e

/-- Whatever has a field in common with a candidate that has `f` has `f` too. -/
def Pervasive (b : Bounding) (f : Field) : Prop :=
  ∀ c ∈ b.interface, ∀ d ∈ b.interface, f ∈ b.store.fieldsOf c →
    (∃ h, h ∈ b.store.fieldsOf c ∧ h ∈ b.store.fieldsOf d) → f ∈ b.store.fieldsOf d

theorem pervasive_of_single (h : ∀ c ∈ b.interface, ∃ g, b.store.fieldsOf c = IdSet.singleton g) (f : Field) :
    b.Pervasive f := by
  intro c hc d hd hf hshare
  obtain ⟨g, hg⟩ := h c hc
  obtain ⟨k, hk⟩ := h d hd
  obtain ⟨e, hec, hed⟩ := hshare
  simp only [hg, hk, IdSet.mem_singleton] at hf hec hed ⊢
  exact hf.trans (hec.symm.trans hed)

/-- A merge of a group with a field in common, into a candidate with the fields of all. -/
structure SharedMerging (b : Bounding) (group : List Candidate) (b' : Bounding) (m : Candidate) : Prop
    extends Merging b group b' m where
  fieldsOf : ∀ f, f ∈ b'.store.fieldsOf m ↔ ∃ c ∈ group, f ∈ b.store.fieldsOf c
  shared : ∃ f, ∀ c ∈ group, f ∈ b.store.fieldsOf c

namespace SharedMerging

theorem fieldsOf_of_ne (h : SharedMerging b group b' m) (hc : c ≠ m) :
    b'.store.fieldsOf c = b.store.fieldsOf c := by
  rw [Store.fieldsOf, Store.fieldsOf, Store.field?, Store.field?, h.store.keeps c hc]

variable (hb : b.Exact) (h : SharedMerging b group b' m)

include hb h

theorem exists_source (hc : c ∈ b'.interface) (hf : f ∈ b'.store.fieldsOf c) :
    ∃ a ∈ b.interface, image group m a = c ∧ f ∈ b.store.fieldsOf a := by
  rcases h.mem_interface.1 hc with rfl | ⟨hin, hout⟩
  · obtain ⟨a, ha, hf⟩ := (h.fieldsOf f).1 hf
    exact ⟨a, h.members a ha, image_of_mem ha, hf⟩
  · have hne : c ≠ m := h.ne_of_mem_nodes hb ((hb.nodes c).2 (.inr hin))
    exact ⟨c, hin, image_of_not_mem hout, h.fieldsOf_of_ne hne ▸ hf⟩

/-- A group has a pervasive field as a whole or not at all, so nobody gains or loses it. -/
theorem mem_fieldsOf_image (hf : b.Pervasive f) (hc : c ∈ b.interface) :
    f ∈ b'.store.fieldsOf (image group m c) ↔ f ∈ b.store.fieldsOf c := by
  by_cases hgroup : c ∈ group
  · rw [image_of_mem hgroup, h.fieldsOf]
    constructor
    · rintro ⟨a, ha, hfa⟩
      obtain ⟨g, hg⟩ := h.shared
      exact hf a (h.members a ha) c hc hfa ⟨g, hg a ha, hg c hgroup⟩
    · intro hfc
      exact ⟨c, hgroup, hfc⟩
  · rw [image_of_not_mem hgroup, h.fieldsOf_of_ne (h.ne_of_mem_nodes hb ((hb.nodes c).2 (.inr hc)))]

theorem pervasive (hf : b.Pervasive f) : b'.Pervasive f := by
  intro c hc d hd hfc hshare
  obtain ⟨g, hgc, hgd⟩ := hshare
  obtain ⟨a, ha, rfl, hga⟩ := h.exists_source hb hc hgc
  obtain ⟨e, he, rfl, hge⟩ := h.exists_source hb hd hgd
  rw [h.mem_fieldsOf_image hb hf ha] at hfc
  rw [h.mem_fieldsOf_image hb hf he]
  exact hf a ha e he hfc ⟨g, hga, hge⟩

theorem exists_succ (hstays : c ≠ m) (hd : d ∈ b'.graph.succsOf c) : ∃ e ∈ b.graph.succsOf c, image group m e = d := by
  rw [CandidateGraph.mem_succsOf_mergeNodes hb.mirrored (h.ne_of_edge hb) h.graph] at hd
  obtain ⟨a, e, he, hac, hed⟩ := hd
  have ha : a ∉ group := fun ha => hstays (hac.symm.trans (image_of_mem ha))
  rw [image_of_not_mem ha] at hac
  exact ⟨e, hac ▸ he, hed⟩

theorem oneForField (hf : b.Pervasive f) (hstays : c ≠ m) (hc : b.OneForField f c) : b'.OneForField f c := by
  intro d hd e he hfd hfe
  obtain ⟨d₀, hd₀, rfl⟩ := h.exists_succ hb hstays hd
  obtain ⟨e₀, he₀, rfl⟩ := h.exists_succ hb hstays he
  rw [h.mem_fieldsOf_image hb hf (hb.target_mem_interface hd₀)] at hfd
  rw [h.mem_fieldsOf_image hb hf (hb.target_mem_interface he₀)] at hfe
  rw [hc d₀ hd₀ e₀ he₀ hfd hfe]

/-- Where the search goes on after a merge under a candidate. -/
theorem next_eq_image (hc : c ∈ b.graph.nodes) : (if b'.graph.contains c then c else m) = image group m c := by
  have hnode : b'.graph.contains c = true ↔ c ∉ group := by
    refine (CandidateGraph.mem_nodes_mergeNodes h.graph).trans ?_
    simp [h.ne_of_mem_nodes hb hc, hc]
  by_cases hin : c ∈ group
  · rw [if_neg fun hstays => hnode.1 hstays hin, image_of_mem hin]
  · rw [if_pos (hnode.2 hin), image_of_not_mem hin]

end SharedMerging

theorem sharedMerging_of_mergeGroup {locations : List (Candidate × FieldLocation)} (hb : b.Exact)
    (hlocations : ((b.graph.succsOf c).toList.mapM fun d => return (d, ← b.store.field d)) = .ok locations)
    (hshared : sharedField? locations = some group) (h : b.mergeGroup group = .ok (b', m)) :
    SharedMerging b group b' m := by
  obtain ⟨hlen, f, hgroup⟩ := eq_filter_of_sharedField hlocations hshared
  have hmembers : ∀ d ∈ group, d ∈ b.graph.succsOf c ∧ f ∈ b.store.fieldsOf d := by
    intro d hd
    rw [hgroup, List.mem_filter, IdSet.mem_toList, decide_eq_true_eq] at hd
    exact hd
  have hmerge : b.store.merge b.node group = .ok (b'.store, m) := by
    obtain ⟨⟨t, m'⟩, hmerge, hrest⟩ := Outcome.bind_eq_ok.1 h
    obtain ⟨g, _, heq⟩ := Outcome.bind_eq_ok.1 hrest
    cases heq
    exact hmerge
  exact {
    merging_of_mergeGroup hlen (fun d hd => hb.target_mem_interface (hmembers d hd).1) h with
    fieldsOf := fun g => Store.mem_fieldsOf_merge hlen hmerge
    shared := ⟨f, fun d hd => (hmembers d hd).2⟩ }

/-! ### The search -/

/-- What is known of one field while the queue is worked off. -/
structure Surveyed (f : Field) (b : Bounding) (visited : IdSet .candidate) (queue : List Candidate) : Prop where
  pervasive : b.Pervasive f
  known : ∀ c ∈ visited, ∃ l, b.store.arena.get? c = some l
  roots : ∀ c ∈ b.graph.roots, c ∈ visited
  settled : ∀ c ∈ visited, c ∈ b.graph.nodes → c ∈ queue ∨ b.OneForField f c ∧
    ∀ d ∈ b.graph.succsOf c, d ∈ visited ∨ ∃ a ∈ queue.head?, d ∈ b.graph.succsOf a

namespace Surveyed

theorem start (hb : b.Exact) (hf : b.Pervasive f) : Surveyed f b (IdSet.ofList b.graph.roots) b.graph.roots where
  pervasive := hf
  known c hc := hb.exists_get ((hb.nodes c).2 (.inl (IdSet.mem_ofList.1 hc)))
  roots _ hc := IdSet.mem_ofList.2 hc
  settled _ hc _ := .inl (IdSet.mem_ofList.1 hc)

theorem skip (hb : b.Exact) (h : Surveyed f b visited (c :: queue)) (hc : c ∉ b.graph.nodes) :
    Surveyed f b visited queue where
  pervasive := h.pervasive
  known := h.known
  roots := h.roots
  settled a ha hnode := by
    rcases h.settled a ha hnode with hwaits | ⟨hone, hnoted⟩
    · rcases List.mem_cons.1 hwaits with rfl | hwaits
      · exact absurd hnode hc
      · exact .inl hwaits
    · refine .inr ⟨hone, fun d hd => .inl ?_⟩
      refine (hnoted d hd).resolve_right ?_
      rintro ⟨a, ha, hedge⟩
      cases ha
      exact hc ((hb.edges c d).1 hedge).1

theorem leave (hb : b.Exact) (h : Surveyed f b visited (c :: queue)) (hc : b.OneForField f c) :
    Surveyed f b (visited ∪ b.graph.succsOf c) (queue ++ (b.graph.succsOf c \ visited).toList) where
  pervasive := h.pervasive
  known a ha := by
    rcases IdSet.mem_union.1 ha with ha | ha
    · exact h.known a ha
    · exact hb.exists_get ((hb.edges c a).1 ha).2.1
  roots a ha := IdSet.mem_union.2 (.inl (h.roots a ha))
  settled a ha hnode := by
    by_cases hold : a ∈ visited
    · rcases h.settled a hold hnode with hwaits | ⟨hone, hnoted⟩
      · rcases List.mem_cons.1 hwaits with rfl | hwaits
        · exact .inr ⟨hc, fun d hd => .inl (IdSet.mem_union.2 (.inr hd))⟩
        · exact .inl (List.mem_append_left _ hwaits)
      · refine .inr ⟨hone, fun d hd => .inl (IdSet.mem_union.2 ?_)⟩
        refine (hnoted d hd).imp_right ?_
        rintro ⟨a, ha, hedge⟩
        cases ha
        exact hedge
    · have hnew : a ∈ b.graph.succsOf c := (IdSet.mem_union.1 ha).resolve_left hold
      exact .inl (List.mem_append_right _ (IdSet.mem_toList.2 (IdSet.mem_diff.2 ⟨hnew, hold⟩)))

/-- After a merge under a candidate the work on it goes on, or on what it was merged into. -/
theorem merge (hb : b.Exact) (h : Surveyed f b visited (c :: queue)) (hm : SharedMerging b group b' m)
    (hgroup : ∀ d ∈ group, d ∈ b.graph.succsOf c) : Surveyed f b' visited (image group m c :: queue) where
  pervasive := hm.pervasive hb h.pervasive
  known a ha := by
    obtain ⟨l, hl⟩ := h.known a ha
    exact ⟨l, hm.store.grows a l hl⟩
  roots a ha := h.roots a (hm.roots ▸ ha)
  settled a ha hnode := by
    have hstays : a ≠ m := by
      rintro rfl
      obtain ⟨l, hl⟩ := h.known a ha
      rw [hm.store.fresh] at hl
      cases hl
    obtain ⟨hnode, hout⟩ := ((CandidateGraph.mem_nodes_mergeNodes hm.graph).1 hnode).resolve_left hstays
    rcases h.settled a ha hnode with hwaits | ⟨hone, hnoted⟩
    · rcases List.mem_cons.1 hwaits with rfl | hwaits
      · rw [image_of_not_mem hout]
        exact .inl List.mem_cons_self
      · exact .inl (List.mem_cons_of_mem _ hwaits)
    · refine .inr ⟨hm.oneForField hb h.pervasive hstays hone, fun d hd => ?_⟩
      obtain ⟨e, he, rfl⟩ := hm.exists_succ hb hstays hd
      by_cases hin : e ∈ group
      · exact .inr ⟨_, rfl, hm.edge_image hb (hgroup e hin)⟩
      · rcases hnoted e he with hvisited | ⟨a, ha, hedge⟩
        · rw [image_of_not_mem hin]
          exact .inl hvisited
        · cases ha
          exact .inr ⟨_, rfl, hm.edge_image hb hedge⟩

theorem oneForField_of_below (hb : b.Exact) (h : Surveyed f b visited []) (hc : b.graph.Below c) :
    b.OneForField f c := by
  have hsettled : ∀ c ∈ visited, c ∈ b.graph.nodes →
      b.OneForField f c ∧ ∀ d ∈ b.graph.succsOf c, d ∈ visited := by
    intro c hc hnode
    obtain ⟨hone, hnoted⟩ := (h.settled c hc hnode).resolve_left List.not_mem_nil
    refine ⟨hone, fun d hd => (hnoted d hd).resolve_right ?_⟩
    rintro ⟨a, ha, _⟩
    cases ha
  obtain ⟨r, hr, hpath⟩ := hc
  have hvisited : c ∈ visited ∧ c ∈ b.graph.nodes := by
    induction hpath with
    | refl => exact ⟨h.roots r hr, (hb.nodes r).2 (.inl hr)⟩
    | tail _ hedge ih => exact ⟨(hsettled _ ih.1 ih.2).2 _ hedge, ((hb.edges _ _).1 hedge).2.1⟩
  exact (hsettled c hvisited.1 hvisited.2).1

end Surveyed

/-! ### Runs to the end -/

/-- Working the queue off to its end, however many steps it takes, turns `b` into `b'`. -/
inductive Drains : Bounding → IdSet .candidate → List Candidate → Bounding → Prop
  | done (b : Bounding) (visited : IdSet .candidate) : Drains b visited [] b
  | skip {b b' : Bounding} {visited : IdSet .candidate} {c : Candidate} {queue : List Candidate}
      (hc : c ∉ b.graph.nodes) (h : Drains b visited queue b') : Drains b visited (c :: queue) b'
  | leave {b b' : Bounding} {visited : IdSet .candidate} {c : Candidate} {queue : List Candidate}
      {locations : List (Candidate × FieldLocation)} (hc : c ∈ b.graph.nodes)
      (hlocations : ((b.graph.succsOf c).toList.mapM fun d => return (d, ← b.store.field d)) = .ok locations)
      (hnone : sharedField? locations = none)
      (h : Drains b (visited ∪ b.graph.succsOf c) (queue ++ (b.graph.succsOf c \ visited).toList) b') :
      Drains b visited (c :: queue) b'
  | merge {b b₁ b' : Bounding} {visited : IdSet .candidate} {c m : Candidate} {queue group : List Candidate}
      {locations : List (Candidate × FieldLocation)} (hc : c ∈ b.graph.nodes)
      (hlocations : ((b.graph.succsOf c).toList.mapM fun d => return (d, ← b.store.field d)) = .ok locations)
      (hshared : sharedField? locations = some group) (hmerge : b.mergeGroup group = .ok (b₁, m))
      (h : Drains b₁ visited ((if b₁.graph.contains c then c else m) :: queue) b') : Drains b visited (c :: queue) b'

theorem drains_of_mergeUnder {steps : Nat} (h : mergeUnder steps b visited queue = .ok b') :
    Drains b visited queue b' := by
  induction steps generalizing b visited queue with
  | zero =>
    cases queue <;> cases h
    exact .done _ visited
  | succ steps ih =>
    cases queue with
    | nil =>
      cases h
      exact .done _ visited
    | cons c queue =>
      simp only [mergeUnder] at h
      split at h
      · rename_i hc
        obtain ⟨locations, hlocations, h⟩ := Outcome.bind_eq_ok.1 h
        split at h
        · rename_i hnone
          exact .leave hc hlocations hnone (ih h)
        · rename_i group hshared
          obtain ⟨⟨b₁, m⟩, hmerge, h⟩ := Outcome.bind_eq_ok.1 h
          exact .merge hc hlocations hshared hmerge (ih h)
      · rename_i hc
        exact .skip hc (ih h)

theorem Surveyed.drain (h : Drains b visited queue b') (hb : b.Exact) (hs : Surveyed f b visited queue) :
    b'.Exact ∧ ∃ visited', Surveyed f b' visited' [] := by
  induction h with
  | done b visited => exact ⟨hb, visited, hs⟩
  | skip hc _ ih => exact ih hb (hs.skip hb hc)
  | leave _ hlocations hnone _ ih =>
    refine ih hb (hs.leave hb fun d hd e he hfd hfe => ?_)
    exact eq_of_sharedField_none hlocations hnone hd he hfd hfe
  | merge hc hlocations hshared hmerge _ ih =>
    have hmerging := sharedMerging_of_mergeGroup hb hlocations hshared hmerge
    rw [hmerging.next_eq_image hb hc] at ih
    exact ih (hmerging.exact hb) (hs.merge hb hmerging (group_of_sharedField hlocations hshared).2)

/-- After the merge of successors that share a field, no candidate that the roots lead to has two successors with a
field in common that was pervasive before, and none has two with any field in common if no candidate of the interface
was merged before. -/
theorem shared_fields_merged {program : Program} (hs : Store.Reached program s) (hb : Reached s p b) :
    ∃ b', b.mergeSharedFields = .ok b' ∧
      (∀ f, b.Pervasive f → ∀ c, b'.graph.Below c → b'.OneForField f c) ∧
      ((∀ c ∈ b.interface, c ∈ (Store.ofProgram program).ids) → ∀ c, b'.graph.Below c → ∀ f, b'.OneForField f c) := by
  have hown := Store.unmerged_ofProgram program
  have hsound := hb.sound hown hs.traces
  obtain ⟨b', hrun, _⟩ := (guards_sound hown).mergeSharedFields hsound
  have hone : ∀ f, b.Pervasive f → ∀ c, b'.graph.Below c → b'.OneForField f c := by
    intro f hf c hc
    obtain ⟨hexact, _, hsurveyed⟩ := (Surveyed.start hsound.exact hf).drain (drains_of_mergeUnder hrun) hsound.exact
    exact hsurveyed.oneForField_of_below hexact hc
  refine ⟨b', hrun, hone, fun hunmerged c hc f => hone f (pervasive_of_single (fun d hd => ?_) f) c hc⟩
  obtain ⟨l, hl⟩ := hown.exists_field (hunmerged d hd)
  obtain ⟨g, hg⟩ := Store.singleFields_ofProgram program d l hl
  exact ⟨g, (Store.fieldsOf_of_field (hsound.traces.keeps.field? hl)).trans hg⟩

/-- Two accesses to each of two fields, one of either on a common object. -/
def forkedAccesses : Program :=
  { Program.empty with callGraph.nodes := ⟨#[⟨"fork", .normal, [⟨⟨0⟩, IdSet.singleton ⟨1⟩, ∅, none, .no⟩,
    ⟨⟨1⟩, IdSet.singleton ⟨2⟩, ∅, none, .no⟩, ⟨⟨0⟩, IdSet.singleton ⟨3⟩, ∅, none, .no⟩,
    ⟨⟨1⟩, IdSet.singleton ⟨3⟩, ∅, none, .no⟩], [], []⟩]⟩ }

def fork : Procedure :=
  ⟨⟨0⟩, "fork", none, false, [.formal "both" none (IdSet.ofList [⟨1⟩, ⟨2⟩]), .exception none (IdSet.ofList [⟨1⟩, ⟨3⟩])]⟩

/-- The candidates of one field are merged under the exception, and neither root has two successors for one field. -/
theorem shared_fields_merged_fork : ∃ first last, Bounding.start (Store.ofProgram forkedAccesses) fork = .ok first ∧
    first.mergeSharedFields = .ok last ∧ last.interface.toList = [⟨1⟩, ⟨3⟩, ⟨6⟩] ∧
    ∀ f, last.OneForField f ⟨4⟩ ∧ last.OneForField f ⟨5⟩ := by
  obtain ⟨first, hstart, hinterface, last, hlast, hmerged, hroots⟩ : ∃ first,
      Bounding.start (Store.ofProgram forkedAccesses) fork = .ok first ∧
      first.interface.toList = [⟨0⟩, ⟨1⟩, ⟨2⟩, ⟨3⟩] ∧ ∃ last, first.mergeSharedFields = .ok last ∧
        last.interface.toList = [⟨1⟩, ⟨3⟩, ⟨6⟩] ∧ last.graph.roots = [⟨4⟩, ⟨5⟩] :=
    ⟨_, rfl, rfl, _, rfl, rfl, rfl⟩
  have hunmerged : ∀ c ∈ first.interface, c ∈ (Store.ofProgram forkedAccesses).ids := by
    intro c hc
    rw [← IdSet.mem_toList, hinterface] at hc
    exact (by decide : ∀ c ∈ [⟨0⟩, ⟨1⟩, ⟨2⟩, ⟨3⟩], c ∈ (Store.ofProgram forkedAccesses).ids) c hc
  obtain ⟨b', hrun, _, hone⟩ := shared_fields_merged .start (Reached.start hstart)
  obtain rfl : last = b' := Except.ok.inj (hlast.symm.trans hrun)
  have hroot : ∀ r ∈ last.graph.roots, ∀ f, last.OneForField f r := fun r hr => hone hunmerged r ⟨r, hr, .refl⟩
  rw [hroots] at hroot
  exact ⟨first, last, hstart, hlast, hmerged, fun f => ⟨hroot _ (by decide) f, hroot _ (by decide) f⟩⟩

/-- What only the exception leads to is merged first and has both fields then. Under the exception it is merged with a
candidate that the other root leads to as well, and so that root has two successors for one field. -/
theorem two_successors_fork : ∃ first last removed, Bounding.start (Store.ofProgram forkedAccesses) fork = .ok first ∧
    Pass.runAll .standard ∅ [.cutUnreachable, .mergeExceptions, .cutImmutables, .mergeSharedFields] first =
      .ok (last, removed) ∧ last.graph.Below ⟨4⟩ ∧ ¬ last.OneForField ⟨1⟩ ⟨4⟩ := by
  obtain ⟨first, hstart, ⟨last, removed⟩, hrun, hroots, hsuccs, hone, hboth⟩ : ∃ first,
      Bounding.start (Store.ofProgram forkedAccesses) fork = .ok first ∧ ∃ result,
        Pass.runAll .standard ∅ [.cutUnreachable, .mergeExceptions, .cutImmutables, .mergeSharedFields] first =
          .ok result ∧ result.1.graph.roots = [⟨4⟩, ⟨5⟩] ∧ result.1.graph.succsOf ⟨4⟩ = IdSet.ofList [⟨1⟩, ⟨7⟩] ∧
        result.1.store.fieldsOf ⟨1⟩ = IdSet.ofList [⟨1⟩] ∧ result.1.store.fieldsOf ⟨7⟩ = IdSet.ofList [⟨0⟩, ⟨1⟩] := by
    decide +kernel
  dsimp only at hroots hsuccs hone hboth
  refine ⟨first, last, removed, hstart, hrun, ⟨⟨4⟩, by simp [hroots], .refl⟩, fun htidy => ?_⟩
  have heq : (⟨1⟩ : Candidate) = ⟨7⟩ :=
    htidy ⟨1⟩ (by simp [hsuccs]) ⟨7⟩ (by simp [hsuccs]) (by simp [hone]) (by simp [hboth])
  cases heq

end Bounding

end HeapSummary
