import HeapSummary.Bounding.Basic
import HeapSummary.Proofs.CandidateGraph
import HeapSummary.Proofs.Search
import Mathlib.Logic.Relation

/-!
# Edits keep the graph exact

A candidate graph is exact if it is what building it anew would give: its nodes are the roots and the interface, and its
edges lead wherever a dereference does. It is exact at the start, and it stays so when a candidate is removed or a group
of the interface is merged. The store and the graph change independently in a merge; what ties them is that both send
every candidate to the same image.
-/

namespace HeapSummary.Bounding

open CandidateGraph (image image_of_mem image_of_not_mem)

variable {b b' : Bounding} {s : Store} {p : Procedure} {c d m : Candidate} {group cs : List Candidate}

/-- The graph of a procedure is the one that its roots, its interface and the points-to sets call for. -/
structure Exact (b : Bounding) : Prop where
  roots : b.graph.roots.map b.store.arena.get? = b.procedure.roots.map fun r => some (.root r)
  fields : ∀ c ∈ b.interface, ∃ f, b.store.field? c = some f
  nodes : ∀ c, c ∈ b.graph.nodes ↔ c ∈ b.graph.roots ∨ c ∈ b.interface
  edges : ∀ c d, d ∈ b.graph.succsOf c ↔ c ∈ b.graph.nodes ∧ d ∈ b.graph.nodes ∧ b.store.Leads c d
  mirrored : b.graph.Mirrored

theorem exists_root {roots : List Candidate} {rs : List Root}
    (h : roots.map s.arena.get? = rs.map fun r => some (.root r)) (hc : c ∈ roots) :
    ∃ r, s.arena.get? c = some (.root r) := by
  have hmem : s.arena.get? c ∈ rs.map fun r => some (.root r) := h ▸ List.mem_map_of_mem hc
  obtain ⟨r, _, hr⟩ := List.mem_map.1 hmem
  exact ⟨r, hr.symm⟩

namespace Exact

theorem not_mem_roots (h : b.Exact) {f : FieldLocation} (hf : b.store.field? c = some f) : c ∉ b.graph.roots := by
  intro hc
  obtain ⟨r, hr⟩ := exists_root h.roots hc
  exact Store.not_field_of_root hr hf

theorem mem_interface (h : b.Exact) (hc : c ∈ b.graph.nodes) {f : FieldLocation} (hf : b.store.field? c = some f) :
    c ∈ b.interface :=
  ((h.nodes c).1 hc).resolve_left (h.not_mem_roots hf)

theorem not_mem_roots_of_interface (h : b.Exact) (hc : c ∈ b.interface) : c ∉ b.graph.roots := by
  obtain ⟨f, hf⟩ := h.fields c hc
  exact h.not_mem_roots hf

theorem exists_get (h : b.Exact) (hc : c ∈ b.graph.nodes) : ∃ l, b.store.arena.get? c = some l := by
  rcases (h.nodes c).1 hc with hc | hc
  · obtain ⟨r, hr⟩ := exists_root h.roots hc
    exact ⟨_, hr⟩
  · obtain ⟨f, hf⟩ := h.fields c hc
    exact ⟨_, Store.field?_eq_some.1 hf⟩

theorem target_mem_interface (h : b.Exact) (hd : d ∈ b.graph.succsOf c) : d ∈ b.interface := by
  obtain ⟨_, hnode, f, hf, _⟩ := (h.edges c d).1 hd
  exact h.mem_interface hnode hf

theorem mem_nodes_of_found (h : b.Exact) {start : List Candidate} (hstart : ∀ c ∈ start, c ∈ b.graph.nodes)
    (hc : b.graph.Found b.store start c) : c ∈ b.graph.nodes := by
  induction hc with
  | start hc => exact hstart _ hc
  | step _ _ hd _ => exact ((h.edges _ _).1 hd).2.1

theorem mem_interface_of_found (h : b.Exact) {start : List Candidate} (hstart : ∀ c ∈ start, c ∈ b.interface)
    (hc : b.graph.Found b.store start c) : c ∈ b.interface := by
  cases hc with
  | start hc => exact hstart _ hc
  | step _ _ hd => exact h.target_mem_interface hd

/-- Edges end at candidates, so a search ends. -/
theorem exists_reachable (h : b.Exact) (start : List Candidate) : ∃ found, b.reachable start = .ok found :=
  CandidateGraph.exists_reachable (fun c d hd => h.exists_get ((h.edges c d).1 hd).2.1) start

end Exact

/-! ### The start -/

theorem exact_start (h : Bounding.start s p = .ok b) : b.Exact := by
  simp only [Bounding.start, CandidateGraph.build, Outcome.bind_eq_ok, Outcome.pure_eq_ok] at h
  obtain ⟨⟨s', g⟩, ⟨nodes, hnodes, fields, hfields, hg⟩, rfl⟩ := h
  obtain ⟨rfl, rfl⟩ := Prod.mk.inj hg
  have hget := CandidateGraph.map_get_addRoots s p.roots
  generalize CandidateGraph.addRoots s p.roots = added at hnodes hfields hget ⊢
  obtain ⟨s', roots⟩ := added
  have hlocation : ∀ c l, (c, l) ∈ nodes ↔ (c ∈ roots ∨ c ∈ s'.interface p.node) ∧ s'.arena.get? c = some l := by
    intro c l
    rw [Outcome.mem_of_mapM_pair hnodes, Store.location_eq_ok, IdSet.mem_toList, IdSet.mem_union, IdSet.mem_ofList]
  have hfield : ∀ c f, (c, f) ∈ fields ↔ c ∈ s'.interface p.node ∧ s'.field? c = some f := by
    intro c f
    rw [Outcome.mem_of_mapM_pair hfields, Store.field_eq_ok, IdSet.mem_toList]
  have hmem : ∀ c, c ∈ (CandidateGraph.ofLocations roots nodes fields).nodes ↔
      c ∈ roots ∨ c ∈ s'.interface p.node := by
    intro c
    rw [CandidateGraph.ofLocations, Outcome.map_fst_of_mapM_pair hnodes, IdSet.ofList_toList, IdSet.mem_union,
      IdSet.mem_ofList]
  refine ⟨hget, fun c hc => ?_, hmem, fun c d => ?_, CandidateGraph.mirrored_ofLocations hlocation hfield⟩
  · obtain ⟨_, hread⟩ := Outcome.exists_of_mapM hfields (IdSet.mem_toList.2 hc)
    obtain ⟨f, hf, _⟩ := Outcome.bind_eq_ok.1 hread
    exact ⟨f, Store.field_eq_ok.1 hf⟩
  · rw [CandidateGraph.mem_succsOf_ofLocations hlocation hfield, hmem, hmem]
    refine and_congr_right fun _ => and_congr_left ?_
    rintro ⟨f, hf, _⟩
    refine ⟨.inr, fun hd => hd.resolve_left fun hroot => ?_⟩
    obtain ⟨r, hr⟩ := exists_root hget hroot
    exact Store.not_field_of_root hr hf

theorem addRoots_of_start (h : Bounding.start s p = .ok b) :
    CandidateGraph.addRoots s p.roots = (b.store, b.graph.roots) := by
  simp only [Bounding.start, CandidateGraph.build, Outcome.bind_eq_ok, Outcome.pure_eq_ok] at h
  obtain ⟨⟨s', g⟩, ⟨_, _, _, _, hg⟩, rfl⟩ := h
  obtain ⟨rfl, rfl⟩ := Prod.mk.inj hg
  rfl

theorem procedure_start (h : Bounding.start s p = .ok b) : b.procedure = p := by
  simp only [Bounding.start, Outcome.bind_eq_ok, Outcome.pure_eq_ok] at h
  obtain ⟨_, _, rfl⟩ := h
  rfl

theorem interface_start (h : Bounding.start s p = .ok b) (y : CallNode) : b.store.interface y = s.interface y := by
  have hinterface := CandidateGraph.interface_addRoots s p.roots y
  rwa [addRoots_of_start h] at hinterface

theorem keeps_start (h : Bounding.start s p = .ok b) : s.Keeps b.store := by
  have hkeeps := CandidateGraph.keeps_addRoots s p.roots
  rwa [addRoots_of_start h] at hkeeps

/-! ### Removing -/

theorem remove_eq_ok (h : b.remove c = .ok b') : (c ∉ b.interface ∧ b' = b) ∨
    (c ∈ b.interface ∧ b' = { b with store := b.store.remove b.node c, graph := b.graph.without c }) := by
  unfold Bounding.remove at h
  split at h
  · rename_i hc
    obtain ⟨g, hg, h⟩ := Outcome.bind_eq_ok.1 h
    unfold CandidateGraph.removeNode at hg
    split at hg
    · cases hg
    · cases hg
      exact .inr ⟨hc, (Outcome.pure_eq_ok.1 h).symm⟩
  · rename_i hc
    exact .inl ⟨hc, (Outcome.pure_eq_ok.1 h).symm⟩

/-- What removing some candidates did. -/
structure Removed (b : Bounding) (cs : List Candidate) (b' : Bounding) : Prop where
  procedure : b'.procedure = b.procedure
  roots : b'.graph.roots = b.graph.roots
  arena : b'.store.arena = b.store.arena
  interface : ∀ c, c ∈ b'.interface ↔ c ∈ b.interface ∧ c ∉ cs
  others : ∀ y, y ≠ b.node → b'.store.interface y = b.store.interface y

theorem removed_remove (h : b.remove c = .ok b') : Removed b [c] b' := by
  obtain ⟨hc, rfl⟩ | ⟨hc, rfl⟩ := remove_eq_ok h
  · refine ⟨rfl, rfl, rfl, fun d => ?_, fun y _ => rfl⟩
    have hne : d ∈ b'.interface → d ∉ [c] := fun hd hdc => hc (List.mem_singleton.1 hdc ▸ hd)
    exact (and_iff_left_of_imp hne).symm
  · refine ⟨rfl, rfl, rfl, fun d => ?_, fun y hy => IdSet.ext fun d => ?_⟩
    · show d ∈ (b.store.remove b.node c).interface b.node ↔ _
      rw [Store.mem_interface_remove, List.mem_singleton, ← Bounding.interface]
      simp
    · rw [Store.mem_interface_remove]
      simp [hy]

theorem locals_remove (h : b.remove c = .ok b') : b'.store.locals = b.store.locals := by
  obtain ⟨_, rfl⟩ | ⟨_, rfl⟩ := remove_eq_ok h
  · rfl
  · rfl

theorem removed_removeAll (h : b.removeAll cs = .ok b') : Removed b cs b' := by
  induction cs generalizing b with
  | nil =>
    cases h
    exact ⟨rfl, rfl, rfl, fun c => by simp, fun y _ => rfl⟩
  | cons a cs ih =>
    obtain ⟨b₁, hb₁, h⟩ := Outcome.bind_eq_ok.1 h
    have hfirst := removed_remove hb₁
    have hrest := ih h
    have hnode : b₁.node = b.node := congrArg Procedure.node hfirst.procedure
    refine ⟨hrest.procedure.trans hfirst.procedure, hrest.roots.trans hfirst.roots, hrest.arena.trans hfirst.arena,
      fun c => ?_, fun y hy => (hrest.others y (hnode ▸ hy)).trans (hfirst.others y hy)⟩
    rw [hrest.interface, hfirst.interface, List.mem_singleton, List.mem_cons, not_or, and_assoc]

theorem Exact.remove (hb : b.Exact) (h : b.remove c = .ok b') : b'.Exact := by
  have hinterface := (removed_remove h).interface
  obtain ⟨_, rfl⟩ | ⟨hc, rfl⟩ := remove_eq_ok h
  · exact hb
  have hroot : c ∉ b.graph.roots := hb.not_mem_roots_of_interface hc
  have hnodes : ∀ d, d ∈ (b.graph.without c).nodes ↔ d ≠ c ∧ d ∈ b.graph.nodes := fun d => IdSet.mem_erase
  refine ⟨hb.roots, fun d hd => hb.fields d ((hinterface d).1 hd).1, fun d => ?_, fun x d => ?_,
    CandidateGraph.mirrored_without hb.mirrored c⟩
  · rw [hnodes, hb.nodes, hinterface, List.mem_singleton]
    have hne : d ∈ b.graph.roots → d ≠ c := fun hd hdc => hroot (hdc ▸ hd)
    show _ ↔ d ∈ b.graph.roots ∨ _
    tauto
  · show d ∈ (b.graph.without c).succsOf x ↔
      x ∈ (b.graph.without c).nodes ∧ d ∈ (b.graph.without c).nodes ∧ b.store.Leads x d
    rw [CandidateGraph.mem_succsOf_without hb.mirrored, hb.edges, hnodes, hnodes]
    tauto

/-! ### Merging -/

/-- What merging a group of the interface into `m` did. -/
structure Merging (b : Bounding) (group : List Candidate) (b' : Bounding) (m : Candidate) : Prop where
  members : ∀ c ∈ group, c ∈ b.interface
  nonempty : ∃ c, c ∈ group
  procedure : b'.procedure = b.procedure
  store : b.store.Merged b.node group b'.store m
  graph : b.graph.mergeNodes group m = .ok b'.graph

theorem merging_of_mergeGroup (hlen : 2 ≤ group.length) (hgroup : ∀ c ∈ group, c ∈ b.interface)
    (h : b.mergeGroup group = .ok (b', m)) : Merging b group b' m := by
  simp only [mergeGroup, Outcome.bind_eq_ok, Outcome.pure_eq_ok] at h
  obtain ⟨⟨s, m'⟩, hs, g, hg, h⟩ := h
  obtain ⟨rfl, rfl⟩ := Prod.mk.inj h
  exact ⟨hgroup, List.exists_mem_of_length_pos (by omega), rfl, Store.merged_of_merge hlen hs, hg⟩

namespace Merging

theorem roots (h : Merging b group b' m) : b'.graph.roots = b.graph.roots := CandidateGraph.roots_mergeNodes h.graph

theorem node (h : Merging b group b' m) : b'.node = b.node := congrArg Procedure.node h.procedure

theorem ne_of_mem_nodes (h : Merging b group b' m) (hb : b.Exact) (hc : c ∈ b.graph.nodes) : c ≠ m := by
  rintro rfl
  obtain ⟨l, hl⟩ := hb.exists_get hc
  rw [h.store.fresh] at hl
  cases hl

theorem ne_of_edge (h : Merging b group b' m) (hb : b.Exact) (c d : Candidate) (hd : d ∈ b.graph.succsOf c) :
    c ≠ m ∧ d ≠ m := by
  obtain ⟨hc, hd, _⟩ := (hb.edges c d).1 hd
  exact ⟨h.ne_of_mem_nodes hb hc, h.ne_of_mem_nodes hb hd⟩

theorem mem_interface (h : Merging b group b' m) : c ∈ b'.interface ↔ c = m ∨ c ∈ b.interface ∧ c ∉ group := by
  unfold Bounding.interface
  rw [h.node, h.store.interface]

theorem exists_image (h : Merging b group b' m) (hc : c ∈ b'.interface) :
    ∃ a ∈ b.interface, image group m a = c := by
  rcases h.mem_interface.1 hc with rfl | ⟨hc, hgroup⟩
  · obtain ⟨a, ha⟩ := h.nonempty
    exact ⟨a, h.members a ha, image_of_mem ha⟩
  · exact ⟨c, hc, image_of_not_mem hgroup⟩

theorem image_mem_interface (h : Merging b group b' m) (hc : c ∈ b.interface) : image group m c ∈ b'.interface := by
  by_cases hgroup : c ∈ group
  · rw [image_of_mem hgroup]
    exact h.mem_interface.2 (.inl rfl)
  · rw [image_of_not_mem hgroup]
    exact h.mem_interface.2 (.inr ⟨hc, hgroup⟩)

theorem mem_nodes (h : Merging b group b' m) (hb : b.Exact) :
    c ∈ b'.graph.nodes ↔ ∃ a ∈ b.graph.nodes, image group m a = c := by
  rw [CandidateGraph.mem_nodes_mergeNodes h.graph]
  constructor
  · rintro (rfl | ⟨hc, hgroup⟩)
    · obtain ⟨a, ha⟩ := h.nonempty
      exact ⟨a, (hb.nodes a).2 (.inr (h.members a ha)), image_of_mem ha⟩
    · exact ⟨c, hc, image_of_not_mem hgroup⟩
  · rintro ⟨a, ha, rfl⟩
    by_cases hgroup : a ∈ group
    · exact .inl (image_of_mem hgroup)
    · rw [image_of_not_mem hgroup]
      exact .inr ⟨ha, hgroup⟩

/-- What the merged candidate has from its group, every node has from the nodes that it is the image of. -/
theorem mem_view (h : Merging b group b' m) (hb : b.Exact) {k : Kind} {o : Id k} {V V' : Candidate → IdSet k}
    (hm : ∀ o, o ∈ V' m ↔ ∃ a ∈ group, o ∈ V a) (hkeep : ∀ c, c ≠ m → V' c = V c) (hc : c ∈ b'.graph.nodes) :
    o ∈ V' c ↔ ∃ a ∈ b.graph.nodes, image group m a = c ∧ o ∈ V a := by
  by_cases hcm : c = m
  · subst hcm
    rw [hm]
    constructor
    · rintro ⟨a, ha, ho⟩
      exact ⟨a, (hb.nodes a).2 (.inr (h.members a ha)), image_of_mem ha, ho⟩
    · rintro ⟨a, ha, hac, ho⟩
      refine ⟨a, ?_, ho⟩
      by_contra hgroup
      rw [image_of_not_mem hgroup] at hac
      exact h.ne_of_mem_nodes hb ha hac
  · rw [hkeep c hcm]
    have hsource : ∀ a, image group m a = c ↔ a = c ∧ a ∉ group := by
      intro a
      by_cases ha : a ∈ group
      · simp [image_of_mem ha, ha, Ne.symm hcm]
      · simp [image_of_not_mem ha, ha]
    constructor
    · intro ho
      obtain ⟨a, ha, hac⟩ := (h.mem_nodes hb).1 hc
      obtain ⟨rfl, _⟩ := (hsource a).1 hac
      exact ⟨a, ha, hac, ho⟩
    · rintro ⟨a, _, hac, ho⟩
      obtain ⟨rfl, _⟩ := (hsource a).1 hac
      exact ho

theorem leads_iff (h : Merging b group b' m) (hb : b.Exact) (hc : c ∈ b'.graph.nodes) (hd : d ∈ b'.graph.nodes) :
    b'.store.Leads c d ↔ ∃ a ∈ b.graph.nodes, ∃ e ∈ b.graph.nodes,
      b.store.Leads a e ∧ image group m a = c ∧ image group m e = d := by
  have hobjects : ∀ o, o ∈ b'.store.objectsOf c ↔
      ∃ a ∈ b.graph.nodes, image group m a = c ∧ o ∈ b.store.objectsOf a := fun o =>
    h.mem_view hb h.store.objects (fun c hcm => by simp [Store.objectsOf, h.store.keeps c hcm]) hc
  have hbases : ∀ o, o ∈ b'.store.basesOf d ↔
      ∃ e ∈ b.graph.nodes, image group m e = d ∧ o ∈ b.store.basesOf e := fun o =>
    h.mem_view hb h.store.bases (fun c hcm => by simp [Store.basesOf, Store.field?, h.store.keeps c hcm]) hd
  simp only [Store.leads_iff, hobjects, hbases]
  constructor
  · rintro ⟨o, ⟨e, he, hed, hbase⟩, a, ha, hac, ho⟩
    exact ⟨a, ha, e, he, ⟨o, hbase, ho⟩, hac, hed⟩
  · rintro ⟨a, ha, e, he, ⟨o, hbase, ho⟩, hac, hed⟩
    exact ⟨o, ⟨e, he, hed, hbase⟩, a, ha, hac, ho⟩

theorem edge_image (h : Merging b group b' m) (hb : b.Exact) (hd : d ∈ b.graph.succsOf c) :
    image group m d ∈ b'.graph.succsOf (image group m c) :=
  (CandidateGraph.mem_succsOf_mergeNodes hb.mirrored (h.ne_of_edge hb) h.graph).2 ⟨c, d, hd, rfl, rfl⟩

theorem exact (h : Merging b group b' m) (hb : b.Exact) : b'.Exact := by
  refine ⟨?_, fun c hc => ?_, fun c => ?_, fun c d => ?_,
    CandidateGraph.mirrored_mergeNodes hb.mirrored (h.ne_of_edge hb) h.graph⟩
  · rw [h.roots, h.procedure, ← hb.roots]
    refine List.map_congr_left fun c hc => ?_
    exact h.store.keeps c (h.ne_of_mem_nodes hb ((hb.nodes c).2 (.inl hc)))
  · rcases h.mem_interface.1 hc with rfl | ⟨hc, _⟩
    · exact h.store.isField
    · obtain ⟨f, hf⟩ := hb.fields c hc
      refine ⟨f, ?_⟩
      rw [← hf, Store.field?, Store.field?, h.store.keeps c (h.ne_of_mem_nodes hb ((hb.nodes c).2 (.inr hc)))]
  · have hroots : c ∈ b.graph.roots → c ∉ group := fun hc hgroup =>
      hb.not_mem_roots_of_interface (h.members c hgroup) hc
    rw [CandidateGraph.mem_nodes_mergeNodes h.graph, h.roots, h.mem_interface, hb.nodes]
    tauto
  · rw [CandidateGraph.mem_succsOf_mergeNodes hb.mirrored (h.ne_of_edge hb) h.graph]
    constructor
    · rintro ⟨a, e, he, rfl, rfl⟩
      obtain ⟨ha, he, hlead⟩ := (hb.edges a e).1 he
      have hc := (h.mem_nodes hb).2 ⟨a, ha, rfl⟩
      have hd := (h.mem_nodes hb).2 ⟨e, he, rfl⟩
      exact ⟨hc, hd, (h.leads_iff hb hc hd).2 ⟨a, ha, e, he, hlead, rfl, rfl⟩⟩
    · rintro ⟨hc, hd, hlead⟩
      obtain ⟨a, ha, e, he, hlead, hac, hed⟩ := (h.leads_iff hb hc hd).1 hlead
      exact ⟨a, e, (hb.edges a e).2 ⟨ha, he, hlead⟩, hac, hed⟩

end Merging

/-! ### Runs of edits -/

/-- A candidate is removed, if the interface has it. -/
def Removes (b b' : Bounding) : Prop := ∃ c, b.remove c = .ok b'

/-- A group of the interface is merged. -/
def Merges (b b' : Bounding) : Prop := ∃ group m, Merging b group b' m

def Edits (b b' : Bounding) : Prop := Removes b b' ∨ Merges b b'

/-- What no edit changes. -/
structure SameFrame (b b' : Bounding) : Prop where
  procedure : b'.procedure = b.procedure
  roots : b'.graph.roots = b.graph.roots
  candidates : b.store.Keeps b'.store
  others : ∀ y, y ≠ b.node → b'.store.interface y = b.store.interface y
  locals : b'.store.locals = b.store.locals

theorem sameFrame_of_edits (h : Relation.ReflTransGen Edits b b') : SameFrame b b' := by
  induction h with
  | refl => exact ⟨rfl, rfl, .refl _, fun _ _ => rfl, rfl⟩
  | @tail b₁ b₂ _ hstep ih =>
    have hnode : b₁.node = b.node := congrArg Procedure.node ih.procedure
    rcases hstep with ⟨c, hremove⟩ | ⟨group, m, hmerge⟩
    · have hremoved := removed_remove hremove
      exact ⟨hremoved.procedure.trans ih.procedure, hremoved.roots.trans ih.roots,
        ih.candidates.trans (Store.keeps_of_arena hremoved.arena),
        fun y hy => (hremoved.others y (hnode ▸ hy)).trans (ih.others y hy),
        (locals_remove hremove).trans ih.locals⟩
    · exact ⟨hmerge.procedure.trans ih.procedure, hmerge.roots.trans ih.roots, ih.candidates.trans hmerge.store.grows,
        fun y hy => (hmerge.store.others y (hnode ▸ hy)).trans (ih.others y hy), hmerge.store.locals.trans ih.locals⟩

theorem Exact.edits (hb : b.Exact) (h : Relation.ReflTransGen Edits b b') : b'.Exact := by
  induction h with
  | refl => exact hb
  | tail _ hstep ih =>
    rcases hstep with ⟨c, hremove⟩ | ⟨group, m, hmerge⟩
    · exact ih.remove hremove
    · exact hmerge.exact ih

theorem edits_of_merges (h : Relation.ReflTransGen Merges b b') : Relation.ReflTransGen Edits b b' :=
  Relation.ReflTransGen.mono (fun _ _ => .inr) _ _ h

theorem edits_of_removes (h : Relation.ReflTransGen Removes b b') : Relation.ReflTransGen Edits b b' :=
  Relation.ReflTransGen.mono (fun _ _ => .inl) _ _ h

end HeapSummary.Bounding
