import HeapSummary.CandidateGraph.Basic
import HeapSummary.Proofs.IdMap
import HeapSummary.Proofs.Store

/-!
# Patching and building candidate graphs

What each operation does to the edges, read off the successors. Removing a node removes the edges at it and no other.
Merging a group moves every edge along with its ends: the edges afterwards are the images of the edges before, if each
member of the group is sent to the merged node and every other node to itself. The predecessors need no argument of
their own, as every operation treats the reversed graph alike.
-/

namespace HeapSummary.CandidateGraph

variable {g g' : CandidateGraph} {a b c d m : Candidate} {group : List Candidate} {S P : IdSet .candidate}
  {loop : Bool}

/-- Every edge is kept at both of its ends. -/
def Mirrored (g : CandidateGraph) : Prop := ∀ c d, c ∈ g.predsOf d ↔ d ∈ g.succsOf c

/-- The graph with every edge turned around. -/
def reverse (g : CandidateGraph) : CandidateGraph := ⟨g.roots, g.nodes, g.preds, g.succs⟩

theorem Mirrored.reverse (h : g.Mirrored) : g.reverse.Mirrored := fun c d => (h d c).symm

/-! ### Removing -/

theorem mem_succsOf_without (h : g.Mirrored) :
    d ∈ (g.without a).succsOf c ↔ c ≠ a ∧ d ≠ a ∧ d ∈ g.succsOf c := by
  have hidem : ∀ cs : IdSet .candidate, (cs.erase a).erase a = cs.erase a := fun cs =>
    IdSet.ext fun x => by simp
  rw [succsOf, without, IdMap.get_foldl_modify hidem, IdMap.get_set]
  by_cases hca : c = a
  · rw [if_pos hca]
    split <;> simp [hca]
  rw [if_neg hca]
  by_cases hedge : a ∈ g.succsOf c
  · rw [if_pos (IdSet.mem_toList.2 ((h c a).2 hedge)), IdSet.mem_erase, succsOf]
    exact (and_iff_right hca).symm
  · rw [if_neg fun hmem => hedge ((h c a).1 (IdSet.mem_toList.1 hmem)), ← succsOf]
    exact ⟨fun hd => ⟨hca, fun hda => hedge (hda ▸ hd), hd⟩, fun hd => hd.2.2⟩

theorem mirrored_without (h : g.Mirrored) (a : Candidate) : (g.without a).Mirrored := by
  intro c d
  show c ∈ (g.reverse.without a).succsOf d ↔ _
  rw [mem_succsOf_without h.reverse, mem_succsOf_without h, and_left_comm]
  exact and_congr_right fun _ => and_congr_right fun _ => h c d

theorem mem_succsOf_foldl_without (h : g.Mirrored) :
    d ∈ (group.foldl without g).succsOf c ↔ c ∉ group ∧ d ∉ group ∧ d ∈ g.succsOf c := by
  induction group generalizing g with
  | nil => simp
  | cons a group ih =>
    rw [List.foldl_cons, ih (mirrored_without h a), mem_succsOf_without h]
    simp only [List.mem_cons, not_or]
    tauto

theorem roots_foldl_without (g : CandidateGraph) (group : List Candidate) :
    (group.foldl without g).roots = g.roots :=
  List.foldlRecOn (motive := fun g' : CandidateGraph => g'.roots = g.roots) group without rfl fun _ hg _ _ => hg

theorem mem_nodes_foldl_without : c ∈ (group.foldl without g).nodes ↔ c ∈ g.nodes ∧ c ∉ group := by
  have hnodes : (group.foldl without g).nodes = group.foldl IdSet.erase g.nodes :=
    (List.foldl_hom nodes fun _ _ => rfl).symm
  rw [hnodes, Store.mem_foldl_erase]

theorem foldlM_removeNode_eq_ok : group.foldlM removeNode g = .ok g' ↔
    (∀ c ∈ group, c ∉ g.roots) ∧ group.foldl without g = g' := by
  induction group generalizing g with
  | nil => simp [Outcome.pure_eq_ok]
  | cons a group ih =>
    rw [List.foldlM_cons, List.forall_mem_cons, List.foldl_cons, removeNode]
    by_cases ha : a ∈ g.roots
    · simp [ha, Outcome.bind_eq_ok]
    · simp only [ha, if_false, Outcome.bind_eq_ok, Except.ok.injEq, exists_eq_left', ih, not_false_iff, true_and]
      rfl

/-! ### Merging -/

/-- Where a merge of a group into `m` sends a candidate. -/
def image (group : List Candidate) (m c : Candidate) : Candidate := if c ∈ group then m else c

theorem image_of_mem (h : c ∈ group) : image group m c = m := if_pos h

theorem image_of_not_mem (h : c ∉ group) : image group m c = c := if_neg h

theorem eq_or_mem_of_image_eq (hc : c ≠ m) (hd : d ≠ m) (h : image group m c = image group m d) :
    c = d ∨ c ∈ group ∧ d ∈ group := by
  by_cases hcin : c ∈ group
  · by_cases hdin : d ∈ group
    · exact .inr ⟨hcin, hdin⟩
    · rw [image_of_mem hcin, image_of_not_mem hdin] at h
      exact absurd h.symm hd
  · by_cases hdin : d ∈ group
    · rw [image_of_not_mem hcin, image_of_mem hdin] at h
      exact absurd h hc
    · rw [image_of_not_mem hcin, image_of_not_mem hdin] at h
      exact .inl h

theorem mem_succsOf_withNode : d ∈ (g.withNode m S P loop).succsOf c ↔
    if c = m then d ∈ S ∨ loop = true ∧ d = m else d ∈ g.succsOf c ∨ c ∈ P ∧ d = m := by
  have hidem : ∀ cs : IdSet .candidate, (cs.insert m).insert m = cs.insert m := fun cs =>
    IdSet.ext fun x => by simp
  rw [succsOf, withNode, IdMap.get_set]
  by_cases hcm : c = m
  · rw [if_pos hcm, if_pos hcm]
    cases loop <;> simp [or_comm]
  · rw [if_neg hcm, if_neg hcm, IdMap.get_foldl_modify hidem]
    by_cases hcP : c ∈ P <;> simp [hcP, succsOf, or_comm]

theorem mergeNodes_eq_ok (h : g.mergeNodes group m = .ok g') :
    (∀ c ∈ group, c ∉ g.roots) ∧
      g' = (group.foldl without g).withNode m (IdSet.unionMap group g.succsOf \ IdSet.ofList group)
        (IdSet.unionMap group g.predsOf \ IdSet.ofList group)
        ((IdSet.unionMap group g.succsOf).intersects (IdSet.ofList group) ||
          (IdSet.unionMap group g.predsOf).intersects (IdSet.ofList group)) := by
  simp only [mergeNodes, Outcome.bind_eq_ok, Outcome.pure_eq_ok] at h
  obtain ⟨rest, hrest, rfl⟩ := h
  obtain ⟨hroots, rfl⟩ := foldlM_removeNode_eq_ok.1 hrest
  exact ⟨hroots, rfl⟩

theorem roots_mergeNodes (h : g.mergeNodes group m = .ok g') : g'.roots = g.roots := by
  obtain ⟨-, rfl⟩ := mergeNodes_eq_ok h
  exact roots_foldl_without g group

theorem mem_nodes_mergeNodes (h : g.mergeNodes group m = .ok g') : c ∈ g'.nodes ↔ c = m ∨ c ∈ g.nodes ∧ c ∉ group := by
  obtain ⟨-, rfl⟩ := mergeNodes_eq_ok h
  rw [withNode, IdSet.mem_insert, mem_nodes_foldl_without]

theorem mergeNodes_reverse (h : g.mergeNodes group m = .ok g') : g.reverse.mergeNodes group m = .ok g'.reverse := by
  simp only [mergeNodes, Outcome.bind_eq_ok, Outcome.pure_eq_ok] at h ⊢
  obtain ⟨rest, hrest, rfl⟩ := h
  obtain ⟨hroots, rfl⟩ := foldlM_removeNode_eq_ok.1 hrest
  have hrest : group.foldl without g.reverse = (group.foldl without g).reverse := List.foldl_hom reverse fun _ _ => rfl
  refine ⟨_, foldlM_removeNode_eq_ok.2 ⟨hroots, hrest⟩, ?_⟩
  rw [Bool.or_comm]
  rfl

theorem exists_edge_inside_iff (hg : g.Mirrored) :
    ((IdSet.unionMap group g.succsOf).intersects (IdSet.ofList group) ||
      (IdSet.unionMap group g.predsOf).intersects (IdSet.ofList group)) = true ↔
      ∃ a ∈ group, ∃ b ∈ group, b ∈ g.succsOf a := by
  simp only [Bool.or_eq_true, IdSet.intersects_iff, IdSet.mem_unionMap, IdSet.mem_ofList]
  constructor
  · rintro (⟨b, ⟨a, ha, hab⟩, hb⟩ | ⟨a, ⟨b, hb, hab⟩, ha⟩)
    · exact ⟨a, ha, b, hb, hab⟩
    · exact ⟨a, ha, b, hb, (hg a b).1 hab⟩
  · rintro ⟨a, ha, b, hb, hab⟩
    exact .inl ⟨b, ⟨a, ha, hab⟩, hb⟩

/-- The edges after a merge are the images of the edges before it. -/
theorem mem_succsOf_mergeNodes (hg : g.Mirrored) (hm : ∀ a b, b ∈ g.succsOf a → a ≠ m ∧ b ≠ m)
    (h : g.mergeNodes group m = .ok g') :
    d ∈ g'.succsOf c ↔ ∃ a b, b ∈ g.succsOf a ∧ image group m a = c ∧ image group m b = d := by
  obtain ⟨-, rfl⟩ := mergeNodes_eq_ok h
  rw [mem_succsOf_withNode, mem_succsOf_foldl_without hg, exists_edge_inside_iff hg]
  simp only [IdSet.mem_diff, IdSet.mem_unionMap, IdSet.mem_ofList]
  by_cases hcm : c = m
  · rw [if_pos hcm]
    constructor
    · rintro (⟨⟨a, ha, hd⟩, hdg⟩ | ⟨⟨a, ha, b, hb, hab⟩, rfl⟩)
      · exact ⟨a, d, hd, (image_of_mem ha).trans hcm.symm, image_of_not_mem hdg⟩
      · exact ⟨a, b, hab, (image_of_mem ha).trans hcm.symm, image_of_mem hb⟩
    · rintro ⟨a, b, hab, hac, rfl⟩
      have ha : a ∈ group := by
        by_contra ha
        exact (hm a b hab).1 ((image_of_not_mem ha).symm.trans (hac.trans hcm))
      by_cases hb : b ∈ group
      · exact .inr ⟨⟨a, ha, b, hb, hab⟩, image_of_mem hb⟩
      · rw [image_of_not_mem hb]
        exact .inl ⟨⟨a, ha, hab⟩, hb⟩
  · rw [if_neg hcm]
    constructor
    · rintro (⟨hc, hd, hcd⟩ | ⟨⟨⟨b, hb, hcb⟩, hc⟩, rfl⟩)
      · exact ⟨c, d, hcd, image_of_not_mem hc, image_of_not_mem hd⟩
      · exact ⟨c, b, (hg c b).1 hcb, image_of_not_mem hc, image_of_mem hb⟩
    · rintro ⟨a, b, hab, rfl, rfl⟩
      have ha : a ∉ group := fun ha => hcm (image_of_mem ha)
      rw [image_of_not_mem ha]
      by_cases hb : b ∈ group
      · exact .inr ⟨⟨⟨b, hb, (hg a b).2 hab⟩, ha⟩, image_of_mem hb⟩
      · rw [image_of_not_mem hb]
        exact .inl ⟨ha, hb, hab⟩

theorem mirrored_mergeNodes (hg : g.Mirrored) (hm : ∀ a b, b ∈ g.succsOf a → a ≠ m ∧ b ≠ m)
    (h : g.mergeNodes group m = .ok g') : g'.Mirrored := by
  intro c d
  have hm' : ∀ a b, b ∈ g.reverse.succsOf a → a ≠ m ∧ b ≠ m := fun a b hba => (hm b a ((hg b a).1 hba)).symm
  show c ∈ g'.reverse.succsOf d ↔ _
  rw [mem_succsOf_mergeNodes hg.reverse hm' (mergeNodes_reverse h), mem_succsOf_mergeNodes hg hm h]
  constructor
  · rintro ⟨b, a, hab, hb, ha⟩
    exact ⟨a, b, (hg a b).1 hab, ha, hb⟩
  · rintro ⟨a, b, hab, ha, hb⟩
    exact ⟨b, a, (hg a b).2 hab, hb, ha⟩

/-! ### Building -/

/-- A table of edges, written row by row from two lists and a test, has exactly the edges that pass the test. -/
theorem mem_get_table {A B : Type} {E : List (Candidate × A)} {F : List (Candidate × B)} {r : A → B → Bool}
    (hE : ∀ c k l, (c, k) ∈ E → (c, l) ∈ E → k = l) :
    d ∈ (E.foldl (fun t e => t.set e.1 (IdSet.ofList ((F.filter fun e' => r e.2 e'.2).map Prod.fst)))
      IdMap.empty).get c ↔ ∃ k l, (c, k) ∈ E ∧ (d, l) ∈ F ∧ r k l = true := by
  by_cases hc : ∃ k, (c, k) ∈ E
  · obtain ⟨k, hk⟩ := hc
    rw [IdMap.get_foldl_set_of_forall_eq Prod.fst (x := c)
      (v := IdSet.ofList ((F.filter fun e' => r k e'.2).map Prod.fst))
      (fun e he hec => by rw [hE c e.2 k (hec ▸ he) hk]) (.inr ⟨(c, k), hk, rfl⟩)]
    simp only [IdSet.mem_ofList, List.mem_map, List.mem_filter]
    constructor
    · rintro ⟨e, ⟨he, hr⟩, rfl⟩
      exact ⟨k, e.2, hk, he, hr⟩
    · rintro ⟨k', l, hk', hl, hr⟩
      rw [hE c k' k hk' hk] at hr
      exact ⟨(d, l), ⟨hl, hr⟩, rfl⟩
  · rw [IdMap.get_foldl_set_of_forall_ne Prod.fst (x := c) fun e he hec => hc ⟨e.2, hec ▸ he⟩]
    constructor
    · intro hd
      exact absurd hd IdSet.not_mem_empty
    · rintro ⟨k, _, hk, _⟩
      exact absurd ⟨k, hk⟩ hc

section ofLocations

variable {s : Store} {roots : List Candidate} {nodes : List (Candidate × Location)}
  {fields : List (Candidate × FieldLocation)} {N F : Candidate → Prop}
  (hnodes : ∀ c l, (c, l) ∈ nodes ↔ N c ∧ s.arena.get? c = some l)
  (hfields : ∀ d f, (d, f) ∈ fields ↔ F d ∧ s.field? d = some f)

include hnodes hfields

theorem exists_locations_iff :
    (∃ l f, (c, l) ∈ nodes ∧ (d, f) ∈ fields ∧ f.reachableFrom l.pts = true) ↔ N c ∧ F d ∧ s.Leads c d := by
  constructor
  · rintro ⟨l, f, hl, hf, hr⟩
    obtain ⟨hc, hl⟩ := (hnodes c l).1 hl
    obtain ⟨hd, hf⟩ := (hfields d f).1 hf
    rw [← Store.objectsOf_of_get hl] at hr
    exact ⟨hc, hd, f, hf, hr⟩
  · rintro ⟨hc, hd, f, hf, hr⟩
    -- a candidate without a location holds no objects
    obtain ⟨o, _, ho⟩ := IdSet.intersects_iff.1 hr
    obtain ⟨l, hl⟩ := Store.get_of_mem_objectsOf ho
    rw [Store.objectsOf_of_get hl] at hr
    exact ⟨l, f, (hnodes c l).2 ⟨hc, hl⟩, (hfields d f).2 ⟨hd, hf⟩, hr⟩

theorem mem_succsOf_ofLocations :
    d ∈ (ofLocations roots nodes fields).succsOf c ↔ N c ∧ F d ∧ s.Leads c d := by
  rw [← exists_locations_iff hnodes hfields]
  refine mem_get_table (E := nodes) (F := fields) (r := fun l f => f.reachableFrom l.pts) fun c k l hk hl => ?_
  exact Option.some.inj (((hnodes c k).1 hk).2.symm.trans ((hnodes c l).1 hl).2)

theorem mirrored_ofLocations : (ofLocations roots nodes fields).Mirrored := by
  intro c d
  have hunique : ∀ d k l, (d, k) ∈ fields → (d, l) ∈ fields → k = l := fun d k l hk hl =>
    Option.some.inj (((hfields d k).1 hk).2.symm.trans ((hfields d l).1 hl).2)
  rw [mem_succsOf_ofLocations hnodes hfields, ← exists_locations_iff hnodes hfields]
  refine (mem_get_table (E := fields) (F := nodes) (r := fun f l => f.reachableFrom l.pts) hunique).trans ?_
  exact ⟨fun ⟨f, l, hf, hl, hr⟩ => ⟨l, f, hl, hf, hr⟩, fun ⟨l, f, hl, hf, hr⟩ => ⟨f, l, hf, hl, hr⟩⟩

end ofLocations

theorem interface_addRoots (s : Store) (rs : List Root) (x : CallNode) :
    (addRoots s rs).1.interface x = s.interface x := by
  induction rs generalizing s with
  | nil => rfl
  | cons r rs ih => exact ih (s.addRoot r).1

theorem keeps_addRoots (s : Store) (rs : List Root) : s.Keeps (addRoots s rs).1 := by
  induction rs generalizing s with
  | nil => exact .refl s
  | cons r rs ih =>
    have hfirst : s.Keeps (s.addRoot r).1 := Store.keeps_of_push rfl
    exact hfirst.trans (ih (s.addRoot r).1)

theorem map_get_addRoots (s : Store) (rs : List Root) :
    (addRoots s rs).2.map (addRoots s rs).1.arena.get? = rs.map fun r => some (.root r) := by
  induction rs generalizing s with
  | nil => rfl
  | cons r rs ih =>
    have hnew : (s.addRoot r).1.arena.get? s.arena.nextId = some (.root r) := by
      show (s.arena.push (.root r)).get? s.arena.nextId = _
      rw [Arena.get?_push, if_pos rfl]
    exact congrArg₂ List.cons (keeps_addRoots _ rs _ _ hnew) (ih (s.addRoot r).1)

end HeapSummary.CandidateGraph
