import HeapSummary.Bounding.Pass
import HeapSummary.Proofs.Edits
import HeapSummary.Proofs.Layers

/-!
# Passes are runs of edits

Every pass over an exact graph removes candidates and merges groups of the interface, and does nothing else. Hence the
graph stays exact through any sequence of passes, removals and merges.
-/

namespace HeapSummary.Bounding

open Relation (ReflTransGen)

variable {b b' : Bounding} {s : Store} {p : Procedure} {c m : Candidate} {cs group start : List Candidate}
  {found : IdSet .candidate}

/-! ### Removing and merging -/

theorem removes_removeAll (h : b.removeAll cs = .ok b') : ReflTransGen Removes b b' :=
  Outcome.foldlM_keeps (P := ReflTransGen Removes b) (fun _ c _ _ hrun hc => hrun.tail ⟨c, hc⟩) .refl h

theorem Exact.exists_remove (hb : b.Exact) (c : Candidate) : ∃ b', b.remove c = .ok b' := by
  unfold Bounding.remove
  split
  · rename_i hc
    have hroot : c ∉ b.graph.roots := hb.not_mem_roots_of_interface hc
    rw [CandidateGraph.removeNode, if_neg hroot]
    exact ⟨_, rfl⟩
  · exact ⟨b, rfl⟩

theorem Exact.exists_removeAll (hb : b.Exact) (cs : List Candidate) : Outcome.Yields (b.removeAll cs) Exact := by
  refine .foldlM (fun b c _ hb => ?_) hb
  obtain ⟨b', hb'⟩ := hb.exists_remove c
  exact ⟨b', hb', hb.remove hb'⟩

theorem merge_eq_ok {r : Option Candidate} (h : b.merge group = .ok (b', r)) :
    (group.length < 2 ∧ b' = b ∧ r = none) ∨ ∃ m, 2 ≤ group.length ∧ r = some m ∧ b.mergeGroup group = .ok (b', m) := by
  unfold merge at h
  split at h
  · rename_i hlen
    obtain ⟨rfl, rfl⟩ := Prod.mk.inj (Outcome.pure_eq_ok.1 h)
    exact .inl ⟨hlen, rfl, rfl⟩
  · rename_i hlen
    obtain ⟨⟨b₁, m⟩, hmerge, h⟩ := Outcome.bind_eq_ok.1 h
    obtain ⟨rfl, rfl⟩ := Prod.mk.inj (Outcome.pure_eq_ok.1 h)
    exact .inr ⟨m, Nat.not_lt.1 hlen, rfl, hmerge⟩

theorem merges_merge {r : Option Candidate} (hgroup : ∀ c ∈ group, c ∈ b.interface) (h : b.merge group = .ok (b', r)) :
    ReflTransGen Merges b b' := by
  obtain ⟨_, rfl, _⟩ | ⟨m, hlen, _, hmerge⟩ := merge_eq_ok h
  · exact .refl
  · exact .single ⟨group, m, merging_of_mergeGroup hlen hgroup hmerge⟩

theorem mem_fieldsOf (h : b.fieldsOf found = .ok group) :
    c ∈ group ↔ c ∈ found ∧ ∃ f, b.store.field? c = some f := by
  simp only [fieldsOf, Outcome.bind_eq_ok, Outcome.pure_eq_ok] at h
  obtain ⟨locations, hlocations, rfl⟩ := h
  have hmem : ∀ l, (c, l) ∈ locations ↔ c ∈ found ∧ b.store.arena.get? c = some l := fun l => by
    rw [Outcome.mem_of_mapM_pair hlocations, IdSet.mem_toList, Store.location_eq_ok]
  rw [List.mem_map]
  constructor
  · rintro ⟨⟨c, l⟩, he, rfl⟩
    obtain ⟨he, hl⟩ := List.mem_filter.1 he
    obtain ⟨hc, hget⟩ := (hmem l).1 he
    cases l with
    | root r => cases hl
    | field f => exact ⟨hc, f, Store.field?_eq_some.2 hget⟩
  · rintro ⟨hc, f, hf⟩
    exact ⟨(c, .field f), List.mem_filter.2 ⟨(hmem _).2 ⟨hc, Store.field?_eq_some.1 hf⟩, rfl⟩, rfl⟩

theorem Exact.fieldsOf_subset (hb : b.Exact) (hstart : ∀ c ∈ start, c ∈ b.graph.nodes)
    (hfound : b.reachable start = .ok found) {cs : IdSet .candidate} (hcs : ∀ c ∈ cs, c ∈ found)
    (h : b.fieldsOf cs = .ok group) (hc : c ∈ group) : c ∈ b.interface := by
  obtain ⟨hc, f, hf⟩ := (mem_fieldsOf h).1 hc
  exact hb.mem_interface (hb.mem_nodes_of_found hstart ((CandidateGraph.mem_reachable hfound).1 (hcs c hc))) hf

theorem Exact.mem_fieldsOf_part (hb : b.Exact) (hstart : ∀ c ∈ start, c ∈ b.graph.nodes)
    (hfound : b.reachable start = .ok found) {cs : IdSet .candidate} (hcs : ∀ c ∈ cs, c ∈ found)
    (h : b.fieldsOf cs = .ok group) : c ∈ group ↔ c ∈ b.interface ∧ c ∈ cs := by
  constructor
  · exact fun hc => ⟨hb.fieldsOf_subset hstart hfound hcs h hc, ((mem_fieldsOf h).1 hc).1⟩
  · rintro ⟨hmem, hc⟩
    exact (mem_fieldsOf h).2 ⟨hc, hb.fields c hmem⟩

theorem Removed.fieldsOf_eq (h : Removed b cs b') (found : IdSet .candidate) : b'.fieldsOf found = b.fieldsOf found := by
  unfold fieldsOf Store.location
  rw [h.arena]

theorem Exact.mem_fieldsOf_reachable (hb : b.Exact) (hstart : ∀ c ∈ start, c ∈ b.interface)
    (hfound : b.reachable start = .ok found) (h : b.fieldsOf found = .ok group) :
    c ∈ group ↔ b.graph.Found b.store start c := by
  rw [mem_fieldsOf h, CandidateGraph.mem_reachable hfound]
  exact and_iff_left_of_imp fun hc => hb.fields c (hb.mem_interface_of_found hstart hc)

theorem exists_fieldsOf (h : ∀ c ∈ found, ∃ l, b.store.arena.get? c = some l) :
    ∃ group, b.fieldsOf found = .ok group := by
  have hread : ∀ c ∈ found.toList, ∃ l, b.store.location c = .ok l := by
    intro c hc
    obtain ⟨l, hl⟩ := h c (IdSet.mem_toList.1 hc)
    exact ⟨l, Store.location_eq_ok.2 hl⟩
  obtain ⟨locations, hlocations⟩ := Outcome.exists_mapM_pair_eq_ok hread
  exact ⟨_, Outcome.bind_eq_ok.2 ⟨locations, hlocations, rfl⟩⟩

theorem Exact.exists_fieldsOf {start : List Candidate} {part : IdSet .candidate} (hb : b.Exact)
    (hstart : ∀ c ∈ start, c ∈ b.graph.nodes) (hfound : b.reachable start = .ok found)
    (hpart : ∀ c ∈ part, c ∈ found) : ∃ group, b.fieldsOf part = .ok group := by
  apply Bounding.exists_fieldsOf
  intro c hc
  exact hb.exists_get (hb.mem_nodes_of_found hstart ((CandidateGraph.mem_reachable hfound).1 (hpart c hc)))

/-! ### Cutting -/

theorem removes_cutUnreachable (h : b.cutUnreachable = .ok b') : ReflTransGen Removes b b' := by
  simp only [cutUnreachable, Outcome.bind_eq_ok] at h
  obtain ⟨reached, _, h⟩ := h
  exact removes_removeAll h

theorem Exact.exists_cutUnreachable (hb : b.Exact) : ∃ b', b.cutUnreachable = .ok b' := by
  obtain ⟨reached, hreached⟩ := hb.exists_reachable b.graph.roots
  obtain ⟨b', hb', _⟩ := hb.exists_removeAll (b.interface \ reached).toList
  exact ⟨b', Outcome.bind_eq_ok.2 ⟨reached, hreached, hb'⟩⟩

theorem mem_immutableCandidates {immutables : IdSet .type} {cut own : List Candidate} (hb : b.Exact)
    (h : b.immutableCandidates immutables = .ok (cut, own)) :
    (c ∈ cut ↔ c ∈ b.graph.nodes ∧ b.store.IsImmutable immutables c ∧
      b.store.typeOf c ≠ b.constructedType immutables) ∧
    (c ∈ own ↔ c ∈ b.graph.nodes ∧ b.store.IsImmutable immutables c ∧
      b.store.typeOf c = b.constructedType immutables) := by
  simp only [immutableCandidates, Outcome.bind_eq_ok, Outcome.pure_eq_ok, List.partition_eq_filter_filter,
    Prod.mk.injEq] at h
  obtain ⟨typed, htyped, rfl, rfl⟩ := h
  have hlisted : ∀ select : Option TypeId → Bool,
      c ∈ ((typed.filter fun e => e.2.any immutables.contains).filter fun e => select e.2).map Prod.fst ↔
        c ∈ b.graph.nodes ∧ b.store.IsImmutable immutables c ∧ select (b.store.typeOf c) = true := by
    intro select
    have hread : (∃ e ∈ typed, e.1 = c ∧ e.2.any immutables.contains = true ∧ select e.2 = true) ↔
        ∃ x ∈ b.graph.roots ++ b.interface.toList,
          x = c ∧ b.store.IsImmutable immutables x ∧ select (b.store.typeOf x) = true := by
      refine Outcome.exists_iff_of_mapM htyped fun x e he => ?_
      simp only [Outcome.bind_eq_ok, Outcome.pure_eq_ok] at he
      obtain ⟨l, hl, rfl⟩ := he
      rw [Store.isImmutable_iff, Store.typeOf_of_get (Store.location_eq_ok.1 hl)]
    rw [hb.nodes, ← IdSet.mem_toList (s := b.interface), ← List.mem_append]
    simp only [List.mem_map, List.mem_filter]
    constructor
    · rintro ⟨e, ⟨⟨he, himmutable⟩, hselect⟩, hec⟩
      obtain ⟨x, hx, rfl, hsound⟩ := hread.1 ⟨e, he, hec, himmutable, hselect⟩
      exact ⟨hx, hsound⟩
    · rintro ⟨hc, hsound⟩
      obtain ⟨e, he, hec, himmutable, hselect⟩ := hread.2 ⟨c, hc, rfl, hsound⟩
      exact ⟨e, ⟨⟨he, himmutable⟩, hselect⟩, hec⟩
  constructor
  · refine (hlisted fun t => !decide (t = b.constructedType immutables)).trans ?_
    simp
  · refine (hlisted fun t => decide (t = b.constructedType immutables)).trans ?_
    simp

theorem Exact.exists_immutableCandidates (hb : b.Exact) (immutables : IdSet .type) :
    ∃ cut own, b.immutableCandidates immutables = .ok (cut, own) := by
  have hread : ∀ c ∈ b.graph.roots ++ b.interface.toList, ∃ e,
      (do return (c, (← b.store.location c).type) : Except Fault (Candidate × Option TypeId)) = .ok e := by
    intro c hc
    rw [List.mem_append, IdSet.mem_toList, ← hb.nodes] at hc
    obtain ⟨l, hl⟩ := hb.exists_get hc
    exact ⟨_, Outcome.bind_eq_ok.2 ⟨l, Store.location_eq_ok.2 hl, rfl⟩⟩
  obtain ⟨typed, htyped⟩ := Outcome.exists_mapM_eq_ok hread
  exact ⟨_, _, Outcome.bind_eq_ok.2 ⟨typed, htyped, rfl⟩⟩

theorem immutableCandidates_subset {immutables : IdSet .type} {cut own : List Candidate} (hb : b.Exact)
    (h : b.immutableCandidates immutables = .ok (cut, own)) :
    (∀ c ∈ cut, c ∈ b.graph.nodes) ∧ ∀ c ∈ own, c ∈ b.graph.nodes :=
  ⟨fun _ hc => ((mem_immutableCandidates hb h).1.1 hc).1, fun _ hc => ((mem_immutableCandidates hb h).2.1 hc).1⟩

theorem not_found_nil {g : CandidateGraph} : ¬ g.Found s [] c := by
  intro h
  generalize hstart : ([] : List Candidate) = start at h
  induction h with
  | start hc => exact List.not_mem_nil (hstart ▸ hc)
  | step _ _ _ ih => exact ih

theorem mem_below_of_removed {belowCut belowOwn : IdSet .candidate} {cut removed : List Candidate}
    (h : b.fieldsOf ((belowCut \ belowOwn) \ IdSet.ofList cut) = .ok removed) (hc : c ∈ removed) :
    c ∈ belowCut ∧ c ∉ belowOwn := by
  have hc := ((mem_fieldsOf h).1 hc).1
  exact IdSet.mem_diff.1 (IdSet.mem_diff.1 hc).1

/-- What a constructed type reaches is in the interface, and nothing of it is removed. -/
theorem Exact.mem_interface_of_own {trimmed : Bounding} {belowCut belowOwn : IdSet .candidate}
    {cut own removed : List Candidate} (hb : b.Exact) (hnodes : ∀ c ∈ own, c ∈ b.graph.nodes)
    (hown : b.reachable own = .ok belowOwn)
    (hremoved : b.fieldsOf ((belowCut \ belowOwn) \ IdSet.ofList cut) = .ok removed)
    (htrimmed : b.removeAll removed = .ok trimmed)
    (hgroup : trimmed.fieldsOf (belowOwn \ IdSet.ofList own) = .ok group) (hc : c ∈ group) : c ∈ trimmed.interface := by
  have htrim := removed_removeAll htrimmed
  obtain ⟨hc, f, hf⟩ := (mem_fieldsOf hgroup).1 hc
  have hbelow : c ∈ belowOwn := (IdSet.mem_diff.1 hc).1
  have hnode : c ∈ b.graph.nodes := hb.mem_nodes_of_found hnodes ((CandidateGraph.mem_reachable hown).1 hbelow)
  have hf : b.store.field? c = some f := by rwa [Store.field?, htrim.arena] at hf
  exact (htrim.interface c).2
    ⟨hb.mem_interface hnode hf, fun hrem => (mem_below_of_removed hremoved hrem).2 hbelow⟩

/-- What cutting below immutable types does first. It finds what is of an immutable type, removes what is found from
there, unless the constructed type reaches it or it is of an immutable type itself, and gathers what the constructed type
reaches. What is left to do is to merge that, and to cut what became unreachable, if that is asked for and there was
anything to cut below. -/
structure Trimming (b : Bounding) (immutables : IdSet .type) (cut own removed : List Candidate) (trimmed : Bounding)
    (group : List Candidate) : Prop where
  mem_cut : ∀ c, c ∈ cut ↔ c ∈ b.graph.nodes ∧ b.store.IsImmutable immutables c ∧
    b.store.typeOf c ≠ b.constructedType immutables
  mem_own : ∀ c, c ∈ own ↔ c ∈ b.graph.nodes ∧ b.store.IsImmutable immutables c ∧
    b.store.typeOf c = b.constructedType immutables
  mem_removed : ∀ c, c ∈ removed ↔
    c ∈ b.interface ∧ b.graph.Found b.store cut c ∧ ¬ b.graph.Found b.store own c ∧ c ∉ cut
  removes : b.removeAll removed = .ok trimmed
  mem_group : ∀ c, c ∈ group ↔ c ∈ b.interface ∧ b.graph.Found b.store own c ∧ c ∉ own
  eq : ∀ cutAfter, b.cutImmutables immutables cutAfter = trimmed.merge group >>= fun out =>
    if !cut.isEmpty && cutAfter then out.1.cutUnreachable else pure out.1

theorem Exact.exists_trimming (hb : b.Exact) (immutables : IdSet .type) :
    ∃ cut own removed trimmed group, Trimming b immutables cut own removed trimmed group := by
  obtain ⟨cut, own, himm⟩ := hb.exists_immutableCandidates immutables
  obtain ⟨hcutNodes, hownNodes⟩ := immutableCandidates_subset hb himm
  obtain ⟨belowCut, hcut⟩ := hb.exists_reachable cut
  obtain ⟨belowOwn, hown⟩ := hb.exists_reachable own
  have hcutPart : ∀ c ∈ (belowCut \ belowOwn) \ IdSet.ofList cut, c ∈ belowCut := fun c hc =>
    (IdSet.mem_diff.1 (IdSet.mem_diff.1 hc).1).1
  have hownPart : ∀ c ∈ belowOwn \ IdSet.ofList own, c ∈ belowOwn := fun c hc => (IdSet.mem_diff.1 hc).1
  obtain ⟨removed, hremoved⟩ := hb.exists_fieldsOf hcutNodes hcut hcutPart
  obtain ⟨group, hgroup⟩ := hb.exists_fieldsOf hownNodes hown hownPart
  obtain ⟨trimmed, htrimmed, _⟩ := hb.exists_removeAll removed
  have hmemRemoved : ∀ c, c ∈ removed ↔
      c ∈ b.interface ∧ b.graph.Found b.store cut c ∧ ¬ b.graph.Found b.store own c ∧ c ∉ cut := by
    intro c
    rw [hb.mem_fieldsOf_part hcutNodes hcut hcutPart hremoved, IdSet.mem_diff, IdSet.mem_diff, IdSet.mem_ofList,
      CandidateGraph.mem_reachable hcut, CandidateGraph.mem_reachable hown, and_assoc]
  have hmemGroup : ∀ c, c ∈ group ↔ c ∈ b.interface ∧ b.graph.Found b.store own c ∧ c ∉ own := by
    intro c
    rw [hb.mem_fieldsOf_part hownNodes hown hownPart hgroup, IdSet.mem_diff, IdSet.mem_ofList,
      CandidateGraph.mem_reachable hown]
  refine ⟨cut, own, removed, trimmed, group, fun c => (mem_immutableCandidates hb himm).1,
    fun c => (mem_immutableCandidates hb himm).2, hmemRemoved, htrimmed, hmemGroup, fun cutAfter => ?_⟩
  rw [cutImmutables, Outcome.bind_of_ok himm]
  dsimp only
  split
  · -- from nowhere nothing is found, so there is nothing to remove and nothing to merge
    rename_i hempty
    obtain ⟨rfl, rfl⟩ : cut = [] ∧ own = [] := by simpa using hempty
    obtain rfl : removed = [] :=
      List.eq_nil_iff_forall_not_mem.2 fun c hc => not_found_nil ((hmemRemoved c).1 hc).2.1
    obtain rfl : group = [] := List.eq_nil_iff_forall_not_mem.2 fun c hc => not_found_nil ((hmemGroup c).1 hc).2.1
    cases htrimmed
    rfl
  · rw [Outcome.bind_of_ok hcut, Outcome.bind_of_ok hown, Outcome.bind_of_ok hremoved, Outcome.bind_of_ok htrimmed,
      (removed_removeAll htrimmed).fieldsOf_eq, Outcome.bind_of_ok hgroup]

namespace Trimming

variable {immutables : IdSet .type} {cut own removed : List Candidate} {trimmed : Bounding}

theorem toRemoved (h : Trimming b immutables cut own removed trimmed group) : Removed b removed trimmed :=
  removed_removeAll h.removes

theorem exact (h : Trimming b immutables cut own removed trimmed group) (hb : b.Exact) : trimmed.Exact :=
  hb.edits (edits_of_removes (removes_removeAll h.removes))

theorem mem_interface (h : Trimming b immutables cut own removed trimmed group) : c ∈ trimmed.interface ↔
    c ∈ b.interface ∧ (b.graph.Found b.store cut c → b.graph.Found b.store own c ∨ c ∈ cut) := by
  rw [h.toRemoved.interface, h.mem_removed]
  tauto

theorem members (h : Trimming b immutables cut own removed trimmed group) : ∀ c ∈ group, c ∈ trimmed.interface := by
  intro c hc
  obtain ⟨hmem, hbelow, _⟩ := (h.mem_group c).1 hc
  exact h.mem_interface.2 ⟨hmem, fun _ => .inl hbelow⟩

end Trimming

/-- Cutting below immutable types removes, then merges, then cuts what became unreachable, if that is asked for and
anything was removed. -/
theorem cutImmutables_cases {immutables : IdSet .type} {cutAfter : Bool} (hb : b.Exact)
    (h : b.cutImmutables immutables cutAfter = .ok b') :
    ∃ trimmed merged, ReflTransGen Removes b trimmed ∧ ReflTransGen Merges trimmed merged ∧
      (merged.cutUnreachable = .ok b' ∨ (b' = merged ∧ (cutAfter = true → trimmed = b))) := by
  obtain ⟨cut, own, removed, trimmed, group, htrim⟩ := hb.exists_trimming immutables
  rw [htrim.eq] at h
  obtain ⟨⟨merged, r⟩, hmerged, h⟩ := Outcome.bind_eq_ok.1 h
  refine ⟨trimmed, merged, removes_removeAll htrim.removes, merges_merge htrim.members hmerged, ?_⟩
  split at h
  · exact .inl h
  rename_i hskip
  refine .inr ⟨(Outcome.pure_eq_ok.1 h).symm, fun hafter => ?_⟩
  -- nothing was below an empty cut, so nothing was removed
  obtain rfl : cut = [] := by simpa [hafter] using hskip
  have hnone : removed = [] :=
    List.eq_nil_iff_forall_not_mem.2 fun c hc => not_found_nil ((htrim.mem_removed c).1 hc).2.1
  have hremoves := htrim.removes
  rw [hnone] at hremoves
  exact (Outcome.pure_eq_ok.1 hremoves).symm

theorem edits_cutImmutables {immutables : IdSet .type} {cutAfter : Bool} (hb : b.Exact)
    (h : b.cutImmutables immutables cutAfter = .ok b') : ReflTransGen Edits b b' := by
  obtain ⟨trimmed, merged, hremoves, hmerges, hcut | ⟨rfl, _⟩⟩ := cutImmutables_cases hb h
  · exact ((edits_of_removes hremoves).trans (edits_of_merges hmerges)).trans
      (edits_of_removes (removes_cutUnreachable hcut))
  · exact (edits_of_removes hremoves).trans (edits_of_merges hmerges)

/-! ### Groups of roots -/

section regions

variable {select test : Root → Bool} {fromSelected fromOthers : IdSet .candidate}

/-- The roots of the graph that pass a test. -/
def rootsWhere (b : Bounding) (test : Root → Bool) : List Candidate :=
  b.graph.roots.filter fun c => (b.store.root c).toOption.any test

/-- What the selected roots reach, what the others reach, and the fields in the one that are not in the other. -/
structure Region (select : Root → Bool) (b : Bounding) (fromSelected fromOthers : IdSet .candidate)
    (group : List Candidate) : Prop where
  selected : b.reachable (b.rootsWhere select) = .ok fromSelected
  others : b.reachable (b.rootsWhere fun r => !select r) = .ok fromOthers
  fields : b.fieldsOf (fromSelected \ fromOthers) = .ok group

theorem Exact.selected_mem_nodes {roots : List (Candidate × Root)} {select : Candidate × Root → Bool} (hb : b.Exact)
    (hroots : (b.graph.roots.mapM fun c => return (c, ← b.store.root c)) = .ok roots)
    (hc : c ∈ (roots.filter select).map Prod.fst) : c ∈ b.graph.nodes := by
  obtain ⟨e, he, rfl⟩ := List.mem_map.1 hc
  have he : e.1 ∈ b.graph.roots :=
    Outcome.map_fst_of_mapM_pair hroots ▸ List.mem_map_of_mem (List.mem_of_mem_filter he)
  exact (hb.nodes e.1).2 (.inl he)

theorem rootsWhere_subset (hc : c ∈ b.rootsWhere test) : c ∈ b.graph.roots := List.mem_of_mem_filter hc

theorem Exact.rootsWhere_mem_nodes (hb : b.Exact) (test : Root → Bool) : ∀ c ∈ b.rootsWhere test, c ∈ b.graph.nodes :=
  fun c hc => (hb.nodes c).2 (.inl (rootsWhere_subset hc))

theorem map_fst_filter_roots {roots : List (Candidate × Root)}
    (hroots : (b.graph.roots.mapM fun c => return (c, ← b.store.root c)) = .ok roots) (test : Root → Bool) :
    (roots.filter fun e => test e.2).map Prod.fst = b.rootsWhere test := by
  have hread : ∀ e ∈ roots, test e.2 = (b.store.root e.1).toOption.any test := by
    rintro ⟨c, r⟩ he
    rw [((Outcome.mem_of_mapM_pair hroots).1 he).2]
    rfl
  rw [rootsWhere, ← Outcome.map_fst_of_mapM_pair hroots, List.filter_map, List.filter_congr hread]
  rfl

theorem Exact.exists_root_eq_ok (hb : b.Exact) (hc : c ∈ b.graph.roots) : ∃ r, b.store.root c = .ok r := by
  obtain ⟨r, hr⟩ := exists_root hb.roots hc
  exact ⟨r, Outcome.bind_eq_ok.2 ⟨_, Store.location_eq_ok.2 hr, rfl⟩⟩

theorem Exact.mem_rootsWhere_or (hb : b.Exact) (select : Root → Bool) (hc : c ∈ b.graph.roots) :
    c ∈ b.rootsWhere select ∨ c ∈ b.rootsWhere fun r => !select r := by
  obtain ⟨r, hr⟩ := hb.exists_root_eq_ok hc
  simp only [rootsWhere, List.mem_filter, hc, hr, Except.toOption, Option.any_some, true_and]
  cases select r <;> simp

theorem Exact.exists_region (hb : b.Exact) (select : Root → Bool) :
    ∃ fromSelected fromOthers group, Region select b fromSelected fromOthers group := by
  obtain ⟨fromSelected, hselected⟩ := hb.exists_reachable (b.rootsWhere select)
  obtain ⟨fromOthers, hothers⟩ := hb.exists_reachable (b.rootsWhere fun r => !select r)
  have hpart : ∀ c ∈ fromSelected \ fromOthers, c ∈ fromSelected := fun c hc => (IdSet.mem_diff.1 hc).1
  obtain ⟨group, hgroup⟩ := hb.exists_fieldsOf (hb.rootsWhere_mem_nodes select) hselected hpart
  exact ⟨fromSelected, fromOthers, group, hselected, hothers, hgroup⟩

namespace Region

theorem mem_group (h : Region select b fromSelected fromOthers group) (hb : b.Exact) : c ∈ group ↔
    c ∈ b.interface ∧ b.graph.Found b.store (b.rootsWhere select) c ∧
      ¬ b.graph.Found b.store (b.rootsWhere fun r => !select r) c := by
  have hpart : ∀ c ∈ fromSelected \ fromOthers, c ∈ fromSelected := fun c hc => (IdSet.mem_diff.1 hc).1
  rw [hb.mem_fieldsOf_part (hb.rootsWhere_mem_nodes select) h.selected hpart h.fields, IdSet.mem_diff,
    CandidateGraph.mem_reachable h.selected, CandidateGraph.mem_reachable h.others]

theorem members (h : Region select b fromSelected fromOthers group) (hb : b.Exact) : ∀ c ∈ group, c ∈ b.interface :=
  fun _ hc => ((h.mem_group hb).1 hc).1

theorem nodup (h : Region select b fromSelected fromOthers group) : group.Nodup := by
  have hfields := h.fields
  simp only [fieldsOf, Outcome.bind_eq_ok, Outcome.pure_eq_ok] at hfields
  obtain ⟨locations, hlocations, rfl⟩ := hfields
  have hsub := (List.filter_sublist (p := fun e : Candidate × Location => e.2.isField) (l := locations)).map Prod.fst
  rw [Outcome.map_fst_of_mapM_pair hlocations] at hsub
  exact hsub.nodup (IdSet.toList_nodup _)

/-- The pass merges the group. If no root is selected, the group is empty. -/
theorem mergeOnlyFrom_eq (h : Region select b fromSelected fromOthers group) (hb : b.Exact) :
    b.mergeOnlyFrom select = b.merge group >>= fun out => pure out.1 := by
  obtain ⟨roots, hroots⟩ := Outcome.exists_mapM_pair_eq_ok fun c hc => hb.exists_root_eq_ok (c := c) hc
  have hselected := map_fst_filter_roots hroots select
  have hothers : (roots.filter (not ∘ fun e => select e.2)).map Prod.fst = b.rootsWhere fun r => !select r :=
    map_fst_filter_roots hroots fun r => !select r
  rw [mergeOnlyFrom, Outcome.bind_of_ok hroots]
  simp only [List.partition_eq_filter_filter, hselected, hothers]
  split
  · rename_i hempty
    have hnone : b.rootsWhere select = [] := by rw [← hselected, List.isEmpty_iff.1 hempty, List.map_nil]
    obtain rfl : group = [] := by
      refine List.eq_nil_iff_forall_not_mem.2 fun c hc => ?_
      have hfound := ((h.mem_group hb).1 hc).2.1
      rw [hnone] at hfound
      exact not_found_nil hfound
    rfl
  · rw [Outcome.bind_of_ok h.selected, Outcome.bind_of_ok h.others, Outcome.bind_of_ok h.fields]

theorem mergeOnlyFrom_of_small (h : Region select b fromSelected fromOthers group) (hb : b.Exact)
    (hlen : group.length < 2) : b.mergeOnlyFrom select = .ok b := by
  rw [h.mergeOnlyFrom_eq hb, merge, if_pos hlen]
  rfl

end Region

theorem merges_mergeOnlyFrom (hb : b.Exact) (h : b.mergeOnlyFrom select = .ok b') : ReflTransGen Merges b b' := by
  obtain ⟨_, _, group, hregion⟩ := hb.exists_region select
  rw [hregion.mergeOnlyFrom_eq hb] at h
  obtain ⟨⟨last, r⟩, hmerge, hlast⟩ := Outcome.bind_eq_ok.1 h
  obtain rfl : last = b' := Outcome.pure_eq_ok.1 hlast
  exact merges_merge (hregion.members hb) hmerge

end regions

/-! ### Shared fields -/

theorem mem_of_sharedField {locations : List (Candidate × FieldLocation)} (h : sharedField? locations = some group) :
    2 ≤ group.length ∧ ∀ c ∈ group, c ∈ locations.map Prod.fst := by
  unfold sharedField? at h
  have hlen := List.find?_some h
  obtain ⟨f, _, rfl⟩ := List.mem_map.1 (List.mem_of_find?_eq_some h)
  refine ⟨of_decide_eq_true hlen, fun c hc => ?_⟩
  obtain ⟨e, he, rfl⟩ := List.mem_map.1 hc
  exact List.mem_map_of_mem (List.mem_of_mem_filter he)

theorem group_of_sharedField {locations : List (Candidate × FieldLocation)} {succs : IdSet .candidate}
    (hlocations : (succs.toList.mapM fun d => return (d, ← b.store.field d)) = .ok locations)
    (h : sharedField? locations = some group) : 2 ≤ group.length ∧ ∀ d ∈ group, d ∈ succs := by
  obtain ⟨hlen, hgroup⟩ := mem_of_sharedField h
  refine ⟨hlen, fun d hd => ?_⟩
  have hsucc := hgroup d hd
  rwa [Outcome.map_fst_of_mapM_pair hlocations, IdSet.mem_toList] at hsucc

theorem nodup_of_sharedField {locations : List (Candidate × FieldLocation)} {succs : IdSet .candidate}
    (hlocations : (succs.toList.mapM fun d => return (d, ← b.store.field d)) = .ok locations)
    (h : sharedField? locations = some group) : group.Nodup := by
  obtain ⟨f, _, rfl⟩ := List.mem_map.1 (List.mem_of_find?_eq_some h)
  refine List.Nodup.sublist (List.filter_sublist.map _) ?_
  rw [Outcome.map_fst_of_mapM_pair hlocations]
  exact IdSet.toList_nodup succs

theorem merges_mergeUnder {steps : Nat} {visited : IdSet .candidate} {queue : List Candidate} (hb : b.Exact)
    (h : mergeUnder steps b visited queue = .ok b') : ReflTransGen Merges b b' := by
  induction steps generalizing b visited queue with
  | zero =>
    cases queue <;> cases h
    exact .refl
  | succ steps ih =>
    cases queue with
    | nil =>
      cases h
      exact .refl
    | cons c queue =>
      simp only [mergeUnder] at h
      split at h
      · obtain ⟨locations, hlocations, h⟩ := Outcome.bind_eq_ok.1 h
        split at h
        · exact ih hb h
        · rename_i group hshared
          obtain ⟨⟨b₁, m⟩, hmerge, h⟩ := Outcome.bind_eq_ok.1 h
          obtain ⟨hlen, hgroup⟩ := group_of_sharedField hlocations hshared
          have hmerging := merging_of_mergeGroup hlen (fun d hd => hb.target_mem_interface (hgroup d hd)) hmerge
          exact .head ⟨group, m, hmerging⟩ (ih (hmerging.exact hb) h)
      · exact ih hb h

/-! ### Depth -/

/-- A border candidate of the interface is merged with all that a search from it finds and that was not taken, unless
there is nothing of the kind. -/
theorem absorbBelow_cases {taken taken' : IdSet .candidate} (hb : b.Exact) (hroot : c ∉ b.graph.roots)
    (h : absorbBelow (b, taken) c = .ok (b', taken')) :
    (c ∉ b.interface ∧ b' = b ∧ taken' = taken) ∨
    (c ∈ b.interface ∧ b' = b ∧ taken' = taken ∧ ∀ d, b.graph.Found b.store [c] d → d = c ∨ d ∈ taken) ∨
    (c ∈ b.interface ∧ ∃ group m, 2 ≤ group.length ∧ b.mergeGroup group = .ok (b', m) ∧ Merging b group b' m ∧
      taken' = taken.insert m ∧ ∀ d, d ∈ group ↔ d = c ∨ b.graph.Found b.store [c] d ∧ d ∉ taken) := by
  have hnode : b.graph.contains c = true ↔ c ∈ b.interface :=
    (hb.nodes c).trans (or_iff_right hroot)
  simp only [absorbBelow] at h
  split at h
  · rename_i hc
    have hc : c ∈ b.interface := hnode.1 hc
    simp only [Outcome.bind_eq_ok] at h
    obtain ⟨found, hfound, below, hbelow, ⟨b₁, r⟩, hmerge, h⟩ := h
    have hstart : ∀ a ∈ [c], a ∈ b.interface := fun a ha => List.mem_singleton.1 ha ▸ hc
    have hgroup : ∀ d, d ∈ c :: below.filter (fun d => d ≠ c ∧ d ∉ taken) ↔
        d = c ∨ b.graph.Found b.store [c] d ∧ d ∉ taken := by
      intro d
      rw [List.mem_cons, List.mem_filter, hb.mem_fieldsOf_reachable hstart hfound hbelow, decide_eq_true_eq]
      tauto
    obtain ⟨hlen, rfl, rfl⟩ | ⟨m, hlen, rfl, hmerged⟩ := merge_eq_ok hmerge
    · cases h
      have hnil : below.filter (fun d => d ≠ c ∧ d ∉ taken) = [] := by
        refine List.eq_nil_of_length_eq_zero ?_
        rw [List.length_cons] at hlen
        omega
      refine .inr (.inl ⟨hc, rfl, rfl, fun d hd => ?_⟩)
      by_contra hne
      have hd : d ∈ c :: below.filter (fun d => d ≠ c ∧ d ∉ taken) :=
        (hgroup d).2 (.inr ⟨hd, fun htaken => hne (.inr htaken)⟩)
      rw [hnil, List.mem_singleton] at hd
      exact hne (.inl hd)
    · cases h
      refine .inr (.inr ⟨hc, _, m, hlen, hmerged, merging_of_mergeGroup hlen (fun d hd => ?_) hmerged, rfl, hgroup⟩)
      rcases (hgroup d).1 hd with rfl | ⟨hd, _⟩
      · exact hc
      · exact hb.mem_interface_of_found hstart hd
  · rename_i hc
    cases h
    exact .inl ⟨fun hc' => hc (hnode.2 hc'), rfl, rfl⟩

theorem mergeBelowDepth_cases {max depth : Nat} (h : b.mergeBelowDepth max depth = .ok b') :
    ∃ R, b.graph.rootsPts b.store = .ok R ∧
      (((takeLayers b.store max depth (.initial R b.interface)).oversized = true ∧ ∃ found group r,
        b.reachable (takeLayers b.store max depth (.initial R b.interface)).border = .ok found ∧
          b.fieldsOf found = .ok group ∧ b.merge group = .ok (b', r)) ∨
      ((takeLayers b.store max depth (.initial R b.interface)).oversized = false ∧ ∃ taken,
        (takeLayers b.store max depth (.initial R b.interface)).border.foldlM absorbBelow
          (b, (takeLayers b.store max depth (.initial R b.interface)).taken) = .ok (b', taken))) := by
  simp only [mergeBelowDepth, Outcome.bind_eq_ok] at h
  obtain ⟨_, _, R, hR, h⟩ := h
  refine ⟨R, hR, ?_⟩
  split at h
  · rename_i hover
    simp only [Outcome.bind_eq_ok, Outcome.pure_eq_ok] at h
    obtain ⟨found, hfound, group, hgroup, ⟨b₁, r⟩, hmerge, rfl⟩ := h
    exact .inl ⟨hover, found, group, r, hfound, hgroup, hmerge⟩
  · rename_i hover
    simp only [Outcome.bind_eq_ok, Outcome.pure_eq_ok] at h
    obtain ⟨⟨b₁, taken⟩, hrun, rfl⟩ := h
    exact .inr ⟨Bool.not_eq_true _ ▸ hover, taken, hrun⟩

theorem merges_mergeBelowDepth {max depth : Nat} (hb : b.Exact) (h : b.mergeBelowDepth max depth = .ok b') :
    ReflTransGen Merges b b' := by
  obtain ⟨R, _, ⟨_, found, group, r, hfound, hgroup, hmerge⟩ | ⟨_, taken, hrun⟩⟩ := mergeBelowDepth_cases h
  · refine merges_merge (fun c hc => ?_) hmerge
    rw [hb.mem_fieldsOf_reachable (fun d hd => mem_of_mem_border hd) hfound hgroup] at hc
    exact hb.mem_interface_of_found (fun d hd => mem_of_mem_border hd) hc
  · refine Outcome.foldlM_keeps (P := fun state => ReflTransGen Merges b state.1) ?_ .refl hrun
    intro state c state' hc hmerges hstep
    have hroot : c ∉ state.1.graph.roots := by
      rw [(sameFrame_of_edits (edits_of_merges hmerges)).roots]
      exact hb.not_mem_roots_of_interface (mem_of_mem_border hc)
    obtain ⟨_, heq, _⟩ | ⟨_, heq, _⟩ | ⟨_, group, m, _, _, hmerging, _⟩ :=
      absorbBelow_cases (hb.edits (edits_of_merges hmerges)) hroot hstep
    · rwa [heq]
    · rwa [heq]
    · exact hmerges.tail ⟨group, m, hmerging⟩

/-! ### Any sequence of operations -/

/-- One operation on an interface: a pass, whatever its settings, the removal of a field candidate, or the merge of any
list of candidates of the interface. -/
inductive Step (b b' : Bounding) : Prop
  | cutUnreachable (h : b.cutUnreachable = .ok b')
  | mergeExceptions (h : b.mergeExceptions = .ok b')
  | cutImmutables (immutables : IdSet .type) (cutAfter : Bool) (h : b.cutImmutables immutables cutAfter = .ok b')
  | mergeSharedFields (h : b.mergeSharedFields = .ok b')
  | mergeStatics (h : b.mergeStatics = .ok b')
  | mergeBelowDepth (max depth : Nat) (h : b.mergeBelowDepth max depth = .ok b')
  | remove {c : Candidate} {f : FieldLocation} (hc : b.store.field? c = some f) (h : b.remove c = .ok b')
  | merge {group : List Candidate} {r : Option Candidate} (hgroup : ∀ c ∈ group, c ∈ b.interface)
      (h : b.merge group = .ok (b', r))

theorem Step.edits (h : Step b b') (hb : b.Exact) : ReflTransGen Edits b b' := by
  cases h with
  | cutUnreachable h => exact edits_of_removes (removes_cutUnreachable h)
  | mergeExceptions h => exact edits_of_merges (merges_mergeOnlyFrom hb h)
  | cutImmutables _ _ h => exact edits_cutImmutables hb h
  | mergeSharedFields h => exact edits_of_merges (merges_mergeUnder hb h)
  | mergeStatics h => exact edits_of_merges (merges_mergeOnlyFrom hb h)
  | mergeBelowDepth _ _ h => exact edits_of_merges (merges_mergeBelowDepth hb h)
  | @remove c _ _ h => exact .single (.inl ⟨c, h⟩)
  | merge hgroup h => exact edits_of_merges (merges_merge hgroup h)

/-- The states that operations reach from the start. -/
inductive Reached (s : Store) (p : Procedure) : Bounding → Prop
  | start {b : Bounding} (h : Bounding.start s p = .ok b) : Reached s p b
  | step {b b' : Bounding} (h : Reached s p b) (hstep : Step b b') : Reached s p b'

theorem Reached.exact (h : Reached s p b) : b.Exact ∧ b.procedure = p := by
  induction h with
  | start h => exact ⟨exact_start h, procedure_start h⟩
  | step _ hstep ih =>
    have hedits := hstep.edits ih.1
    exact ⟨ih.1.edits hedits, (sameFrame_of_edits hedits).procedure.trans ih.2⟩

/-- Patching the graph in place agrees with building it anew: after any sequence of operations its nodes are the roots
of the procedure and the interface of its node, its edges at either end are exactly the dereferences between nodes, and
no edge leaves the nodes. -/
theorem graph_of_reached (h : Reached s p b) :
    b.graph.roots.map b.store.arena.get? = p.roots.map (fun r => some (.root r)) ∧
    (∀ c, c ∈ b.graph.nodes ↔ c ∈ b.graph.roots ∨ c ∈ b.store.interface p.node) ∧
    (∀ c ∈ b.graph.nodes, ∀ d ∈ b.graph.nodes,
      (d ∈ b.graph.succsOf c ↔ b.store.Leads c d) ∧ (c ∈ b.graph.predsOf d ↔ b.store.Leads c d)) ∧
    ∀ c d, d ∈ b.graph.succsOf c ∨ c ∈ b.graph.predsOf d → c ∈ b.graph.nodes ∧ d ∈ b.graph.nodes := by
  obtain ⟨hb, rfl⟩ := h.exact
  refine ⟨hb.roots, hb.nodes, fun c hc d hd => ?_, fun c d hedge => ?_⟩
  · rw [hb.mirrored c d, hb.edges c d]
    simp [hc, hd]
  · have hedge : d ∈ b.graph.succsOf c := hedge.elim id (hb.mirrored c d).1
    exact ⟨((hb.edges c d).1 hedge).1, ((hb.edges c d).1 hedge).2.1⟩

/-- A walk over a linked list: the field of the head, the field of each cell that holds the next one, and the value of a
cell, accessed twice. -/
def listWalk : Store :=
  [(⟨0⟩, [0], [1]), (⟨1⟩, [1], [1]), (⟨2⟩, [1], []), (⟨2⟩, [1, 5], [])].foldl
    (fun s (a : Field × List Nat × List Nat) =>
      s.addLocal ⟨0⟩ ⟨a.1, IdSet.ofList (a.2.1.map Id.mk), IdSet.ofList (a.2.2.map Id.mk), none, .no⟩) Store.empty

def walk : Procedure := ⟨⟨0⟩, "walk", none, false, [.formal "list" none (IdSet.singleton ⟨0⟩)]⟩

/-- The two accesses to the value are merged and removed, and the head is merged with the cells, one of them named
twice. One candidate is left, and it leads to itself. -/
theorem graph_of_listWalk : ∃ b, Reached listWalk walk b ∧ b.interface.toList = [⟨6⟩] ∧
    ⟨6⟩ ∈ b.graph.predsOf ⟨6⟩ ∧ b.store.Leads ⟨6⟩ ⟨6⟩ := by
  have hstart := Reached.start (s := listWalk) (p := walk) rfl
  have hshared := hstart.step (.mergeSharedFields rfl)
  have hremove := hshared.step (.remove (c := ⟨5⟩) rfl rfl)
  have hreached := hremove.step (@Step.merge _ _ [⟨0⟩, ⟨1⟩, ⟨0⟩] _ (by decide) rfl)
  refine ⟨_, hreached, rfl, by decide, ?_⟩
  obtain ⟨_, _, hedges, _⟩ := graph_of_reached hreached
  exact (hedges ⟨6⟩ (by decide) ⟨6⟩ (by decide)).1.1 (by decide)

end HeapSummary.Bounding
