import HeapSummary.Proofs.Renaming
import HeapSummary.Proofs.SharedFields
import HeapSummary.Proofs.Summary

/-!
# Passes and renaming

A pass makes all of its choices by order and by content: which roots are selected, which candidates a search finds,
which successors share a field, how many candidates a layer has. None of that depends on how candidates are named, so
every pass takes alike states to alike states, and all of them together report the same sizes.
-/

namespace HeapSummary

open Outcome (Agree)

namespace Bounding

variable {ρ : Candidate → Candidate} {b d : Bounding} {s t : Store}

/-! ### Cutting -/

theorem Alike.cutUnreachable (h : Alike ρ b d) : Agree (Alike ρ) b.cutUnreachable d.cutUnreachable := by
  unfold Bounding.cutUnreachable
  rw [h.roots]
  refine .bind (h.reachable _) fun reached reached' _ _ hreached => ?_
  rw [hreached, h.interface, ← IdSet.map_diff h.ascending, IdSet.toList_map h.ascending]
  exact h.removeAll _

theorem Alike.constructedType (h : Alike ρ b d) (immutables : IdSet .type) :
    d.constructedType immutables = b.constructedType immutables := by
  rw [Bounding.constructedType, Bounding.constructedType, h.procedure]

theorem Alike.immutableCandidates (h : Alike ρ b d) (immutables : IdSet .type) :
    Agree (fun out out' => out' = (out.1.map ρ, out.2.map ρ)) (b.immutableCandidates immutables)
      (d.immutableCandidates immutables) := by
  unfold Bounding.immutableCandidates
  rw [h.roots, h.interface, IdSet.toList_map h.ascending, ← List.map_append, h.constructedType]
  simp only [List.partition_eq_filter_filter]
  have hread : ∀ c ∈ b.graph.roots ++ b.interface.toList,
      Agree (fun e e' => e' = Prod.map ρ id e) (do return (c, (← b.store.location c).type))
        (do return (ρ c, (← d.store.location (ρ c)).type)) := fun c _ =>
    .bind (h.store.location c) fun l l' _ _ hl => .pure (by rw [hl]; rfl)
  refine .bind (.mapM hread) fun typed typed' _ _ htyped => .pure ?_
  simp only [htyped, List.filter_map, List.map_map]
  rfl

theorem Alike.cutImmutables (h : Alike ρ b d) (immutables : IdSet .type) (cutAfter : Bool) :
    Agree (Alike ρ) (b.cutImmutables immutables cutAfter) (d.cutImmutables immutables cutAfter) := by
  unfold Bounding.cutImmutables
  refine .bind (h.immutableCandidates immutables) ?_
  rintro ⟨cut, own⟩ _ himm _ rfl
  simp only [List.isEmpty_map]
  split
  · exact .pure h
  refine .bind (h.reachable cut) fun belowCut belowCut' _ _ hcut => ?_
  refine .bind (h.reachable own) fun belowOwn belowOwn' hown _ hown' => ?_
  rw [hcut, hown', ← IdSet.map_ofList, ← IdSet.map_ofList, ← IdSet.map_diff h.ascending, ← IdSet.map_diff h.ascending,
    ← IdSet.map_diff h.ascending]
  refine .bind (h.fieldsOf _) fun removed removed' hremoved _ hremoved' => ?_
  rw [hremoved']
  refine .bind (h.removeAll removed) fun trimmed trimmed' htrimmed _ htrim => ?_
  refine .bind (htrim.fieldsOf _) fun group group' hgroup _ hgroup' => ?_
  rw [hgroup']
  have hmembers : ∀ c ∈ group, c ∈ trimmed.interface := fun c =>
    h.left.mem_interface_of_own (immutableCandidates_subset h.left himm).2 hown hremoved htrimmed hgroup
  refine .bind (htrim.merge hmembers) fun merged merged' _ _ hmerged => ?_
  split
  · exact hmerged.1.cutUnreachable
  · exact .pure hmerged.1

/-! ### Groups of roots -/

theorem Alike.mergeOnlyFrom (h : Alike ρ b d) (select : Root → Bool) :
    Agree (Alike ρ) (b.mergeOnlyFrom select) (d.mergeOnlyFrom select) := by
  unfold Bounding.mergeOnlyFrom
  rw [h.roots]
  refine .bind (.mapM_pair fun c _ => h.store.root c) fun roots roots' hroots _ hroots' => ?_
  have hpart : roots'.partition (fun e => select e.2) =
      ((roots.filter fun e => select e.2).map (Prod.map ρ id),
        (roots.filter (not ∘ fun e => select e.2)).map (Prod.map ρ id)) := by
    rw [hroots', List.partition_eq_filter_filter, List.filter_map, List.filter_map]
    rfl
  simp only [hpart, List.partition_eq_filter_filter, List.isEmpty_map]
  split
  · exact .pure h
  have hfst : ∀ es : List (Candidate × Root), (es.map (Prod.map ρ id)).map Prod.fst = (es.map Prod.fst).map ρ := by
    intro es
    rw [List.map_map, List.map_map]
    rfl
  rw [hfst, hfst]
  refine .bind (h.reachable _) fun fromSelected fromSelected' hselected _ hselected' => ?_
  refine .bind (h.reachable _) fun fromOthers fromOthers' _ _ hothers' => ?_
  rw [hselected', hothers', ← IdSet.map_diff h.ascending]
  refine .bind (h.fieldsOf _) fun group group' hgroup _ hgroup' => ?_
  rw [hgroup']
  have hmembers : ∀ c ∈ group, c ∈ b.interface := fun c =>
    h.left.fieldsOf_subset (fun a => h.left.selected_mem_nodes hroots) hselected (fun a ha => (IdSet.mem_diff.1 ha).1)
      hgroup
  exact .bind (h.merge hmembers) fun merged merged' _ _ hmerged => .pure hmerged.1

/-! ### Shared fields -/

theorem sharedField_map (ρ : Candidate → Candidate) (locations : List (Candidate × FieldLocation)) :
    sharedField? (locations.map (Prod.map ρ id)) = (sharedField? locations).map (List.map ρ) := by
  unfold sharedField?
  have hfields : IdSet.unionMap (locations.map (Prod.map ρ id)) (fun e => e.2.fields) =
      IdSet.unionMap locations fun e => e.2.fields := by
    apply IdSet.ext
    intro f
    simp only [IdSet.mem_unionMap, List.mem_map, exists_exists_and_eq_and]
    rfl
  have hgroup : ∀ f : Field, ((locations.map (Prod.map ρ id)).filter fun e => e.2.fields.contains f).map Prod.fst =
      ((locations.filter fun e => e.2.fields.contains f).map Prod.fst).map ρ := by
    intro f
    rw [List.filter_map, List.map_map, List.map_map]
    rfl
  simp only [hfields, hgroup, List.find?_map, Option.map_map]
  simp only [Function.comp_def, List.length_map]

/-- The searches go on side by side, with equally many steps left. -/
theorem Alike.mergeUnder {steps : Nat} {visited : IdSet .candidate} {queue : List Candidate} (h : Alike ρ b d) :
    Agree (Alike ρ) (Bounding.mergeUnder steps b visited queue)
      (Bounding.mergeUnder steps d (visited.map ρ) (queue.map ρ)) := by
  induction steps generalizing b d visited queue with
  | zero =>
    cases queue with
    | nil => exact .pure h
    | cons c queue => exact fun _ _ hb => nomatch hb
  | succ steps ih =>
    cases queue with
    | nil => exact .pure h
    | cons c queue =>
      simp only [Bounding.mergeUnder, List.map_cons, h.contains, h.succsOf, IdSet.toList_map h.ascending]
      split
      · refine .bind (.mapM_pair fun e _ => h.store.field e) fun locations locations' hlocations _ hlocations' => ?_
        rw [hlocations', sharedField_map]
        cases hshared : sharedField? locations with
        | none =>
          rw [Option.map_none, ← IdSet.map_union, ← IdSet.map_diff h.ascending, IdSet.toList_map h.ascending,
            ← List.map_append]
          exact ih h
        | some group =>
          obtain ⟨hlen, hsuccs⟩ := group_of_sharedField hlocations hshared
          refine .bind (h.mergeGroup hlen fun e he => h.left.target_mem_interface (hsuccs e he)) ?_
          rintro ⟨b', m⟩ ⟨d', _⟩ _ _ ⟨hnext, rfl⟩
          -- the parent may be in the group; the search stays at it, or at what it was merged into
          have hcurrent : (if d'.graph.contains (ρ c) then ρ c else ρ m) =
              ρ (if b'.graph.contains c then c else m) := by
            rw [hnext.contains, apply_ite ρ]
          simp only [hcurrent]
          exact @ih _ _ visited (_ :: queue) hnext
      · exact ih h

theorem Alike.mergeSharedFields (h : Alike ρ b d) : Agree (Alike ρ) b.mergeSharedFields d.mergeSharedFields := by
  have hsize : d.interface.size = b.interface.size := h.size
  have hbound : d.stepBound = b.stepBound := by rw [stepBound, stepBound, h.roots, List.length_map, hsize]
  unfold Bounding.mergeSharedFields
  rw [hbound, h.roots, ← IdSet.map_ofList]
  exact h.mergeUnder

/-! ### Depth -/

/-- The frontier with its candidates renamed. -/
def Frontier.map (f : Frontier) (ρ : Candidate → Candidate) : Frontier :=
  { f with remaining := f.remaining.map ρ, taken := f.taken.map ρ, border := f.border.map ρ }

theorem takeLayers_map {x : CallNode} (h : Store.Alike ρ x s t) (max depth : Nat) (f : Frontier) :
    takeLayers t max depth (f.map ρ) = (takeLayers s max depth f).map ρ := by
  have hlayer : ∀ f : Frontier, (f.map ρ).layer t = (f.layer s).map ρ := by
    intro f
    rw [Frontier.layer, Frontier.map, IdSet.filter_map]
    simp only [h.basesOf]
    rfl
  have hpts : ∀ cs : IdSet .candidate, IdSet.unionMap (cs.map ρ).toList t.ptsOf = IdSet.unionMap cs.toList s.ptsOf := by
    intro cs
    apply IdSet.ext
    intro i
    simp [IdSet.mem_unionMap, h.ptsOf]
  induction depth generalizing f with
  | zero => rfl
  | succ depth ih =>
    have hadvance : ∀ objects, (f.map ρ).advance t objects = (f.advance s objects).map ρ := by
      intro objects
      unfold Frontier.advance
      rw [hlayer, IdSet.toList_map h.ascending]
      simp only [Frontier.map, IdSet.map_union, IdSet.map_diff h.ascending]
    have htaken : (f.map ρ).taken = f.taken.map ρ := rfl
    have hobjects : (f.map ρ).objects = f.objects := rfl
    rw [takeLayers_succ, takeLayers_succ, hlayer, hpts, hadvance, ih, htaken, hobjects, IdSet.isEmpty_map h.ascending,
      IdSet.isEmpty_map h.ascending, IdSet.size_map h.ascending, IdSet.size_map h.ascending,
      IdSet.toList_map h.ascending]
    split
    · rfl
    split
    · rfl
    split
    · rfl
    · rfl

theorem Alike.absorbBelow {taken : IdSet .candidate} {c : Candidate} (h : Alike ρ b d) (hc : c ∉ b.graph.roots) :
    Agree (fun out out' => Alike ρ out.1 out'.1 ∧ out'.2 = out.2.map ρ ∧ out.1.graph.roots = b.graph.roots)
      (Bounding.absorbBelow (b, taken) c) (Bounding.absorbBelow (d, taken.map ρ) (ρ c)) := by
  simp only [Bounding.absorbBelow, h.contains]
  split
  · rename_i hnode
    have hstart : ∀ a ∈ [c], a ∈ b.interface := by
      intro a ha
      rw [List.mem_singleton.1 ha]
      exact ((h.left.nodes c).1 hnode).resolve_left hc
    refine .bind (h.reachable [c]) fun found found' hfound _ hfound' => ?_
    rw [hfound']
    refine .bind (h.fieldsOf found) fun below below' hbelow _ hbelow' => ?_
    have hgroup : ρ c :: below'.filter (fun e => e ≠ ρ c ∧ e ∉ taken.map ρ) =
        (c :: below.filter fun e => e ≠ c ∧ e ∉ taken).map ρ := by
      rw [hbelow', List.filter_map, List.map_cons]
      simp only [Function.comp_def, IdSet.map_mem_map h.ascending, ne_eq, h.ascending.eq_iff]
    have hmembers : ∀ e ∈ c :: below.filter (fun e => e ≠ c ∧ e ∉ taken), e ∈ b.interface := by
      intro e he
      rcases List.mem_cons.1 he with rfl | he
      · exact hstart e (List.mem_singleton_self e)
      · have he := (h.left.mem_fieldsOf_reachable hstart hfound hbelow).1 (List.mem_filter.1 he).1
        exact h.left.mem_interface_of_found hstart he
    rw [hgroup]
    refine .bind (h.merge hmembers) ?_
    rintro ⟨b', r⟩ ⟨d', r'⟩ hmerge _ ⟨hnext, hr⟩
    have hroots : b'.graph.roots = b.graph.roots :=
      (sameFrame_of_edits (edits_of_merges (merges_merge hmembers hmerge))).roots
    cases hr
    cases r with
    | none => exact .pure ⟨hnext, rfl, hroots⟩
    | some m => exact .pure ⟨hnext, (IdSet.map_insert taken m ρ).symm, hroots⟩
  · exact .pure ⟨h, rfl, rfl⟩

theorem Alike.rootsPts (h : Alike ρ b d) :
    Agree (fun R R' => R' = R) (b.graph.rootsPts b.store) (d.graph.rootsPts d.store) := by
  unfold CandidateGraph.rootsPts
  rw [h.roots]
  refine .bind (.mapM (r := id) fun c _ => h.store.location c) fun ls ls' _ _ hls => .pure ?_
  rw [hls, List.map_id]

theorem Alike.mergeBelowDepth (h : Alike ρ b d) (max depth : Nat) :
    Agree (Alike ρ) (b.mergeBelowDepth max depth) (d.mergeBelowDepth max depth) := by
  unfold Bounding.mergeBelowDepth
  refine .bind (R := fun _ _ => True) (fun _ _ _ _ => trivial) fun _ _ _ _ _ => ?_
  refine .bind h.rootsPts fun R R' _ _ hR => ?_
  have hlayers : takeLayers d.store max depth (.initial R' d.interface) =
      (takeLayers b.store max depth (.initial R b.interface)).map ρ := by
    rw [← takeLayers_map h.store, hR, h.interface]
    rfl
  have hborder : ∀ c ∈ (takeLayers b.store max depth (.initial R b.interface)).border, c ∈ b.interface := fun c =>
    mem_of_mem_border
  simp only [show ∀ R (I : IdSet .candidate), (⟨R, I, ∅, [], false⟩ : Frontier) = .initial R I from fun _ _ => rfl,
    hlayers]
  generalize takeLayers b.store max depth (.initial R b.interface) = f at hborder ⊢
  by_cases hover : f.oversized
  · rw [if_pos hover, if_pos (show (f.map ρ).oversized from hover)]
    refine .bind (h.reachable f.border) fun found found' hfound _ hfound' => ?_
    rw [hfound']
    refine .bind (h.fieldsOf found) fun group group' hgroup _ hgroup' => ?_
    rw [hgroup']
    have hmembers : ∀ c ∈ group, c ∈ b.interface := fun c hc =>
      h.left.mem_interface_of_found hborder ((h.left.mem_fieldsOf_reachable hborder hfound hgroup).1 hc)
    exact .bind (h.merge hmembers) fun merged merged' _ _ hmerged => .pure hmerged.1
  · rw [if_neg hover, if_neg (show ¬ (f.map ρ).oversized from hover)]
    refine .bind (R := fun (out out' : Bounding × IdSet .candidate) => Alike ρ out.1 out'.1 ∧ out'.2 = out.2.map ρ ∧
      out.1.graph.roots = b.graph.roots) (.foldlM ?_ ⟨h, rfl, rfl⟩) fun out out' _ _ hout => .pure hout.1
    rintro ⟨b₁, taken⟩ ⟨d₁, taken'⟩ c hc ⟨h₁, rfl, hroots⟩
    have hroot : c ∉ b₁.graph.roots := by
      rw [hroots]
      exact h.left.not_mem_roots_of_interface (hborder c hc)
    intro out out' hout hout'
    obtain ⟨hnext, htaken, hsame⟩ := h₁.absorbBelow hroot out out' hout hout'
    exact ⟨hnext, htaken, hsame.trans hroots⟩

end Bounding

/-! ### All passes -/

namespace Pass

open Bounding (Alike)

variable {ρ : Candidate → Candidate} {o : Options} {immutables : IdSet .type} {pass : Pass} {passes : List Pass}
  {b d : Bounding}

theorem exceeded_of_alike (h : Alike ρ b d) : exceeded? o d = exceeded? o b := by
  rw [exceeded?, exceeded?, h.size]

theorem result_of_alike (h : Alike ρ b d) :
    Option.Rel (Agree (Alike ρ)) (pass.result? o immutables b) (pass.result? o immutables d) := by
  cases pass with
  | cutUnreachable =>
    simp only [result?]
    split
    · exact .some h.cutUnreachable
    · exact .none
  | mergeExceptions =>
    simp only [result?]
    split
    · exact .some (h.mergeOnlyFrom _)
    · exact .none
  | cutImmutables =>
    simp only [result?]
    split
    · exact .some (h.cutImmutables immutables _)
    · exact .none
  | mergeSharedFields =>
    simp only [result?]
    split
    · exact .some h.mergeSharedFields
    · exact .none
  | mergeStatics =>
    simp only [result?, exceeded_of_alike h]
    cases exceeded? o b with
    | none => exact .none
    | some max => exact .some (h.mergeOnlyFrom _)
  | mergeBelowDepth =>
    simp only [result?, exceeded_of_alike h]
    cases exceeded? o b with
    | none => exact .none
    | some max => exact .some (h.mergeBelowDepth max _)

theorem runAll_of_alike (h : Alike ρ b d) (o : Options) (immutables : IdSet .type) (passes : List Pass) :
    Agree (fun out out' => Alike ρ out.1 out'.1 ∧ out'.2 = out.2) (runAll o immutables passes b)
      (runAll o immutables passes d) := by
  induction passes generalizing b d with
  | nil => exact .pure ⟨h, rfl⟩
  | cons pass passes ih =>
    have hresult : Option.Rel (Agree (Alike ρ)) (pass.result? o immutables b) (pass.result? o immutables d) :=
      result_of_alike h
    unfold runAll
    generalize pass.result? o immutables b = r at hresult
    generalize pass.result? o immutables d = r' at hresult
    cases hresult with
    | none => exact ih h
    | some hagree =>
      refine .bind hagree fun next next' _ _ halike => ?_
      refine .bind (ih halike) fun out out' _ _ hout => .pure ⟨hout.1, ?_⟩
      rw [hout.2, h.size, halike.size]

end Pass

end HeapSummary
