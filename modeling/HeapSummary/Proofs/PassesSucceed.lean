import HeapSummary.Proofs.Origins
import HeapSummary.Proofs.Passes

/-!
# Passes meet no fault

Every operation on an interface checks what it uses: indices lie in the store, roots are roots and stay in the graph,
merged candidates are fields and have some. On an exact graph all of these checks pass but the last: edges lead into the
interface, so what a search finds is in the store, and what is merged is no root. A pass therefore succeeds under any
invariant that makes single removals and merges succeed (`Guards`), and it keeps the invariant. The search for shared
fields never meets the bound on its steps: a step leaves less waiting, or fewer candidates.

There are two such invariants. Over a store that traces back to a program's own candidates (`Sound`) a field candidate
stands for some unmerged one, whose field it has. And it is enough to know of the interface itself that its candidates
have fields (`Fielded`).
-/

namespace HeapSummary

open Outcome (Yields)

namespace CandidateGraph

theorem traces_addRoots {own : Store} (rs : List Root) {s : Store} (h : own.Traces s) :
    own.Traces (addRoots s rs).1 := by
  induction rs generalizing s with
  | nil => exact h
  | cons r rs ih =>
    apply ih
    exact h.of_push rfl fun l hl => by cases hl

theorem exists_build {s : Store} {p : Procedure} (hfields : ∀ c ∈ s.interface p.node, ∃ f, s.field? c = some f) :
    ∃ built, build s p = .ok built := by
  have hkeeps := keeps_addRoots s p.roots
  have hget := map_get_addRoots s p.roots
  have hinterface := interface_addRoots s p.roots p.node
  unfold build
  generalize addRoots s p.roots = added at hkeeps hget hinterface ⊢
  obtain ⟨t, roots⟩ := added
  have hread : ∀ c ∈ t.interface p.node, ∃ f, t.field? c = some f := by
    intro c hc
    obtain ⟨f, hf⟩ := hfields c (hinterface ▸ hc)
    exact ⟨f, hkeeps.field? hf⟩
  have hnodes : ∀ c ∈ (IdSet.ofList roots ∪ t.interface p.node).toList, ∃ l, t.location c = .ok l := by
    intro c hc
    rcases IdSet.mem_union.1 (IdSet.mem_toList.1 hc) with hc | hc
    · obtain ⟨r, hr⟩ := Bounding.exists_root hget (IdSet.mem_ofList.1 hc)
      exact ⟨_, Store.location_eq_ok.2 hr⟩
    · obtain ⟨f, hf⟩ := hread c hc
      exact ⟨_, Store.location_eq_ok.2 (Store.field?_eq_some.1 hf)⟩
  have hmembers : ∀ c ∈ (t.interface p.node).toList, ∃ f, t.field c = .ok f := by
    intro c hc
    obtain ⟨f, hf⟩ := hread c (IdSet.mem_toList.1 hc)
    exact ⟨f, Store.field_eq_ok.2 hf⟩
  obtain ⟨nodes, hnodes⟩ := Outcome.exists_mapM_pair_eq_ok hnodes
  obtain ⟨fields, hfields⟩ := Outcome.exists_mapM_pair_eq_ok hmembers
  exact ⟨_, Outcome.bind_eq_ok.2 ⟨nodes, hnodes, Outcome.bind_eq_ok.2 ⟨fields, hfields, rfl⟩⟩⟩

end CandidateGraph

namespace Bounding

variable {own : Store} {b b' : Bounding} {c d m : Candidate} {group queue : List Candidate}
  {found visited : IdSet .candidate}

/-- The graph is exact, and the store traces back to the candidates that were there at first. -/
structure Sound (own : Store) (b : Bounding) : Prop where
  exact : b.Exact
  traces : own.Traces b.store

/-! ### Reading -/

theorem Exact.exists_locations (hb : b.Exact) (c : Candidate) :
    ∃ locations, ((b.graph.succsOf c).toList.mapM fun d => return (d, ← b.store.field d)) = .ok locations := by
  apply Outcome.exists_mapM_pair_eq_ok
  intro d hd
  obtain ⟨f, hf⟩ := hb.fields d (hb.target_mem_interface (IdSet.mem_toList.1 hd))
  exact ⟨f, Store.field_eq_ok.2 hf⟩

/-! ### The start -/

theorem Sound.of_start {s : Store} {p : Procedure} (hs : own.Traces s) (h : Bounding.start s p = .ok b) :
    b.Sound own where
  exact := exact_start h
  traces := by
    have htraces := CandidateGraph.traces_addRoots p.roots hs
    rwa [addRoots_of_start h] at htraces

theorem sound_start {s : Store} (hs : own.Traces s) (p : Procedure)
    (hfields : ∀ c ∈ s.interface p.node, ∃ f, s.field? c = some f) : Yields (Bounding.start s p) (Sound own) := by
  obtain ⟨built, hbuilt⟩ := CandidateGraph.exists_build hfields
  have hstart : Bounding.start s p = .ok ⟨built.1, p, built.2⟩ := Outcome.bind_eq_ok.2 ⟨built, hbuilt, rfl⟩
  exact ⟨_, hstart, .of_start hs hstart⟩

/-! ### Removing and merging -/

/-- Under the invariant the graph is exact, and removing a candidate and merging a group of the interface succeed and
keep the invariant. -/
structure Guards (Inv : Bounding → Prop) : Prop where
  exact : ∀ {b}, Inv b → b.Exact
  remove : ∀ {b}, Inv b → ∀ c, Yields (b.remove c) Inv
  mergeGroup : ∀ {b group}, Inv b → 2 ≤ group.length → (∀ c ∈ group, c ∈ b.interface) →
    Yields (b.mergeGroup group) fun out => Inv out.1

theorem Exact.exists_mergeGroup {s : Store} {m : Candidate} (hb : b.Exact) (hgroup : ∀ c ∈ group, c ∈ b.interface)
    (hs : b.store.merge b.node group = .ok (s, m)) : ∃ b', b.mergeGroup group = .ok (b', m) ∧ b'.store = s := by
  have hroots : ∀ c ∈ group, c ∉ b.graph.roots := fun c hc => hb.not_mem_roots_of_interface (hgroup c hc)
  have hrest := CandidateGraph.foldlM_removeNode_eq_ok.2 ⟨hroots, rfl⟩
  obtain ⟨g, hg⟩ : ∃ g, b.graph.mergeNodes group m = .ok g := ⟨_, Outcome.bind_eq_ok.2 ⟨_, hrest, rfl⟩⟩
  exact ⟨{ b with store := s, graph := g }, Outcome.bind_eq_ok.2 ⟨(s, m), hs, Outcome.bind_eq_ok.2 ⟨g, hg, rfl⟩⟩, rfl⟩

theorem guards_sound (hown : own.Unmerged) : Guards (Sound own) where
  exact hb := hb.exact
  remove {b} hb c := by
    obtain ⟨b', hb'⟩ := hb.exact.exists_remove c
    exact ⟨b', hb', hb.exact.remove hb', hb.traces.of_arena (removed_remove hb').arena⟩
  mergeGroup {b group} hb hlen hgroup := by
    have hne : group ≠ [] := List.ne_nil_of_length_pos (Nat.lt_of_lt_of_le Nat.zero_lt_two hlen)
    obtain ⟨s, m, hs⟩ := hb.traces.exists_merge hown b.node hne fun c hc => hb.exact.fields c (hgroup c hc)
    obtain ⟨b', hmerge, rfl⟩ := hb.exact.exists_mergeGroup hgroup hs
    exact ⟨_, hmerge, (merging_of_mergeGroup hlen hgroup hmerge).exact hb.exact, hb.traces.merge hs⟩

/-- The graph is exact, and the candidates of the interface have fields. -/
structure Fielded (b : Bounding) : Prop where
  exact : b.Exact
  fields : ∀ c ∈ b.interface, ∃ f, f ∈ b.store.fieldsOf c

theorem guards_fielded : Guards Fielded where
  exact hb := hb.exact
  remove {b} hb c := by
    obtain ⟨b', hb'⟩ := hb.exact.exists_remove c
    have hremoved := removed_remove hb'
    refine ⟨b', hb', hb.exact.remove hb', fun d hd => ?_⟩
    obtain ⟨f, hf⟩ := hb.fields d ((hremoved.interface d).1 hd).1
    refine ⟨f, ?_⟩
    rwa [Store.fieldsOf, Store.field?, hremoved.arena]
  mergeGroup {b group} hb hlen hgroup := by
    have hne : group ≠ [] := List.ne_nil_of_length_pos (Nat.lt_of_lt_of_le Nat.zero_lt_two hlen)
    have hread : ∀ c ∈ group, ∃ l, b.store.field? c = some l ∧ ∃ f, f ∈ l.fields := by
      intro c hc
      obtain ⟨l, hl⟩ := hb.exact.fields c (hgroup c hc)
      exact ⟨l, hl, Store.fieldsOf_of_field hl ▸ hb.fields c (hgroup c hc)⟩
    obtain ⟨s, m, hs⟩ := Store.exists_merge_of_fields b.node hne hread
    obtain ⟨b', hmerge, rfl⟩ := hb.exact.exists_mergeGroup hgroup hs
    have hmerging := merging_of_mergeGroup hlen hgroup hmerge
    refine ⟨_, hmerge, hmerging.exact hb.exact, fun d hd => ?_⟩
    rcases hmerging.mem_interface.1 hd with rfl | ⟨hd, _⟩
    · obtain ⟨c, hc⟩ := hmerging.nonempty
      obtain ⟨f, hf⟩ := hb.fields c (hgroup c hc)
      exact ⟨f, (Store.mem_fieldsOf_merge hlen hs).2 ⟨c, hc, hf⟩⟩
    · obtain ⟨f, hf⟩ := hb.fields d hd
      obtain ⟨l, hl⟩ := hb.exact.fields d hd
      refine ⟨f, ?_⟩
      rwa [Store.fieldsOf_of_field (hmerging.store.grows.field? hl), ← Store.fieldsOf_of_field hl]

/-- Over the store of a program, all candidates of an interface have fields, whatever was done to it. -/
theorem Sound.fielded (hown : own.Unmerged) (hb : b.Sound own) : b.Fielded where
  exact := hb.exact
  fields c hc := by
    obtain ⟨l, hl⟩ := hb.exact.fields c hc
    rw [Store.fieldsOf_of_field hl]
    exact hb.traces.exists_mem_fields hown hl

/-! ### The number of steps -/

/-- A bound on the steps to come: what waits is dropped once, what was not visited waits once, and of every merge, which
leaves a candidate fewer, comes one that was not visited. -/
def stepsLeft (b : Bounding) (visited : IdSet .candidate) (queue : List Candidate) : Nat :=
  queue.length + (b.interface \ visited).size + 2 * b.interface.size

theorem stepsLeft_leave (hb : b.Exact) : stepsLeft b (visited ∪ b.graph.succsOf c)
    (queue ++ (b.graph.succsOf c \ visited).toList) < stepsLeft b visited (c :: queue) := by
  have hunion : visited ∪ b.graph.succsOf c = visited ∪ (b.graph.succsOf c \ visited) := by
    apply IdSet.ext
    intro d
    simp only [IdSet.mem_union, IdSet.mem_diff]
    tauto
  have hsize : (b.interface \ visited).size =
      (b.graph.succsOf c \ visited).size + (b.interface \ (visited ∪ b.graph.succsOf c)).size := by
    rw [hunion]
    apply IdSet.size_diff_union
    · exact fun d hd => hb.target_mem_interface (IdSet.mem_diff.1 hd).1
    · exact fun d hd => (IdSet.mem_diff.1 hd).2
  have hlength := IdSet.length_toList (b.graph.succsOf c \ visited)
  simp only [stepsLeft, List.length_append, List.length_cons]
  omega

theorem Merging.size_lt (h : Merging b group b' m) (hlen : 2 ≤ group.length) (hgroup : group.Nodup) :
    b'.interface.size < b.interface.size := by
  obtain ⟨c, d, rest, rfl⟩ : ∃ c d rest, group = c :: d :: rest := by
    match group, hlen with
    | c :: d :: rest, _ => exact ⟨c, d, rest, rfl⟩
  have hne : d ≠ c := by
    rintro rfl
    exact (List.nodup_cons.1 hgroup).1 List.mem_cons_self
  have hc : c ∈ b.interface := h.members c List.mem_cons_self
  have hd : d ∈ b.interface.erase c := IdSet.mem_erase.2 ⟨hne, h.members d (List.mem_cons_of_mem c List.mem_cons_self)⟩
  have hsub : b'.interface.size ≤ (((b.interface.erase c).erase d).insert m).size := by
    apply IdSet.size_le_of_subset
    intro e he
    rcases h.mem_interface.1 he with rfl | ⟨hin, hout⟩
    · exact IdSet.mem_insert.2 (.inl rfl)
    · simp only [List.mem_cons, not_or] at hout
      exact IdSet.mem_insert.2 (.inr (IdSet.mem_erase.2 ⟨hout.2.1, IdSet.mem_erase.2 ⟨hout.1, hin⟩⟩))
  have hinsert := IdSet.size_insert_le ((b.interface.erase c).erase d) m
  have herase := IdSet.size_erase_add_one hc
  have herase' := IdSet.size_erase_add_one hd
  omega

theorem Merging.stepsLeft_lt (h : Merging b group b' m) (hlen : 2 ≤ group.length) (hgroup : group.Nodup) :
    stepsLeft b' visited (d :: queue) < stepsLeft b visited (c :: queue) := by
  have hsize := h.size_lt hlen hgroup
  have hnew : (b'.interface \ visited).size ≤ (b.interface \ visited).size + 1 := by
    refine Nat.le_trans (IdSet.size_le_of_subset fun e he => ?_) (IdSet.size_insert_le (b.interface \ visited) m)
    obtain ⟨he, hout⟩ := IdSet.mem_diff.1 he
    rcases h.mem_interface.1 he with rfl | ⟨hin, _⟩
    · exact IdSet.mem_insert.2 (.inl rfl)
    · exact IdSet.mem_insert.2 (.inr (IdSet.mem_diff.2 ⟨hin, hout⟩))
  simp only [stepsLeft, List.length_cons]
  omega

theorem stepsLeft_start (b : Bounding) : stepsLeft b (IdSet.ofList b.graph.roots) b.graph.roots ≤ b.stepBound := by
  have hunseen : (b.interface \ IdSet.ofList b.graph.roots).size ≤ b.interface.size :=
    IdSet.size_le_of_subset fun c hc => (IdSet.mem_diff.1 hc).1
  unfold stepsLeft stepBound
  omega

section guards

variable {Inv : Bounding → Prop} (hinv : Guards Inv)

include hinv

theorem Guards.removeAll (hb : Inv b) (cs : List Candidate) : Yields (b.removeAll cs) Inv :=
  .foldlM (fun _ c _ h => hinv.remove h c) hb

theorem Guards.merge (hb : Inv b) (hgroup : ∀ c ∈ group, c ∈ b.interface) :
    Yields (b.merge group) fun out => Inv out.1 := by
  unfold Bounding.merge
  split
  · exact .pure hb
  · rename_i hlen
    refine .bind (hinv.mergeGroup hb (Nat.not_lt.1 hlen) hgroup) fun out _ hout => ?_
    exact .pure hout

/-! ### Cutting -/

theorem Guards.cutUnreachable (hb : Inv b) : Yields b.cutUnreachable Inv := by
  obtain ⟨reached, hreached⟩ := (hinv.exact hb).exists_reachable b.graph.roots
  exact .bind_ok hreached (hinv.removeAll hb _)

theorem Guards.cutImmutables (hb : Inv b) (immutables : IdSet .type) (cutAfter : Bool) :
    Yields (b.cutImmutables immutables cutAfter) Inv := by
  obtain ⟨cut, own, removed, trimmed, group, h⟩ := (hinv.exact hb).exists_trimming immutables
  have hkeeps : Inv trimmed := (hinv.removeAll hb removed).of_ok h.removes
  rw [h.eq]
  refine .bind (hinv.merge hkeeps h.members) fun out _ hout => ?_
  split
  · exact hinv.cutUnreachable hout
  · exact .pure hout

/-! ### Groups of roots -/

theorem Guards.mergeOnlyFrom (hb : Inv b) (select : Root → Bool) : Yields (b.mergeOnlyFrom select) Inv := by
  have hexact := hinv.exact hb
  obtain ⟨_, _, group, hregion⟩ := hexact.exists_region select
  rw [hregion.mergeOnlyFrom_eq hexact]
  exact .bind (hinv.merge hb (hregion.members hexact)) fun out _ hout => .pure hout

/-! ### Shared fields -/

theorem Guards.mergeUnder {steps : Nat} (hb : Inv b) (hsteps : stepsLeft b visited queue ≤ steps) :
    Yields (Bounding.mergeUnder steps b visited queue) Inv := by
  induction steps generalizing b visited queue with
  | zero =>
    have hnil : queue = [] := by
      apply List.eq_nil_of_length_eq_zero
      simp only [stepsLeft] at hsteps
      omega
    subst hnil
    exact .pure hb
  | succ steps ih =>
    cases queue with
    | nil => exact .pure hb
    | cons c queue =>
      simp only [Bounding.mergeUnder]
      split
      · obtain ⟨locations, hlocations⟩ := (hinv.exact hb).exists_locations c
        refine .bind_ok hlocations ?_
        split
        · exact ih hb (Nat.le_of_lt_succ (Nat.lt_of_lt_of_le (stepsLeft_leave (hinv.exact hb)) hsteps))
        · rename_i group hshared
          obtain ⟨hlen, hgroup⟩ := group_of_sharedField hlocations hshared
          have hmembers : ∀ d ∈ group, d ∈ b.interface := fun d hd =>
            (hinv.exact hb).target_mem_interface (hgroup d hd)
          refine .bind (hinv.mergeGroup hb hlen hmembers) fun out hmerge hout => ih hout ?_
          have hmerging := merging_of_mergeGroup hlen hmembers hmerge
          have hnodup := nodup_of_sharedField hlocations hshared
          exact Nat.le_of_lt_succ (Nat.lt_of_lt_of_le (hmerging.stepsLeft_lt hlen hnodup) hsteps)
      · refine ih hb ?_
        simp only [stepsLeft, List.length_cons] at hsteps ⊢
        omega

theorem Guards.mergeSharedFields (hb : Inv b) : Yields b.mergeSharedFields Inv :=
  hinv.mergeUnder hb (stepsLeft_start b)

/-! ### Depth -/

theorem Guards.absorbBelow (hb : Inv b) (taken : IdSet .candidate) (hroot : c ∉ b.graph.roots) :
    Yields (Bounding.absorbBelow (b, taken) c) fun out => Inv out.1 ∧ out.1.graph.roots = b.graph.roots := by
  have hexact := hinv.exact hb
  simp only [Bounding.absorbBelow]
  split
  · rename_i hc
    have hc : c ∈ b.interface := ((hexact.nodes c).1 hc).resolve_left hroot
    have hstart : ∀ a ∈ [c], a ∈ b.interface := fun a ha => List.mem_singleton.1 ha ▸ hc
    obtain ⟨found, hfound⟩ := hexact.exists_reachable [c]
    obtain ⟨below, hbelow⟩ :=
      hexact.exists_fieldsOf (fun a ha => (hexact.nodes a).2 (.inr (hstart a ha))) hfound fun _ h => h
    have hgroup : ∀ d ∈ c :: below.filter (fun d => d ≠ c ∧ d ∉ taken), d ∈ b.interface := by
      intro d hd
      rcases List.mem_cons.1 hd with rfl | hd
      · exact hc
      · have hd := (hexact.mem_fieldsOf_reachable hstart hfound hbelow).1 (List.mem_filter.1 hd).1
        exact hexact.mem_interface_of_found hstart hd
    refine .bind_ok hfound (.bind_ok hbelow (.bind (hinv.merge hb hgroup) fun out hmerge hout => ?_))
    have hroots : out.1.graph.roots = b.graph.roots :=
      (sameFrame_of_edits (edits_of_merges (merges_merge hgroup hmerge))).roots
    split
    · exact .pure ⟨hout, hroots⟩
    · exact .pure ⟨hout, hroots⟩
  · exact .pure ⟨hb, rfl⟩

theorem Guards.mergeBelowDepth (hb : Inv b) (max depth : Nat) : Yields (b.mergeBelowDepth max depth) Inv := by
  have hexact := hinv.exact hb
  have hread : ∀ c ∈ b.graph.roots, ∃ l, b.store.location c = .ok l := by
    intro c hc
    obtain ⟨r, hr⟩ := exists_root hexact.roots hc
    exact ⟨_, Store.location_eq_ok.2 hr⟩
  obtain ⟨locations, hlocations⟩ := Outcome.exists_mapM_eq_ok hread
  obtain ⟨R, hR⟩ : ∃ R, b.graph.rootsPts b.store = .ok R := ⟨_, Outcome.bind_eq_ok.2 ⟨locations, hlocations, rfl⟩⟩
  unfold Bounding.mergeBelowDepth
  refine .bind_ok (Store.requireFields_eq_ok hexact.fields) (.bind_ok hR ?_)
  have hborder : ∀ c ∈ (takeLayers b.store max depth (.initial R b.interface)).border, c ∈ b.interface := fun c =>
    mem_of_mem_border
  dsimp only
  split
  · obtain ⟨found, hfound⟩ := hexact.exists_reachable (takeLayers b.store max depth (.initial R b.interface)).border
    obtain ⟨group, hgroup⟩ :=
      hexact.exists_fieldsOf (fun c hc => (hexact.nodes c).2 (.inr (hborder c hc))) hfound fun _ h => h
    refine .bind_ok hfound (.bind_ok hgroup (.bind (hinv.merge hb fun c hc => ?_) fun out _ hout => .pure hout))
    exact hexact.mem_interface_of_found hborder ((hexact.mem_fieldsOf_reachable hborder hfound hgroup).1 hc)
  · refine .bind (P := fun out => Inv out.1 ∧ out.1.graph.roots = b.graph.roots) ?_ fun out _ hout =>
      .pure hout.1
    refine .foldlM (fun state c hc hstate => ?_) ⟨hb, rfl⟩
    have hroot : c ∉ state.1.graph.roots := by
      rw [hstate.2]
      exact hexact.not_mem_roots_of_interface (hborder c hc)
    obtain ⟨out, hout, hkeeps, hroots⟩ := hinv.absorbBelow hstate.1 state.2 hroot
    exact ⟨out, hout, hkeeps, hroots.trans hstate.2⟩

/-! ### All passes -/

theorem Guards.pass (hb : Inv b) {o : Options} {immutables : IdSet .type} {pass : Pass} {r : Except Fault Bounding}
    (h : pass.result? o immutables b = some r) : Yields r Inv := by
  cases pass <;> simp only [Pass.result?, Option.ite_none_right_eq_some, Option.map_eq_some_iff, Option.some.injEq] at h
  case cutUnreachable => exact h.2 ▸ hinv.cutUnreachable hb
  case mergeExceptions => exact h.2 ▸ hinv.mergeOnlyFrom hb _
  case cutImmutables => exact h.2 ▸ hinv.cutImmutables hb immutables _
  case mergeSharedFields => exact h.2 ▸ hinv.mergeSharedFields hb
  case mergeStatics =>
    obtain ⟨_, _, rfl⟩ := h
    exact hinv.mergeOnlyFrom hb _
  case mergeBelowDepth =>
    obtain ⟨_, _, rfl⟩ := h
    exact hinv.mergeBelowDepth hb _ _

theorem Guards.runAll (hb : Inv b) (o : Options) (immutables : IdSet .type) (passes : List Pass) :
    Yields (Pass.runAll o immutables passes b) fun out => Inv out.1 := by
  induction passes generalizing b with
  | nil => exact .pure hb
  | cons pass passes ih =>
    unfold Pass.runAll
    split
    · exact ih hb
    · rename_i r hr
      refine .bind (hinv.pass hb hr) fun next _ hnext => ?_
      exact .bind (ih hnext) fun out _ hout => .pure hout

/-! ### Any sequence of operations -/

theorem Guards.step (hb : Inv b) (h : Step b b') : Inv b' := by
  cases h with
  | cutUnreachable h => exact (hinv.cutUnreachable hb).of_ok h
  | mergeExceptions h => exact (hinv.mergeOnlyFrom hb _).of_ok h
  | cutImmutables immutables cutAfter h => exact (hinv.cutImmutables hb immutables cutAfter).of_ok h
  | mergeSharedFields h => exact (hinv.mergeSharedFields hb).of_ok h
  | mergeStatics h => exact (hinv.mergeOnlyFrom hb _).of_ok h
  | mergeBelowDepth max depth h => exact (hinv.mergeBelowDepth hb max depth).of_ok h
  | @remove c _ _ h => exact (hinv.remove hb c).of_ok h
  | merge hgroup h => exact (hinv.merge hb hgroup).of_ok h

end guards

/-! ### Stores that trace back -/

theorem Reached.sound {s : Store} {p : Procedure} (hown : own.Unmerged) (hs : own.Traces s) (h : Reached s p b) :
    b.Sound own := by
  induction h with
  | start h => exact .of_start hs h
  | step _ hstep ih => exact (guards_sound hown).step ih hstep

theorem Reached.fielded {s : Store} {p : Procedure} (h : Reached s p b)
    (hs : (∃ program, Store.Reached program s) ∨ ∀ c ∈ b.interface, ∃ f, f ∈ b.store.fieldsOf c) : b.Fielded := by
  rcases hs with ⟨program, hs⟩ | hfields
  · have hown := Store.unmerged_ofProgram program
    exact (h.sound hown hs.traces).fielded hown
  · exact ⟨h.exact.1, hfields⟩

end Bounding

end HeapSummary
