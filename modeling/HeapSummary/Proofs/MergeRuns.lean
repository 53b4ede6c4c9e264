import HeapSummary.Proofs.Passes

/-!
# Where merges send candidates

A merge sends every member of its group to the merged candidate and leaves all others where they are. A run of merges
composes these maps into one (`Sends`), and the map tells what became of everything: the interface, the nodes and the
edges afterwards are the images of those before, and the origin of a candidate is made of the origins of all that were
sent to it. Roots stay, and a candidate that does not stay is sent to a new one.
-/

namespace HeapSummary.Bounding

open CandidateGraph (image image_of_mem image_of_not_mem)

variable {b b' : Bounding} {φ : Candidate → Candidate} {c d e o : Candidate}

/-- Merges of groups of the interface turn `b` into `b'`, and together they send candidates where `φ` does. -/
inductive Sends (b : Bounding) : (Candidate → Candidate) → Bounding → Prop
  | nothing : Sends b id b
  | merge {φ : Candidate → Candidate} {b₁ b₂ : Bounding} {group : List Candidate} {m : Candidate} (h : Sends b φ b₁)
      (hlen : 2 ≤ group.length) (hgroup : ∀ c ∈ group, c ∈ b₁.interface) (hmerge : b₁.mergeGroup group = .ok (b₂, m)) :
      Sends b (image group m ∘ φ) b₂

/-- The interface still has `c`, and its location is what it was. -/
def Untouched (b b' : Bounding) (c : Candidate) : Prop :=
  c ∈ b'.interface ∧ b'.store.arena.get? c = b.store.arena.get? c

namespace Sends

theorem merges (h : Sends b φ b') : Relation.ReflTransGen Merges b b' := by
  induction h with
  | nothing => exact .refl
  | merge _ hlen hgroup hmerge ih => exact ih.tail ⟨_, _, merging_of_mergeGroup hlen hgroup hmerge⟩

theorem sameFrame (h : Sends b φ b') : SameFrame b b' := sameFrame_of_edits (edits_of_merges h.merges)

theorem mem_interface (h : Sends b φ b') : d ∈ b'.interface ↔ ∃ c ∈ b.interface, φ c = d := by
  induction h generalizing d with
  | nothing => simp
  | merge h hlen hgroup hmerge ih =>
    have hmerging := merging_of_mergeGroup hlen hgroup hmerge
    constructor
    · intro hd
      obtain ⟨a, ha, rfl⟩ := hmerging.exists_image hd
      obtain ⟨c, hc, rfl⟩ := ih.1 ha
      exact ⟨c, hc, rfl⟩
    · rintro ⟨c, hc, rfl⟩
      exact hmerging.image_mem_interface (ih.2 ⟨c, hc, rfl⟩)

theorem eq_or_fresh (h : Sends b φ b') : φ c = c ∨ b.store.arena.get? (φ c) = none := by
  induction h with
  | nothing => exact .inl rfl
  | @merge φ b₁ b₂ group m h hlen hgroup hmerge ih =>
    by_cases hin : φ c ∈ group
    · rw [Function.comp_apply, image_of_mem hin]
      refine .inr (Option.eq_none_iff_forall_not_mem.2 fun l hl => ?_)
      have hfresh := (merging_of_mergeGroup hlen hgroup hmerge).store.fresh
      rw [h.sameFrame.candidates m l hl] at hfresh
      cases hfresh
    · rw [Function.comp_apply, image_of_not_mem hin]
      exact ih

section exact

variable (hb : b.Exact) (h : Sends b φ b')

include hb h

theorem exact : b'.Exact := hb.edits (edits_of_merges h.merges)

theorem mem_nodes : d ∈ b'.graph.nodes ↔ ∃ c ∈ b.graph.nodes, φ c = d := by
  induction h generalizing d with
  | nothing => simp
  | merge h hlen hgroup hmerge ih =>
    rw [(merging_of_mergeGroup hlen hgroup hmerge).mem_nodes (h.exact hb)]
    simp only [ih, Function.comp_apply]
    constructor
    · rintro ⟨_, ⟨c, hc, rfl⟩, hd⟩
      exact ⟨c, hc, hd⟩
    · rintro ⟨c, hc, hd⟩
      exact ⟨_, ⟨c, hc, rfl⟩, hd⟩

theorem root (hc : c ∈ b.graph.roots) : φ c = c := by
  induction h with
  | nothing => rfl
  | merge h hlen hgroup hmerge ih =>
    have hroot : c ∈ _ := h.sameFrame.roots ▸ hc
    rw [Function.comp_apply, ih]
    exact image_of_not_mem fun hin => (h.exact hb).not_mem_roots_of_interface (hgroup c hin) hroot

theorem mem_succsOf : e ∈ b'.graph.succsOf d ↔ ∃ a, ∃ c ∈ b.graph.succsOf a, φ a = d ∧ φ c = e := by
  induction h generalizing d e with
  | nothing => simp
  | merge h hlen hgroup hmerge ih =>
    have hmerging := merging_of_mergeGroup hlen hgroup hmerge
    have hexact := h.exact hb
    rw [CandidateGraph.mem_succsOf_mergeNodes hexact.mirrored (hmerging.ne_of_edge hexact) hmerging.graph]
    constructor
    · rintro ⟨_, _, hedge, rfl, rfl⟩
      obtain ⟨a, c, hc, rfl, rfl⟩ := ih.1 hedge
      exact ⟨a, c, hc, rfl, rfl⟩
    · rintro ⟨a, c, hc, rfl, rfl⟩
      exact ⟨_, _, ih.2 ⟨a, c, hc, rfl, rfl⟩, rfl, rfl⟩

theorem edge (hd : d ∈ b.graph.succsOf c) : φ d ∈ b'.graph.succsOf (φ c) := (h.mem_succsOf hb).2 ⟨c, d, hd, rfl, rfl⟩

theorem mem_originOf (hd : d ∈ b'.interface) :
    o ∈ b'.store.originOf d ↔ ∃ c ∈ b.interface, φ c = d ∧ o ∈ b.store.originOf c := by
  have hnodes : ∀ d ∈ b'.graph.nodes,
      (o ∈ b'.store.originOf d ↔ ∃ c ∈ b.graph.nodes, φ c = d ∧ o ∈ b.store.originOf c) := by
    clear hd
    induction h with
    | nothing => simp +contextual
    | @merge φ b₁ b₂ group m h hlen hgroup hmerge ih =>
      have hmerging := merging_of_mergeGroup hlen hgroup hmerge
      have hkeep : ∀ c, c ≠ m → b₂.store.originOf c = b₁.store.originOf c := by
        intro c hc
        simp only [Store.originOf, Store.field?, hmerging.store.keeps c hc]
      intro d hd
      rw [hmerging.mem_view (h.exact hb) hmerging.store.origin hkeep hd]
      constructor
      · rintro ⟨a, ha, rfl, hoa⟩
        obtain ⟨c, hc, rfl, ho⟩ := (ih a ha).1 hoa
        exact ⟨c, hc, rfl, ho⟩
      · rintro ⟨c, hc, rfl, ho⟩
        have hnode := (h.mem_nodes hb).2 ⟨c, hc, rfl⟩
        exact ⟨_, hnode, rfl, (ih _ hnode).2 ⟨c, hc, rfl, ho⟩⟩
  rw [hnodes d (((h.exact hb).nodes d).2 (.inr hd))]
  constructor
  · rintro ⟨c, hc, hcd, ho⟩
    obtain ⟨f, hf⟩ := Store.exists_field_of_mem_originOf ho
    exact ⟨c, hb.mem_interface hc hf, hcd, ho⟩
  · rintro ⟨c, hc, hcd, ho⟩
    exact ⟨c, (hb.nodes c).2 (.inr hc), hcd, ho⟩

theorem eq_of_image (hd : d ∈ b.graph.nodes) (hcd : φ c = d) : c = d := by
  rcases h.eq_or_fresh (c := c) with hstays | hfresh
  · exact hstays.symm.trans hcd
  · obtain ⟨l, hl⟩ := hb.exists_get hd
    rw [hcd, hl] at hfresh
    cases hfresh

theorem untouched (hc : c ∈ b.interface) (hstays : φ c = c) : Untouched b b' c := by
  obtain ⟨l, hl⟩ := hb.exists_get ((hb.nodes c).2 (.inr hc))
  exact ⟨h.mem_interface.2 ⟨c, hc, hstays⟩, (h.sameFrame.candidates c l hl).trans hl.symm⟩

end exact

end Sends

end HeapSummary.Bounding
