import HeapSummary.Proofs.Passes

/-!
# Primitive candidates at the start of a search

A search finds a definitely primitive candidate and does not go on from it, unless it starts there: what it starts from
is expanded whatever it is. So the edges of a primitive candidate play no part in a search that only comes across it,
and one that starts from it too finds all that these edges lead to. Where they lead to nothing new, it makes no
difference.
-/

namespace HeapSummary

namespace CandidateGraph

open Relation (ReflTransGen)

variable {g : CandidateGraph} {s : Store} {start : List Candidate} {found : IdSet .candidate} {c d p : Candidate}

/-- Edges lead from one candidate to another, none of them from a definitely primitive one. -/
def Unblocked (g : CandidateGraph) (s : Store) : Candidate → Candidate → Prop :=
  ReflTransGen fun c d => s.isPrimitive c = false ∧ d ∈ g.succsOf c

/-- What a search finds beyond its start is unblocked from a successor of some start candidate. -/
theorem found_iff : g.Found s start c ↔ c ∈ start ∨ ∃ a ∈ start, ∃ d ∈ g.succsOf a, g.Unblocked s d c := by
  constructor
  · intro h
    induction h with
    | start hc => exact .inl hc
    | @step c d _ hexp hd ih =>
      rcases hexp with hc | hprim
      · exact .inr ⟨c, hc, d, hd, .refl⟩
      · rcases ih with hc | ⟨a, ha, e, he, hpath⟩
        · exact .inr ⟨c, hc, d, hd, .refl⟩
        · exact .inr ⟨a, ha, e, he, hpath.tail ⟨hprim, hd⟩⟩
  · rintro (hc | ⟨a, ha, d, hd, hpath⟩)
    · exact .start hc
    · induction hpath with
      | refl => exact .step (.start ha) (.inl ha) hd
      | tail _ hedge ih => exact .step ih (.inr hedge.1) hedge.2

theorem found_cons : g.Found s (p :: start) c ↔
    g.Found s start c ∨ c = p ∨ ∃ d ∈ g.succsOf p, g.Unblocked s d c := by
  rw [found_iff, found_iff]
  simp only [List.mem_cons, exists_eq_or_imp]
  rw [or_or_or_comm, or_comm]

theorem found_cons_of_closed (h : ∀ d ∈ g.succsOf p, g.Found s start d ∨ d = p) :
    g.Found s (p :: start) c ↔ g.Found s start c ∨ c = p := by
  constructor
  · intro hc
    induction hc with
    | start hc => exact (List.mem_cons.1 hc).symm.imp_left .start
    | @step c d _ hexp hd ih =>
      by_cases hcp : c = p
      · exact h d (hcp ▸ hd)
      · have hexp' : Expands s start c := hexp.imp_left fun hc => (List.mem_cons.1 hc).resolve_left hcp
        exact .inl (.step (ih.resolve_right hcp) hexp' hd)
  · exact fun hc => found_cons.2 (hc.imp_right .inl)

/-! ### Dropping edges -/

/-- The graph without the edges from `p`. -/
def withoutEdgesFrom (g : CandidateGraph) (p : Candidate) : CandidateGraph := { g with succs := g.succs.set p ∅ }

theorem mem_succsOf_withoutEdgesFrom : d ∈ (g.withoutEdgesFrom p).succsOf c ↔ c ≠ p ∧ d ∈ g.succsOf c := by
  rw [succsOf, withoutEdgesFrom, IdMap.get_set, ← succsOf]
  split <;> simp [*]

/-- A primitive candidate that a search does not start from may as well have no edges. -/
theorem found_withoutEdgesFrom (hp : s.isPrimitive p = true) (hstart : p ∉ start) :
    (g.withoutEdgesFrom p).Found s start c ↔ g.Found s start c := by
  constructor
  · intro hc
    induction hc with
    | start hc => exact .start hc
    | step _ hexp hd ih => exact .step ih hexp (mem_succsOf_withoutEdgesFrom.1 hd).2
  · intro hc
    induction hc with
    | start hc => exact .start hc
    | @step c d _ hexp hd ih =>
      have hne : c ≠ p := by
        rintro rfl
        have hprim := hexp.resolve_left hstart
        rw [hp] at hprim
        cases hprim
      exact .step ih hexp (mem_succsOf_withoutEdgesFrom.2 ⟨hne, hd⟩)

theorem reachable_withoutEdgesFrom (hp : s.isPrimitive p = true) (hstart : p ∉ start)
    (hends : ∀ c d, d ∈ g.succsOf c → ∃ l, s.arena.get? d = some l) (h : g.reachable s start = .ok found) :
    (g.withoutEdgesFrom p).reachable s start = .ok found := by
  obtain ⟨found', h'⟩ := exists_reachable (g := g.withoutEdgesFrom p) (s := s)
    (fun c d hd => hends c d (mem_succsOf_withoutEdgesFrom.1 hd).2) start
  have hsame : found' = found := IdSet.ext fun c => by
    rw [mem_reachable h', mem_reachable h, found_withoutEdgesFrom hp hstart]
  rw [h', hsame]

end CandidateGraph

namespace Bounding

open CandidateGraph (found_cons found_cons_of_closed mem_reachable)

variable {b : Bounding} {s : Store} {q : Procedure} {p : Candidate}

/-- Whatever was done to an interface, searches in its graph end. They do not go on from a definitely primitive candidate
unless they start from it: its edges may be dropped. At the start it adds itself and what is unblocked from its
successors, so it adds nothing but itself just if its edges lead to itself and to what was found without it. -/
theorem primitive_start_expanded (hb : Reached s q b) (start : List Candidate) (hp : b.store.isPrimitive p = true) :
    ∃ found both, b.reachable start = .ok found ∧ b.reachable (p :: start) = .ok both ∧
      (p ∉ start → (b.graph.withoutEdgesFrom p).reachable b.store start = .ok found) ∧
      (∀ c, c ∈ both ↔ c ∈ found ∨ c = p ∨ ∃ d ∈ b.graph.succsOf p, b.graph.Unblocked b.store d c) ∧
      (both = found.insert p ↔ ∀ d ∈ b.graph.succsOf p, d ∈ found ∨ d = p) := by
  have hexact := hb.exact.1
  obtain ⟨found, hfound⟩ := hexact.exists_reachable start
  obtain ⟨both, hboth⟩ := hexact.exists_reachable (p :: start)
  have hmem : ∀ c, c ∈ found ↔ b.graph.Found b.store start c := fun c => mem_reachable hfound
  refine ⟨found, both, hfound, hboth, fun hstart => ?_, fun c => ?_, ?_⟩
  · exact CandidateGraph.reachable_withoutEdgesFrom hp hstart
      (fun c d hd => hexact.exists_get ((hexact.edges c d).1 hd).2.1) hfound
  · rw [mem_reachable hboth, found_cons, hmem]
  · simp only [IdSet.ext_iff, IdSet.mem_insert, mem_reachable hboth, hmem]
    constructor
    · intro h d hd
      exact ((h d).1 (found_cons.2 (.inr (.inr ⟨d, hd, .refl⟩)))).symm
    · intro h c
      rw [found_cons_of_closed h, or_comm]

/-- A field of the parameter's object holds a value that is definitely primitive and yet seems to hold an object, on
which a third field is accessed. -/
def impreciseValue : Store :=
  List.foldl (Store.addLocal · ⟨0⟩) Store.empty
    [⟨⟨0⟩, .ofList [⟨1⟩], .ofList [⟨2⟩], none, .no⟩, ⟨⟨1⟩, .ofList [⟨2⟩], .ofList [⟨3⟩], none, .yes⟩,
      ⟨⟨2⟩, .ofList [⟨3⟩], .ofList [⟨4⟩], none, .no⟩]

def readValue : Procedure := ⟨⟨0⟩, "read", none, false, [.formal "p" none (IdSet.singleton ⟨1⟩)]⟩

theorem search_impreciseValue : ∃ first found both, Bounding.start impreciseValue readValue = .ok first ∧
    first.store.isPrimitive ⟨1⟩ = true ∧ (∀ c ∈ [⟨1⟩, ⟨3⟩], c ∈ first.graph.nodes) ∧ ⟨2⟩ ∈ first.graph.succsOf ⟨1⟩ ∧
    first.reachable [⟨3⟩] = .ok found ∧ found.toList = [⟨0⟩, ⟨1⟩, ⟨3⟩] ∧
    first.reachable [⟨1⟩, ⟨3⟩] = .ok both ∧ both.toList = [⟨0⟩, ⟨1⟩, ⟨2⟩, ⟨3⟩] := by
  obtain ⟨first, hstart, hprim, hnodes, hedge, found, hfound, hlist, both, hboth, hlist'⟩ : ∃ first,
      Bounding.start impreciseValue readValue = .ok first ∧ first.store.isPrimitive ⟨1⟩ = true ∧
      (∀ c ∈ [⟨1⟩, ⟨3⟩], c ∈ first.graph.nodes) ∧ ⟨2⟩ ∈ first.graph.succsOf ⟨1⟩ ∧
      ∃ found, first.reachable [⟨3⟩] = .ok found ∧ found.toList = [⟨0⟩, ⟨1⟩, ⟨3⟩] ∧
      ∃ both, first.reachable [⟨1⟩, ⟨3⟩] = .ok both ∧ both.toList = [⟨0⟩, ⟨1⟩, ⟨2⟩, ⟨3⟩] := by
    decide +kernel
  exact ⟨first, found, both, hstart, hprim, hnodes, hedge, hfound, hlist, hboth, hlist'⟩

/-- The search from the parameter finds the value without its edges as well, and the third field is one of them. -/
theorem primitive_start_impreciseValue : ∃ first found both, Bounding.start impreciseValue readValue = .ok first ∧
    first.store.isPrimitive ⟨1⟩ = true ∧ first.reachable [⟨3⟩] = .ok found ∧ ⟨1⟩ ∈ found ∧ ⟨2⟩ ∉ found ∧
    (first.graph.withoutEdgesFrom ⟨1⟩).reachable first.store [⟨3⟩] = .ok found ∧
    first.reachable [⟨1⟩, ⟨3⟩] = .ok both ∧ both ≠ found.insert ⟨1⟩ := by
  obtain ⟨first, found, _, hstart, hprim, _, hedge, hfound, hlist, _⟩ := search_impreciseValue
  obtain ⟨found', both, hfound', hboth, hdropped, _, hlaw⟩ :=
    primitive_start_expanded (Reached.start hstart) [⟨3⟩] hprim
  obtain rfl : found = found' := Except.ok.inj (hfound.symm.trans hfound')
  have hmem : ∀ c, c ∈ found ↔ c ∈ [⟨0⟩, ⟨1⟩, ⟨3⟩] := fun c => by rw [← IdSet.mem_toList, hlist]
  have hout : ⟨2⟩ ∉ found := mt (hmem ⟨2⟩).1 (by decide)
  refine ⟨first, found, both, hstart, hprim, hfound, (hmem ⟨1⟩).2 (by decide), hout, hdropped (by decide), hboth, ?_⟩
  exact fun h => absurd (hlaw.1 h ⟨2⟩ hedge) (not_or.2 ⟨hout, by decide⟩)

/-- Starting from the value too finds the third field, though the value was found before and is definitely primitive. -/
theorem primitive_start_adds_more : ∃ first found both, Bounding.start impreciseValue readValue = .ok first ∧
    first.store.isPrimitive ⟨1⟩ = true ∧ (∀ c ∈ [⟨1⟩, ⟨3⟩], c ∈ first.graph.nodes) ∧
    first.reachable [⟨3⟩] = .ok found ∧ first.reachable [⟨1⟩, ⟨3⟩] = .ok both ∧ both ≠ found.insert ⟨1⟩ := by
  obtain ⟨first, found, both, hstart, hprim, hnodes, _, hfound, hlist, hboth, hlist'⟩ := search_impreciseValue
  refine ⟨first, found, both, hstart, hprim, hnodes, hfound, hboth, fun heq => ?_⟩
  have hadded : (⟨2⟩ : Candidate) ∈ found.insert ⟨1⟩ := by
    rw [← heq, ← IdSet.mem_toList, hlist']
    decide
  rw [IdSet.mem_insert, ← IdSet.mem_toList, hlist] at hadded
  exact absurd hadded (by decide)

end Bounding

end HeapSummary
