import HeapSummary.CandidateGraph.Search
import HeapSummary.Proofs.Outcome

/-!
# What a search finds

A search that ends has found exactly what edges lead to from its start, not going on from definitely primitive
candidates unless it starts from them. It ends whenever all ends of edges are candidates.
-/

namespace HeapSummary.CandidateGraph

variable {g : CandidateGraph} {s : Store} {start queue : List Candidate} {found last : IdSet .candidate}
  {c d : Candidate}

/-- A search goes on from `c`. -/
def Expands (s : Store) (start : List Candidate) (c : Candidate) : Prop := c ∈ start ∨ s.isPrimitive c = false

/-- What a search from the start is to find. -/
inductive Found (g : CandidateGraph) (s : Store) (start : List Candidate) : Candidate → Prop
  | start {c : Candidate} (h : c ∈ start) : Found g s start c
  | step {c d : Candidate} (h : Found g s start c) (hc : Expands s start c) (hd : d ∈ g.succsOf c) : Found g s start d

theorem Found.exists_start (h : g.Found s start c) : ∃ a ∈ start, g.Found s [a] c := by
  induction h with
  | @start c hc => exact ⟨c, hc, .start List.mem_cons_self⟩
  | @step c d _ hexp hd ih =>
    rcases hexp with hc | hprim
    · have hself : g.Found s [c] c := .start List.mem_cons_self
      exact ⟨c, hc, hself.step (.inl List.mem_cons_self) hd⟩
    · obtain ⟨a, ha, hfound⟩ := ih
      exact ⟨a, ha, hfound.step (.inr hprim) hd⟩

theorem Found.mono {start' : List Candidate} (hsub : ∀ a ∈ start, a ∈ start') (h : g.Found s start c) :
    g.Found s start' c := by
  induction h with
  | start hc => exact .start (hsub _ hc)
  | step _ hexp hd ih => exact .step ih (hexp.imp_left (hsub _)) hd

/-- A search under way: what is found is to be found, and only candidates in the queue have edges that lead further. -/
structure Searching (g : CandidateGraph) (s : Store) (start : List Candidate) (found : IdSet .candidate)
    (queue : List Candidate) : Prop where
  started : ∀ c ∈ start, c ∈ found
  sound : ∀ c ∈ found, g.Found s start c
  queued : ∀ c ∈ queue, c ∈ found ∧ Expands s start c
  closed : ∀ c ∈ found, Expands s start c → c ∈ queue ∨ ∀ d ∈ g.succsOf c, d ∈ found

theorem Searching.step (h : Searching g s start found (c :: queue)) :
    Searching g s start (found ∪ g.freshFrom found c)
      (queue ++ (g.freshFrom found c).toList.filter fun d => !s.isPrimitive d) := by
  obtain ⟨hc, hexp⟩ := h.queued c List.mem_cons_self
  have hfresh : ∀ d, d ∈ g.freshFrom found c ↔ d ∈ g.succsOf c ∧ d ∉ found := fun d => IdSet.mem_diff
  refine ⟨fun d hd => IdSet.mem_union.2 (.inl (h.started d hd)), fun d hd => ?_, fun d hd => ?_, fun d hd hexp' => ?_⟩
  · rcases IdSet.mem_union.1 hd with hd | hd
    · exact h.sound d hd
    · exact .step (h.sound c hc) hexp ((hfresh d).1 hd).1
  · rcases List.mem_append.1 hd with hd | hd
    · obtain ⟨hd, hexp'⟩ := h.queued d (List.mem_cons_of_mem c hd)
      exact ⟨IdSet.mem_union.2 (.inl hd), hexp'⟩
    · rw [List.mem_filter, IdSet.mem_toList] at hd
      exact ⟨IdSet.mem_union.2 (.inr hd.1), .inr (by simpa using hd.2)⟩
  · rcases IdSet.mem_union.1 hd with hold | hnew
    · rcases h.closed d hold hexp' with hqueue | hclosed
      · rcases List.mem_cons.1 hqueue with rfl | hqueue
        · refine .inr fun e he => IdSet.mem_union.2 ?_
          by_cases hfound : e ∈ found
          · exact .inl hfound
          · exact .inr ((hfresh e).2 ⟨he, hfound⟩)
        · exact .inl (List.mem_append.2 (.inl hqueue))
      · exact .inr fun e he => IdSet.mem_union.2 (.inl (hclosed e he))
    · -- a start candidate is found from the beginning, so a new one is expanded for not being primitive
      have hprim : s.isPrimitive d = false :=
        hexp'.resolve_left fun hstart => ((hfresh d).1 hnew).2 (h.started d hstart)
      refine .inl (List.mem_append.2 (.inr (List.mem_filter.2 ⟨IdSet.mem_toList.2 hnew, ?_⟩)))
      rw [hprim, Bool.not_false]

theorem Searching.run (h : Searching g s start found queue) (hrun : g.search s found queue = .ok last) :
    Searching g s start last [] := by
  fun_induction search g s found queue with
  | case1 found =>
    cases hrun
    exact h
  | case2 found c queue ih =>
    obtain ⟨_, _, hrun⟩ := Outcome.bind_eq_ok.1 hrun
    exact ih h.step hrun

theorem Searching.mem_iff (h : Searching g s start found []) : c ∈ found ↔ g.Found s start c := by
  refine ⟨h.sound c, fun hfound => ?_⟩
  induction hfound with
  | start hc => exact h.started _ hc
  | step _ hexp hd ih => exact ((h.closed _ ih hexp).resolve_left List.not_mem_nil) _ hd

theorem mem_reachable (h : g.reachable s start = .ok found) : c ∈ found ↔ g.Found s start c := by
  have hinit : Searching g s start (IdSet.ofList start) start :=
    ⟨fun c hc => IdSet.mem_ofList.2 hc, fun c hc => .start (IdSet.mem_ofList.1 hc),
      fun c hc => ⟨IdSet.mem_ofList.2 hc, .inl hc⟩, fun c hc _ => .inl (IdSet.mem_ofList.1 hc)⟩
  exact (hinit.run h).mem_iff

/-! ### Searches that end -/

theorem exists_search (hends : ∀ c d, d ∈ g.succsOf c → ∃ l, s.arena.get? d = some l) :
    ∃ last, g.search s found queue = .ok last := by
  fun_induction search g s found queue with
  | case1 found => exact ⟨found, rfl⟩
  | case2 found c queue ih =>
    obtain ⟨last, hlast⟩ := ih
    refine ⟨last, Outcome.bind_eq_ok.2 ⟨(), Outcome.forM_eq_ok fun d hd => ?_, hlast⟩⟩
    have hd : d ∈ g.freshFrom found c := IdSet.mem_toList.1 hd
    obtain ⟨l, hl⟩ := hends c d (IdSet.mem_diff.1 hd).1
    rw [Store.location, Arena.read_eq_ok_iff.2 hl]
    rfl

/-- A search fails only at the end of an edge that is no candidate. -/
theorem exists_reachable (hends : ∀ c d, d ∈ g.succsOf c → ∃ l, s.arena.get? d = some l) (start : List Candidate) :
    ∃ found, g.reachable s start = .ok found := exists_search hends

end HeapSummary.CandidateGraph
