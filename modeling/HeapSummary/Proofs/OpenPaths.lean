import HeapSummary.Proofs.PrimitiveStarts
import HeapSummary.Proofs.UnreachableCuts
import Mathlib.Data.List.Chain

/-!
# Searches along open paths

A path is open if no candidate on it other than its end is definitely primitive. A search that starts from no definitely
primitive candidate finds exactly the ends of open paths from there, however cyclic the graph is. The end of an open path
may be on it more than once, even if it is primitive. It is then found where the path first meets it, and the rest plays
no part.
-/

namespace HeapSummary

namespace CandidateGraph

variable {g : CandidateGraph} {s : Store} {start path : List Candidate} {a c d : Candidate}

/-- The path leads from `a` to `c`, each of its candidates having an edge to the next. -/
structure IsPath (g : CandidateGraph) (a c : Candidate) (path : List Candidate) : Prop where
  first : path.head? = some a
  last : path.getLast? = some c
  edges : path.IsChain fun x y => y ∈ g.succsOf x

/-- A path on which no candidate other than its end is definitely primitive. -/
structure IsOpenPath (g : CandidateGraph) (s : Store) (a c : Candidate) (path : List Candidate) : Prop extends
    IsPath g a c path where
  isOpen : ∀ d ∈ path, d ≠ c → s.isPrimitive d = false

theorem IsPath.concat (h : g.IsPath a d path) (hc : c ∈ g.succsOf d) : g.IsPath a c (path ++ [c]) where
  first := by rw [List.head?_append, h.first, Option.some_or]
  last := List.getLast?_concat
  edges := by
    refine h.edges.append (.singleton c) fun x hx y hy => ?_
    obtain rfl : d = x := Option.some.inj (h.last.symm.trans hx)
    obtain rfl : c = y := Option.some.inj hy
    exact hc

theorem IsOpenPath.unblocked (h : g.IsOpenPath s a c path) : g.Unblocked s a c := by
  induction path generalizing a with
  | nil => cases h.first
  | cons b rest ih =>
    obtain rfl : b = a := Option.some.inj h.first
    -- at the first occurrence of the end, whatever follows is dropped
    by_cases hbc : b = c
    · exact hbc ▸ .refl
    cases rest with
    | nil => exact absurd (Option.some.inj h.last) hbc
    | cons d rest =>
      obtain ⟨hedge, hedges⟩ := List.isChain_cons_cons.1 h.edges
      have hlast : (d :: rest).getLast? = some c := by rw [← h.last, List.getLast?_cons_cons]
      have hrest : g.IsOpenPath s d c (d :: rest) :=
        ⟨⟨rfl, hlast, hedges⟩, fun e he => h.isOpen e (List.mem_cons_of_mem b he)⟩
      exact .head ⟨h.isOpen b List.mem_cons_self hbc, hedge⟩ (ih hrest)

theorem Unblocked.exists_path (h : g.Unblocked s a c) : ∃ path, g.IsOpenPath s a c path := by
  induction h with
  | refl => exact ⟨[a], ⟨rfl, rfl, .singleton a⟩, fun d hd hne => absurd (List.mem_singleton.1 hd) hne⟩
  | @tail d c _ hedge ih =>
    obtain ⟨path, hpath⟩ := ih
    refine ⟨path ++ [c], hpath.concat hedge.2, fun e he hec => ?_⟩
    rcases List.mem_append.1 he with he | he
    · by_cases hed : e = d
      · exact hed ▸ hedge.1
      · exact hpath.isOpen e he hed
    · exact absurd (List.mem_singleton.1 he) hec

/-- A start that is not primitive is expanded like any other candidate, so the paths may begin there. -/
theorem found_iff_unblocked (hstart : ∀ a ∈ start, s.isPrimitive a = false) :
    g.Found s start c ↔ ∃ a ∈ start, g.Unblocked s a c := by
  rw [found_iff]
  constructor
  · rintro (hc | ⟨a, ha, d, hd, hpath⟩)
    · exact ⟨c, hc, .refl⟩
    · exact ⟨a, ha, .head ⟨hstart a ha, hd⟩ hpath⟩
  · rintro ⟨a, ha, hpath⟩
    rcases hpath.cases_head with rfl | ⟨d, hedge, hpath⟩
    · exact .inl ha
    · exact .inr ⟨a, ha, d, hedge.2, hpath⟩

end CandidateGraph

namespace Bounding

variable {b : Bounding} {s : Store} {q : Procedure}

/-- Whatever was done to an interface: a search in its graph that starts from no definitely primitive candidate ends, and
it finds the candidates that it starts from and those that an open path leads to from one of them. -/
theorem found_along_open_paths (hb : Reached s q b) (start : List Candidate)
    (hstart : ∀ a ∈ start, b.store.isPrimitive a = false) :
    ∃ found, b.reachable start = .ok found ∧
      ∀ c, c ∈ found ↔ c ∈ start ∨ ∃ a ∈ start, ∃ path, b.graph.IsOpenPath b.store a c path := by
  obtain ⟨found, hfound⟩ := hb.exact.1.exists_reachable start
  refine ⟨found, hfound, fun c => ?_⟩
  rw [CandidateGraph.mem_reachable hfound]
  constructor
  · intro hc
    obtain ⟨a, ha, hpath⟩ := (CandidateGraph.found_iff_unblocked hstart).1 hc
    exact .inr ⟨a, ha, hpath.exists_path⟩
  · rintro (hc | ⟨a, ha, path, hpath⟩)
    · exact .start hc
    · exact (CandidateGraph.found_iff_unblocked hstart).2 ⟨a, ha, hpath.unblocked⟩

/-- The two cells are merged into one that holds itself. From the parameter, named twice, open paths lead to it and to the
primitive value. A path leads to the field behind the value as well, but no open one. -/
theorem found_along_open_paths_loneObject : ∃ b found, Reached loneObject visitCells b ∧
    ⟨6⟩ ∈ b.graph.succsOf ⟨6⟩ ∧ b.reachable [⟨5⟩, ⟨5⟩] = .ok found ∧ ⟨2⟩ ∈ found ∧
    b.graph.IsPath ⟨5⟩ ⟨3⟩ [⟨5⟩, ⟨6⟩, ⟨2⟩, ⟨3⟩] ∧ ∀ path, ¬ b.graph.IsOpenPath b.store ⟨5⟩ ⟨3⟩ path := by
  obtain ⟨first, hfirst, hgroup, b, hmerge, hroot, hcell, hloop, hpath, hvalue, found, hrun, hlist⟩ : ∃ first,
      Bounding.start loneObject visitCells = .ok first ∧ (∀ c ∈ [⟨0⟩, ⟨1⟩], c ∈ first.interface) ∧
      ∃ b, first.merge [⟨0⟩, ⟨1⟩] = .ok (b, some ⟨6⟩) ∧ b.store.isPrimitive ⟨5⟩ = false ∧
      b.store.isPrimitive ⟨6⟩ = false ∧ ⟨6⟩ ∈ b.graph.succsOf ⟨6⟩ ∧
      [⟨5⟩, ⟨6⟩, ⟨2⟩, ⟨3⟩].IsChain (fun c d => d ∈ b.graph.succsOf c) ∧
      [⟨5⟩, ⟨6⟩, ⟨2⟩].IsChain (fun c d => d ∈ b.graph.succsOf c) ∧
      ∃ found, b.reachable [⟨5⟩, ⟨5⟩] = .ok found ∧ found.toList = [⟨2⟩, ⟨5⟩, ⟨6⟩] :=
    ⟨_, rfl, by decide, _, rfl, rfl, rfl, by decide, by decide, by decide, by decide +kernel⟩
  have hstart : ∀ a ∈ [⟨5⟩, ⟨5⟩], b.store.isPrimitive a = false := by simpa using hroot
  have hreached : Reached loneObject visitCells b := (Reached.start hfirst).step (.merge hgroup hmerge)
  obtain ⟨found', hrun', hmem⟩ := found_along_open_paths hreached [⟨5⟩, ⟨5⟩] hstart
  obtain rfl : found = found' := Except.ok.inj (hrun.symm.trans hrun')
  have hopen : b.graph.IsOpenPath b.store ⟨5⟩ ⟨2⟩ [⟨5⟩, ⟨6⟩, ⟨2⟩] :=
    ⟨⟨rfl, rfl, hvalue⟩, by simp [hroot, hcell]⟩
  refine ⟨b, found, hreached, hloop, hrun, ?_, ⟨rfl, rfl, hpath⟩, ?_⟩
  · exact (hmem ⟨2⟩).2 (.inr ⟨⟨5⟩, List.mem_cons_self, _, hopen⟩)
  · intro path hpath
    have hfound : ⟨3⟩ ∈ found := (hmem ⟨3⟩).2 (.inr ⟨⟨5⟩, List.mem_cons_self, path, hpath⟩)
    rw [← IdSet.mem_toList, hlist] at hfound
    exact absurd hfound (by decide)

end Bounding

end HeapSummary
