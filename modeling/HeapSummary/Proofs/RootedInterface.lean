import HeapSummary.Proofs.InterfaceBound

/-!
# Bounding leaves no orphan

With unreachable candidates cut, a search from the roots finds every candidate of the interface, after every pass and so
in the end. Cutting makes it so, and a merge keeps it so. It sends paths to paths, and a merged candidate is primitive
only if the whole group was, so a path never ends early in it. Cutting below immutable types does leave orphans, and
cuts them in its turn.
-/

namespace HeapSummary

open CandidateGraph (image image_of_mem image_of_not_mem)

namespace Bounding

variable {b b' : Bounding} {s : Store} {p : Procedure} {c m : Candidate} {group : List Candidate}

/-- A search from the roots ends, and it finds the candidate. -/
def Rooted (b : Bounding) (c : Candidate) : Prop :=
  ∃ reached, b.reachable b.graph.roots = .ok reached ∧ c ∈ reached

theorem Exact.rooted_iff (hb : b.Exact) : b.Rooted c ↔ b.graph.Found b.store b.graph.roots c := by
  constructor
  · rintro ⟨reached, hreached, hc⟩
    exact (CandidateGraph.mem_reachable hreached).1 hc
  · intro hc
    obtain ⟨reached, hreached⟩ := hb.exists_reachable b.graph.roots
    exact ⟨reached, hreached, (CandidateGraph.mem_reachable hreached).2 hc⟩

theorem Merging.rooted_image (h : Merging b group b' m) (hb : b.Exact) (hc : b.Rooted c) :
    b'.Rooted (image group m c) := by
  rw [(h.exact hb).rooted_iff, h.roots]
  refine h.found_image hb (fun r hr hgroup => ?_) (hb.rooted_iff.1 hc)
  exact hb.not_mem_roots_of_interface (h.members r hgroup) hr

end Bounding

namespace Pass

variable {o : Options} {immutables : IdSet .type} {passes : List Pass} {b last : Bounding} {removed : List (Pass × Nat)}

theorem allReached_of_prefix (hcut : o.cutUnreachable = true) (hb : b.Exact) (horder : passes <+: order)
    (hne : passes ≠ []) (h : runAll o immutables passes b = .ok (last, removed)) : last.Exact ∧ last.AllReached := by
  cases passes with
  | nil => exact absurd rfl hne
  | cons pass rest =>
    obtain ⟨rfl, _⟩ := List.cons_prefix_cons.1 horder
    obtain ⟨next, _, hruns, hrest⟩ := runAll_cons_eq_ok h
    have hfirst : b.cutUnreachable = .ok next := by
      simpa [Runs, result?, hcut] using hruns
    have hnext : next.Exact ∧ next.AllReached :=
      ⟨hb.edits (hruns.edits hb), Bounding.allReached_cutUnreachable hb hfirst⟩
    exact runAll_keeps (fun _ _ _ hb hruns => hruns.keeps hcut hb) hnext hrest

end Pass

namespace Bounding

variable {b b' first : Bounding} {s : Store} {p : Procedure} {c m : Candidate} {group : List Candidate}

/-- With unreachable candidates cut, the roots reach every candidate of the interface after all passes, and after any
number of them. In whatever state a group of the interface is merged, the roots still reach every candidate that stays
and that they reached before, and they reach the merged candidate if they reached one of the group. -/
theorem interface_rooted {o : Options} (hcut : o.cutUnreachable = true) (immutables : IdSet .type)
    (hstart : Bounding.start s p = .ok first) :
    (∀ passes, passes <+: Pass.order → passes ≠ [] → ∀ last removed,
      Pass.runAll o immutables passes first = .ok (last, removed) → ∀ c ∈ last.interface, last.Rooted c) ∧
    ∀ b group b' r, Reached s p b → (∀ c ∈ group, c ∈ b.interface) → b.merge group = .ok (b', r) →
      (∀ c ∈ b.interface, c ∈ b'.interface → b.Rooted c → b'.Rooted c) ∧
      ∀ m, r = some m → ∀ c ∈ group, b.Rooted c → b'.Rooted m := by
  refine ⟨fun passes horder hne last removed h c hc => ?_, fun b group b' r hreached hgroup h => ?_⟩
  · obtain ⟨hlast, hall⟩ := Pass.allReached_of_prefix hcut (exact_start hstart) horder hne h
    exact hlast.rooted_iff.2 (hall c hc)
  · have hb := hreached.exact.1
    obtain ⟨_, rfl, rfl⟩ | ⟨m, hlen, rfl, hmerge⟩ := merge_eq_ok h
    · exact ⟨fun c _ _ hc => hc, fun m hm => by cases hm⟩
    · have hmerging := merging_of_mergeGroup hlen hgroup hmerge
      refine ⟨fun c hc hstays hrooted => ?_, fun m' hm c hc hrooted => ?_⟩
      · have hne : c ≠ m := hmerging.ne_of_mem_nodes hb ((hb.nodes c).2 (.inr hc))
        have hout : c ∉ group := ((hmerging.mem_interface.1 hstays).resolve_left hne).2
        rw [← image_of_not_mem hout (m := m)]
        exact hmerging.rooted_image hb hrooted
      · cases hm
        rw [← image_of_mem hc (m := m)]
        exact hmerging.rooted_image hb hrooted

def numberedAccess (f : Nat) (bases pts : List Nat) (type : Option TypeId) : Access :=
  ⟨⟨f⟩, IdSet.ofList (bases.map Id.mk), IdSet.ofList (pts.map Id.mk), type, .no⟩

/-- Accesses behind a name, which is immutable, and in a list, whose cells are accessed twice, and one to an object that
no root leads to. The second access behind the name reads another name. -/
def namedList : Store :=
  [numberedAccess 0 [1] [2] none, numberedAccess 1 [2] [3] (some ⟨0⟩), numberedAccess 2 [5] [6] none,
    numberedAccess 3 [6] [6] none, numberedAccess 4 [9] [] none, numberedAccess 3 [6, 7] [] none].foldl
    (fun s a => s.addLocal ⟨0⟩ a) Store.empty

def readNames : Procedure :=
  ⟨⟨0⟩, "names", none, false, [.formal "name" (some ⟨0⟩) (IdSet.singleton ⟨1⟩),
    .formal "list" none (IdSet.singleton ⟨5⟩)]⟩

def cuttingOptions : Options := ⟨true, false, true, [], true, false, false, none, 1⟩

/-- What is behind the name is cut, the name read there is left an orphan and cut too, and the cells are merged. -/
theorem interface_rooted_namedList : ∃ first last removed, Bounding.start namedList readNames = .ok first ∧
    Pass.runAll cuttingOptions (IdSet.singleton ⟨0⟩) Pass.order first = .ok (last, removed) ∧
    last.interface.toList = [⟨2⟩, ⟨8⟩] ∧ last.Rooted ⟨2⟩ ∧ last.Rooted ⟨8⟩ := by
  obtain ⟨first, hstart, ⟨last, removed⟩, hrun, hinterface⟩ : ∃ first, Bounding.start namedList readNames = .ok first ∧
      ∃ result, Pass.runAll cuttingOptions (IdSet.singleton ⟨0⟩) Pass.order first = .ok result ∧
        result.1.interface.toList = [⟨2⟩, ⟨8⟩] := by
    decide +kernel
  have hmem : ∀ c ∈ [⟨2⟩, ⟨8⟩], c ∈ last.interface := fun c hc => IdSet.mem_toList.1 (hinterface ▸ hc)
  obtain ⟨hrooted, _⟩ := interface_rooted (o := cuttingOptions) rfl (IdSet.singleton ⟨0⟩) hstart
  have hall := hrooted Pass.order List.prefix_rfl (by decide) last removed hrun
  exact ⟨first, last, removed, hstart, hrun, hinterface, hall _ (hmem _ (by decide)), hall _ (hmem _ (by decide))⟩

end Bounding

end HeapSummary
