import HeapSummary.Proofs.Absorption

/-!
# Cutting what the roots do not reach

The pass leaves exactly the candidates that a search from the roots finds. A removed candidate may have edges into the
rest, and a primitive one of the rest may have edges to it, but no search from the roots goes along any of them. So the
search finds the same afterwards, the edges between what is left are the old ones, and a second run finds nothing to
remove.
-/

namespace HeapSummary.Bounding

open CandidateGraph (Expands mem_reachable)

variable {s : Store} {p : Procedure} {b b' : Bounding} {c d : Candidate} {cs start : List Candidate}
  {found : IdSet .candidate}

/-- `b'` is `b` cut to what a search from the roots finds, and cutting it again changes nothing. -/
structure CutToReached (b : Bounding) (found : IdSet .candidate) (b' : Bounding) : Prop where
  before : b.reachable b.graph.roots = .ok found
  interface : ∀ c, c ∈ b'.interface ↔ c ∈ b.interface ∧ c ∈ found
  roots : b'.graph.roots = b.graph.roots
  nodes : ∀ c, c ∈ b'.graph.nodes ↔ c ∈ b.graph.nodes ∧ c ∈ found
  succs : ∀ c d, d ∈ b'.graph.succsOf c ↔ c ∈ b'.graph.nodes ∧ d ∈ b'.graph.nodes ∧ d ∈ b.graph.succsOf c
  preds : ∀ c d, c ∈ b'.graph.predsOf d ↔ c ∈ b'.graph.nodes ∧ d ∈ b'.graph.nodes ∧ c ∈ b.graph.predsOf d
  after : b'.reachable b'.graph.roots = .ok found
  again : b'.cutUnreachable = .ok b'

/-! ### What removing leaves alone -/

section removed

variable (h : Removed b cs b') (hb : b.Exact) (hb' : b'.Exact)

include h hb hb'

theorem Removed.mem_nodes_of_mem (hc : c ∈ b'.graph.nodes) : c ∈ b.graph.nodes := by
  rw [hb'.nodes, h.roots, h.interface] at hc
  exact (hb.nodes c).2 (hc.imp_right And.left)

theorem Removed.mem_succsOf :
    d ∈ b'.graph.succsOf c ↔ c ∈ b'.graph.nodes ∧ d ∈ b'.graph.nodes ∧ d ∈ b.graph.succsOf c := by
  have hleads : b'.store.Leads c d ↔ b.store.Leads c d := by
    unfold Store.Leads Store.objectsOf Store.field?
    rw [h.arena]
  rw [hb'.edges, hb.edges, hleads]
  refine and_congr_right fun hc => and_congr_right fun hd => ?_
  simp only [h.mem_nodes_of_mem hb hb' hc, h.mem_nodes_of_mem hb hb' hd, true_and]

theorem Removed.mem_predsOf :
    c ∈ b'.graph.predsOf d ↔ c ∈ b'.graph.nodes ∧ d ∈ b'.graph.nodes ∧ c ∈ b.graph.predsOf d := by
  rw [hb'.mirrored, hb.mirrored, h.mem_succsOf hb hb']

theorem Removed.found_iff (hkept : ∀ d, b.graph.Found b.store start d → d ∉ cs) :
    b'.graph.Found b'.store start c ↔ b.graph.Found b.store start c := by
  refine ⟨fun hc => ?_, h.found hb hb' hkept⟩
  induction hc with
  | start hc => exact .start hc
  | @step c d _ hexp hd ih =>
    have hexp' : Expands b.store start c := by
      unfold Expands Store.isPrimitive at hexp ⊢
      rwa [← h.arena]
    exact .step ih hexp' ((h.mem_succsOf hb hb').1 hd).2.2

end removed

/-! ### The pass -/

theorem cutUnreachable_of_allReached (h : b.reachable b.graph.roots = .ok found) (hall : ∀ c ∈ b.interface, c ∈ found) :
    b.cutUnreachable = .ok b := by
  have hnone : b.interface \ found = ∅ := IdSet.ext fun c => by
    rw [IdSet.mem_diff]
    exact iff_of_false (fun hc => hc.2 (hall c hc.1)) IdSet.not_mem_empty
  rw [cutUnreachable, Outcome.bind_of_ok h, hnone]
  rfl

/-- Whatever was done to an interface: the pass succeeds and cuts it to what the roots reach. -/
theorem unreachable_cut_exactly (hb : Reached s p b) :
    ∃ found b', b.cutUnreachable = .ok b' ∧ CutToReached b found b' := by
  have hexact := hb.exact.1
  obtain ⟨found, hfound⟩ := hexact.exists_reachable b.graph.roots
  obtain ⟨b', hcut, hexact'⟩ := hexact.exists_removeAll (b.interface \ found).toList
  have hremoved := removed_removeAll hcut
  have hinterface : ∀ c, c ∈ b'.interface ↔ c ∈ b.interface ∧ c ∈ found := by
    intro c
    rw [hremoved.interface, IdSet.mem_toList, IdSet.mem_diff]
    tauto
  have hnodes : ∀ c, c ∈ b'.graph.nodes ↔ c ∈ b.graph.nodes ∧ c ∈ found := by
    intro c
    rw [hexact'.nodes, hexact.nodes, hremoved.roots, hinterface, or_and_right]
    refine or_congr_left (and_iff_left_of_imp fun hroot => ?_).symm
    exact (mem_reachable hfound).2 (.start hroot)
  have hkept : ∀ c, b.graph.Found b.store b.graph.roots c → c ∉ (b.interface \ found).toList := by
    intro c hc hin
    exact (IdSet.mem_diff.1 (IdSet.mem_toList.1 hin)).2 ((mem_reachable hfound).2 hc)
  obtain ⟨found', hfound'⟩ := hexact'.exists_reachable b'.graph.roots
  obtain rfl : found' = found := IdSet.ext fun c => by
    rw [mem_reachable hfound', mem_reachable hfound, hremoved.roots, hremoved.found_iff hexact hexact' hkept]
  refine ⟨found', b', Outcome.bind_eq_ok.2 ⟨found', hfound, hcut⟩, hfound, hinterface, hremoved.roots, hnodes,
    fun c d => hremoved.mem_succsOf hexact hexact', fun c d => hremoved.mem_predsOf hexact hexact', hfound', ?_⟩
  exact cutUnreachable_of_allReached hfound' fun c hc => ((hinterface c).1 hc).2

/-- Two cells that hold each other. A primitive value in the second seems to hold an object whose field leads back to
that cell, and a lone cell holds itself and the first. -/
def loneObject : Store :=
  List.foldl (Store.addLocal · ⟨0⟩) Store.empty
    [⟨⟨0⟩, .ofList [⟨1⟩], .ofList [⟨2⟩], none, .no⟩, ⟨⟨0⟩, .ofList [⟨2⟩], .ofList [⟨1⟩], none, .maybe⟩,
      ⟨⟨1⟩, .ofList [⟨2⟩], .ofList [⟨3⟩], none, .yes⟩, ⟨⟨2⟩, .ofList [⟨3⟩], .ofList [⟨2⟩], none, .no⟩,
      ⟨⟨0⟩, .ofList [⟨9⟩], .ofList [⟨9⟩, ⟨1⟩], none, .no⟩]

def visitCells : Procedure := ⟨⟨0⟩, "visit", none, false, [.formal "list" none (IdSet.singleton ⟨1⟩)]⟩

/-- The search stops at the primitive value, so the field behind it is cut along with the lone cell. The cycle
stays. -/
theorem unreachable_cut_loneObject : ∃ first found last, Bounding.start loneObject visitCells = .ok first ∧
    first.interface.toList = [⟨0⟩, ⟨1⟩, ⟨2⟩, ⟨3⟩, ⟨4⟩] ∧ ⟨3⟩ ∈ first.graph.succsOf ⟨2⟩ ∧
    first.cutUnreachable = .ok last ∧ last.interface.toList = [⟨0⟩, ⟨1⟩, ⟨2⟩] ∧
    first.reachable [⟨5⟩] = .ok found ∧ last.reachable [⟨5⟩] = .ok found ∧ ⟨1⟩ ∈ last.graph.succsOf ⟨0⟩ ∧
    ⟨3⟩ ∉ last.graph.succsOf ⟨2⟩ ∧ last.cutUnreachable = .ok last := by
  obtain ⟨first, hstart, hinterface, hroots, hcycle, hedge, last, hlast, hleft, hnodes, hout⟩ : ∃ first,
      Bounding.start loneObject visitCells = .ok first ∧ first.interface.toList = [⟨0⟩, ⟨1⟩, ⟨2⟩, ⟨3⟩, ⟨4⟩] ∧
      first.graph.roots = [⟨5⟩] ∧ ⟨1⟩ ∈ first.graph.succsOf ⟨0⟩ ∧ ⟨3⟩ ∈ first.graph.succsOf ⟨2⟩ ∧
      ∃ last, first.cutUnreachable = .ok last ∧ last.interface.toList = [⟨0⟩, ⟨1⟩, ⟨2⟩] ∧
        (∀ c ∈ [⟨0⟩, ⟨1⟩], c ∈ last.graph.nodes) ∧ ⟨3⟩ ∉ last.graph.nodes := by
    decide +kernel
  obtain ⟨found, b', hrun, h⟩ := unreachable_cut_exactly (Reached.start hstart)
  obtain rfl : last = b' := Except.ok.inj (hlast.symm.trans hrun)
  refine ⟨first, found, last, hstart, hinterface, hedge, hlast, hleft, hroots ▸ h.before, ?_, ?_, ?_, h.again⟩
  · exact hroots ▸ h.roots ▸ h.after
  · exact (h.succs ⟨0⟩ ⟨1⟩).2 ⟨hnodes ⟨0⟩ (by decide), hnodes ⟨1⟩ (by decide), hcycle⟩
  · exact fun hkept => hout ((h.succs ⟨2⟩ ⟨3⟩).1 hkept).2.1

end HeapSummary.Bounding
