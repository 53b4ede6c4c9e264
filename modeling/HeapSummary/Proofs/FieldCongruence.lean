import HeapSummary.Proofs.MergeRuns
import HeapSummary.Proofs.SharedFields

/-!
# Merging shared fields is a congruence closure

If every candidate of the interface has one field, a field is a function symbol of one argument: two successors with the
same field, of one candidate or of two that count as one, count as one themselves. `Congruent` is the least equivalence
with that property, over all that edges lead to from the roots. Merging the successors that share a field sends two
candidates to the same place if and only if they are congruent, so the order in which the search meets them is
irrelevant.

That nothing is merged without cause is an invariant of the search (`Closing`). A group is merged under a candidate that
the roots lead to, and all that was sent to this candidate is congruent already, so the members are congruent for having
a field in common. Conversely, once the queue is empty no candidate that the roots lead to has two successors for one
field, which is what a further consequence would need.
-/

namespace HeapSummary.Bounding

open CandidateGraph (image image_of_mem image_of_not_mem eq_or_mem_of_image_eq)

variable {b b₀ b' : Bounding} {s : Store} {p : Procedure} {φ : Candidate → Candidate} {a c d m : Candidate}
  {group queue : List Candidate} {visited : IdSet .candidate}

/-- The least equivalence under which successors of equivalent candidates are equivalent if they have a field in common.
Candidates that edges do not lead to from the roots count for nothing. -/
inductive Congruent (b : Bounding) : Candidate → Candidate → Prop
  | refl (c : Candidate) : Congruent b c c
  | symm {c d : Candidate} (h : Congruent b c d) : Congruent b d c
  | trans {c d e : Candidate} (h : Congruent b c d) (h' : Congruent b d e) : Congruent b c e
  | congr {u v c d : Candidate} {f : Field} (h : Congruent b u v) (hu : b.graph.Below u) (hv : b.graph.Below v)
      (hc : c ∈ b.graph.succsOf u) (hd : d ∈ b.graph.succsOf v) (hfc : f ∈ b.store.fieldsOf c)
      (hfd : f ∈ b.store.fieldsOf d) : Congruent b c d

theorem Congruent.eq_or_below (h : b.Congruent c d) : c = d ∨ b.graph.Below c ∧ b.graph.Below d := by
  induction h with
  | refl c => exact .inl rfl
  | symm _ ih => exact ih.imp Eq.symm And.symm
  | trans _ _ ih ih' =>
    rcases ih with rfl | ⟨hc, hd⟩
    · exact ih'
    · rcases ih' with rfl | ⟨_, he⟩
      · exact .inr ⟨hc, hd⟩
      · exact .inr ⟨hc, he⟩
  | congr _ hu hv hc hd => exact .inr ⟨hu.succ hc, hv.succ hd⟩

theorem Sends.below_image (h : Sends b φ b') (hb : b.Exact) (hc : b.graph.Below c) : b'.graph.Below (φ c) := by
  obtain ⟨r, hr, hpath⟩ := hc
  induction hpath with
  | refl => exact ⟨φ r, h.sameFrame.roots ▸ (h.root hb hr).symm ▸ hr, .refl⟩
  | tail _ hd ih => exact ih.succ (h.edge hb hd)

/-! ### Nothing is merged without cause -/

/-- Candidates of `b₀` were sent where `φ` does, for a reason, and what waits in the queue is reached from the roots. -/
structure Closing (b₀ : Bounding) (φ : Candidate → Candidate) (b : Bounding) (queue : List Candidate) : Prop where
  sends : b₀.Sends φ b
  pervasive : ∀ f, b.Pervasive f
  fields : ∀ c ∈ b₀.interface, ∀ f, f ∈ b.store.fieldsOf (φ c) ↔ f ∈ b₀.store.fieldsOf c
  congruent : ∀ c ∈ b₀.graph.nodes, ∀ d ∈ b₀.graph.nodes, φ c = φ d → b₀.Congruent c d
  moved : ∀ c ∈ b₀.graph.nodes, φ c = c ∨ b₀.graph.Below c
  queued : ∀ c ∈ queue, c ∈ b.graph.nodes → b.graph.Below c

namespace Closing

theorem start (hpervasive : ∀ f, b.Pervasive f) : Closing b id b b.graph.roots where
  sends := .nothing
  pervasive := hpervasive
  fields _ _ _ := Iff.rfl
  congruent c _ d _ heq := by
    cases heq
    exact .refl c
  moved _ _ := .inl rfl
  queued c hc _ := ⟨c, hc, .refl⟩

theorem leave (h : Closing b₀ φ b (c :: queue)) (hc : c ∈ b.graph.nodes) :
    Closing b₀ φ b (queue ++ (b.graph.succsOf c \ visited).toList) where
  __ := h
  queued d hd hnode := by
    rcases List.mem_append.1 hd with hd | hd
    · exact h.queued d (List.mem_cons_of_mem c hd) hnode
    · have hd : d ∈ b.graph.succsOf c := (IdSet.mem_diff.1 (IdSet.mem_toList.1 hd)).1
      exact (h.queued c List.mem_cons_self hc).succ hd

section step

variable (hb : b₀.Exact)

include hb

theorem below_of_image (h : Closing b₀ φ b queue) (hc : c ∈ b₀.graph.nodes) (hbelow : b.graph.Below (φ c)) :
    b₀.graph.Below c := by
  obtain ⟨r, hr, hpath⟩ := hbelow
  have hr : r ∈ b₀.graph.roots := h.sends.sameFrame.roots ▸ hr
  have hclass : ∀ a ∈ b₀.graph.nodes, ∀ c ∈ b₀.graph.nodes, φ a = φ c → b₀.graph.Below a → b₀.graph.Below c := by
    intro a ha c hc heq hbelow
    rcases (h.congruent a ha c hc heq).eq_or_below with rfl | ⟨_, hbelow⟩
    · exact hbelow
    · exact hbelow
  generalize hd : φ c = d at hpath
  induction hpath generalizing c with
  | refl =>
    have hstays : φ r = φ c := (h.sends.root hb hr).trans hd.symm
    exact hclass r ((hb.nodes r).2 (.inl hr)) c hc hstays ⟨r, hr, .refl⟩
  | tail _ hedge ih =>
    obtain ⟨u, e, he, rfl, rfl⟩ := (h.sends.mem_succsOf hb).1 hedge
    obtain ⟨hu, hnode, _⟩ := (hb.edges u e).1 he
    exact hclass e hnode c hc hd.symm ((ih hu rfl).succ he)

theorem congruent_of_shared (h : Closing b₀ φ b queue) {u : Candidate} {f : Field} (hu : b.graph.Below u)
    (hc : c ∈ b₀.graph.nodes) (hd : d ∈ b₀.graph.nodes) (hcu : φ c ∈ b.graph.succsOf u)
    (hdu : φ d ∈ b.graph.succsOf u) (hfc : f ∈ b.store.fieldsOf (φ c)) (hfd : f ∈ b.store.fieldsOf (φ d)) :
    b₀.Congruent c d := by
  -- the edges are images of edges between candidates that are congruent to those at hand
  obtain ⟨v, c', hedge, rfl, hc'⟩ := (h.sends.mem_succsOf hb).1 hcu
  obtain ⟨w, d', hedge', hw, hd'⟩ := (h.sends.mem_succsOf hb).1 hdu
  obtain ⟨hv, hcnode, _⟩ := (hb.edges v c').1 hedge
  obtain ⟨hwnode, hdnode, _⟩ := (hb.edges w d').1 hedge'
  have hfc' : f ∈ b₀.store.fieldsOf c' := (h.fields c' (hb.target_mem_interface hedge) f).1 (hc' ▸ hfc)
  have hfd' : f ∈ b₀.store.fieldsOf d' := (h.fields d' (hb.target_mem_interface hedge') f).1 (hd' ▸ hfd)
  have hparents : b₀.Congruent v w := h.congruent v hv w hwnode hw.symm
  have hsuccs : b₀.Congruent c' d' :=
    hparents.congr (h.below_of_image hb hv hu) (h.below_of_image hb hwnode (hw ▸ hu)) hedge hedge' hfc' hfd'
  exact ((h.congruent c hc c' hcnode hc'.symm).trans hsuccs).trans (h.congruent d' hdnode d hd hd')

theorem merge (h : Closing b₀ φ b (c :: queue)) (hc : c ∈ b.graph.nodes) (hm : SharedMerging b group b' m)
    (hlen : 2 ≤ group.length) (hmerge : b.mergeGroup group = .ok (b', m))
    (hgroup : ∀ d ∈ group, d ∈ b.graph.succsOf c) :
    Closing b₀ (image group m ∘ φ) b' (image group m c :: queue) := by
  have hexact : b.Exact := h.sends.exact hb
  have hbelow : b.graph.Below c := h.queued c List.mem_cons_self hc
  have hsends : Sends b (image group m ∘ id) b' := .merge .nothing hlen hm.members hmerge
  have hnode : ∀ d ∈ b₀.graph.nodes, φ d ≠ m := fun d hd =>
    hm.ne_of_mem_nodes hexact ((h.sends.mem_nodes hb).2 ⟨d, hd, rfl⟩)
  refine ⟨h.sends.merge hlen hm.members hmerge, fun f => hm.pervasive hexact (h.pervasive f), fun d hd f => ?_,
    fun d hd e he heq => ?_, fun d hd => ?_, fun d hd hdnode => ?_⟩
  · exact (hm.mem_fieldsOf_image hexact (h.pervasive f) (h.sends.mem_interface.2 ⟨d, hd, rfl⟩)).trans (h.fields d hd f)
  · rcases eq_or_mem_of_image_eq (hnode d hd) (hnode e he) heq with heq | ⟨hdin, hein⟩
    · exact h.congruent d hd e he heq
    · obtain ⟨f, hf⟩ := hm.shared
      exact h.congruent_of_shared hb hbelow hd he (hgroup _ hdin) (hgroup _ hein) (hf _ hdin) (hf _ hein)
  · by_cases hdin : φ d ∈ group
    · exact .inr (h.below_of_image hb hd (hbelow.succ (hgroup _ hdin)))
    · rw [Function.comp_apply, image_of_not_mem hdin]
      exact h.moved d hd
  · rcases List.mem_cons.1 hd with rfl | hd
    · exact hsends.below_image hexact hbelow
    · rcases (CandidateGraph.mem_nodes_mergeNodes hm.graph).1 hdnode with rfl | ⟨hold, hout⟩
      · -- a stale entry may name the merged candidate, which is the image of successors
        obtain ⟨e, he⟩ := hm.nonempty
        rw [← image_of_mem (m := d) he]
        exact hsends.below_image hexact (hbelow.succ (hgroup e he))
      · rw [← image_of_not_mem (m := m) hout]
        exact hsends.below_image hexact (h.queued d (List.mem_cons_of_mem c hd) hold)

theorem drain (hd : Drains b visited queue b') (h : Closing b₀ φ b queue) : ∃ ψ, Closing b₀ ψ b' [] := by
  induction hd generalizing φ with
  | done => exact ⟨φ, h⟩
  | skip _ _ ih => exact ih { h with queued := fun d hd => h.queued d (List.mem_cons_of_mem _ hd) }
  | leave hc _ _ _ ih => exact ih (h.leave hc)
  | merge hc hlocations hshared hmerge _ ih =>
    have hexact := h.sends.exact hb
    have hmerging := sharedMerging_of_mergeGroup hexact hlocations hshared hmerge
    obtain ⟨hlen, hgroup⟩ := group_of_sharedField hlocations hshared
    rw [hmerging.next_eq_image hexact hc] at ih
    exact ih (h.merge hb hc hmerging hlen hmerge hgroup)

end step

/-- Once no candidate that the roots lead to has two successors for one field, all consequences were drawn. -/
theorem image_eq_of_congruent (hb : b₀.Exact) (h : Closing b₀ φ b queue)
    (hone : ∀ f c, b.graph.Below c → b.OneForField f c) (hcd : b₀.Congruent c d) : φ c = φ d := by
  induction hcd with
  | refl c => rfl
  | symm _ ih => exact ih.symm
  | trans _ _ ih ih' => exact ih.trans ih'
  | @congr u v c d f _ hu hv hc hd hfc hfd ih =>
    have hfc' := (h.fields c (hb.target_mem_interface hc) f).2 hfc
    have hfd' := (h.fields d (hb.target_mem_interface hd) f).2 hfd
    have hcu : φ c ∈ b.graph.succsOf (φ v) := ih ▸ h.sends.edge hb hc
    exact hone f (φ v) (h.sends.below_image hb hv) (φ c) hcu (φ d) (h.sends.edge hb hd) hfc' hfd'

end Closing

/-- Over candidates with one field each, merging the successors that share a field works its queue off, and it sends two
candidates of the interface to the same place if and only if they are congruent. What it leaves has the origins of all
that was sent to it. Candidates that the roots do not lead to stay as they are. -/
theorem merged_iff_congruent (hb : Reached s p b)
    (hone : ∀ c ∈ b.interface, ∃ f, b.store.fieldsOf c = IdSet.singleton f) :
    ∃ b' φ, b.mergeSharedFields = .ok b' ∧ Drains b (IdSet.ofList b.graph.roots) b.graph.roots b' ∧ Sends b φ b' ∧
      (∀ d, d ∈ b'.interface ↔ ∃ c ∈ b.interface, φ c = d) ∧
      (∀ d ∈ b'.interface, ∀ o, o ∈ b'.store.originOf d ↔ ∃ c ∈ b.interface, φ c = d ∧ o ∈ b.store.originOf c) ∧
      (∀ c ∈ b.interface, ∀ d ∈ b.interface, φ c = φ d ↔ b.Congruent c d) ∧
      ∀ c ∈ b.interface, ¬ b.graph.Below c → φ c = c ∧ Untouched b b' c := by
  have hexact := hb.exact.1
  have hnode : ∀ c ∈ b.interface, c ∈ b.graph.nodes := fun c hc => (hexact.nodes c).2 (.inr hc)
  have hfielded : b.Fielded := by
    refine ⟨hexact, fun c hc => ?_⟩
    obtain ⟨f, hf⟩ := hone c hc
    exact ⟨f, hf ▸ IdSet.mem_singleton.2 rfl⟩
  obtain ⟨b', hrun, _⟩ := guards_fielded.mergeSharedFields hfielded
  have hdrains := drains_of_mergeUnder hrun
  obtain ⟨φ, hclosing⟩ := (Closing.start (pervasive_of_single hone)).drain hexact hdrains
  have hsettled : ∀ f c, b'.graph.Below c → b'.OneForField f c := by
    intro f c hc
    obtain ⟨hexact', _, hsurveyed⟩ :=
      (Surveyed.start hexact (pervasive_of_single hone f)).drain hdrains hexact
    exact hsurveyed.oneForField_of_below hexact' hc
  have hsends := hclosing.sends
  refine ⟨b', φ, hrun, hdrains, hsends, fun d => hsends.mem_interface, fun d hd o => hsends.mem_originOf hexact hd,
    fun c hc d hd => ⟨?_, ?_⟩, fun c hc hbelow => ?_⟩
  · exact hclosing.congruent c (hnode c hc) d (hnode d hd)
  · exact hclosing.image_eq_of_congruent hexact hsettled
  · have hstays := (hclosing.moved c (hnode c hc)).resolve_right hbelow
    exact ⟨hstays, hsends.untouched hexact hc hstays⟩

/-- Two accesses to one field, one of which holds its own base again, each with an access to a second field below it, and
an access to the second field on an object that nothing holds. -/
def twoBranches : Store :=
  List.foldl (Store.addLocal · ⟨0⟩) Store.empty
    [⟨⟨0⟩, .ofList [⟨1⟩], .ofList [⟨3⟩], none, .no⟩, ⟨⟨0⟩, .ofList [⟨2⟩], .ofList [⟨2⟩, ⟨4⟩], none, .no⟩,
      ⟨⟨1⟩, .ofList [⟨3⟩], ∅, none, .no⟩, ⟨⟨1⟩, .ofList [⟨4⟩], ∅, none, .no⟩, ⟨⟨1⟩, .ofList [⟨9⟩], ∅, none, .no⟩]

def descend : Procedure := ⟨⟨0⟩, "descend", none, false, [.formal "top" none (IdSet.ofList [⟨1⟩, ⟨2⟩])]⟩

/-- The accesses to the first field are congruent, hence those below them are, and the last one is left alone. -/
theorem merged_iff_congruent_twoBranches : ∃ first last φ, Bounding.start twoBranches descend = .ok first ∧
    first.mergeSharedFields = .ok last ∧ Sends first φ last ∧ last.interface.toList = [⟨4⟩, ⟨6⟩, ⟨7⟩] ∧
    φ ⟨0⟩ = φ ⟨1⟩ ∧ φ ⟨2⟩ = φ ⟨3⟩ ∧ φ ⟨4⟩ = ⟨4⟩ := by
  obtain ⟨first, hstart, hinterface, hfields, hroots, htop, hleft, hright, hstray, last, hlast, hleft'⟩ : ∃ first,
      Bounding.start twoBranches descend = .ok first ∧
      first.interface.toList = [⟨0⟩, ⟨1⟩, ⟨2⟩, ⟨3⟩, ⟨4⟩] ∧
      first.interface.toList.map first.store.fieldsOf = [⟨0⟩, ⟨0⟩, ⟨1⟩, ⟨1⟩, ⟨1⟩].map IdSet.singleton ∧
      first.graph.roots = [⟨5⟩] ∧ first.graph.succsOf ⟨5⟩ = IdSet.ofList [⟨0⟩, ⟨1⟩] ∧
      first.graph.succsOf ⟨0⟩ = IdSet.ofList [⟨2⟩] ∧ first.graph.succsOf ⟨1⟩ = IdSet.ofList [⟨1⟩, ⟨3⟩] ∧
      first.graph.predsOf ⟨4⟩ = ∅ ∧ ∃ last, first.mergeSharedFields = .ok last ∧
        last.interface.toList = [⟨4⟩, ⟨6⟩, ⟨7⟩] :=
    ⟨_, rfl, rfl, rfl, rfl, rfl, rfl, rfl, rfl, _, rfl, rfl⟩
  have hmem : ∀ c ∈ [⟨0⟩, ⟨1⟩, ⟨2⟩, ⟨3⟩, ⟨4⟩], c ∈ first.interface := fun c hc => IdSet.mem_toList.1 (hinterface ▸ hc)
  have hone : ∀ c ∈ first.interface, ∃ f, first.store.fieldsOf c = IdSet.singleton f := by
    intro c hc
    have hmap := List.mem_map_of_mem (f := first.store.fieldsOf) (IdSet.mem_toList.2 hc)
    rw [hfields] at hmap
    obtain ⟨f, _, hf⟩ := List.mem_map.1 hmap
    exact ⟨f, hf.symm⟩
  rw [hinterface] at hfields
  simp only [List.map_cons, List.map_nil, List.cons.injEq, and_true] at hfields
  obtain ⟨hf₀, hf₁, hf₂, hf₃, _⟩ := hfields
  have hbelow : first.graph.Below ⟨5⟩ := ⟨⟨5⟩, by simp [hroots], .refl⟩
  have hzero : (⟨0⟩ : Candidate) ∈ first.graph.succsOf ⟨5⟩ := by simp [htop]
  have hunit : (⟨1⟩ : Candidate) ∈ first.graph.succsOf ⟨5⟩ := by simp [htop]
  have hupper : first.Congruent ⟨0⟩ ⟨1⟩ :=
    .congr (f := ⟨0⟩) (.refl _) hbelow hbelow hzero hunit (by simp [hf₀]) (by simp [hf₁])
  have hlower : first.Congruent ⟨2⟩ ⟨3⟩ :=
    .congr (f := ⟨1⟩) hupper (hbelow.succ hzero) (hbelow.succ hunit) (by simp [hleft]) (by simp [hright])
      (by simp [hf₂]) (by simp [hf₃])
  have hexact := exact_start hstart
  have hout : ¬ first.graph.Below ⟨4⟩ := by
    rintro ⟨r, hr, hpath⟩
    rcases hpath.cases_tail with rfl | ⟨c, _, hedge⟩
    · simp [hroots] at hr
    · rw [← hexact.mirrored, hstray] at hedge
      exact IdSet.not_mem_empty hedge
  obtain ⟨b', φ, hrun, _, hsends, _, _, hiff, hstays⟩ := merged_iff_congruent (Reached.start hstart) hone
  obtain rfl : last = b' := Except.ok.inj (hlast.symm.trans hrun)
  refine ⟨first, last, φ, hstart, hlast, hsends, hleft', ?_, ?_, ?_⟩
  · exact (hiff _ (hmem _ (by decide)) _ (hmem _ (by decide))).2 hupper
  · exact (hiff _ (hmem _ (by decide)) _ (hmem _ (by decide))).2 hlower
  · exact (hstays _ (hmem _ (by decide)) hout).1

end HeapSummary.Bounding
