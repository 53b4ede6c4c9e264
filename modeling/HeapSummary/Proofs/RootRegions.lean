import HeapSummary.Proofs.Absorption
import HeapSummary.Proofs.PassesSucceed

/-!
# Merging the region of some roots

Exceptions and static fields are merged with all that they reach and no other root does. The merged candidate takes over
every edge of its group, also those that lead out of it and into it from elsewhere. Still, what the other roots reach is
the same before and after: none of it is in the group, so an edge from it that is new would come from an edge into the
group, and then the group would have been reached. So a second run finds at most the merged candidate to merge.
-/

namespace HeapSummary.Bounding

open CandidateGraph (image_of_mem image_of_not_mem Expands Found)

variable {s : Store} {p : Procedure} {b b' : Bounding} {c m : Candidate} {group start : List Candidate}
  {select : Root → Bool} {fromSelected fromOthers : IdSet .candidate}

/-- A pass from `b` to `b'` merged the region of the roots that it selects, and touched nothing else. -/
structure MergesRegion (select : Root → Bool) (pass : Bounding → Except Fault Bounding) (b : Bounding)
    (fromSelected fromOthers : IdSet .candidate) (group : List Candidate) (b' : Bounding) : Prop where
  region : Region select b fromSelected fromOthers group
  small : group.length < 2 → b' = b
  merged : 2 ≤ group.length → ∃ m, b.store.arena.get? m = none ∧
    ∀ c, c ∈ b'.interface ↔ c = m ∨ c ∈ b.interface ∧ c ∉ group
  others : b'.reachable (b'.rootsWhere fun r => !select r) = .ok fromOthers
  again : ∃ reached, b.reachable b.graph.roots = .ok reached ∧ ((∀ c ∈ b.interface, c ∈ reached) → pass b' = .ok b')

/-! ### What a merge leaves alone -/

theorem Merging.rootsWhere_eq (h : Merging b group b' m) (hb : b.Exact) (test : Root → Bool) :
    b'.rootsWhere test = b.rootsWhere test := by
  unfold rootsWhere
  rw [h.roots]
  refine List.filter_congr fun c hc => ?_
  have hne : c ≠ m := h.ne_of_mem_nodes hb ((hb.nodes c).2 (.inl hc))
  have hread : b'.store.arena.read c = b.store.arena.read c := by
    obtain ⟨l, hl⟩ := hb.exists_get ((hb.nodes c).2 (.inl hc))
    rw [Arena.read_eq_ok_iff.2 hl, Arena.read_eq_ok_iff, h.store.keeps c hne, hl]
  rw [Store.root, Store.root, Store.location, Store.location, hread]

theorem Merging.found_iff_of_outside (h : Merging b group b' m) (hb : b.Exact) (hstart : ∀ c ∈ start, c ∈ b.graph.nodes)
    (hout : ∀ c, b.graph.Found b.store start c → c ∉ group) :
    b'.graph.Found b'.store start c ↔ b.graph.Found b.store start c := by
  constructor
  · intro hc
    induction hc with
    | start hc => exact .start hc
    | @step c d _ hexp hd ih =>
      have hne : c ≠ m := h.ne_of_mem_nodes hb (hb.mem_nodes_of_found hstart ih)
      have hexp' : Expands b.store start c := by
        unfold Expands Store.isPrimitive at hexp ⊢
        rwa [← h.store.keeps c hne]
      -- the edge is the image of one from `c`, and that leads to what was found too
      obtain ⟨a, e, hedge, ha, he⟩ :=
        (CandidateGraph.mem_succsOf_mergeNodes hb.mirrored (h.ne_of_edge hb) h.graph).1 hd
      have hain : a ∉ group := fun hain => hne (ha.symm.trans (image_of_mem hain))
      obtain rfl : a = c := (image_of_not_mem hain).symm.trans ha
      have hfound : b.graph.Found b.store start e := .step ih hexp' hedge
      rwa [← he, image_of_not_mem (hout e hfound)]
  · intro hc
    have hfound := h.found_image hb (fun a ha => hout a (.start ha)) hc
    rwa [image_of_not_mem (hout c hc)] at hfound

/-! ### The passes -/

section merged

variable (h : Region select b fromSelected fromOthers group) (hb : b.Exact) (hmerging : Merging b group b' m)

include h hb hmerging

theorem Region.found_others_iff : b'.graph.Found b'.store (b'.rootsWhere fun r => !select r) c ↔
    b.graph.Found b.store (b.rootsWhere fun r => !select r) c := by
  rw [hmerging.rootsWhere_eq hb]
  exact hmerging.found_iff_of_outside hb (hb.rootsWhere_mem_nodes _) fun c hc hin => ((h.mem_group hb).1 hin).2.2 hc

theorem Region.reachable_others : b'.reachable (b'.rootsWhere fun r => !select r) = .ok fromOthers := by
  obtain ⟨after, hafter⟩ := (hmerging.exact hb).exists_reachable (b'.rootsWhere fun r => !select r)
  have hsame : after = fromOthers := IdSet.ext fun c => by
    rw [CandidateGraph.mem_reachable hafter, CandidateGraph.mem_reachable h.others, h.found_others_iff hb hmerging]
  rw [hafter, hsame]

/-- If the roots reached everything, only the merged candidate is left in the region. -/
theorem Region.merged_unique {fromSelected' fromOthers' : IdSet .candidate} {group' : List Candidate}
    (hall : b.AllReached) (h' : Region select b' fromSelected' fromOthers' group') (hc : c ∈ group') : c = m := by
  obtain ⟨hmem, _, hout⟩ := (h'.mem_group (hmerging.exact hb)).1 hc
  rw [h.found_others_iff hb hmerging] at hout
  by_contra hne
  obtain ⟨hmem, hgroup⟩ := (hmerging.mem_interface.1 hmem).resolve_left hne
  obtain ⟨r, hr, hfound⟩ := (hall c hmem).exists_start
  have hfrom : ∀ {roots}, r ∈ roots → b.graph.Found b.store roots c := fun hin =>
    hfound.mono fun x hx => List.mem_singleton.1 hx ▸ hin
  rcases hb.mem_rootsWhere_or select hr with hselected | hother
  · exact hgroup ((h.mem_group hb).2 ⟨hmem, hfrom hselected, hout⟩)
  · exact hout (hfrom hother)

theorem Region.mergeOnlyFrom_again (hall : b.AllReached) : b'.mergeOnlyFrom select = .ok b' := by
  have hb' := hmerging.exact hb
  obtain ⟨fromSelected', fromOthers', group', h'⟩ := hb'.exists_region select
  refine h'.mergeOnlyFrom_of_small hb' ?_
  have hsub : group' ⊆ [m] := fun c hc => List.mem_singleton.2 (h.merged_unique hb hmerging hall h' hc)
  exact Nat.lt_succ_of_le (h'.nodup.length_le_of_subset hsub)

end merged

theorem exists_mergesRegion (hb : b.Exact) (hrun : b.mergeOnlyFrom select = .ok b') : ∃ fromSelected fromOthers group,
    MergesRegion select (mergeOnlyFrom · select) b fromSelected fromOthers group b' := by
  obtain ⟨fromSelected, fromOthers, group, h⟩ := hb.exists_region select
  obtain ⟨reached, hreached⟩ := hb.exists_reachable b.graph.roots
  refine ⟨fromSelected, fromOthers, group, ?_⟩
  have hpass := hrun
  rw [h.mergeOnlyFrom_eq hb] at hpass
  obtain ⟨⟨last, r⟩, hmerge, hlast⟩ := Outcome.bind_eq_ok.1 hpass
  obtain rfl : last = b' := Outcome.pure_eq_ok.1 hlast
  obtain ⟨hlen, rfl, _⟩ | ⟨m, hlen, _, hmerge⟩ := merge_eq_ok hmerge
  · exact ⟨h, fun _ => rfl, fun hlen' => absurd hlen (Nat.not_lt.2 hlen'), h.others, reached, hreached, fun _ => hrun⟩
  · have hmerging := merging_of_mergeGroup hlen (h.members hb) hmerge
    refine ⟨h, fun hlen' => absurd hlen' (Nat.not_lt.2 hlen), fun _ => ⟨m, hmerging.store.fresh, fun c => ?_⟩,
      h.reachable_others hb hmerging, reached, hreached, fun hall => h.mergeOnlyFrom_again hb hmerging fun c hc => ?_⟩
    · exact hmerging.mem_interface
    · exact (CandidateGraph.mem_reachable hreached).1 (hall c hc)

/-- Whatever was done to an interface: merging exceptions and merging statics each merge the fields that only their own
roots reach, if there are two or more, and leave the rest of the interface and what the other roots reach as they are. If
the roots reached the whole interface before, a second run changes nothing. Both passes succeed over the store of a
program, and over any store if the candidates have fields. -/
theorem only_own_region_merged (hb : Reached s p b) :
    (∀ b', b.mergeExceptions = .ok b' → ∃ fromSelected fromOthers group,
      MergesRegion (fun r => r.isException.isYes) mergeExceptions b fromSelected fromOthers group b') ∧
    (∀ b', b.mergeStatics = .ok b' → ∃ fromSelected fromOthers group,
      MergesRegion (fun r => r.isStatic.isYes) mergeStatics b fromSelected fromOthers group b') ∧
    ((∃ program, Store.Reached program s) ∨ (∀ c ∈ b.interface, ∃ f, f ∈ b.store.fieldsOf c) →
      (∃ b', b.mergeExceptions = .ok b') ∧ ∃ b', b.mergeStatics = .ok b') := by
  have hexact := hb.exact.1
  refine ⟨fun b' hrun => exists_mergesRegion hexact hrun, fun b' hrun => exists_mergesRegion hexact hrun, fun hs => ?_⟩
  have hsucceeds : ∀ select, ∃ b', b.mergeOnlyFrom select = .ok b' := by
    intro select
    obtain ⟨b', hrun, _⟩ := guards_fielded.mergeOnlyFrom (hb.fielded hs) select
    exact ⟨b', hrun⟩
  exact ⟨hsucceeds _, hsucceeds _⟩

/-- An exception holds a cause, with a message on it, and shares an object with a parameter. A static field has one field
of its own. -/
def failing : Store :=
  List.foldl (Store.addLocal · ⟨0⟩) Store.empty
    [⟨⟨0⟩, .ofList [⟨1⟩], .ofList [⟨4⟩], none, .no⟩, ⟨⟨1⟩, .ofList [⟨2⟩], .ofList [⟨4⟩, ⟨5⟩], none, .no⟩,
      ⟨⟨2⟩, .ofList [⟨5⟩], ∅, none, .yes⟩, ⟨⟨3⟩, .ofList [⟨4⟩], ∅, none, .no⟩, ⟨⟨4⟩, .ofList [⟨3⟩], ∅, none, .no⟩]

def fail : Procedure :=
  ⟨⟨0⟩, "fail", none, false,
    [.formal "request" none (IdSet.singleton ⟨1⟩), .exception none (IdSet.singleton ⟨2⟩),
      .staticField "log" none (IdSet.singleton ⟨3⟩)]⟩

/-- The cause and its message are merged, and once only. What is shared with the parameter and the static field stay. -/
theorem only_own_region_merged_failing : ∃ first last, Bounding.start failing fail = .ok first ∧
    first.interface.toList = [⟨0⟩, ⟨1⟩, ⟨2⟩, ⟨3⟩, ⟨4⟩] ∧ first.mergeExceptions = .ok last ∧
    last.interface.toList = [⟨0⟩, ⟨3⟩, ⟨4⟩, ⟨8⟩] ∧ last.mergeExceptions = .ok last ∧
    last.reachable [⟨5⟩, ⟨7⟩] = first.reachable [⟨5⟩, ⟨7⟩] := by
  obtain ⟨first, hstart, hinterface, reached, hreached, hall, last, hlast, hleft, hroots, hroots'⟩ : ∃ first,
      Bounding.start failing fail = .ok first ∧ first.interface.toList = [⟨0⟩, ⟨1⟩, ⟨2⟩, ⟨3⟩, ⟨4⟩] ∧
      ∃ reached, first.reachable first.graph.roots = .ok reached ∧ (∀ c ∈ first.interface.toList, c ∈ reached) ∧
      ∃ last, first.mergeExceptions = .ok last ∧ last.interface.toList = [⟨0⟩, ⟨3⟩, ⟨4⟩, ⟨8⟩] ∧
      (first.rootsWhere fun r => !r.isException.isYes) = [⟨5⟩, ⟨7⟩] ∧
      (last.rootsWhere fun r => !r.isException.isYes) = [⟨5⟩, ⟨7⟩] := by
    decide +kernel
  obtain ⟨hexceptions, _, _⟩ := only_own_region_merged (Reached.start hstart)
  obtain ⟨fromSelected, fromOthers, group, h⟩ := hexceptions last hlast
  obtain ⟨reached', hreached', hagain⟩ := h.again
  obtain rfl : reached = reached' := Except.ok.inj (hreached.symm.trans hreached')
  refine ⟨first, last, hstart, hinterface, hlast, hleft, hagain fun c hc => hall c (IdSet.mem_toList.2 hc), ?_⟩
  have hafter := h.others
  have hbefore := h.region.others
  rw [hroots'] at hafter
  rw [hroots] at hbefore
  rw [hafter, hbefore]

end HeapSummary.Bounding
