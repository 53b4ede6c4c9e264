import HeapSummary.Proofs.CutInterface
import HeapSummary.Proofs.MergeRuns

/-!
# What cutting below immutable types leaves

Outside of constructors the pass only removes. It removes what a search from a candidate of an immutable type finds, and
nothing of an immutable type itself (`Spared`). It does not ask how else a candidate is reached: one that a root reaches
over candidates of other types only is removed all the same if an immutable one leads to it too. Afterwards the roots may
reach less, and what they do not reach within the rest is cut on request.

In the constructor of an immutable type nothing that the constructed type reaches is removed. It is merged, which keeps
the origins, and it stays reached from the roots of that type, as merging sends paths to paths.
-/

namespace HeapSummary.Bounding

variable {s : Store} {p : Procedure} {b b' : Bounding} {immutables : IdSet .type} {cutAfter : Bool} {t : TypeId}
  {c r : Candidate}

/-- A search from some candidate of an immutable type finds `c`. -/
def BelowImmutable (b : Bounding) (immutables : IdSet .type) (c : Candidate) : Prop :=
  ∃ a ∈ b.graph.nodes, b.store.IsImmutable immutables a ∧ b.graph.Found b.store [a] c

/-- `c` is of an immutable type itself, or it is not found from any that is. -/
def Spared (b : Bounding) (immutables : IdSet .type) (c : Candidate) : Prop :=
  b.store.IsImmutable immutables c ∨ ¬ b.BelowImmutable immutables c

/-- Edges lead from a root to `c`, none from a candidate that is of an immutable type or definitely primitive. -/
inductive MutablePath (b : Bounding) (immutables : IdSet .type) : Candidate → Prop
  | root {r : Candidate} (h : r ∈ b.graph.roots) : MutablePath b immutables r
  | step {c d : Candidate} (h : MutablePath b immutables c) (htype : ¬ b.store.IsImmutable immutables c)
      (hprim : b.store.isPrimitive c = false) (hd : d ∈ b.graph.succsOf c) : MutablePath b immutables d

/-! ### Outside of constructors -/

section trimming

variable {cut own removed group : List Candidate} {trimmed : Bounding}

theorem constructedType_of_not_constructor (hp : b.procedure.isConstructor = false) :
    b.constructedType immutables = none := by
  rw [constructedType, hp]
  rfl

theorem Trimming.of_not_constructor (h : Trimming b immutables cut own removed trimmed group)
    (hp : b.procedure.isConstructor = false) :
    (∀ c, c ∈ cut ↔ c ∈ b.graph.nodes ∧ b.store.IsImmutable immutables c) ∧ own = [] ∧ group = [] := by
  have hother : ∀ c, b.store.IsImmutable immutables c → b.store.typeOf c ≠ b.constructedType immutables := by
    rintro c ⟨t, _, htype⟩
    rw [htype, constructedType_of_not_constructor hp]
    exact Option.some_ne_none t
  have hown : own = [] := by
    refine List.eq_nil_iff_forall_not_mem.2 fun c hc => ?_
    obtain ⟨_, himm, htype⟩ := (h.mem_own c).1 hc
    exact hother c himm htype
  refine ⟨fun c => ?_, hown, List.eq_nil_iff_forall_not_mem.2 fun c hc => ?_⟩
  · rw [h.mem_cut]
    exact and_congr_right fun _ => and_iff_left_of_imp (hother c)
  · exact not_found_nil (hown ▸ ((h.mem_group c).1 hc).2.1)

theorem Trimming.mem_interface_iff_spared (h : Trimming b immutables cut own removed trimmed group) (hb : b.Exact)
    (hp : b.procedure.isConstructor = false) : c ∈ trimmed.interface ↔ c ∈ b.interface ∧ b.Spared immutables c := by
  obtain ⟨hcut, rfl, _⟩ := h.of_not_constructor hp
  have hbelow : b.graph.Found b.store cut c ↔ b.BelowImmutable immutables c := by
    constructor
    · intro hfound
      obtain ⟨a, ha, hfound⟩ := hfound.exists_start
      exact ⟨a, ((hcut a).1 ha).1, ((hcut a).1 ha).2, hfound⟩
    · rintro ⟨a, hnode, himm, hfound⟩
      exact hfound.mono fun x hx => List.mem_singleton.1 hx ▸ (hcut a).2 ⟨hnode, himm⟩
  rw [h.mem_interface, hbelow]
  refine and_congr_right fun hc => ?_
  have himm : c ∈ cut ↔ b.store.IsImmutable immutables c :=
    (hcut c).trans (and_iff_right ((hb.nodes c).2 (.inr hc)))
  rw [himm, Spared, or_iff_right not_found_nil]
  tauto

theorem Trimming.found_iff_rootReaches (h : Trimming b immutables cut own removed trimmed group) (hb : b.Exact)
    (hp : b.procedure.isConstructor = false) :
    c ∈ trimmed.interface ∧ trimmed.graph.Found trimmed.store trimmed.graph.roots c ↔
      RootReaches b.store b.procedure {d | d ∈ b.interface ∧ b.Spared immutables d} c := by
  have hset : {d | d ∈ trimmed.interface} = {d | d ∈ b.interface ∧ b.Spared immutables d} := by
    ext d
    exact h.mem_interface_iff_spared hb hp
  rw [(h.exact hb).found_iff_rootReaches, hset, h.toRemoved.procedure]
  exact RootReaches.keeps_iff (Store.keeps_of_arena h.toRemoved.arena) fun d hd => hb.fields d hd.1

end trimming

theorem exists_cutImmutables_of_not_constructor (hb : b.Exact) (hp : b.procedure.isConstructor = false)
    (immutables : IdSet .type) (cutAfter : Bool) : ∃ b', b.cutImmutables immutables cutAfter = .ok b' ∧
      ∀ c, c ∈ b'.interface ↔ c ∈ b.interface ∧ b.Spared immutables c ∧
        (cutAfter = true → (∃ a ∈ b.graph.nodes, b.store.IsImmutable immutables a) →
          RootReaches b.store b.procedure {d | d ∈ b.interface ∧ b.Spared immutables d} c) := by
  obtain ⟨cut, own, removed, trimmed, group, h⟩ := hb.exists_trimming immutables
  obtain ⟨hcut, _, rfl⟩ := h.of_not_constructor hp
  have hmerge : trimmed.merge [] = .ok (trimmed, none) := rfl
  rw [h.eq, Outcome.bind_of_ok hmerge]
  by_cases hafter : (!cut.isEmpty && cutAfter) = true
  · obtain ⟨last, hlast⟩ := (h.exact hb).exists_cutUnreachable
    refine ⟨last, by rwa [if_pos hafter], fun c => ?_⟩
    rw [mem_interface_cutUnreachable hlast, h.found_iff_rootReaches hb hp]
    obtain ⟨hsome, rfl⟩ : cut ≠ [] ∧ cutAfter = true := by simpa using hafter
    obtain ⟨a, ha⟩ := List.exists_mem_of_ne_nil cut hsome
    constructor
    · exact fun hreaches => ⟨hreaches.mem.1, hreaches.mem.2, fun _ _ => hreaches⟩
    · exact fun hc => hc.2.2 rfl ⟨a, (hcut a).1 ha⟩
  · refine ⟨trimmed, by rw [if_neg hafter]; rfl, fun c => ?_⟩
    rw [h.mem_interface_iff_spared hb hp, ← and_assoc]
    refine (and_iff_left_of_imp fun _ hcutAfter => ?_).symm
    rintro ⟨a, ha⟩
    have hnil : cut = [] := by simpa [hcutAfter] using hafter
    exact absurd ((hcut a).2 ha) (hnil ▸ List.not_mem_nil)

/-- A path on which nothing is primitive lies within the spared candidates if its end is not below an immutable one. -/
theorem MutablePath.rootReaches (h : b.MutablePath immutables c) (hb : b.Exact) (hc : c ∈ b.interface)
    (hout : ¬ b.BelowImmutable immutables c) :
    RootReaches b.store b.procedure {d | d ∈ b.interface ∧ b.Spared immutables d} c := by
  induction h with
  | root hroot => exact absurd hroot (hb.not_mem_roots_of_interface hc)
  | @step c d _ _ hprim hd ih =>
    obtain ⟨hnode, _, hleads⟩ := (hb.edges c d).1 hd
    obtain ⟨o, hbase, ho⟩ := Store.leads_iff.1 hleads
    have hspared : b.Spared immutables d := .inr hout
    rcases (hb.nodes c).1 hnode with hroot | hmem
    · exact .root ⟨hc, hspared⟩ hbase (hb.mem_rootPts.2 ⟨c, hroot, ho⟩)
    · obtain ⟨f, hf⟩ := hb.fields c hmem
      refine .step (ih hmem ?_) hprim ⟨hc, hspared⟩ hbase (Store.ptsOf_of_field hf ▸ ho)
      rintro ⟨a, ha, himm, hfound⟩
      exact hout ⟨a, ha, himm, hfound.step (.inr hprim) hd⟩

/-- Outside of constructors the pass succeeds. It leaves the candidates that are spared, and of these, if that is asked
for and there is anything of an immutable type, what the roots reach within them. So a candidate that a root reaches over
candidates that are neither of an immutable type nor primitive, and that is not of an immutable type itself, stays if and
only if no candidate of an immutable type leads to it. -/
theorem mutable_kept_iff (hb : Reached s p b) (hp : p.isConstructor = false) (immutables : IdSet .type)
    (cutAfter : Bool) : ∃ b', b.cutImmutables immutables cutAfter = .ok b' ∧
      (∀ c, c ∈ b'.interface ↔ c ∈ b.interface ∧ b.Spared immutables c ∧
        (cutAfter = true → (∃ a ∈ b.graph.nodes, b.store.IsImmutable immutables a) →
          RootReaches b.store p {d | d ∈ b.interface ∧ b.Spared immutables d} c)) ∧
      ∀ c ∈ b.interface, b.MutablePath immutables c → ¬ b.store.IsImmutable immutables c →
        (c ∈ b'.interface ↔ ¬ b.BelowImmutable immutables c) := by
  obtain ⟨hexact, rfl⟩ := hb.exact
  obtain ⟨b', hrun, hmem⟩ := exists_cutImmutables_of_not_constructor hexact hp immutables cutAfter
  refine ⟨b', hrun, hmem, fun c hc hpath htype => ?_⟩
  rw [hmem]
  constructor
  · rintro ⟨_, hspared, _⟩
    exact hspared.resolve_left htype
  · exact fun hout => ⟨hc, .inr hout, fun _ _ => hpath.rootReaches hexact hc hout⟩

/-- A buffer and a string of the immutable type hold the same object, on which an element is accessed. -/
def sharedElements : Store :=
  List.foldl (Store.addLocal · ⟨0⟩) Store.empty
    [⟨⟨0⟩, .ofList [⟨1⟩], .ofList [⟨3⟩], none, .no⟩, ⟨⟨1⟩, .ofList [⟨2⟩], .ofList [⟨3⟩], none, .no⟩,
      ⟨⟨2⟩, .ofList [⟨3⟩], ∅, none, .no⟩]

def share : Procedure :=
  ⟨⟨0⟩, "share", none, false,
    [.formal "buffer" none (IdSet.singleton ⟨1⟩), .formal "string" (some ⟨0⟩) (IdSet.singleton ⟨2⟩)]⟩

theorem run_sharedElements : ∃ first last, Bounding.start sharedElements share = .ok first ∧
    first.interface.toList = [⟨0⟩, ⟨1⟩, ⟨2⟩] ∧
    first.MutablePath (IdSet.singleton ⟨0⟩) ⟨0⟩ ∧ ¬ first.store.IsImmutable (IdSet.singleton ⟨0⟩) ⟨0⟩ ∧
    first.MutablePath (IdSet.singleton ⟨0⟩) ⟨2⟩ ∧ ¬ first.store.IsImmutable (IdSet.singleton ⟨0⟩) ⟨2⟩ ∧
    first.cutImmutables (IdSet.singleton ⟨0⟩) true = .ok last ∧ last.interface.toList = [⟨0⟩] := by
  obtain ⟨first, hstart, hinterface, hroot, hheld, hshared, htypes, hprim, last, hlast, hleft⟩ : ∃ first,
      Bounding.start sharedElements share = .ok first ∧ first.interface.toList = [⟨0⟩, ⟨1⟩, ⟨2⟩] ∧
      ⟨3⟩ ∈ first.graph.roots ∧ ⟨0⟩ ∈ first.graph.succsOf ⟨3⟩ ∧ ⟨2⟩ ∈ first.graph.succsOf ⟨0⟩ ∧
      (∀ c ∈ [⟨0⟩, ⟨2⟩, ⟨3⟩], ¬ first.store.IsImmutable (IdSet.singleton ⟨0⟩) c) ∧
      (∀ c ∈ [⟨0⟩, ⟨3⟩], first.store.isPrimitive c = false) ∧
      ∃ last, first.cutImmutables (IdSet.singleton ⟨0⟩) true = .ok last ∧ last.interface.toList = [⟨0⟩] :=
    ⟨_, rfl, rfl, by decide, by decide, by decide, by decide, by decide, by decide +kernel⟩
  have hbuffer : first.MutablePath (IdSet.singleton ⟨0⟩) ⟨0⟩ :=
    .step (.root hroot) (htypes ⟨3⟩ (by decide)) (hprim ⟨3⟩ (by decide)) hheld
  have helement : first.MutablePath (IdSet.singleton ⟨0⟩) ⟨2⟩ :=
    .step hbuffer (htypes ⟨0⟩ (by decide)) (hprim ⟨0⟩ (by decide)) hshared
  exact ⟨first, last, hstart, hinterface, hbuffer, htypes ⟨0⟩ (by decide), helement, htypes ⟨2⟩ (by decide), hlast, hleft⟩

/-- What the buffer holds stays, as only the buffer leads to it. The string leads to the element as well. -/
theorem mutable_kept_iff_sharedElements : ∃ first last, Bounding.start sharedElements share = .ok first ∧
    share.isConstructor = false ∧ first.cutImmutables (IdSet.singleton ⟨0⟩) true = .ok last ∧
    last.interface.toList = [⟨0⟩] ∧ ¬ first.BelowImmutable (IdSet.singleton ⟨0⟩) ⟨0⟩ ∧
    first.BelowImmutable (IdSet.singleton ⟨0⟩) ⟨2⟩ := by
  obtain ⟨first, last, hstart, hinterface, hbuffer, hother, helement, hother', hlast, hleft⟩ := run_sharedElements
  obtain ⟨b', hrun, _, hkept⟩ := mutable_kept_iff (Reached.start hstart) rfl (IdSet.singleton ⟨0⟩) true
  obtain rfl : last = b' := Except.ok.inj (hlast.symm.trans hrun)
  simp only [← IdSet.mem_toList, hinterface, hleft] at hkept
  refine ⟨first, last, hstart, rfl, hlast, hleft, (hkept ⟨0⟩ (by decide) hbuffer hother).1 (by decide), ?_⟩
  by_contra hout
  exact absurd ((hkept ⟨2⟩ (by decide) helement hother').2 hout) (by decide)

/-- The buffer leads to the element over nothing immutable and nothing primitive, and yet the element is cut. -/
theorem shared_element_cut : ∃ first last, Bounding.start sharedElements share = .ok first ∧
    share.isConstructor = false ∧ first.cutImmutables (IdSet.singleton ⟨0⟩) true = .ok last ∧
    ⟨2⟩ ∈ first.interface ∧ first.MutablePath (IdSet.singleton ⟨0⟩) ⟨2⟩ ∧ ⟨2⟩ ∉ last.interface := by
  obtain ⟨first, last, hstart, hinterface, _, _, helement, _, hlast, hleft⟩ := run_sharedElements
  refine ⟨first, last, hstart, rfl, hlast, ?_, helement, ?_⟩
  · rw [← IdSet.mem_toList, hinterface]
    decide
  · rw [← IdSet.mem_toList, hleft]
    decide

/-! ### In the constructor of an immutable type -/

theorem constructedType_of_constructor (hp : b.procedure.isConstructor = true)
    (htype : b.procedure.declaringType = some t) (ht : t ∈ immutables) : b.constructedType immutables = some t := by
  rw [constructedType, if_pos hp, htype]
  exact Option.filter_eq_some_iff.2 ⟨rfl, ht⟩

theorem Sends.found {φ : Candidate → Candidate} {start : List Candidate} (h : Sends b φ b') (hb : b.Exact)
    (hstart : ∀ a ∈ start, a ∈ b.graph.roots) (hc : b.graph.Found b.store start c) :
    b'.graph.Found b'.store start (φ c) := by
  induction h with
  | nothing => exact hc
  | merge h hlen hgroup hmerge ih =>
    have hexact := h.exact hb
    refine (merging_of_mergeGroup hlen hgroup hmerge).found_image hexact (fun a ha hin => ?_) ih
    exact hexact.not_mem_roots_of_interface (hgroup a hin) (h.sameFrame.roots ▸ hstart a ha)

theorem exists_sends_of_merge {group : List Candidate} {r : Option Candidate} (hgroup : ∀ c ∈ group, c ∈ b.interface)
    (h : b.merge group = .ok (b', r)) : ∃ φ, Sends b φ b' := by
  obtain ⟨_, rfl, _⟩ | ⟨m, hlen, _, hmerge⟩ := merge_eq_ok h
  · exact ⟨id, .nothing⟩
  · exact ⟨_, .merge .nothing hlen hgroup hmerge⟩

/-- What a root of the constructed type reaches is not removed, so it is still found from there. -/
theorem Trimming.found_of_own {cut own removed group : List Candidate} {trimmed : Bounding}
    (h : Trimming b immutables cut own removed trimmed group) (hb : b.Exact) (hr : r ∈ own)
    (hc : b.graph.Found b.store [r] c) : trimmed.graph.Found trimmed.store [r] c := by
  refine h.toRemoved.found hb (h.exact hb) (fun d hd hremoved => ?_) hc
  exact ((h.mem_removed d).1 hremoved).2.2.1 (hd.mono fun x hx => List.mem_singleton.1 hx ▸ hr)

theorem exists_origin_of_own (hb : b.Exact) (h : b.cutImmutables immutables cutAfter = .ok b')
    (hr : r ∈ b.graph.roots) (himm : b.store.IsImmutable immutables r)
    (htype : b.store.typeOf r = b.constructedType immutables) (hc : c ∈ b.interface)
    (hfound : b.graph.Found b.store [r] c) :
    ∃ d ∈ b'.interface, ∀ o ∈ b.store.originOf c, o ∈ b'.store.originOf d := by
  obtain ⟨cut, own, removed, trimmed, group, htrim⟩ := hb.exists_trimming immutables
  have hown : r ∈ own := (htrim.mem_own r).2 ⟨(hb.nodes r).2 (.inl hr), himm, htype⟩
  have htrimmed := htrim.exact hb
  have hkept : c ∈ trimmed.interface := htrim.mem_interface.2
    ⟨hc, fun _ => .inl (hfound.mono fun x hx => List.mem_singleton.1 hx ▸ hown)⟩
  rw [htrim.eq] at h
  obtain ⟨⟨merged, m⟩, hmerged, h⟩ := Outcome.bind_eq_ok.1 h
  obtain ⟨φ, hsends⟩ := exists_sends_of_merge htrim.members hmerged
  have himage : φ c ∈ merged.interface := hsends.mem_interface.2 ⟨c, hkept, rfl⟩
  have horigin : ∀ o ∈ b.store.originOf c, o ∈ merged.store.originOf (φ c) := by
    intro o ho
    refine (hsends.mem_originOf htrimmed himage).2 ⟨c, hkept, rfl, ?_⟩
    exact (Store.keeps_of_arena htrim.toRemoved.arena).mem_originOf ho
  split at h
  · have hroots : ∀ a ∈ [r], a ∈ trimmed.graph.roots := fun a ha =>
      htrim.toRemoved.roots ▸ List.mem_singleton.1 ha ▸ hr
    have hreached : merged.graph.Found merged.store merged.graph.roots (φ c) := by
      rw [hsends.sameFrame.roots]
      exact (hsends.found htrimmed hroots (htrim.found_of_own hb hown hfound)).mono hroots
    refine ⟨φ c, (mem_interface_cutUnreachable h).2 ⟨himage, hreached⟩, fun o ho => ?_⟩
    have hkeeps := (sameFrame_of_edits (edits_of_removes (removes_cutUnreachable h))).candidates
    exact hkeeps.mem_originOf (horigin o ho)
  · obtain rfl : merged = b' := Outcome.pure_eq_ok.1 h
    exact ⟨φ c, himage, horigin⟩

/-- In the constructor of an immutable type the pass succeeds, and whatever a root of that type reaches stays visible:
for each such candidate of the interface there is one afterwards whose origin includes its origin. -/
theorem constructed_origins_kept (hb : Reached s p b)
    (hs : (∃ program, Store.Reached program s) ∨ ∀ c ∈ b.interface, ∃ f, f ∈ b.store.fieldsOf c)
    (hp : p.isConstructor = true) (htype : p.declaringType = some t) (ht : t ∈ immutables) (cutAfter : Bool) :
    ∃ b', b.cutImmutables immutables cutAfter = .ok b' ∧
      ∀ r ∈ b.graph.roots, b.store.typeOf r = some t → ∃ found, b.reachable [r] = .ok found ∧
        ∀ c ∈ found, c ∈ b.interface →
          ∃ d ∈ b'.interface, ∀ o ∈ b.store.originOf c, o ∈ b'.store.originOf d := by
  have hfielded := hb.fielded hs
  obtain ⟨hexact, rfl⟩ := hb.exact
  obtain ⟨b', hrun, _⟩ := guards_fielded.cutImmutables hfielded immutables cutAfter
  have hconstructed := constructedType_of_constructor hp htype ht
  refine ⟨b', hrun, fun r hr hroot => ?_⟩
  obtain ⟨found, hfound⟩ := hexact.exists_reachable [r]
  refine ⟨found, hfound, fun c hc hmem => ?_⟩
  exact exists_origin_of_own hexact hrun hr ⟨t, ht, hroot⟩ (hroot.trans hconstructed.symm) hmem
    ((CandidateGraph.mem_reachable hfound).1 hc)

/-- The constructor of a boxed number. It sets the value and a field of the cache that the box holds, and it reads an
element of a string. -/
def boxing : Store :=
  List.foldl (Store.addLocal · ⟨0⟩) Store.empty
    [⟨⟨0⟩, .ofList [⟨1⟩], ∅, none, .yes⟩, ⟨⟨1⟩, .ofList [⟨1⟩], .ofList [⟨2⟩], none, .no⟩,
      ⟨⟨2⟩, .ofList [⟨2⟩], ∅, none, .no⟩, ⟨⟨3⟩, .ofList [⟨5⟩], .ofList [⟨6⟩], none, .no⟩,
      ⟨⟨4⟩, .ofList [⟨6⟩], ∅, none, .no⟩]

def box : Procedure :=
  ⟨⟨0⟩, "box", some ⟨0⟩, true,
    [.formal "this" (some ⟨0⟩) (IdSet.singleton ⟨1⟩), .formal "string" (some ⟨1⟩) (IdSet.singleton ⟨5⟩)]⟩

/-- All that the box reaches is merged, and what only the string reaches is cut. -/
theorem constructed_origins_kept_boxing : ∃ first last found, Bounding.start boxing box = .ok first ∧
    box.isConstructor = true ∧ box.declaringType = some ⟨0⟩ ∧
    first.cutImmutables (.ofList [⟨0⟩, ⟨1⟩]) true = .ok last ∧ last.interface.toList = [⟨7⟩] ∧
    first.reachable [⟨5⟩] = .ok found ∧
    ∀ c ∈ found, c ∈ first.interface → ∀ o ∈ first.store.originOf c, o ∈ last.store.originOf ⟨7⟩ := by
  obtain ⟨first, hstart, hfields, hroot, htype, last, hlast, hleft⟩ : ∃ first, Bounding.start boxing box = .ok first ∧
      (∀ c ∈ first.interface.toList, (first.store.fieldsOf c).isEmpty = false) ∧ ⟨5⟩ ∈ first.graph.roots ∧
      first.store.typeOf ⟨5⟩ = some ⟨0⟩ ∧ ∃ last, first.cutImmutables (.ofList [⟨0⟩, ⟨1⟩]) true = .ok last ∧
        last.interface.toList = [⟨7⟩] := by
    decide +kernel
  have hsome : ∀ c ∈ first.interface, ∃ f, f ∈ first.store.fieldsOf c := fun c hc =>
    IdSet.isEmpty_eq_false_iff.1 (hfields c (IdSet.mem_toList.2 hc))
  obtain ⟨b', hrun, hkept⟩ := constructed_origins_kept (Reached.start hstart) (.inr hsome) rfl rfl
    (by decide : (⟨0⟩ : TypeId) ∈ IdSet.ofList [⟨0⟩, ⟨1⟩]) true
  obtain rfl : last = b' := Except.ok.inj (hlast.symm.trans hrun)
  obtain ⟨found, hfound, horigins⟩ := hkept ⟨5⟩ hroot htype
  refine ⟨first, last, found, hstart, rfl, rfl, hlast, hleft, hfound, fun c hc hmem => ?_⟩
  obtain ⟨d, hd, hincludes⟩ := horigins c hc hmem
  rw [← IdSet.mem_toList, hleft, List.mem_singleton] at hd
  exact hd ▸ hincludes

end HeapSummary.Bounding
