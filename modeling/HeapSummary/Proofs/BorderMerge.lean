import HeapSummary.Proofs.Distances
import HeapSummary.Proofs.MergeRuns
import HeapSummary.Proofs.PassesSucceed

/-!
# Merging below a depth keeps the frontier apart

The border is worked off one candidate after the other, on a graph that the merges before have changed. What keeps
candidates of the frontier apart is that a border candidate absorbs only what was not taken, and that a merged candidate
counts as taken (`KeptApart`): at most one candidate of the frontier is sent to any place. What a border candidate leads
to and does not absorb was absorbed by an earlier one, or it is left for a later one, from which it is still found.
-/

namespace HeapSummary.Bounding

open CandidateGraph (image image_of_mem image_of_not_mem eq_or_mem_of_image_eq)
open Relation (ReflTransGen)

variable {b₀ b b' : Bounding} {s : Store} {p : Procedure} {φ : Candidate → Candidate} {c d m : Candidate}
  {T : Set Candidate} {border rest group : List Candidate} {taken taken' : IdSet .candidate} {max depth : Nat}

/-- The border of the frontier `T` is worked off down to `rest`, and merges sent the candidates of `b₀` where `φ`
does. -/
structure KeptApart (b₀ : Bounding) (T : Set Candidate) (border : List Candidate) (φ : Candidate → Candidate)
    (b : Bounding) (taken : IdSet .candidate) (rest : List Candidate) : Prop where
  sends : b₀.Sends φ b
  nodup : rest.Nodup
  ahead : ∀ c ∈ rest, c ∈ border
  takes : ∀ c ∈ T, φ c ∈ taken
  counted : ∀ c ∈ b₀.interface, φ c ∈ taken → c ∈ T ∨ ∃ a ∈ border, φ c = φ a
  stays : ∀ c ∈ T, c ∉ border ∨ c ∈ rest → φ c = c
  apart : ∀ c ∈ T, ∀ d ∈ T, φ c = φ d → c = d
  moved : ∀ c ∈ b₀.interface, φ c = c ∨ ∃ a ∈ border, ReflTransGen (fun x y => y ∈ b₀.graph.succsOf x) a c
  covered : ∀ a ∈ border, ∀ c ∉ T, b₀.graph.Found b₀.store [a] c →
    (∃ a ∈ border, φ c = φ a) ∨ φ c = c ∧ ∃ a ∈ rest, b.graph.Found b.store [a] c

namespace KeptApart

theorem start (hnodup : border.Nodup) (htaken : ∀ c, c ∈ taken ↔ c ∈ T) : KeptApart b T border id b taken border where
  sends := .nothing
  nodup := hnodup
  ahead _ hc := hc
  takes c hc := (htaken c).2 hc
  counted c _ hc := .inl ((htaken c).1 hc)
  stays _ _ _ := rfl
  apart _ _ _ _ heq := heq
  moved _ _ := .inl rfl
  covered a ha _ _ hfound := .inr ⟨rfl, a, ha, hfound⟩

theorem absorbed_of_taken (h : KeptApart b₀ T border φ b taken rest) (hc : c ∈ b₀.interface) (hout : c ∉ T)
    (htaken : φ c ∈ taken) : ∃ a ∈ border, φ c = φ a :=
  (h.counted c hc htaken).resolve_left hout

theorem eq_of_mem_group (h : KeptApart b₀ T border φ b taken (c :: rest)) (hborder : ∀ c ∈ border, c ∈ T)
    (hgroup : ∀ d, d ∈ group ↔ d = c ∨ b.graph.Found b.store [c] d ∧ d ∉ taken) (hd : d ∈ T) (hin : φ d ∈ group) :
    d = c := by
  have hc : c ∈ T := hborder c (h.ahead c List.mem_cons_self)
  have hstays : φ c = c := h.stays c hc (.inr List.mem_cons_self)
  rcases (hgroup (φ d)).1 hin with heq | ⟨_, huntaken⟩
  · exact h.apart d hd c hc (heq.trans hstays.symm)
  · exact absurd (h.takes d hd) huntaken

section step

variable (hb : b₀.Exact) (hT : ∀ c ∈ T, c ∈ b₀.interface) (hborder : ∀ c ∈ border, c ∈ T)

include hb hT hborder

theorem mem_interface_of_found (ha : c ∈ border) (hfound : b₀.graph.Found b₀.store [c] d) : d ∈ b₀.interface :=
  hb.mem_interface_of_found (fun _ hx => List.mem_singleton.1 hx ▸ hT c (hborder c ha)) hfound

theorem pass (h : KeptApart b₀ T border φ b taken (c :: rest))
    (hnone : ∀ d, b.graph.Found b.store [c] d → d = c ∨ d ∈ taken) : KeptApart b₀ T border φ b taken rest where
  sends := h.sends
  nodup := (List.nodup_cons.1 h.nodup).2
  ahead a ha := h.ahead a (List.mem_cons_of_mem c ha)
  takes := h.takes
  counted := h.counted
  stays a ha hwhen := h.stays a ha (hwhen.imp_right (List.mem_cons_of_mem c))
  apart := h.apart
  moved := h.moved
  covered a ha d hd hfound := by
    have hmem := mem_interface_of_found hb hT hborder ha hfound
    rcases h.covered a ha d hd hfound with habsorbed | ⟨hstays, e, he, hfound⟩
    · exact .inl habsorbed
    · rcases List.mem_cons.1 he with rfl | he
      · rcases hnone d hfound with rfl | htaken
        · exact absurd (hborder d (h.ahead d List.mem_cons_self)) hd
        · exact .inl (h.absorbed_of_taken hmem hd (hstays.symm ▸ htaken))
      · exact .inr ⟨hstays, e, he, hfound⟩

theorem exists_path (h : KeptApart b₀ T border φ b taken (c :: rest)) (hd : d ∈ b₀.interface)
    (hfound : b.graph.Found b.store [c] (φ d)) :
    ∃ a ∈ border, ReflTransGen (fun x y => y ∈ b₀.graph.succsOf x) a d := by
  have hc : c ∈ border := h.ahead c List.mem_cons_self
  have hmem : c ∈ b₀.interface := hT c (hborder c hc)
  have hnode : ∀ a ∈ b₀.interface, a ∈ b₀.graph.nodes := fun a ha => (hb.nodes a).2 (.inr ha)
  have hstays : φ c = c := h.stays c (hborder c hc) (.inr List.mem_cons_self)
  have hstart : ∀ a ∈ [c], a ∈ b.interface := fun a ha =>
    List.mem_singleton.1 ha ▸ h.sends.mem_interface.2 ⟨c, hmem, hstays⟩
  generalize hx : φ d = x at hfound
  induction hfound generalizing d with
  | start hstart =>
    obtain rfl := List.mem_singleton.1 hstart
    obtain rfl := h.sends.eq_of_image hb (hnode _ hmem) hx
    exact ⟨d, hc, .refl⟩
  | step hfound _ hedge ih =>
    rcases h.moved d hd with hdstays | hpath
    · obtain ⟨u, v, hv, rfl, hvx⟩ := (h.sends.mem_succsOf hb).1 hedge
      obtain rfl := h.sends.eq_of_image hb (hnode d hd) (hvx.trans (hx.symm.trans hdstays))
      have hu : u ∈ b₀.interface := by
        have hplace := (h.sends.exact hb).mem_interface_of_found hstart hfound
        refine ((hb.nodes u).1 ((hb.edges u v).1 hv).1).resolve_left fun hroot => ?_
        rw [h.sends.root hb hroot] at hplace
        exact (h.sends.exact hb).not_mem_roots_of_interface hplace (h.sends.sameFrame.roots ▸ hroot)
      obtain ⟨a, ha, hpath⟩ := ih hu rfl
      exact ⟨a, ha, hpath.tail hv⟩
    · exact hpath

/-- When a border candidate is merged with what is found from it and was not taken, nothing that is left for the later
ones gets lost. -/
theorem covered_absorb (h : KeptApart b₀ T border φ b taken (c :: rest)) (hm : Merging b group b' m)
    (hgroup : ∀ d, d ∈ group ↔ d = c ∨ b.graph.Found b.store [c] d ∧ d ∉ taken) {a : Candidate} (ha : a ∈ border)
    (hd : d ∉ T) (hfound : b₀.graph.Found b₀.store [a] d) (hout : φ d ∉ group) :
    (∃ a ∈ border, φ d = φ a) ∨ φ d = d ∧ ∃ a ∈ rest, b'.graph.Found b'.store [a] d := by
  rcases h.covered a ha d hd hfound with habsorbed | ⟨hdstays, e, he, hfound'⟩
  · exact .inl habsorbed
  rcases List.mem_cons.1 he with rfl | hlater
  · -- what is found from the border candidate and not merged with it was taken
    refine .inl (h.absorbed_of_taken (mem_interface_of_found hb hT hborder ha hfound) hd ?_)
    by_contra huntaken
    exact hout ((hgroup (φ d)).2 (.inr ⟨hdstays.symm ▸ hfound', huntaken⟩))
  · have heT : e ∈ T := hborder e (h.ahead e (List.mem_cons_of_mem c hlater))
    have hestays : φ e = e := h.stays e heT (.inr (List.mem_cons_of_mem c hlater))
    have heout : e ∉ group := by
      intro hin
      obtain rfl := h.eq_of_mem_group hborder hgroup heT (hestays.symm ▸ hin)
      exact (List.nodup_cons.1 h.nodup).1 hlater
    have hfound'' := hm.found_image (h.sends.exact hb) (fun x hx => List.mem_singleton.1 hx ▸ heout) hfound'
    rw [image_of_not_mem (hdstays ▸ hout)] at hfound''
    exact .inr ⟨hdstays, e, hlater, hfound''⟩

theorem absorb (h : KeptApart b₀ T border φ b taken (c :: rest)) (hlen : 2 ≤ group.length)
    (hmerge : b.mergeGroup group = .ok (b', m)) (hm : Merging b group b' m)
    (hgroup : ∀ d, d ∈ group ↔ d = c ∨ b.graph.Found b.store [c] d ∧ d ∉ taken) :
    KeptApart b₀ T border (image group m ∘ φ) b' (taken.insert m) rest := by
  obtain ⟨hcrest, hnodup⟩ := List.nodup_cons.1 h.nodup
  have hc : c ∈ border := h.ahead c List.mem_cons_self
  have hstays : φ c = c := h.stays c (hborder c hc) (.inr List.mem_cons_self)
  have hcgroup : φ c ∈ group := (hgroup (φ c)).2 (.inl hstays)
  have hnode : ∀ a ∈ b₀.interface, φ a ≠ m := fun a ha =>
    hm.ne_of_mem_nodes (h.sends.exact hb) ((h.sends.mem_nodes hb).2 ⟨a, (hb.nodes a).2 (.inr ha), rfl⟩)
  have hwith : ∀ d, φ d ∈ group → (image group m ∘ φ) d = (image group m ∘ φ) c := by
    intro d hin
    rw [Function.comp_apply, Function.comp_apply, image_of_mem hin, image_of_mem hcgroup]
  have hsame : ∀ d, (∃ a ∈ border, φ d = φ a) → ∃ a ∈ border, (image group m ∘ φ) d = (image group m ∘ φ) a := by
    rintro d ⟨a, ha, heq⟩
    exact ⟨a, ha, congrArg (image group m) heq⟩
  refine ⟨h.sends.merge hlen hm.members hmerge, hnodup, fun a ha => h.ahead a (List.mem_cons_of_mem c ha),
    fun a ha => ?_, fun d hd htaken => ?_, fun a ha hwhen => ?_, fun a ha d hd heq => ?_, fun d hd => ?_,
    fun a ha d hd hfound => ?_⟩
  · by_cases hin : φ a ∈ group
    · rw [Function.comp_apply, image_of_mem hin]
      exact IdSet.mem_insert.2 (.inl rfl)
    · rw [Function.comp_apply, image_of_not_mem hin]
      exact IdSet.mem_insert.2 (.inr (h.takes a ha))
  · by_cases hin : φ d ∈ group
    · exact .inr ⟨c, hc, hwith d hin⟩
    · rw [Function.comp_apply, image_of_not_mem hin, IdSet.mem_insert] at htaken
      exact (h.counted d hd (htaken.resolve_left (hnode d hd))).imp_right (hsame d)
  · have hold : φ a = a := h.stays a ha (hwhen.imp_right (List.mem_cons_of_mem c))
    have hout : φ a ∉ group := by
      intro hin
      obtain rfl := h.eq_of_mem_group hborder hgroup ha hin
      exact hwhen.elim (fun hnot => hnot hc) hcrest
    rw [Function.comp_apply, image_of_not_mem hout, hold]
  · rcases eq_or_mem_of_image_eq (hnode a (hT a ha)) (hnode d (hT d hd)) heq with heq | ⟨hin, hin'⟩
    · exact h.apart a ha d hd heq
    · exact (h.eq_of_mem_group hborder hgroup ha hin).trans (h.eq_of_mem_group hborder hgroup hd hin').symm
  · by_cases hin : φ d ∈ group
    · refine .inr (h.exists_path hb hT hborder hd ?_)
      rcases (hgroup (φ d)).1 hin with heq | ⟨hfound, _⟩
      · exact .start (List.mem_singleton.2 heq)
      · exact hfound
    · rw [Function.comp_apply, image_of_not_mem hin]
      exact h.moved d hd
  · by_cases hin : φ d ∈ group
    · exact .inl ⟨c, hc, hwith d hin⟩
    · refine (h.covered_absorb hb hT hborder hm hgroup ha hd hfound hin).imp (hsame d) ?_
      rintro ⟨hdstays, hlater⟩
      exact ⟨(image_of_not_mem hin).trans hdstays, hlater⟩

theorem step (h : KeptApart b₀ T border φ b taken (c :: rest)) (hstep : absorbBelow (b, taken) c = .ok (b', taken')) :
    ∃ ψ, KeptApart b₀ T border ψ b' taken' rest := by
  have hexact : b.Exact := h.sends.exact hb
  have hc : c ∈ T := hborder c (h.ahead c List.mem_cons_self)
  have hmem : c ∈ b.interface :=
    h.sends.mem_interface.2 ⟨c, hT c hc, h.stays c hc (.inr List.mem_cons_self)⟩
  obtain ⟨hout, _⟩ | ⟨_, rfl, rfl, hnone⟩ | ⟨_, group, m, hlen, hmerge, hmerging, rfl, hgroup⟩ :=
    absorbBelow_cases hexact (hexact.not_mem_roots_of_interface hmem) hstep
  · exact absurd hmem hout
  · exact ⟨φ, h.pass hb hT hborder hnone⟩
  · exact ⟨_, h.absorb hb hT hborder hlen hmerge hmerging hgroup⟩

theorem run (h : KeptApart b₀ T border φ b taken rest)
    (hrun : rest.foldlM absorbBelow (b, taken) = .ok (b', taken')) : ∃ ψ, KeptApart b₀ T border ψ b' taken' [] := by
  refine Outcome.foldlM_rest (P := fun rest state => ∃ ψ, KeptApart b₀ T border ψ state.1 state.2 rest) ?_ ⟨φ, h⟩ hrun
  rintro c rest ⟨b, taken⟩ ⟨b', taken'⟩ ⟨ψ, h⟩ hstep
  exact h.step hb hT hborder hstep

end step

end KeptApart

/-- If there are candidates at distance 1, but no more than the limit, merging below a depth succeeds. Let `d` be the
largest distance up to the depth within which the candidates are no more than the limit. Of those within `d`, all but the
border stay untouched. Border candidates are sent to different places, each to itself or to a new candidate, together
with candidates beyond `d` only. What a search from the border finds beyond `d` is absorbed into one of these. What edges
do not lead to from the border is untouched. -/
theorem frontier_kept_apart (hb : Reached s p b)
    (hs : (∃ program, Store.Reached program s) ∨ ∀ c ∈ b.interface, ∃ f, f ∈ b.store.fieldsOf c)
    (hdepth : 1 ≤ depth) (hsome : 0 < (b.atDistance 1).ncard) (hmax : (b.atDistance 1).ncard ≤ max) :
    ∃ d b' φ, IsGreatest {k | k ≤ depth ∧ (b.within k).ncard ≤ max} d ∧ b.mergeBelowDepth max depth = .ok b' ∧
      Sends b φ b' ∧
      (∀ c ∈ b.within d, c ∉ b.border d → φ c = c ∧ Untouched b b' c) ∧
      Set.InjOn φ (b.border d) ∧
      (∀ c ∈ b.border d, φ c ∈ b'.interface ∧
        (φ c = c ∧ Untouched b b' c ∨ b.store.arena.get? (φ c) = none) ∧
        (∀ a ∈ b.interface, φ a = φ c → a = c ∨ a ∉ b.within d) ∧
        ∀ o, o ∈ b'.store.originOf (φ c) ↔ ∃ a ∈ b.interface, φ a = φ c ∧ o ∈ b.store.originOf a) ∧
      (∀ start, (∀ c, c ∈ start ↔ c ∈ b.border d) → ∃ found, b.reachable start = .ok found ∧
        ∀ a ∈ found, a ∉ b.within d → ∃ c ∈ b.border d, φ a = φ c) ∧
      ∀ a ∈ b.interface, (∀ c ∈ b.border d, ¬ ReflTransGen (fun x y => y ∈ b.graph.succsOf x) c a) →
        φ a = a ∧ Untouched b b' a := by
  have hexact := hb.exact.1
  obtain ⟨b', hrun, _⟩ := guards_fielded.mergeBelowDepth (hb.fielded hs) max depth
  obtain ⟨R, hR, hcases⟩ := mergeBelowDepth_cases hrun
  obtain ⟨hlayered, hfits, d, hgreatest, htaken, hborder⟩ := takeLayers_within hexact hR hdepth hsome hmax
  obtain ⟨hover, _⟩ | ⟨_, taken, hfold⟩ := hcases
  · rw [hfits] at hover
    cases hover
  have hwithin : ∀ c ∈ b.within d, c ∈ b.interface := fun c hc => hc.1
  have hinside : ∀ c ∈ b.border d, c ∈ b.within d := fun c hc => hc.1
  obtain ⟨φ, h⟩ := (KeptApart.start hlayered.nodup htaken).run hexact hwithin
    (fun c hc => hinside c ((hborder c).1 hc)) hfold
  have hkept : ∀ c ∈ b.interface, φ c = c → φ c = c ∧ Untouched b b' c := fun c hc hstays =>
    ⟨hstays, h.sends.untouched hexact hc hstays⟩
  refine ⟨d, b', φ, hgreatest, hrun, h.sends, fun c hc hout => ?_, fun c hc a ha heq => ?_, fun c hc => ⟨?_, ?_, ?_, ?_⟩,
    fun start hstart => ?_, fun a ha hpath => ?_⟩
  · exact hkept c hc.1 (h.stays c hc (.inl fun hc => hout ((hborder c).1 hc)))
  · exact h.apart c (hinside c hc) a (hinside a ha) heq
  · exact h.sends.mem_interface.2 ⟨c, (hinside c hc).1, rfl⟩
  · exact h.sends.eq_or_fresh.imp_left (hkept c (hinside c hc).1)
  · intro a _ heq
    by_cases ha : a ∈ b.within d
    · exact .inl (h.apart a ha c (hinside c hc) heq)
    · exact .inr ha
  · exact fun o => h.sends.mem_originOf hexact (h.sends.mem_interface.2 ⟨c, (hinside c hc).1, rfl⟩)
  · obtain ⟨found, hfound⟩ := hexact.exists_reachable start
    refine ⟨found, hfound, fun a ha hout => ?_⟩
    obtain ⟨c, hc, ha⟩ := ((CandidateGraph.mem_reachable hfound).1 ha).exists_start
    rcases h.covered c ((hborder c).2 ((hstart c).1 hc)) a hout ha with ⟨e, he, heq⟩ | ⟨_, _, hnil, _⟩
    · exact ⟨e, (hborder e).1 he, heq⟩
    · cases hnil
  · refine hkept a ha ((h.moved a ha).resolve_right ?_)
    rintro ⟨c, hc, hreaches⟩
    exact hpath c ((hborder c).1 hc) hreaches

/-- An access that holds two objects, an access on either of them, and below these one that both lead to and one that
only the second leads to. The last access is on an object that nothing holds. -/
def overlap : Store :=
  List.foldl (Store.addLocal · ⟨0⟩) Store.empty
    [⟨⟨0⟩, .ofList [⟨1⟩], .ofList [⟨2⟩, ⟨3⟩], none, .no⟩, ⟨⟨1⟩, .ofList [⟨2⟩], .ofList [⟨4⟩], none, .no⟩,
      ⟨⟨2⟩, .ofList [⟨3⟩], .ofList [⟨4⟩, ⟨5⟩], none, .no⟩, ⟨⟨3⟩, .ofList [⟨4⟩], ∅, none, .no⟩,
      ⟨⟨4⟩, .ofList [⟨5⟩], ∅, none, .no⟩, ⟨⟨5⟩, .ofList [⟨9⟩], ∅, none, .no⟩]

def visit : Procedure := ⟨⟨0⟩, "visit", none, false, [.formal "top" none (IdSet.singleton ⟨1⟩)]⟩

/-- Two candidates below the border are absorbed, one into each border candidate, and the last access is untouched. -/
theorem frontier_kept_apart_overlap : ∃ first last d φ, Bounding.start overlap visit = .ok first ∧
    0 < (first.atDistance 1).ncard ∧ (first.atDistance 1).ncard ≤ 3 ∧
    IsGreatest {k | k ≤ 5 ∧ (first.within k).ncard ≤ 3} d ∧ first.mergeBelowDepth 3 5 = .ok last ∧
    last.interface.toList = [⟨0⟩, ⟨5⟩, ⟨7⟩, ⟨8⟩] ∧ Sends first φ last ∧ Set.InjOn φ (first.border d) ∧
    φ ⟨5⟩ = ⟨5⟩ := by
  obtain ⟨first, hstart, hinterface, hfields, hroots, hfirst, hstray, last, hlast, hleft⟩ : ∃ first,
      Bounding.start overlap visit = .ok first ∧
      first.interface.toList = [⟨0⟩, ⟨1⟩, ⟨2⟩, ⟨3⟩, ⟨4⟩, ⟨5⟩] ∧
      first.interface.toList.map first.store.fieldsOf = [⟨0⟩, ⟨1⟩, ⟨2⟩, ⟨3⟩, ⟨4⟩, ⟨5⟩].map IdSet.singleton ∧
      first.graph.roots = [⟨6⟩] ∧ (IdSet.unionMap first.graph.roots first.graph.succsOf).size = 1 ∧
      first.graph.predsOf ⟨5⟩ = ∅ ∧ ∃ last, first.mergeBelowDepth 3 5 = .ok last ∧
        last.interface.toList = [⟨0⟩, ⟨5⟩, ⟨7⟩, ⟨8⟩] := by
    decide +kernel
  have hexact := exact_start hstart
  have hone : (first.atDistance 1).ncard = 1 := (ncard_atDistance_one hexact).trans hfirst
  have hsome : ∀ c ∈ first.interface, ∃ f, f ∈ first.store.fieldsOf c := by
    intro c hc
    have hmap := List.mem_map_of_mem (f := first.store.fieldsOf) (IdSet.mem_toList.2 hc)
    rw [hfields] at hmap
    obtain ⟨f, _, hf⟩ := List.mem_map.1 hmap
    exact ⟨f, hf ▸ IdSet.mem_singleton.2 rfl⟩
  have halone : ∀ c, ⟨5⟩ ∉ first.graph.succsOf c := by
    intro c hedge
    rw [← hexact.mirrored, hstray] at hedge
    exact IdSet.not_mem_empty hedge
  have hpos : 0 < (first.atDistance 1).ncard := by omega
  have hle : (first.atDistance 1).ncard ≤ 3 := by omega
  obtain ⟨d, b', φ, hgreatest, hrun, hsends, _, hinj, _, _, hstays⟩ :=
    frontier_kept_apart (Reached.start hstart) (.inr hsome) (by decide : 1 ≤ 5) hpos hle
  obtain rfl : last = b' := Except.ok.inj (hlast.symm.trans hrun)
  refine ⟨first, last, d, φ, hstart, hpos, hle, hgreatest, hlast, hleft, hsends, hinj, (hstays ⟨5⟩ ?_ ?_).1⟩
  · rw [← IdSet.mem_toList, hinterface]
    decide
  · intro c hc hpath
    rcases hpath.cases_tail with rfl | ⟨a, _, hedge⟩
    · obtain ⟨_, k, _, hwalk⟩ := mem_within_iff.1 hc.1
      cases hwalk with
      | root hroot => simp [hroots] at hroot
      | step _ hedge => exact halone _ hedge
    · exact halone a hedge

end HeapSummary.Bounding
