import HeapSummary.Proofs.Store
import Mathlib.Order.Bounds.Basic

/-!
# A merged candidate is what its origin says

The accesses of a program give unmerged candidates, each with itself as its origin. From then on stores only grow:
merging and folding add candidates, and none is ever changed. The data of a candidate is at all times the join of the
data of the unmerged candidates in its origin (`StandsFor`): sets are united, certainties joined, and a type is kept if
all agree on it. Absorbing keeps this, whatever was merged before, so neither the order nor the nesting of merges shows.
-/

namespace HeapSummary

/-! ### Joins -/

instance : Max Certainty := ⟨Certainty.join⟩

/-- Certainties ordered by how little they say: `maybe` is above both answers. -/
instance : SemilatticeSup Certainty :=
  SemilatticeSup.mk' Certainty.join_comm Certainty.join_assoc Certainty.join_self

/-- The type that all of a set agree on, or none if they differ. -/
def AgreedType (types : Set (Option TypeId)) (t : Option TypeId) : Prop :=
  (∀ u ∈ types, u = t) ∨ t = none ∧ ∃ u ∈ types, ∃ v ∈ types, u ≠ v

theorem AgreedType.union {T U : Set (Option TypeId)} {t u : Option TypeId} (hT : T.Nonempty) (hU : U.Nonempty)
    (ht : AgreedType T t) (hu : AgreedType U u) : AgreedType (T ∪ U) (FieldLocation.joinType t u) := by
  have hwiden : ∀ {V : Set (Option TypeId)}, (∃ v ∈ V, ∃ w ∈ V, v ≠ w) → V ⊆ T ∪ U →
      ∃ v ∈ T ∪ U, ∃ w ∈ T ∪ U, v ≠ w := fun ⟨v, hv, w, hw, hne⟩ hsub => ⟨v, hsub hv, w, hsub hw, hne⟩
  unfold FieldLocation.joinType
  rcases ht with ht | ⟨rfl, hdiffer⟩
  · rcases hu with hu | ⟨rfl, hdiffer⟩
    · split
      · rename_i htu
        exact .inl fun v hv => hv.elim (ht v) fun hv => (hu v hv).trans htu.symm
      · rename_i htu
        obtain ⟨v, hv⟩ := hT
        obtain ⟨w, hw⟩ := hU
        exact .inr ⟨rfl, v, .inl hv, w, .inr hw, fun hvw => htu ((ht v hv).symm.trans (hvw.trans (hu w hw)))⟩
    · exact .inr ⟨by split <;> simp_all, hwiden hdiffer Set.subset_union_right⟩
  · exact .inr ⟨by split <;> simp_all, hwiden hdiffer Set.subset_union_left⟩

theorem AgreedType.eq {T : Set (Option TypeId)} {t u : Option TypeId} (hT : T.Nonempty) (ht : AgreedType T t)
    (hu : AgreedType T u) : t = u := by
  obtain ⟨v, hv⟩ := hT
  rcases ht with ht | ⟨rfl, a, ha, b, hb, hab⟩
  · rcases hu with hu | ⟨rfl, a, ha, b, hb, hab⟩
    · exact (ht v hv).symm.trans (hu v hv)
    · exact absurd ((ht a ha).trans (ht b hb).symm) hab
  · rcases hu with hu | ⟨rfl, _⟩
    · exact absurd ((hu a ha).trans (hu b hb).symm) hab
    · rfl

/-! ### Locations and their origins -/

namespace Store

/-- What a view shows of the candidates of an origin. -/
def Behind {α : Type} (own : Store) (origin : IdSet .candidate) (view : FieldLocation → α) : Set α :=
  {a | ∃ o ∈ origin, ∃ u, own.field? o = some u ∧ view u = a}

/-- A location is the join of the unmerged candidates in its origin. -/
structure StandsFor (own : Store) (l : FieldLocation) : Prop where
  nonempty : ∃ o, o ∈ l.origin
  unmerged : ∀ o ∈ l.origin, ∃ u, own.field? o = some u ∧ u.origin = IdSet.singleton o
  fields : ∀ f, f ∈ l.fields ↔ ∃ o ∈ l.origin, ∃ u, own.field? o = some u ∧ f ∈ u.fields
  bases : ∀ k, k ∈ l.bases ↔ ∃ o ∈ l.origin, ∃ u, own.field? o = some u ∧ k ∈ u.bases
  pts : ∀ k, k ∈ l.pts ↔ ∃ o ∈ l.origin, ∃ u, own.field? o = some u ∧ k ∈ u.pts
  primitive : IsLUB (Behind own l.origin FieldLocation.primitive) l.primitive
  type : AgreedType (Behind own l.origin FieldLocation.type) l.type

variable {own s s' : Store} {l m : FieldLocation}

theorem behind_union {α : Type} (s t : IdSet .candidate) (view : FieldLocation → α) :
    Behind own (s ∪ t) view = Behind own s view ∪ Behind own t view := by
  ext a
  simp only [Behind, IdSet.mem_union, Set.mem_ofPred_eq, Set.mem_union, or_and_right, exists_or]

theorem behind_singleton {α : Type} {o : Candidate} {u : FieldLocation} (h : own.field? o = some u)
    (view : FieldLocation → α) : Behind own (IdSet.singleton o) view = {view u} := by
  ext a
  simp [Behind, h, eq_comm]

theorem StandsFor.behind_nonempty {α : Type} (h : StandsFor own l) (view : FieldLocation → α) :
    (Behind own l.origin view).Nonempty := by
  obtain ⟨o, ho⟩ := h.nonempty
  obtain ⟨u, hu, _⟩ := h.unmerged o ho
  exact ⟨view u, o, ho, u, hu, rfl⟩

theorem standsFor_unmerged {o : Candidate} {u : FieldLocation} (h : own.field? o = some u)
    (horigin : u.origin = IdSet.singleton o) : StandsFor own u := by
  refine ⟨⟨o, ?_⟩, fun o' ho' => ?_, fun f => ?_, fun k => ?_, fun k => ?_, ?_, ?_⟩
  · simp [horigin]
  · rw [horigin, IdSet.mem_singleton] at ho'
    exact ⟨u, ho' ▸ h, ho' ▸ horigin⟩
  · simp [horigin, h]
  · simp [horigin, h]
  · simp [horigin, h]
  · rw [horigin, behind_singleton h]
    exact isLUB_singleton
  · rw [horigin, behind_singleton h]
    exact .inl fun t ht => ht

/-- Absorbing joins, so it keeps what locations stand for. -/
theorem StandsFor.absorb (hl : StandsFor own l) (hm : StandsFor own m) : StandsFor own (l.absorb m) := by
  have horigin : (l.absorb m).origin = l.origin ∪ m.origin := rfl
  refine ⟨?_, fun o ho => ?_, fun f => ?_, fun k => ?_, fun k => ?_, ?_, ?_⟩
  · obtain ⟨o, ho⟩ := hl.nonempty
    exact ⟨o, IdSet.mem_union.2 (.inl ho)⟩
  · exact (IdSet.mem_union.1 ho).elim (hl.unmerged o) (hm.unmerged o)
  · show f ∈ l.fields ∪ m.fields ↔ _
    simp only [horigin, IdSet.mem_union, hl.fields, hm.fields, or_and_right, exists_or]
  · show k ∈ l.bases ∪ m.bases ↔ _
    simp only [horigin, IdSet.mem_union, hl.bases, hm.bases, or_and_right, exists_or]
  · show k ∈ l.pts ∪ m.pts ↔ _
    simp only [horigin, IdSet.mem_union, hl.pts, hm.pts, or_and_right, exists_or]
  · rw [horigin, behind_union]
    exact hl.primitive.union hm.primitive
  · rw [horigin, behind_union]
    exact hl.type.union (hl.behind_nonempty _) (hm.behind_nonempty _) hm.type

theorem StandsFor.foldl_absorb {ls : List FieldLocation} (h : ∀ m ∈ l :: ls, StandsFor own m) :
    StandsFor own (ls.foldl FieldLocation.absorb l) := by
  obtain ⟨hl, hls⟩ := List.forall_mem_cons.1 h
  exact List.foldlRecOn ls _ hl fun _ hmerged m hm => hmerged.absorb (hls m hm)

theorem StandsFor.eq (hl : StandsFor own l) (hm : StandsFor own m) (horigin : l.origin = m.origin) : l = m := by
  have hfields : l.fields = m.fields := IdSet.ext fun f => by rw [hl.fields, hm.fields, horigin]
  have hbases : l.bases = m.bases := IdSet.ext fun k => by rw [hl.bases, hm.bases, horigin]
  have hpts : l.pts = m.pts := IdSet.ext fun k => by rw [hl.pts, hm.pts, horigin]
  have hprimitive : l.primitive = m.primitive := hl.primitive.unique (horigin ▸ hm.primitive)
  have htype : l.type = m.type := hl.type.eq (hl.behind_nonempty _) (horigin ▸ hm.type)
  cases l
  cases m
  simp_all

/-! ### A program's own candidates -/

/-- Every candidate is a field that stands for itself only, and it has fields. -/
def Unmerged (s : Store) : Prop :=
  ∀ c l, s.arena.get? c = some l → ∃ u, l = .field u ∧ u.origin = IdSet.singleton c ∧ ∃ f, f ∈ u.fields

theorem Unmerged.addAccess (h : s.Unmerged) (a : Access) : (s.addAccess a).1.Unmerged := by
  intro c l hl
  unfold Store.addAccess at hl
  split at hl
  · simp only [Arena.get?_modify] at hl
    split at hl
    · obtain ⟨l₀, hl₀, rfl⟩ := Option.map_eq_some_iff.1 hl
      obtain ⟨u, rfl, horigin, hfields⟩ := h c l₀ hl₀
      exact ⟨u.revisit a, rfl, horigin, hfields⟩
    · exact h c l hl
  · simp only [Arena.get?_push] at hl
    split at hl
    · rename_i hc
      cases hl
      exact ⟨_, rfl, hc ▸ rfl, a.field, IdSet.mem_singleton.2 rfl⟩
    · exact h c l hl

theorem unmerged_ofProgram (p : Program) : (ofProgram p).Unmerged := by
  refine List.foldlRecOn _ _ (fun c l hl => ?_) fun s hs node _ => ?_
  · cases hl
  · exact List.foldlRecOn _ _ hs fun s hs a _ => hs.addAccess a

theorem Unmerged.origin_eq {o : Candidate} {u : FieldLocation} (h : s.Unmerged) (hu : s.field? o = some u) :
    u.origin = IdSet.singleton o := by
  obtain ⟨v, hv, horigin, _⟩ := h o _ (field?_eq_some.1 hu)
  cases hv
  exact horigin

theorem Unmerged.exists_field {c : Candidate} (h : s.Unmerged) (hc : c ∈ s.ids) : ∃ u, s.field? c = some u := by
  cases hget : s.arena.get? c with
  | none => exact absurd (Arena.mem_ids.1 hc) (Nat.not_lt.2 (Arena.get?_eq_none_iff.1 hget))
  | some l =>
    obtain ⟨u, rfl, _⟩ := h c l hget
    exact ⟨u, field?_eq_some.2 hget⟩

/-! ### Operations on a store -/

/-- The stores that operations reach from a program's own candidates. -/
inductive Reached (p : Program) : Store → Prop
  | start : Reached p (ofProgram p)
  | addRoot {s : Store} (h : Reached p s) (r : Root) : Reached p (s.addRoot r).1
  | add {s s' : Store} {x : CallNode} {c : Candidate} (h : Reached p s) (hadd : s.add x c = .ok s') : Reached p s'
  | remove {s : Store} (h : Reached p s) (x : CallNode) (c : Candidate) : Reached p (s.remove x c)
  | merge {s s' : Store} {x : CallNode} {group : List Candidate} {m : Candidate} (h : Reached p s)
      (hmerge : s.merge x group = .ok (s', m)) : Reached p s'
  | fold {s s' : Store} {x : CallNode} {folded : IdSet .candidate} {r : Option Candidate} (h : Reached p s)
      (hfold : s.fold x folded = .ok (s', r)) : Reached p s'

/-- A store with the unmerged candidates as they were, and others that stand for them. -/
structure Traces (own s : Store) : Prop where
  keeps : Keeps own s
  stands : ∀ c l, s.field? c = some l → StandsFor own l

theorem traces_self (h : own.Unmerged) : Traces own own where
  keeps := .refl own
  stands _ _ hl := standsFor_unmerged hl (h.origin_eq hl)

theorem Traces.of_arena (h : Traces own s) (harena : s'.arena = s.arena) : Traces own s' where
  keeps o l hl := harena ▸ h.keeps o l hl
  stands c l hl := h.stands c l (by rwa [field?, harena] at hl)

theorem Traces.of_push (h : Traces own s) {loc : Location} (harena : s'.arena = s.arena.push loc)
    (hloc : ∀ l, loc = .field l → StandsFor own l) : Traces own s' where
  keeps := h.keeps.trans (keeps_of_push harena)
  stands c l hl := by
    rw [field?_eq_some, harena, Arena.get?_push] at hl
    split at hl
    · exact hloc l (Option.some.inj hl)
    · exact h.stands c l (field?_eq_some.2 hl)

variable {x : CallNode} {group : List Candidate} {c : Candidate}

theorem Traces.stands_of_mapM {ls : List FieldLocation} (h : Traces own s) (hread : group.mapM s.field = .ok ls) :
    ∀ l ∈ ls, StandsFor own l := by
  refine (Outcome.forall_iff_of_mapM hread (P := fun c => ∀ l, s.field? c = some l → StandsFor own l) ?_).2 ?_
  · intro c l hl
    simp [field_eq_ok.1 hl]
  · exact fun c _ l hl => h.stands c l hl

theorem Traces.add (h : Traces own s) (hadd : s.add x c = .ok s') : Traces own s' := by
  obtain ⟨_, rfl⟩ := add_eq_ok hadd
  exact h.of_arena rfl

theorem Traces.merge (h : Traces own s) (hmerge : s.merge x group = .ok (s', c)) : Traces own s' := by
  obtain ⟨_, hadd⟩ | hlen := merge_cases hmerge
  · exact h.add hadd
  · obtain ⟨l, ls, hread, _, rfl⟩ := merge_eq_ok hlen hmerge
    refine h.of_push rfl fun l' hl' => ?_
    cases hl'
    exact .foldl_absorb (h.stands_of_mapM hread)

theorem Reached.traces {p : Program} (h : Reached p s) : Traces (ofProgram p) s := by
  induction h with
  | start => exact traces_self (unmerged_ofProgram p)
  | addRoot _ r ih => exact ih.of_push rfl fun l hl => by cases hl
  | add _ hadd ih => exact ih.add hadd
  | remove _ x c ih => exact ih.of_arena rfl
  | merge _ hmerge ih => exact ih.merge hmerge
  | fold _ hfold ih =>
    obtain ⟨_, rfl, _⟩ | ⟨group, m, hmerge, _⟩ := fold_eq_ok hfold
    · exact ih
    · exact ih.merge hmerge

/-! ### Merges that return -/

theorem exists_merge_of_fields (x : CallNode) (hne : group ≠ [])
    (hfields : ∀ c ∈ group, ∃ l, s.field? c = some l ∧ ∃ f, f ∈ l.fields) : ∃ s' m, s.merge x group = .ok (s', m) := by
  rcases group with _ | ⟨c, _ | ⟨d, rest⟩⟩
  · exact absurd rfl hne
  · obtain ⟨l, hl, _⟩ := hfields c List.mem_cons_self
    have hread : s.location c = .ok (.field l) := location_eq_ok.2 (field?_eq_some.1 hl)
    have hadd : s.add x c = .ok (s.setInterface x ((s.interface x).insert c)) :=
      Outcome.bind_eq_ok.2 ⟨_, hread, rfl⟩
    exact ⟨_, c, Outcome.bind_eq_ok.2 ⟨_, hadd, rfl⟩⟩
  · obtain ⟨first, hfirst, f, hf⟩ := hfields c List.mem_cons_self
    have hread : ∀ e ∈ d :: rest, ∃ l, s.field e = .ok l := fun e he => by
      obtain ⟨l, hl, _⟩ := hfields e (List.mem_cons_of_mem c he)
      exact ⟨l, field_eq_ok.2 hl⟩
    obtain ⟨others, hothers⟩ := Outcome.exists_mapM_eq_ok hread
    have hmem : f ∈ (others.foldl FieldLocation.absorb first).fields :=
      (FieldLocation.mem_foldl_absorb fun _ _ => rfl).2 ⟨first, List.mem_cons_self, hf⟩
    have hsome : ¬ (others.foldl FieldLocation.absorb first).fields.isEmpty = true := by
      simp [IdSet.isEmpty_eq_false_iff.2 ⟨f, hmem⟩]
    exact ⟨_, _, Outcome.bind_eq_ok.2
      ⟨first, field_eq_ok.2 hfirst, Outcome.bind_eq_ok.2 ⟨others, hothers, if_neg hsome⟩⟩⟩

theorem Traces.exists_mem_fields (hown : own.Unmerged) (h : Traces own s) (hl : s.field? c = some l) :
    ∃ f, f ∈ l.fields := by
  have hstands := h.stands c l hl
  obtain ⟨o, ho⟩ := hstands.nonempty
  obtain ⟨u, hu, _⟩ := hstands.unmerged o ho
  obtain ⟨v, hv, _, f, hf⟩ := hown o _ (field?_eq_some.1 hu)
  cases hv
  exact ⟨f, (hstands.fields f).2 ⟨o, ho, u, hu, hf⟩⟩

/-- Field candidates have fields, so a merge of field candidates never fails for want of them. -/
theorem Traces.exists_merge (hown : own.Unmerged) (h : Traces own s) (x : CallNode) (hne : group ≠ [])
    (hfields : ∀ c ∈ group, ∃ l, s.field? c = some l) : ∃ s' m, s.merge x group = .ok (s', m) := by
  refine exists_merge_of_fields x hne fun c hc => ?_
  obtain ⟨l, hl⟩ := hfields c hc
  exact ⟨l, hl, h.exists_mem_fields hown hl⟩

/-- Whatever operations reach a store: a field candidate is the join of the unmerged candidates in its origin, which are
the program's own and are kept as they are. So its origin determines it, in one store or in two. Merging any list of
field candidates gives one whose origin is that of them all. -/
theorem data_determined_by_origin {p : Program} (h : Reached p s) :
    (∀ o u, (ofProgram p).field? o = some u → u.origin = IdSet.singleton o ∧ s.field? o = some u) ∧
    (∀ c l, s.field? c = some l → StandsFor (ofProgram p) l) ∧
    (∀ s', Reached p s' → ∀ c c' l l', s.field? c = some l → s'.field? c' = some l' → l.origin = l'.origin → l = l') ∧
    ∀ x group, group ≠ [] → (∀ c ∈ group, ∃ l, s.field? c = some l) →
      ∃ s' m, s.merge x group = .ok (s', m) ∧ ∀ o, o ∈ s'.originOf m ↔ ∃ c ∈ group, o ∈ s.originOf c := by
  have hown := unmerged_ofProgram p
  have htraces := h.traces
  refine ⟨fun o u hu => ⟨hown.origin_eq hu, ?_⟩, htraces.stands, fun s' h' c c' l l' hl hl' horigin => ?_, ?_⟩
  · exact htraces.keeps.field? hu
  · exact (htraces.stands c l hl).eq (h'.traces.stands c' l' hl') horigin
  · intro x group hne hfields
    obtain ⟨s', m, hmerge⟩ := htraces.exists_merge hown x hne hfields
    exact ⟨s', m, hmerge, (gathered_of_merge hmerge).origin⟩

/-- One procedure with three accesses, which differ in field, type and certainty. -/
def threeAccesses : Program :=
  { Program.empty with callGraph.nodes := ⟨#[⟨"main", .normal, [
    ⟨⟨0⟩, IdSet.singleton ⟨1⟩, IdSet.singleton ⟨2⟩, some ⟨0⟩, .no⟩,
    ⟨⟨1⟩, IdSet.singleton ⟨2⟩, IdSet.singleton ⟨3⟩, some ⟨0⟩, .yes⟩,
    ⟨⟨2⟩, IdSet.singleton ⟨3⟩, ∅, some ⟨1⟩, .no⟩], [], []⟩]⟩ }

/-- Merged in two steps at one node, and at once, in another order and with one named twice, at another. -/
theorem data_of_threeAccesses : ∃ s, Reached threeAccesses s ∧
    ∃ l l', s.field? ⟨4⟩ = some l ∧ s.field? ⟨5⟩ = some l' ∧ l = l' ∧ l.primitive = .maybe ∧ l.type = none := by
  have hpair := @Reached.merge threeAccesses _ _ ⟨0⟩ [⟨0⟩, ⟨1⟩] ⟨3⟩ .start rfl
  have hnested := @Reached.merge threeAccesses _ _ ⟨0⟩ [⟨3⟩, ⟨2⟩] ⟨4⟩ hpair rfl
  have hflat := @Reached.merge threeAccesses _ _ ⟨1⟩ [⟨2⟩, ⟨1⟩, ⟨0⟩, ⟨1⟩] ⟨5⟩ hnested rfl
  obtain ⟨_, _, heq, _⟩ := data_determined_by_origin hflat
  exact ⟨_, hflat, _, _, rfl, rfl, heq _ hflat ⟨4⟩ ⟨5⟩ _ _ rfl rfl (by decide), rfl, rfl⟩

end Store

end HeapSummary
