import HeapSummary.Proofs.Program

/-!
# What edits do to a store

What is seen of a store are the objects that its candidates hold and are based on, which of them are definitely
primitive, the unmerged candidates that each stands for, and the interfaces. Removing and merging change one interface
only. A merge of two or more candidates adds a candidate that holds, is based on and stands for what any of the group
does, and that is definitely primitive only if all of the group are.
-/

namespace HeapSummary

namespace IdSet

variable {k : Kind} {s : IdSet k} {x : Id k}

theorem size_erase_add_one (h : x ∈ s) : (s.erase x).size + 1 = s.size := by
  rw [← length_toList, ← length_toList]
  exact (toList_perm_cons_erase h).length_eq.symm

theorem size_insert_le (s : IdSet k) (x : Id k) : (s.insert x).size ≤ s.size + 1 := by
  rw [← size_erase_add_one (mem_insert.2 (.inl rfl) : x ∈ s.insert x)]
  refine Nat.succ_le_succ (size_le_of_subset fun y hy => ?_)
  obtain ⟨hne, hy⟩ := mem_erase.1 hy
  exact (mem_insert.1 hy).resolve_left hne

end IdSet

theorem Certainty.isYes_join {a b : Certainty} : (a.join b).isYes = true ↔ a.isYes = true ∧ b.isYes = true := by
  cases a <;> cases b <;> decide

namespace FieldLocation

variable {l : FieldLocation} {ls : List FieldLocation}

theorem mem_foldl_absorb {k : Kind} {V : FieldLocation → IdSet k} (hV : ∀ l m, V (absorb l m) = V l ∪ V m) {x : Id k} :
    x ∈ V (ls.foldl absorb l) ↔ ∃ m ∈ l :: ls, x ∈ V m := by
  induction ls generalizing l with
  | nil => simp
  | cons m ls ih =>
    rw [List.foldl_cons, ih]
    simp only [List.exists_mem_cons_iff, hV, IdSet.mem_union, or_assoc]

theorem isYes_foldl_absorb :
    (ls.foldl absorb l).primitive.isYes = true ↔ ∀ m ∈ l :: ls, m.primitive.isYes = true := by
  induction ls generalizing l with
  | nil => simp
  | cons m ls ih =>
    rw [List.foldl_cons, ih]
    simp only [List.forall_mem_cons, absorb, Certainty.isYes_join, and_assoc]

end FieldLocation

namespace Store

variable {s s' : Store} {x y : CallNode} {c d m : Candidate} {group : List Candidate} {o : InstanceKey}

/-- The objects that a candidate may hold, whether it is a root or a field. -/
def objectsOf (s : Store) (c : Candidate) : PointsTo := ((s.arena.get? c).map Location.pts).getD ∅

/-- The unmerged candidates that a candidate stands for, none for a candidate that is no field. -/
def originOf (s : Store) (c : Candidate) : IdSet .candidate := ((s.field? c).map FieldLocation.origin).getD ∅

/-- The fields of a candidate, none for a candidate that is no field. -/
def fieldsOf (s : Store) (c : Candidate) : IdSet .field := ((s.field? c).map FieldLocation.fields).getD ∅

/-- The type of a candidate, whether it is a root or a field. -/
def typeOf (s : Store) (c : Candidate) : Option TypeId := (s.arena.get? c).bind Location.type

/-- A candidate has one of the types whose instances never change. -/
def IsImmutable (s : Store) (immutables : IdSet .type) (c : Candidate) : Prop := ∃ t ∈ immutables, s.typeOf c = some t

/-- One dereference leads from `c` to the field candidate `d`: an object that `c` may hold is a base of `d`. -/
def Leads (s : Store) (c d : Candidate) : Prop := ∃ f, s.field? d = some f ∧ f.reachableFrom (s.objectsOf c) = true

theorem location_eq_ok {l : Location} : s.location c = .ok l ↔ s.arena.get? c = some l := Arena.read_eq_ok_iff

theorem basesOf_of_field {f : FieldLocation} (h : s.field? c = some f) : s.basesOf c = f.bases := by
  simp [basesOf, h]

theorem originOf_of_field {f : FieldLocation} (h : s.field? c = some f) : s.originOf c = f.origin := by
  simp [originOf, h]

theorem fieldsOf_of_field {l : FieldLocation} (h : s.field? c = some l) : s.fieldsOf c = l.fields := by
  simp [fieldsOf, h]

theorem objectsOf_of_get {l : Location} (h : s.arena.get? c = some l) : s.objectsOf c = l.pts := by
  simp [objectsOf, h]

theorem typeOf_of_get {l : Location} (h : s.arena.get? c = some l) : s.typeOf c = l.type := by
  simp [typeOf, h]

theorem isImmutable_iff {immutables : IdSet .type} :
    s.IsImmutable immutables c ↔ (s.typeOf c).any immutables.contains = true := by
  unfold IsImmutable
  cases s.typeOf c with
  | none => simp
  | some t => simp [Membership.mem]

instance (immutables : IdSet .type) (c : Candidate) : Decidable (s.IsImmutable immutables c) :=
  decidable_of_iff _ isImmutable_iff.symm

theorem ptsOf_of_field {f : FieldLocation} (h : s.field? c = some f) : s.ptsOf c = s.objectsOf c := by
  rw [objectsOf_of_get (field?_eq_some.1 h), ptsOf, h]
  rfl

theorem get_of_mem_objectsOf (h : o ∈ s.objectsOf c) : ∃ l, s.arena.get? c = some l := by
  unfold objectsOf at h
  cases hget : s.arena.get? c with
  | none => simp [hget] at h
  | some l => exact ⟨l, rfl⟩

theorem isPrimitive_of_get {l : Location} (h : s.arena.get? c = some l) : s.isPrimitive c = l.primitive.isYes := by
  simp [isPrimitive, h]

theorem leads_iff : s.Leads c d ↔ ∃ o, o ∈ s.basesOf d ∧ o ∈ s.objectsOf c := by
  unfold Leads FieldLocation.reachableFrom basesOf
  cases s.field? d <;> simp [IdSet.intersects_iff]

theorem not_field_of_root {r : Root} {f : FieldLocation} (h : s.arena.get? c = some (.root r)) :
    s.field? c ≠ some f := by
  simp [field?_eq_some, h]

/-! ### Stores that grow -/

/-- Every candidate of `s` is in `s'` as it was. -/
def Keeps (s s' : Store) : Prop := ∀ c l, s.arena.get? c = some l → s'.arena.get? c = some l

theorem Keeps.refl (s : Store) : Keeps s s := fun _ _ h => h

theorem Keeps.trans {t : Store} (h : Keeps s s') (h' : Keeps s' t) : Keeps s t := fun c l hl => h' c l (h c l hl)

theorem Keeps.size_le (h : Keeps s s') : s.size ≤ s'.size := by
  by_contra hlt
  have hlast : s.arena.get? ⟨s'.size⟩ ≠ none := fun hnone => hlt (Arena.get?_eq_none_iff.1 hnone)
  obtain ⟨l, hl⟩ := Option.ne_none_iff_exists'.1 hlast
  exact Nat.lt_irrefl _ (Arena.lt_size_of_get? (h _ l hl))

theorem keeps_of_arena (h : s'.arena = s.arena) : Keeps s s' := fun _ _ hl => h ▸ hl

theorem keeps_of_push {l : Location} (h : s'.arena = s.arena.push l) : Keeps s s' := by
  intro c l' hl'
  have hne : c ≠ s.arena.nextId := fun hc => Nat.lt_irrefl _ (hc ▸ Arena.lt_size_of_get? hl')
  rwa [h, Arena.get?_push, if_neg hne]

theorem Keeps.field? (h : Keeps s s') {f : FieldLocation} (hf : s.field? c = some f) : s'.field? c = some f :=
  field?_eq_some.2 (h c _ (field?_eq_some.1 hf))

theorem exists_field_of_mem_originOf {o : Candidate} (h : o ∈ s.originOf c) : ∃ f, s.field? c = some f := by
  unfold originOf at h
  cases hf : s.field? c with
  | none => simp [hf] at h
  | some f => exact ⟨f, rfl⟩

theorem Keeps.originOf (h : Keeps s s') {f : FieldLocation} (hf : s.field? c = some f) :
    s'.originOf c = s.originOf c := by
  rw [originOf_of_field hf, originOf_of_field (h.field? hf)]

theorem Keeps.mem_originOf {o : Candidate} (h : Keeps s s') (ho : o ∈ s.originOf c) : o ∈ s'.originOf c := by
  obtain ⟨f, hf⟩ := exists_field_of_mem_originOf ho
  rwa [h.originOf hf]

/-! ### Removing -/

theorem mem_interface_remove : d ∈ (s.remove x c).interface y ↔ d ∈ s.interface y ∧ ¬ (y = x ∧ d = c) := by
  change d ∈ (s.interfaces.set x ((s.interfaces.get x).erase c)).get y ↔ d ∈ s.interfaces.get y ∧ _
  rw [IdMap.get_set]
  split
  · rename_i hy
    subst hy
    simp [and_comm]
  · rename_i hy
    simp [hy]

theorem withdraw_wasMember : (s.withdraw x c).2 = (s.interface x).contains c := IdSet.remove_wasMember

/-! ### Adding and merging -/

theorem add_eq_ok (h : s.add x c = .ok s') :
    (∃ f, s.field? c = some f) ∧ s' = s.setInterface x ((s.interface x).insert c) := by
  simp only [Store.add, Outcome.bind_eq_ok, location_eq_ok] at h
  obtain ⟨l, hl, h⟩ := h
  cases l with
  | root r => cases h
  | field f => exact ⟨⟨f, field?_eq_some.2 hl⟩, (Outcome.pure_eq_ok.1 h).symm⟩

theorem merge_cases (h : s.merge x group = .ok (s', m)) :
    (group = [m] ∧ s.add x m = .ok s') ∨ 2 ≤ group.length := by
  rcases group with _ | ⟨c, _ | ⟨d, rest⟩⟩
  · cases h
  · simp only [Store.merge, Outcome.bind_eq_ok, Outcome.pure_eq_ok] at h
    obtain ⟨t, hadd, h⟩ := h
    cases h
    exact .inl ⟨rfl, hadd⟩
  · exact .inr (Nat.le_add_left 2 rest.length)

theorem mem_foldl_erase {cs : IdSet .candidate} : d ∈ group.foldl IdSet.erase cs ↔ d ∈ cs ∧ d ∉ group := by
  induction group generalizing cs with
  | nil => simp
  | cons c group ih =>
    rw [List.foldl_cons, ih, IdSet.mem_erase, List.mem_cons, not_or, and_comm (a := d ≠ c), and_assoc]

theorem merge_eq_ok (hlen : 2 ≤ group.length) (h : s.merge x group = .ok (s', m)) :
    ∃ l ls, group.mapM s.field = .ok (l :: ls) ∧ m = s.arena.nextId ∧
      s' = { s with arena := s.arena.push (.field (ls.foldl FieldLocation.absorb l)) }.setInterface x
        ((group.foldl IdSet.erase (s.interface x)).insert m) := by
  match group, hlen, h with
  | c :: d :: rest, _, h =>
    simp only [Store.merge, Outcome.bind_eq_ok] at h
    obtain ⟨first, hfirst, others, hothers, h⟩ := h
    split at h
    · cases h
    · simp only [Outcome.pure_eq_ok, Prod.mk.injEq] at h
      obtain ⟨rfl, rfl⟩ := h
      exact ⟨first, others, Outcome.mapM_eq_ok.2 (.cons hfirst (Outcome.mapM_eq_ok.1 hothers)), rfl, rfl⟩

theorem mem_fieldsOf_merge {f : Field} (hlen : 2 ≤ group.length) (h : s.merge x group = .ok (s', m)) :
    f ∈ s'.fieldsOf m ↔ ∃ c ∈ group, f ∈ s.fieldsOf c := by
  obtain ⟨l, ls, hread, rfl, rfl⟩ := merge_eq_ok hlen h
  have hnew : (s.arena.push (.field (ls.foldl FieldLocation.absorb l))).get? s.arena.nextId =
      some (.field (ls.foldl FieldLocation.absorb l)) := by
    rw [Arena.get?_push, if_pos rfl]
  rw [fieldsOf_of_field (field?_eq_some.2 hnew), FieldLocation.mem_foldl_absorb fun _ _ => rfl]
  refine Outcome.exists_iff_of_mapM hread fun c l hl => ?_
  rw [fieldsOf_of_field (field_eq_ok.1 hl)]

/-- What a merge of two or more candidates into `m` did. -/
structure Merged (s : Store) (x : CallNode) (group : List Candidate) (s' : Store) (m : Candidate) : Prop where
  fields : ∀ c ∈ group, ∃ f, s.field? c = some f
  fresh : s.arena.get? m = none
  keeps : ∀ c, c ≠ m → s'.arena.get? c = s.arena.get? c
  isField : ∃ f, s'.field? m = some f
  objects : ∀ o, o ∈ s'.objectsOf m ↔ ∃ c ∈ group, o ∈ s.objectsOf c
  bases : ∀ o, o ∈ s'.basesOf m ↔ ∃ c ∈ group, o ∈ s.basesOf c
  origin : ∀ o, o ∈ s'.originOf m ↔ ∃ c ∈ group, o ∈ s.originOf c
  primitive : s'.isPrimitive m = true ↔ ∀ c ∈ group, s.isPrimitive c = true
  interface : ∀ d, d ∈ s'.interface x ↔ d = m ∨ d ∈ s.interface x ∧ d ∉ group
  others : ∀ y, y ≠ x → s'.interface y = s.interface y
  locals : s'.locals = s.locals

theorem merged_of_merge (hlen : 2 ≤ group.length) (h : s.merge x group = .ok (s', m)) : Merged s x group s' m := by
  obtain ⟨l, ls, hread, rfl, rfl⟩ := merge_eq_ok hlen h
  have hnew : (s.arena.push (.field (ls.foldl FieldLocation.absorb l))).get? s.arena.nextId =
      some (.field (ls.foldl FieldLocation.absorb l)) := by
    rw [Arena.get?_push, if_pos rfl]
  refine ⟨fun c hc => ?_, ?_, fun c hc => ?_, ⟨_, field?_eq_some.2 hnew⟩, fun o => ?_, fun o => ?_, fun o => ?_, ?_,
    fun d => ?_, fun y hy => ?_, rfl⟩
  · obtain ⟨f, hf⟩ := Outcome.exists_of_mapM hread hc
    exact ⟨f, field_eq_ok.1 hf⟩
  · exact Arena.get?_eq_none_iff.2 (Nat.le_refl _)
  · show (s.arena.push _).get? c = _
    rw [Arena.get?_push, if_neg hc]
  · rw [objectsOf_of_get hnew, Location.pts, FieldLocation.mem_foldl_absorb fun _ _ => rfl]
    refine Outcome.exists_iff_of_mapM hread fun c f hf => ?_
    rw [objectsOf_of_get (field?_eq_some.1 (field_eq_ok.1 hf)), Location.pts]
  · rw [basesOf_of_field (field?_eq_some.2 hnew), FieldLocation.mem_foldl_absorb fun _ _ => rfl]
    refine Outcome.exists_iff_of_mapM hread fun c f hf => ?_
    rw [basesOf_of_field (field_eq_ok.1 hf)]
  · rw [originOf_of_field (field?_eq_some.2 hnew), FieldLocation.mem_foldl_absorb fun _ _ => rfl]
    refine Outcome.exists_iff_of_mapM hread fun c f hf => ?_
    rw [originOf_of_field (field_eq_ok.1 hf)]
  · rw [isPrimitive_of_get hnew, Location.primitive, FieldLocation.isYes_foldl_absorb]
    refine Outcome.forall_iff_of_mapM hread fun c f hf => ?_
    rw [isPrimitive_of_get (field?_eq_some.1 (field_eq_ok.1 hf)), Location.primitive]
  · show d ∈ (s.interfaces.set x _).get x ↔ _
    rw [IdMap.get_set_self, IdSet.mem_insert, mem_foldl_erase]
  · show (s.interfaces.set x _).get y = _
    rw [IdMap.get_set, if_neg hy]
    rfl

theorem Merged.grows (h : Merged s x group s' m) : Keeps s s' := by
  intro c l hl
  have hne : c ≠ m := by
    rintro rfl
    rw [h.fresh] at hl
    cases hl
  rw [h.keeps c hne, hl]

/-- What a merge into `m` did to the interface and to what `m` stands for, be the group one candidate or more. -/
structure Gathered (s : Store) (x : CallNode) (group : List Candidate) (s' : Store) (m : Candidate) : Prop where
  keeps : Keeps s s'
  nonempty : ∃ c, c ∈ group
  origin : ∀ o, o ∈ s'.originOf m ↔ ∃ c ∈ group, o ∈ s.originOf c
  interface : ∀ d, d ∈ s'.interface x ↔ d = m ∨ d ∈ s.interface x ∧ d ∉ group
  others : ∀ y, y ≠ x → s'.interface y = s.interface y

theorem Merged.gathered (h : Merged s x group s' m) (hne : ∃ c, c ∈ group) : Gathered s x group s' m :=
  ⟨h.grows, hne, h.origin, h.interface, h.others⟩

theorem gathered_of_merge (h : s.merge x group = .ok (s', m)) : Gathered s x group s' m := by
  obtain ⟨rfl, hadd⟩ | hlen := merge_cases h
  · obtain ⟨_, rfl⟩ := add_eq_ok hadd
    refine ⟨.refl s, ⟨m, List.mem_singleton_self m⟩, ?_, fun d => ?_, fun y hy => ?_⟩
    · simp [Store.originOf, Store.field?, setInterface]
    · show d ∈ (s.interfaces.set x _).get x ↔ _
      rw [IdMap.get_set_self, IdSet.mem_insert, List.mem_singleton]
      by_cases hd : d = m <;> simp [hd]
    · show (s.interfaces.set x _).get y = _
      rw [IdMap.get_set, if_neg hy]
      rfl
  · exact (merged_of_merge hlen h).gathered (List.exists_mem_of_length_pos (by omega))

/-! ### Folding -/

/-- What is folded is merged with every candidate of the interface that stands for part of it. -/
theorem fold_eq_ok {folded : IdSet .candidate} {r : Option Candidate} (h : s.fold x folded = .ok (s', r)) :
    (folded = ∅ ∧ s' = s ∧ r = none) ∨ ∃ group m, s.merge x group = .ok (s', m) ∧ r = some m ∧
      (∀ c ∈ folded, ∃ f, s.field? c = some f) ∧
      ∀ c, c ∈ group ↔ c ∈ folded ∨ c ∈ s.interface x ∧ ∃ d ∈ folded, ∃ o, o ∈ s.originOf c ∧ o ∈ s.originOf d := by
  unfold Store.fold at h
  split at h
  · rename_i hempty
    cases h
    exact .inl ⟨IdSet.isEmpty_iff.1 hempty, rfl, rfl⟩
  simp only [Outcome.bind_eq_ok, Outcome.pure_eq_ok] at h
  obtain ⟨parts, hparts, rest, hrest, ⟨t, m⟩, hmerge, h⟩ := h
  cases h
  refine .inr ⟨_, m, hmerge, rfl, fun c hc => ?_, fun c => ?_⟩
  · obtain ⟨f, hf⟩ := Outcome.exists_of_mapM hparts (IdSet.mem_toList.2 hc)
    exact ⟨f, field_eq_ok.1 hf⟩
  have horigin : ∀ o, o ∈ IdSet.unionMap parts FieldLocation.origin ↔ ∃ d ∈ folded, o ∈ s.originOf d := by
    intro o
    rw [IdSet.mem_unionMap]
    simp only [← IdSet.mem_toList (s := folded)]
    refine Outcome.exists_iff_of_mapM hparts fun d f hf => ?_
    rw [originOf_of_field (field_eq_ok.1 hf)]
  have hoverlap : ∀ f, s.field? c = some f →
      (f.origin.intersects (IdSet.unionMap parts FieldLocation.origin) = true ↔
        ∃ d ∈ folded, ∃ o, o ∈ s.originOf c ∧ o ∈ s.originOf d) := by
    intro f hf
    rw [IdSet.intersects_iff, originOf_of_field hf]
    simp only [horigin]
    constructor
    · rintro ⟨o, ho, d, hd, hod⟩
      exact ⟨d, hd, o, ho, hod⟩
    · rintro ⟨d, hd, o, ho, hod⟩
      exact ⟨o, ho, d, hd, hod⟩
  rw [List.mem_append, IdSet.mem_toList]
  constructor
  · rintro (hc | hc)
    · exact .inl hc
    · obtain ⟨⟨c, f⟩, he, rfl⟩ := List.mem_map.1 hc
      obtain ⟨he, hmeets⟩ := List.mem_filter.1 he
      obtain ⟨hc, hf⟩ := (Outcome.mem_of_mapM_pair hrest).1 he
      exact .inr ⟨(IdSet.mem_diff.1 (IdSet.mem_toList.1 hc)).1, (hoverlap f (field_eq_ok.1 hf)).1 hmeets⟩
  · rintro (hc | ⟨hc, hmeets⟩)
    · exact .inl hc
    · by_cases hin : c ∈ folded
      · exact .inl hin
      · have hc : c ∈ (s.interface x \ folded).toList := IdSet.mem_toList.2 (IdSet.mem_diff.2 ⟨hc, hin⟩)
        obtain ⟨_, hread⟩ := Outcome.exists_of_mapM hrest hc
        obtain ⟨f, hf, _⟩ := Outcome.bind_eq_ok.1 hread
        refine .inr (List.mem_map.2 ⟨(c, f), List.mem_filter.2 ⟨?_, (hoverlap f (field_eq_ok.1 hf)).2 hmeets⟩, rfl⟩)
        exact (Outcome.mem_of_mapM_pair hrest).2 ⟨hc, hf⟩

end Store

end HeapSummary
