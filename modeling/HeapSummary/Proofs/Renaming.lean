import HeapSummary.Proofs.PassesSucceed

/-!
# Renaming candidates

Two runs over the same data may name it differently: a store that other work has grown in the meantime gives new
candidates later identifiers. A renaming that keeps the order of identifiers is all that the difference amounts to. Sets
are listed in that order, so their lists are renamed element by element, and whatever is computed from a list comes out
renamed.

`Alike` says of two states of bounding that one is the other renamed. Both graphs are exact, so they need no clause of
their own: nodes and edges follow from the roots, the interface and the locations. What is read off alike states agrees,
and they stay alike when a candidate is removed or a group is merged, since both stores give the new candidate the next
identifier.
-/

namespace HeapSummary

/-- Keeps the order of identifiers. -/
def Ascending {k : Kind} (ρ : Id k → Id k) : Prop := ∀ x y, x.index < y.index → (ρ x).index < (ρ y).index

theorem Ascending.eq_iff {k : Kind} {ρ : Id k → Id k} (hρ : Ascending ρ) {x y : Id k} : ρ x = ρ y ↔ x = y := by
  refine ⟨fun heq => ?_, congrArg ρ⟩
  have hindex : (ρ x).index = (ρ y).index := congrArg Id.index heq
  rcases Nat.lt_trichotomy x.index y.index with hlt | hsame | hlt
  · have := hρ x y hlt
    omega
  · exact Id.ext hsame
  · have := hρ y x hlt
    omega

/-! ### Sets -/

namespace IdSet

variable {k : Kind} {s t : IdSet k} {x y : Id k} {ρ : Id k → Id k}

/-- The images of the members. -/
def map (s : IdSet k) (ρ : Id k → Id k) : IdSet k := ofList (s.toList.map ρ)

@[simp] theorem mem_map : y ∈ s.map ρ ↔ ∃ x ∈ s, ρ x = y := by simp [map]

theorem map_ofList (xs : List (Id k)) (ρ : Id k → Id k) : (ofList xs).map ρ = ofList (xs.map ρ) :=
  ext fun y => by simp

theorem map_union (s t : IdSet k) (ρ : Id k → Id k) : (s ∪ t).map ρ = s.map ρ ∪ t.map ρ :=
  ext fun y => by simp [or_and_right, exists_or]

theorem map_insert (s : IdSet k) (x : Id k) (ρ : Id k → Id k) : (s.insert x).map ρ = (s.map ρ).insert (ρ x) :=
  ext fun y => by simp [eq_comm]

theorem map_eq_self (h : ∀ x ∈ s, ρ x = x) : s.map ρ = s := by
  apply ext
  intro y
  rw [mem_map]
  constructor
  · rintro ⟨x, hx, rfl⟩
    rwa [h x hx]
  · intro hy
    exact ⟨y, hy, h y hy⟩

theorem filter_map (s : IdSet k) (ρ : Id k → Id k) (p : Id k → Bool) :
    (s.map ρ).filter p = (s.filter fun x => p (ρ x)).map ρ := by
  apply ext
  intro y
  simp only [mem_filter, mem_map]
  constructor
  · rintro ⟨⟨x, hx, rfl⟩, hp⟩
    exact ⟨x, ⟨hx, hp⟩, rfl⟩
  · rintro ⟨x, ⟨hx, hp⟩, rfl⟩
    exact ⟨⟨x, hx, rfl⟩, hp⟩

variable (hρ : Ascending ρ)

include hρ

theorem map_mem_map : ρ x ∈ s.map ρ ↔ x ∈ s := by simp [hρ.eq_iff]

theorem map_diff (s t : IdSet k) : (s \ t).map ρ = s.map ρ \ t.map ρ := by
  apply ext
  intro y
  simp only [mem_map, mem_diff]
  constructor
  · rintro ⟨x, ⟨hs, ht⟩, rfl⟩
    exact ⟨⟨x, hs, rfl⟩, fun hmem => ht ((map_mem_map hρ).1 (mem_map.2 hmem))⟩
  · rintro ⟨⟨x, hs, rfl⟩, ht⟩
    exact ⟨x, ⟨hs, fun hmem => ht ⟨x, hmem, rfl⟩⟩, rfl⟩

/-- The images of a set are listed in the order of their originals. -/
theorem toList_map (s : IdSet k) : (s.map ρ).toList = s.toList.map ρ := by
  have hascends : (s.toList.map ρ).Pairwise fun x y => x.index < y.index :=
    List.pairwise_map.2 ((toList_pairwise s).imp fun {x y} hlt => hρ x y hlt)
  have hnodup : (s.toList.map ρ).Nodup := hascends.imp fun {x y} hlt heq => by
    subst heq
    omega
  apply List.Perm.eq_of_pairwise _ (toList_pairwise _) hascends
  · rw [List.perm_ext_iff_of_nodup (toList_nodup _) hnodup]
    intro y
    simp
  · intro x y _ _ hxy hyx
    omega

theorem size_map (s : IdSet k) : (s.map ρ).size = s.size := by
  rw [← length_toList, ← length_toList, toList_map hρ, List.length_map]

theorem isEmpty_map (s : IdSet k) : (s.map ρ).isEmpty = s.isEmpty := by
  rw [Bool.eq_iff_iff, isEmpty_iff, isEmpty_iff, ← toList_eq_nil_iff, toList_map hρ, List.map_eq_nil_iff,
    toList_eq_nil_iff]

end IdSet

/-! ### Two operations side by side -/

namespace Outcome

variable {ε α α' β β' σ τ : Type}

/-- If both operations succeed, their results are related. -/
def Agree (R : α → β → Prop) (x : Except ε α) (y : Except ε β) : Prop := ∀ a b, x = .ok a → y = .ok b → R a b

theorem Agree.pure {R : α → β → Prop} {a : α} {b : β} (h : R a b) :
    Agree R (pure a : Except ε α) (pure b : Except ε β) := by
  intro a' b' ha hb
  cases ha
  cases hb
  exact h

theorem Agree.bind {R : α → β → Prop} {S : α' → β' → Prop} {x : Except ε α} {y : Except ε β} {f : α → Except ε α'}
    {g : β → Except ε β'} (h : Agree R x y) (hnext : ∀ a b, x = .ok a → y = .ok b → R a b → Agree S (f a) (g b)) :
    Agree S (x >>= f) (y >>= g) := by
  intro a' b' ha hb
  obtain ⟨a, hx, ha⟩ := bind_eq_ok.1 ha
  obtain ⟨b, hy, hb⟩ := bind_eq_ok.1 hb
  exact hnext a b hx hy (h a b hx hy) a' b' ha hb

theorem Agree.mapM {ρ : α → α'} {r : β → β'} {f : α → Except ε β} {g : α' → Except ε β'} {xs : List α}
    (h : ∀ x ∈ xs, Agree (fun a b => b = r a) (f x) (g (ρ x))) :
    Agree (fun as bs => bs = as.map r) (xs.mapM f) ((xs.map ρ).mapM g) := by
  induction xs with
  | nil => exact .pure rfl
  | cons x xs ih =>
    rw [List.map_cons, List.mapM_cons, List.mapM_cons]
    refine .bind (h x List.mem_cons_self) fun a b _ _ hab => ?_
    refine .bind (ih fun y hy => h y (List.mem_cons_of_mem x hy)) fun as bs _ _ hrest => ?_
    exact .pure (by rw [hab, hrest, List.map_cons])

theorem Agree.mapM_pair {ρ : α → α'} {f : α → Except ε β} {g : α' → Except ε β} {xs : List α}
    (h : ∀ x ∈ xs, Agree (fun a b => b = a) (f x) (g (ρ x))) :
    Agree (fun as bs => bs = as.map (Prod.map ρ id)) (xs.mapM fun x => return (x, ← f x))
      ((xs.map ρ).mapM fun x => return (x, ← g x)) := by
  apply Agree.mapM
  intro x hx
  exact .bind (h x hx) fun a b _ _ hab => .pure (by rw [hab]; rfl)

theorem Agree.foldlM {R : σ → τ → Prop} {ρ : α → α'} {f : σ → α → Except ε σ} {g : τ → α' → Except ε τ} {xs : List α}
    {s : σ} {t : τ} (h : ∀ s t, ∀ x ∈ xs, R s t → Agree R (f s x) (g t (ρ x))) (hst : R s t) :
    Agree R (xs.foldlM f s) ((xs.map ρ).foldlM g t) := by
  induction xs generalizing s t with
  | nil => exact .pure hst
  | cons x xs ih =>
    rw [List.map_cons, List.foldlM_cons, List.foldlM_cons]
    refine .bind (h s t x List.mem_cons_self hst) fun s' t' _ _ hnext => ?_
    exact ih (fun s t y hy => h s t y (List.mem_cons_of_mem x hy)) hnext

end Outcome

open Outcome (Agree)

/-! ### Stores -/

namespace Store

variable {ρ : Candidate → Candidate} {x : CallNode} {s s' t t' : Store} {c d : Candidate}

/-- The second store holds the candidates of the first, renamed, and so does the interface of `x`. What either store
adds next has the same name but for the renaming. -/
structure Alike (ρ : Candidate → Candidate) (x : CallNode) (s t : Store) : Prop where
  ascending : Ascending ρ
  get : ∀ c, t.arena.get? (ρ c) = s.arena.get? c
  fresh : ∀ i, ρ ⟨s.size + i⟩ = ⟨t.size + i⟩
  interface : t.interface x = (s.interface x).map ρ

namespace Alike

theorem field? (h : Alike ρ x s t) (c : Candidate) : t.field? (ρ c) = s.field? c := by
  rw [Store.field?, Store.field?, h.get]

theorem objectsOf (h : Alike ρ x s t) (c : Candidate) : t.objectsOf (ρ c) = s.objectsOf c := by
  rw [Store.objectsOf, Store.objectsOf, h.get]

theorem basesOf (h : Alike ρ x s t) (c : Candidate) : t.basesOf (ρ c) = s.basesOf c := by
  rw [Store.basesOf, Store.basesOf, h.field?]

theorem ptsOf (h : Alike ρ x s t) (c : Candidate) : t.ptsOf (ρ c) = s.ptsOf c := by
  rw [Store.ptsOf, Store.ptsOf, h.field?]

theorem isPrimitive (h : Alike ρ x s t) (c : Candidate) : t.isPrimitive (ρ c) = s.isPrimitive c := by
  rw [Store.isPrimitive, Store.isPrimitive, h.get]

theorem leads_iff (h : Alike ρ x s t) : t.Leads (ρ c) (ρ d) ↔ s.Leads c d := by
  rw [Store.Leads, Store.Leads, h.field?, h.objectsOf]

theorem location (h : Alike ρ x s t) (c : Candidate) : Agree (fun l l' => l' = l) (s.location c) (t.location (ρ c)) := by
  intro l l' hl hl'
  rw [location_eq_ok] at hl hl'
  rw [h.get, hl] at hl'
  exact (Option.some.inj hl').symm

theorem field (h : Alike ρ x s t) (c : Candidate) : Agree (fun l l' => l' = l) (s.field c) (t.field (ρ c)) := by
  intro l l' hl hl'
  rw [field_eq_ok] at hl hl'
  rw [h.field?, hl] at hl'
  exact (Option.some.inj hl').symm

theorem root (h : Alike ρ x s t) (c : Candidate) : Agree (fun r r' => r' = r) (s.root c) (t.root (ρ c)) := by
  refine .bind (h.location c) fun l l' _ _ hl => ?_
  subst hl
  cases l' with
  | root r => exact .pure rfl
  | field f => exact fun _ _ hr => by cases hr

theorem nextId (h : Alike ρ x s t) : ρ s.arena.nextId = t.arena.nextId := h.fresh 0

theorem push (h : Alike ρ x s t) {l : Location} (hs : s'.arena = s.arena.push l) (ht : t'.arena = t.arena.push l)
    (hinterface : t'.interface x = (s'.interface x).map ρ) : Alike ρ x s' t' where
  ascending := h.ascending
  get c := by
    rw [hs, ht, Arena.get?_push, Arena.get?_push, h.get, ← h.nextId]
    simp only [h.ascending.eq_iff]
  fresh i := by
    have hsize : s'.size = s.size + 1 := by rw [Store.size, hs, Arena.size_push]; rfl
    have hsize' : t'.size = t.size + 1 := by rw [Store.size, ht, Arena.size_push]; rfl
    rw [hsize, hsize', Nat.add_assoc, Nat.add_assoc]
    exact h.fresh (1 + i)
  interface := hinterface

theorem addRoots (h : Alike ρ x s t) (rs : List Root) :
    Alike ρ x (CandidateGraph.addRoots s rs).1 (CandidateGraph.addRoots t rs).1 ∧
      (CandidateGraph.addRoots t rs).2 = (CandidateGraph.addRoots s rs).2.map ρ := by
  induction rs generalizing s t with
  | nil => exact ⟨h, rfl⟩
  | cons r rs ih =>
    have hpushed : Alike ρ x (s.addRoot r).1 (t.addRoot r).1 := h.push rfl rfl h.interface
    obtain ⟨hstore, hroots⟩ := ih hpushed
    exact ⟨hstore, congrArg₂ List.cons h.nextId.symm hroots⟩

theorem merge (h : Alike ρ x s t) {group : List Candidate} (hlen : 2 ≤ group.length) :
    Agree (fun a b => Alike ρ x a.1 b.1 ∧ b.2 = ρ a.2) (s.merge x group) (t.merge x (group.map ρ)) := by
  rintro ⟨s', m⟩ ⟨t', m'⟩ hs ht
  have hinterface := (merged_of_merge hlen hs).interface
  have hinterface' := (merged_of_merge (by rwa [List.length_map]) ht).interface
  obtain ⟨l, ls, hread, hm, hs'⟩ := merge_eq_ok hlen hs
  obtain ⟨l', ls', hread', hm', ht'⟩ := merge_eq_ok (by rwa [List.length_map]) ht
  have hsame : l' :: ls' = (l :: ls).map id := Agree.mapM (fun c _ => h.field c) _ _ hread hread'
  rw [List.map_id, List.cons.injEq] at hsame
  have himage : m' = ρ m := by rw [hm, hm', h.nextId]
  refine ⟨h.push (l := .field (ls.foldl FieldLocation.absorb l)) (by rw [hs']; rfl) ?_ (IdSet.ext fun d => ?_), himage⟩
  · rw [ht', hsame.1, hsame.2]
    rfl
  · rw [hinterface', himage, h.interface, IdSet.mem_map, IdSet.mem_map]
    simp only [hinterface, List.mem_map]
    constructor
    · rintro (rfl | ⟨⟨c, hc, rfl⟩, hout⟩)
      · exact ⟨m, .inl rfl, rfl⟩
      · exact ⟨c, .inr ⟨hc, fun hgroup => hout ⟨c, hgroup, rfl⟩⟩, rfl⟩
    · rintro ⟨c, rfl | ⟨hc, hout⟩, rfl⟩
      · exact .inl rfl
      · refine .inr ⟨⟨c, hc, rfl⟩, fun ⟨a, ha, hac⟩ => hout ?_⟩
        rwa [← h.ascending.eq_iff.1 hac]

end Alike

end Store

/-! ### States of bounding -/

namespace Bounding

variable {ρ : Candidate → Candidate} {b b' d : Bounding} {s t : Store} {p : Procedure} {a c : Candidate}
  {group start : List Candidate} {found : IdSet .candidate}

/-- The second state is the first with its candidates renamed. -/
structure Alike (ρ : Candidate → Candidate) (b d : Bounding) : Prop where
  left : b.Exact
  right : d.Exact
  procedure : d.procedure = b.procedure
  roots : d.graph.roots = b.graph.roots.map ρ
  store : b.store.Alike ρ b.node d.store

namespace Alike

theorem node (h : Alike ρ b d) : d.node = b.node := congrArg Procedure.node h.procedure

theorem ascending (h : Alike ρ b d) : Ascending ρ := h.store.ascending

theorem interface (h : Alike ρ b d) : d.interface = b.interface.map ρ := by
  rw [Bounding.interface, h.node, h.store.interface]
  rfl

theorem size (h : Alike ρ b d) : d.size = b.size := by
  rw [Bounding.size, h.interface, IdSet.size_map h.ascending]
  rfl

theorem nodes (h : Alike ρ b d) : d.graph.nodes = b.graph.nodes.map ρ := by
  apply IdSet.ext
  intro c
  rw [h.right.nodes, h.roots, h.interface, IdSet.mem_map, IdSet.mem_map, List.mem_map]
  simp only [h.left.nodes, or_and_right, exists_or]

theorem contains (h : Alike ρ b d) (c : Candidate) : d.graph.contains (ρ c) = b.graph.contains c := by
  rw [Bool.eq_iff_iff]
  show ρ c ∈ d.graph.nodes ↔ c ∈ b.graph.nodes
  rw [h.nodes, IdSet.map_mem_map h.ascending]

/-- The edges are those that the locations call for, so they are renamed with them. -/
theorem succsOf (h : Alike ρ b d) (c : Candidate) : d.graph.succsOf (ρ c) = (b.graph.succsOf c).map ρ := by
  apply IdSet.ext
  intro e
  rw [h.right.edges, h.nodes, IdSet.map_mem_map h.ascending, IdSet.mem_map, IdSet.mem_map]
  constructor
  · rintro ⟨hc, ⟨a, ha, rfl⟩, hlead⟩
    exact ⟨a, (h.left.edges c a).2 ⟨hc, ha, h.store.leads_iff.1 hlead⟩, rfl⟩
  · rintro ⟨a, hedge, rfl⟩
    obtain ⟨hc, ha, hlead⟩ := (h.left.edges c a).1 hedge
    exact ⟨hc, ⟨a, ha, rfl⟩, h.store.leads_iff.2 hlead⟩

/-! ### Reading -/

theorem expands_iff (h : Alike ρ b d) :
    CandidateGraph.Expands d.store (start.map ρ) (ρ c) ↔ CandidateGraph.Expands b.store start c := by
  rw [CandidateGraph.Expands, CandidateGraph.Expands, h.store.isPrimitive]
  simp [h.ascending.eq_iff]

theorem found_iff (h : Alike ρ b d) :
    d.graph.Found d.store (start.map ρ) c ↔ ∃ a, b.graph.Found b.store start a ∧ ρ a = c := by
  constructor
  · intro hc
    induction hc with
    | start hc =>
      obtain ⟨a, ha, rfl⟩ := List.mem_map.1 hc
      exact ⟨a, .start ha, rfl⟩
    | step _ hexpands hedge ih =>
      obtain ⟨a, ha, rfl⟩ := ih
      rw [h.succsOf, IdSet.mem_map] at hedge
      obtain ⟨e, he, rfl⟩ := hedge
      exact ⟨e, .step ha (h.expands_iff.1 hexpands) he, rfl⟩
  · rintro ⟨a, ha, rfl⟩
    induction ha with
    | start ha => exact .start (List.mem_map_of_mem ha)
    | step _ hexpands hedge ih =>
      refine .step ih (h.expands_iff.2 hexpands) ?_
      rwa [h.succsOf, IdSet.map_mem_map h.ascending]

theorem reachable (h : Alike ρ b d) (start : List Candidate) :
    Agree (fun found found' => found' = found.map ρ) (b.reachable start) (d.reachable (start.map ρ)) := by
  intro found found' hfound hfound'
  apply IdSet.ext
  intro c
  rw [CandidateGraph.mem_reachable hfound', h.found_iff, IdSet.mem_map]
  simp only [CandidateGraph.mem_reachable hfound]

theorem fieldsOf (h : Alike ρ b d) (cs : IdSet .candidate) :
    Agree (fun group group' => group' = group.map ρ) (b.fieldsOf cs) (d.fieldsOf (cs.map ρ)) := by
  unfold Bounding.fieldsOf
  rw [IdSet.toList_map h.ascending]
  refine .bind (.mapM_pair fun c _ => h.store.location c) fun es es' _ _ hes => .pure ?_
  rw [hes, List.filter_map, List.map_map, List.map_map]
  rfl

/-! ### Removing and merging -/

theorem remove (h : Alike ρ b d) (c : Candidate) : Agree (Alike ρ) (b.remove c) (d.remove (ρ c)) := by
  intro b' d' hb hd
  have hremoved := removed_remove hb
  have hremoved' := removed_remove hd
  have hnode : b'.node = b.node := congrArg Procedure.node hremoved.procedure
  have hnode' : d'.node = b.node := (congrArg Procedure.node hremoved'.procedure).trans h.node
  refine ⟨h.left.remove hb, h.right.remove hd, ?_, ?_, ?_⟩
  · rw [hremoved.procedure, hremoved'.procedure, h.procedure]
  · rw [hremoved.roots, hremoved'.roots, h.roots]
  · refine ⟨h.ascending, ?_, ?_, ?_⟩
    · rw [hremoved.arena, hremoved'.arena]
      exact h.store.get
    · rw [Store.size, Store.size, hremoved.arena, hremoved'.arena]
      exact h.store.fresh
    · rw [hnode]
      have hinterface : d'.interface = b'.interface.map ρ := by
        apply IdSet.ext
        intro e
        rw [hremoved'.interface, h.interface, IdSet.mem_map, IdSet.mem_map]
        simp only [hremoved.interface, List.mem_singleton]
        constructor
        · rintro ⟨⟨a, ha, rfl⟩, hne⟩
          exact ⟨a, ⟨ha, fun heq => hne (congrArg ρ heq)⟩, rfl⟩
        · rintro ⟨a, ⟨ha, hne⟩, rfl⟩
          exact ⟨⟨a, ha, rfl⟩, fun heq => hne (h.ascending.eq_iff.1 heq)⟩
      rwa [Bounding.interface, Bounding.interface, hnode, hnode'] at hinterface

theorem removeAll (h : Alike ρ b d) (cs : List Candidate) :
    Agree (Alike ρ) (b.removeAll cs) (d.removeAll (cs.map ρ)) :=
  .foldlM (fun _ _ c _ h => h.remove c) h

theorem mergeGroup (h : Alike ρ b d) (hlen : 2 ≤ group.length) (hgroup : ∀ c ∈ group, c ∈ b.interface) :
    Agree (fun out out' => Alike ρ out.1 out'.1 ∧ out'.2 = ρ out.2) (b.mergeGroup group)
      (d.mergeGroup (group.map ρ)) := by
  rintro ⟨b', m⟩ ⟨d', m'⟩ hb hd
  have hgroup' : ∀ c ∈ group.map ρ, c ∈ d.interface := by
    intro c hc
    obtain ⟨a, ha, rfl⟩ := List.mem_map.1 hc
    rw [h.interface, IdSet.map_mem_map h.ascending]
    exact hgroup a ha
  have hmerging := merging_of_mergeGroup hlen hgroup hb
  have hmerging' := merging_of_mergeGroup (by rwa [List.length_map]) hgroup' hd
  obtain ⟨hstore, hm⟩ : Store.Alike ρ b.node b'.store d'.store ∧ m' = ρ m := by
    simp only [Bounding.mergeGroup, Outcome.bind_eq_ok, Outcome.pure_eq_ok, Prod.mk.injEq] at hb hd
    obtain ⟨⟨s, m⟩, hs, _, _, rfl, rfl⟩ := hb
    obtain ⟨⟨t, m'⟩, ht, _, _, rfl, rfl⟩ := hd
    rw [h.node] at ht
    exact h.store.merge hlen _ _ hs ht
  refine ⟨⟨hmerging.exact h.left, hmerging'.exact h.right, ?_, ?_, ?_⟩, hm⟩
  · rw [hmerging.procedure, hmerging'.procedure, h.procedure]
  · rw [hmerging.roots, hmerging'.roots, h.roots]
  · rwa [hmerging.node]

theorem merge (h : Alike ρ b d) (hgroup : ∀ c ∈ group, c ∈ b.interface) :
    Agree (fun out out' => Alike ρ out.1 out'.1 ∧ out'.2 = out.2.map ρ) (b.merge group) (d.merge (group.map ρ)) := by
  unfold Bounding.merge
  rw [List.length_map]
  split
  · exact .pure ⟨h, rfl⟩
  · rename_i hlen
    refine .bind (h.mergeGroup (Nat.not_lt.1 hlen) hgroup) fun out out' _ _ hout => ?_
    exact .pure ⟨hout.1, by rw [hout.2]; rfl⟩

end Alike

end Bounding

end HeapSummary
