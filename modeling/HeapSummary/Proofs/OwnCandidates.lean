import HeapSummary.Proofs.Origins
import HeapSummary.Proofs.Seeding
import Mathlib.Data.List.Nodup

/-!
# A program's own candidates

Accesses of one field on the same bases share a candidate, wherever they are. `Represents` says what the store is after
some accesses: the candidates are the keys in the order in which they first occurred, each the join of the accesses of
its key, and the locals of a node are the candidates of the keys that it accesses. One more access either joins the
candidate of its key, which is found by search, or makes the next one.

A join does not see the order of what it joins. So the accesses in another order give the same candidates with other
numbers.
-/

namespace HeapSummary

/-- What accesses that share a candidate have in common. -/
def Access.key (a : Access) : Field × PointsTo := (a.field, a.bases)

/-- Every access with its node: node after node, and at each node in the order of its accesses. -/
def Program.performed (p : Program) : List (CallNode × Access) :=
  p.callGraph.nodes.entries.flatMap fun (x, d) => d.accesses.map (x, ·)

theorem Program.mem_performed {p : Program} {x : CallNode} {a : Access} :
    (x, a) ∈ p.performed ↔ ∃ d, p.callGraph.nodes.get? x = some d ∧ a ∈ d.accesses := by
  simp only [Program.performed, List.mem_flatMap, List.mem_map, Prod.mk.injEq]
  constructor
  · rintro ⟨⟨y, d⟩, hd, b, hb, rfl, rfl⟩
    exact ⟨d, Arena.mem_entries.1 hd, hb⟩
  · rintro ⟨d, hd, ha⟩
    exact ⟨(x, d), Arena.mem_entries.2 hd, a, ha, rfl, rfl⟩

/-- The keys of accesses, each at its first occurrence. -/
def keysOf (es : List (CallNode × Access)) : List (Field × PointsTo) := (es.map fun e => e.2.key).eraseDups

namespace Store

variable {s s' : Store} {es es' : List (CallNode × Access)} {e : CallNode × Access} {k : Field × PointsTo}
  {c d : Candidate} {l l' : FieldLocation} {x : CallNode} {a : Access} {i : Nat}

/-- What a view shows of the accesses of one key. -/
def Seen {α : Type} (es : List (CallNode × Access)) (k : Field × PointsTo) (view : Access → α) : Set α :=
  {v | ∃ e ∈ es, e.2.key = k ∧ view e.2 = v}

/-- The unmerged candidate `c` joins the accesses of the key `k`. -/
structure Joins (es : List (CallNode × Access)) (k : Field × PointsTo) (c : Candidate) (l : FieldLocation) : Prop where
  fields : l.fields = IdSet.singleton k.1
  bases : l.bases = k.2
  pts : ∀ o, o ∈ l.pts ↔ ∃ pts ∈ Seen es k Access.pts, o ∈ pts
  type : AgreedType (Seen es k Access.type) l.type
  primitive : IsLUB (Seen es k Access.primitive) l.primitive
  origin : l.origin = IdSet.singleton c

/-- The candidates are those of the keys, in order. -/
structure Indexes (es : List (CallNode × Access)) (s : Store) : Prop where
  nodup : (keysOf es).Nodup
  size : s.size = (keysOf es).length
  data : ∀ c k, (keysOf es)[c.index]? = some k → ∃ l, s.arena.get? c = some (.field l) ∧ Joins es k c l

/-- The store is the one that some accesses make. -/
structure Represents (es : List (CallNode × Access)) (s : Store) : Prop extends Indexes es s where
  locals : ∀ x c, c ∈ s.localsOf x ↔ ∃ a, (x, a) ∈ es ∧ (keysOf es)[c.index]? = some a.key
  touched : ∀ x, x ∈ s.touched ↔ ∃ a, (x, a) ∈ es

/-! ### Keys -/

theorem mem_keysOf : k ∈ keysOf es ↔ ∃ e ∈ es, e.2.key = k := by
  rw [keysOf, List.mem_eraseDups, List.mem_map]

theorem keysOf_append (es : List (CallNode × Access)) (e : CallNode × Access) :
    keysOf (es ++ [e]) = if e.2.key ∈ keysOf es then keysOf es else keysOf es ++ [e.2.key] := by
  have hmem : e.2.key ∈ keysOf es ↔ e.2.key ∈ es.map fun e => e.2.key := List.mem_eraseDups
  have happend : keysOf (es ++ [e]) = keysOf es ++ ([e.2.key].removeAll (es.map fun e => e.2.key)).eraseDups := by
    rw [keysOf, List.map_append, List.eraseDups_append]
    rfl
  rw [happend]
  split
  · rename_i he
    simp [List.removeAll, hmem.1 he]
  · rename_i he
    simp [List.removeAll, mt hmem.2 he, List.eraseDups_cons]

theorem getElem?_keysOf_append (hk : k ∈ keysOf es) :
    (keysOf (es ++ [e]))[i]? = some k ↔ (keysOf es)[i]? = some k := by
  rw [keysOf_append]
  split
  · rfl
  · rename_i he
    by_cases hi : i < (keysOf es).length
    · rw [List.getElem?_append_left hi]
    · have hne : e.2.key ≠ k := fun hek => he (hek ▸ hk)
      rw [List.getElem?_append_right (Nat.not_lt.1 hi), List.getElem?_singleton, List.getElem?_eq_none (Nat.not_lt.1 hi)]
      simp [hne]

theorem eq_of_getElem?_eq {ks : List (Field × PointsTo)} (hks : ks.Nodup) (hc : ks[c.index]? = some k)
    (hd : ks[d.index]? = some k) : c = d := by
  have hlt : c.index < ks.length := (List.getElem?_eq_some_iff.1 hc).1
  exact Id.ext ((List.getElem?_inj hlt hks).1 (hc.trans hd.symm))

/-! ### Joining -/

section seen

variable {α : Type} {view : Access → α}

theorem seen_append : Seen (es ++ [e]) k view = Seen es k view ∪ Seen [e] k view := by
  ext v
  simp only [Seen, Set.mem_ofPred_eq, Set.mem_union, List.mem_append, or_and_right, exists_or]

theorem seen_singleton (he : e.2.key = k) : Seen [e] k view = {view e.2} := by
  ext v
  simp [Seen, he, eq_comm]

theorem seen_append_of_ne (he : e.2.key ≠ k) : Seen (es ++ [e]) k view = Seen es k view := by
  ext v
  simp [Seen, or_and_right, exists_or, he]

theorem seen_of_not_mem (hk : k ∉ keysOf es) : Seen es k view = ∅ := by
  ext v
  simp only [Seen, Set.mem_ofPred_eq, Set.mem_empty_iff_false, iff_false]
  rintro ⟨e, he, hek, _⟩
  exact hk (mem_keysOf.2 ⟨e, he, hek⟩)

theorem seen_nonempty (hk : k ∈ keysOf es) : (Seen es k view).Nonempty := by
  obtain ⟨e, he, hek⟩ := mem_keysOf.1 hk
  exact ⟨view e.2, e, he, hek, rfl⟩

theorem seen_congr (hes : ∀ e, e ∈ es ↔ e ∈ es') : Seen es k view = Seen es' k view := by
  ext v
  simp only [Seen, Set.mem_ofPred_eq, hes]

end seen

theorem Joins.other (h : Joins es k c l) (he : e.2.key ≠ k) : Joins (es ++ [e]) k c l where
  fields := h.fields
  bases := h.bases
  pts o := by rw [seen_append_of_ne he, h.pts]
  type := by rw [seen_append_of_ne he]; exact h.type
  primitive := by rw [seen_append_of_ne he]; exact h.primitive
  origin := h.origin

theorem Joins.revisit (h : Joins es k c l) (hk : k ∈ keysOf es) (he : e.2.key = k) :
    Joins (es ++ [e]) k c (l.revisit e.2) where
  fields := h.fields
  bases := h.bases
  pts o := by
    show o ∈ l.pts ∪ e.2.pts ↔ _
    rw [IdSet.mem_union, h.pts, seen_append, seen_singleton he]
    simp only [Set.mem_union, Set.mem_singleton_iff, or_and_right, exists_or, exists_eq_left]
  type := by
    rw [seen_append, seen_singleton he]
    exact h.type.union (seen_nonempty hk) (Set.singleton_nonempty _) (.inl fun t ht => ht)
  primitive := by
    rw [seen_append, seen_singleton he]
    exact h.primitive.union isLUB_singleton
  origin := h.origin

theorem joins_ofAccess (he : e.2.key ∉ keysOf es) : Joins (es ++ [e]) e.2.key c (.ofAccess c e.2) := by
  have hseen : ∀ {α : Type} {view : Access → α}, Seen (es ++ [e]) e.2.key view = {view e.2} := by
    intro α view
    rw [seen_append, seen_of_not_mem he, seen_singleton rfl, Set.empty_union]
  refine ⟨rfl, rfl, fun o => ?_, ?_, ?_, rfl⟩
  · rw [hseen]
    simp [FieldLocation.ofAccess]
  · rw [hseen]
    exact .inl fun t ht => ht
  · rw [hseen]
    exact isLUB_singleton

/-- The key and its accesses, in any order, determine everything but the number. -/
theorem Joins.eq (h : Joins es k c l) (h' : Joins es' k d l') (hes : ∀ e, e ∈ es ↔ e ∈ es') (hk : k ∈ keysOf es) :
    l' = { l with origin := IdSet.singleton d } := by
  obtain ⟨fields, bases, pts, type, primitive, origin⟩ := l'
  have hpts : pts = l.pts := IdSet.ext fun o => by rw [h.pts, seen_congr hes]; exact h'.pts o
  have htype : type = l.type := h'.type.eq (seen_congr hes ▸ seen_nonempty hk) (seen_congr hes ▸ h.type)
  have hprimitive : primitive = l.primitive := h'.primitive.unique (seen_congr hes ▸ h.primitive)
  have hfields : fields = l.fields := h'.fields.trans h.fields.symm
  have hbases : bases = l.bases := h'.bases.trans h.bases.symm
  have horigin : origin = IdSet.singleton d := h'.origin
  rw [hpts, htype, hprimitive, hfields, hbases, horigin]

/-! ### One access -/

theorem Indexes.exists_key (h : Indexes es s) (hc : c.index < s.size) : ∃ k, (keysOf es)[c.index]? = some k :=
  ⟨_, List.getElem?_eq_getElem (h.size ▸ hc)⟩

theorem Indexes.isFor_iff (h : Indexes es s) {loc : Location} (hc : s.arena.get? c = some loc) :
    isFor a c loc = true ↔ (keysOf es)[c.index]? = some a.key := by
  obtain ⟨k, hk⟩ := h.exists_key (Arena.lt_size_of_get? hc)
  obtain ⟨l, hl, hjoins⟩ := h.data c k hk
  obtain rfl : loc = .field l := Option.some.inj (hc.symm.trans hl)
  simp only [isFor, hjoins.fields, hjoins.bases, hjoins.origin, hk, Bool.and_eq_true, decide_eq_true_eq, true_and,
    IdSet.singleton_inj, Option.some.injEq, Access.key, Prod.ext_iff]

theorem Indexes.findAccess?_eq_some (h : Indexes es s) :
    s.findAccess? a = some c ↔ (keysOf es)[c.index]? = some a.key := by
  have hsound : ∀ c, s.findAccess? a = some c → (keysOf es)[c.index]? = some a.key := by
    intro c hfind
    obtain ⟨⟨c, loc⟩, hentry, rfl⟩ := Option.map_eq_some_iff.1 hfind
    have hfor := List.find?_some hentry
    exact (h.isFor_iff (Arena.mem_entries.1 (List.mem_of_find?_eq_some hentry))).1 hfor
  refine ⟨hsound c, fun hc => ?_⟩
  obtain ⟨l, hl, _⟩ := h.data c _ hc
  cases hfind : s.findAccess? a with
  | none =>
    have hnone := List.find?_eq_none.1 (Option.map_eq_none_iff.1 hfind) (c, .field l) (Arena.mem_entries.2 hl)
    exact absurd ((h.isFor_iff hl).2 hc) hnone
  | some d => rw [eq_of_getElem?_eq h.nodup hc (hsound d hfind)]

theorem Indexes.findAccess?_eq_none (h : Indexes es s) (hfind : s.findAccess? a = none) : a.key ∉ keysOf es := by
  intro hk
  obtain ⟨i, hi⟩ := List.mem_iff_getElem?.1 hk
  rw [(h.findAccess?_eq_some (c := ⟨i⟩)).2 hi] at hfind
  cases hfind

theorem Indexes.revisit (h : Indexes es s) (hc : (keysOf es)[c.index]? = some e.2.key) (hsize : s'.size = s.size)
    (hown : ∀ l, s.arena.get? c = some (.field l) → s'.arena.get? c = some (.field (l.revisit e.2)))
    (hother : ∀ d, d ≠ c → s'.arena.get? d = s.arena.get? d) : Indexes (es ++ [e]) s' := by
  have hmem : e.2.key ∈ keysOf es := List.mem_of_getElem? hc
  have hkeys : keysOf (es ++ [e]) = keysOf es := by rw [keysOf_append, if_pos hmem]
  refine ⟨hkeys ▸ h.nodup, by rw [hkeys, hsize, h.size], fun d k hd => ?_⟩
  rw [hkeys] at hd
  obtain ⟨l, hl, hjoins⟩ := h.data d k hd
  by_cases hdc : d = c
  · subst hdc
    obtain rfl : e.2.key = k := Option.some.inj (hc.symm.trans hd)
    exact ⟨_, hown l hl, hjoins.revisit hmem rfl⟩
  · refine ⟨l, (hother d hdc).trans hl, hjoins.other fun hek => hdc ?_⟩
    exact eq_of_getElem?_eq h.nodup hd (hek ▸ hc)

theorem Indexes.enter (h : Indexes es s) (hnew : e.2.key ∉ keysOf es)
    (hs' : s'.arena = s.arena.push (.field (.ofAccess s.arena.nextId e.2))) : Indexes (es ++ [e]) s' := by
  have hkeys : keysOf (es ++ [e]) = keysOf es ++ [e.2.key] := by rw [keysOf_append, if_neg hnew]
  refine ⟨?_, ?_, fun d k hd => ?_⟩
  · rw [hkeys]
    exact (List.perm_append_singleton _ _).nodup_iff.2 (List.nodup_cons.2 ⟨hnew, h.nodup⟩)
  · rw [hkeys, List.length_append, ← h.size, Store.size, hs', Arena.size_push]
    rfl
  · rw [hs', Arena.get?_push]
    rw [hkeys] at hd
    rcases Nat.lt_or_ge d.index (keysOf es).length with hlt | hge
    · rw [List.getElem?_append_left hlt] at hd
      obtain ⟨l, hl, hjoins⟩ := h.data d k hd
      have hne : d ≠ s.arena.nextId := fun heq => Nat.ne_of_lt hlt (h.size ▸ congrArg Id.index heq)
      exact ⟨l, by rw [if_neg hne, hl], hjoins.other fun hek => hnew (hek ▸ List.mem_of_getElem? hd)⟩
    · rw [List.getElem?_append_right hge, List.getElem?_singleton] at hd
      split at hd
      · obtain rfl : e.2.key = k := Option.some.inj hd
        have hnext : s.arena.nextId.index = (keysOf es).length := h.size
        obtain rfl : d = s.arena.nextId := Id.ext (by omega)
        exact ⟨_, if_pos rfl, joins_ofAccess hnew⟩
      · cases hd

theorem Indexes.addAccess (h : Indexes es s) (e : CallNode × Access) : Indexes (es ++ [e]) (s.addAccess e.2).1 ∧
    (keysOf (es ++ [e]))[(s.addAccess e.2).2.index]? = some e.2.key := by
  unfold Store.addAccess
  cases hfind : s.findAccess? e.2 with
  | some c =>
    have hc := h.findAccess?_eq_some.1 hfind
    refine ⟨h.revisit hc (Arena.size_modify _ _ _) (fun l hl => ?_) fun d hd => ?_, ?_⟩
    · simp only [Arena.get?_modify, hl, if_true, Option.map_some]
    · simp only [Arena.get?_modify, if_neg (Ne.symm hd)]
    · exact (getElem?_keysOf_append (List.mem_of_getElem? hc)).2 hc
  | none =>
    have hnew := h.findAccess?_eq_none hfind
    refine ⟨h.enter hnew rfl, ?_⟩
    have hnext : s.arena.nextId.index = (keysOf es).length := h.size
    rw [keysOf_append, if_neg hnew, hnext, List.getElem?_append_right (Nat.le_refl _)]
    simp

theorem touched_addAccess (s : Store) (a : Access) : (s.addAccess a).1.touched = s.touched := by
  unfold Store.addAccess
  split <;> rfl

theorem Represents.addLocal (h : Represents es s) (x : CallNode) (a : Access) :
    Represents (es ++ [(x, a)]) (s.addLocal x a) := by
  obtain ⟨hindexes, hown⟩ := h.toIndexes.addAccess (x, a)
  refine ⟨⟨hindexes.nodup, hindexes.size, hindexes.data⟩, fun y d => ?_, fun y => ?_⟩
  · rw [mem_localsOf_addLocal, h.locals]
    have hnew : d = (s.addAccess a).2 ↔ (keysOf (es ++ [(x, a)]))[d.index]? = some a.key := by
      constructor
      · rintro rfl
        exact hown
      · exact fun hd => eq_of_getElem?_eq hindexes.nodup hd hown
    have hold : ∀ b, (y, b) ∈ es →
        ((keysOf (es ++ [(x, a)]))[d.index]? = some b.key ↔ (keysOf es)[d.index]? = some b.key) := fun b hb =>
      getElem?_keysOf_append (mem_keysOf.2 ⟨(y, b), hb, rfl⟩)
    rw [hnew]
    constructor
    · rintro (⟨rfl, hd⟩ | ⟨b, hb, hd⟩)
      · exact ⟨a, List.mem_append_right _ List.mem_cons_self, hd⟩
      · exact ⟨b, List.mem_append_left _ hb, (hold b hb).2 hd⟩
    · rintro ⟨b, hb, hd⟩
      rcases List.mem_append.1 hb with hb | hb
      · exact .inr ⟨b, hb, (hold b hb).1 hd⟩
      · obtain ⟨rfl, rfl⟩ := Prod.mk.inj (List.mem_singleton.1 hb)
        exact .inl ⟨rfl, hd⟩
  · show y ∈ (s.addAccess a).1.touched.insert x ↔ _
    rw [IdSet.mem_insert, touched_addAccess, h.touched]
    simp only [List.mem_append, List.mem_singleton, Prod.mk.injEq, exists_or, or_comm]
    simp

/-! ### All accesses -/

theorem represents_empty : Represents [] empty where
  nodup := .nil
  size := rfl
  data c k hk := by cases hk
  locals x c := by
    constructor
    · exact fun hc => absurd hc IdSet.not_mem_empty
    · rintro ⟨a, ha, _⟩
      cases ha
  touched x := by
    constructor
    · exact fun hx => absurd hx IdSet.not_mem_empty
    · rintro ⟨a, ha⟩
      cases ha

theorem Represents.foldl_addLocal (h : Represents es s) (rest : List (CallNode × Access)) :
    Represents (es ++ rest) (rest.foldl (fun s e => s.addLocal e.1 e.2) s) := by
  induction rest generalizing es s with
  | nil => rwa [List.append_nil]
  | cons e rest ih =>
    have hrest := ih (h.addLocal e.1 e.2)
    rwa [List.append_assoc] at hrest

theorem ofProgram_eq_foldl (p : Program) :
    ofProgram p = p.performed.foldl (fun s e => s.addLocal e.1 e.2) empty := by
  simp only [ofProgram, Program.performed, List.foldl_flatMap, List.foldl_map]

theorem represents_ofProgram (p : Program) : Represents p.performed (ofProgram p) := by
  rw [ofProgram_eq_foldl]
  exact represents_empty.foldl_addLocal p.performed

/-! ### Another order -/

/-- Two stores are the same but for the numbers of the candidates, each of which is its own origin. -/
structure Renumbers (φ : Candidate → Candidate) (s s' : Store) : Prop where
  candidates : (s.ids.map φ).Perm s'.ids
  data : ∀ c l, s.arena.get? c = some (.field l) →
    s'.arena.get? (φ c) = some (.field { l with origin := IdSet.singleton (φ c) })
  locals : ∀ x d, d ∈ s'.localsOf x ↔ ∃ c ∈ s.localsOf x, φ c = d
  interfaces : ∀ x d, d ∈ s'.interface x ↔ ∃ c ∈ s.interface x, φ c = d
  touched : s'.touched = s.touched

/-- The number of a candidate's key among other keys. -/
def renumber (ks ks' : List (Field × PointsTo)) (c : Candidate) : Candidate := ⟨ks'.idxOf (ks.getD c.index default)⟩

theorem Indexes.mem_ids_iff (h : Indexes es s) : c ∈ s.ids ↔ ∃ k, (keysOf es)[c.index]? = some k := by
  rw [ids, Arena.mem_ids]
  constructor
  · exact h.exists_key
  · rintro ⟨k, hk⟩
    have hlt : c.index < (keysOf es).length := (List.getElem?_eq_some_iff.1 hk).1
    rw [← h.size] at hlt
    exact hlt

section renumber

variable (hes : ∀ e, e ∈ es ↔ e ∈ es')

include hes

theorem mem_keysOf_congr : k ∈ keysOf es ↔ k ∈ keysOf es' := by
  simp only [mem_keysOf, hes]

theorem getElem?_renumber (hc : (keysOf es)[c.index]? = some k) :
    (keysOf es')[(renumber (keysOf es) (keysOf es') c).index]? = some k := by
  rw [renumber, List.getD_eq_getElem?_getD, hc]
  exact List.getElem?_idxOf ((mem_keysOf_congr hes).1 (List.mem_of_getElem? hc))

theorem exists_renumber_eq (hnodup : (keysOf es').Nodup) (hd : (keysOf es')[d.index]? = some k) :
    ∃ c, (keysOf es)[c.index]? = some k ∧ renumber (keysOf es) (keysOf es') c = d := by
  obtain ⟨i, hi⟩ := List.mem_iff_getElem?.1 ((mem_keysOf_congr hes).2 (List.mem_of_getElem? hd))
  exact ⟨⟨i⟩, hi, eq_of_getElem?_eq hnodup (getElem?_renumber hes hi) hd⟩

theorem perm_renumber (h : Indexes es s) (h' : Indexes es' s') :
    (s.ids.map (renumber (keysOf es) (keysOf es'))).Perm s'.ids := by
  have hnodup : (s.ids.map (renumber (keysOf es) (keysOf es'))).Nodup := by
    refine List.Nodup.map_on (fun c hc d hd heq => ?_) (Arena.nodup_ids s.arena)
    obtain ⟨k, hk⟩ := h.mem_ids_iff.1 hc
    obtain ⟨k', hk'⟩ := h.mem_ids_iff.1 hd
    have hsame : some k = some k' := by
      rw [← getElem?_renumber hes hk, heq, getElem?_renumber hes hk']
    exact eq_of_getElem?_eq h.nodup hk (hk'.trans hsame.symm)
  refine (List.perm_ext_iff_of_nodup hnodup (Arena.nodup_ids s'.arena)).2 fun d => ?_
  rw [List.mem_map]
  constructor
  · rintro ⟨c, hc, rfl⟩
    obtain ⟨k, hk⟩ := h.mem_ids_iff.1 hc
    exact h'.mem_ids_iff.2 ⟨k, getElem?_renumber hes hk⟩
  · intro hd
    obtain ⟨k, hk⟩ := h'.mem_ids_iff.1 hd
    obtain ⟨c, hc, hcd⟩ := exists_renumber_eq hes h'.nodup hk
    exact ⟨c, h.mem_ids_iff.2 ⟨k, hc⟩, hcd⟩

theorem Represents.mem_localsOf_renumber (h : Represents es s) (h' : Represents es' s') :
    d ∈ s'.localsOf x ↔ ∃ c ∈ s.localsOf x, renumber (keysOf es) (keysOf es') c = d := by
  simp only [h.locals, h'.locals]
  constructor
  · rintro ⟨a, ha, hd⟩
    obtain ⟨c, hc, hcd⟩ := exists_renumber_eq hes h'.nodup hd
    exact ⟨c, ⟨a, (hes _).2 ha, hc⟩, hcd⟩
  · rintro ⟨c, ⟨a, ha, hc⟩, rfl⟩
    exact ⟨a, (hes _).1 ha, getElem?_renumber hes hc⟩

theorem Represents.renumbers (h : Represents es s) (h' : Represents es' s') (hs : s.ShowsLocals) (hs' : s'.ShowsLocals) :
    Renumbers (renumber (keysOf es) (keysOf es')) s s' where
  candidates := perm_renumber hes h.toIndexes h'.toIndexes
  data c l hl := by
    obtain ⟨k, hk⟩ := h.exists_key (Arena.lt_size_of_get? hl)
    obtain ⟨l₀, hl₀, hjoins⟩ := h.data c k hk
    obtain rfl : l₀ = l := Location.field.inj (Option.some.inj (hl₀.symm.trans hl))
    obtain ⟨l', hl', hjoins'⟩ := h'.data _ k (getElem?_renumber hes hk)
    rw [hl', hjoins.eq hjoins' hes (List.mem_of_getElem? hk)]
  locals x d := h.mem_localsOf_renumber hes h'
  interfaces x d := by
    rw [hs x, hs' x]
    exact h.mem_localsOf_renumber hes h'
  touched := IdSet.ext fun x => by simp only [h.touched, h'.touched, hes]

end renumber

/-- A program's store has one candidate for each key of its accesses, numbered by first occurrence: the field and the
bases of the key, and the join of all accesses of that key, wherever they are. The locals of a node, and so its interface,
are the candidates of the keys that it accesses. Hence the accesses in another order make the same store up to the numbers
of the candidates. -/
theorem one_candidate_per_key (p : Program) :
    (ofProgram p).size = (keysOf p.performed).length ∧
    (∀ c k, (keysOf p.performed)[c.index]? = some k →
      ∃ l, (ofProgram p).arena.get? c = some (.field l) ∧ Joins p.performed k c l) ∧
    (∀ x c, c ∈ (ofProgram p).localsOf x ↔ ∃ d, p.callGraph.nodes.get? x = some d ∧
      ∃ a ∈ d.accesses, (keysOf p.performed)[c.index]? = some a.key) ∧
    (∀ x, (ofProgram p).interface x = (ofProgram p).localsOf x) ∧
    ∀ p', p'.performed.Perm p.performed → ∃ φ, Renumbers φ (ofProgram p) (ofProgram p') := by
  have h := represents_ofProgram p
  have hs := showsLocals_ofProgram p
  refine ⟨h.size, h.data, fun x c => ?_, hs, fun p' hperm => ?_⟩
  · rw [h.locals]
    constructor
    · rintro ⟨a, ha, hc⟩
      obtain ⟨d, hd, ha⟩ := Program.mem_performed.1 ha
      exact ⟨d, hd, a, ha, hc⟩
    · rintro ⟨d, hd, a, ha, hc⟩
      exact ⟨a, Program.mem_performed.2 ⟨d, hd, ha⟩, hc⟩
  · exact ⟨_, h.renumbers (fun e => hperm.symm.mem_iff) (represents_ofProgram p') hs (showsLocals_ofProgram p')⟩

/-- A field accessed at two nodes, of different types and certainties, and another one at the first node, where the two
accesses come in either order. -/
def sharedAccess (swapped : Bool) : Program :=
  let next : Access := ⟨⟨0⟩, .ofList [⟨1⟩], .ofList [⟨2⟩], some ⟨0⟩, .no⟩
  let name : Access := ⟨⟨1⟩, .ofList [⟨1⟩], ∅, some ⟨1⟩, .yes⟩
  let again : Access := ⟨⟨0⟩, .ofList [⟨1⟩], .ofList [⟨3⟩], some ⟨1⟩, .yes⟩
  { Program.empty with callGraph.nodes := ⟨#[
    ⟨"main", .normal, if swapped then [name, next] else [next, name], [], []⟩, ⟨"other", .normal, [again], [], []⟩]⟩ }

/-- The shared candidate joins both accesses, and the order decides its number only. -/
theorem one_candidate_per_key_sharedAccess : (ofProgram (sharedAccess false)).size = 2 ∧
    (ofProgram (sharedAccess false)).arena.get? ⟨0⟩ = some (.field
      ⟨IdSet.singleton ⟨0⟩, .ofList [⟨1⟩], .ofList [⟨2⟩, ⟨3⟩], none, .maybe, IdSet.singleton ⟨0⟩⟩) ∧
    ofProgram (sharedAccess true) ≠ ofProgram (sharedAccess false) ∧
    ∃ φ, Renumbers φ (ofProgram (sharedAccess false)) (ofProgram (sharedAccess true)) := by
  obtain ⟨hsize, _, _, _, hrenumbers⟩ := one_candidate_per_key (sharedAccess false)
  refine ⟨hsize, by decide, by decide, hrenumbers (sharedAccess true) ?_⟩
  exact List.Perm.swap _ _ _

end Store

end HeapSummary
