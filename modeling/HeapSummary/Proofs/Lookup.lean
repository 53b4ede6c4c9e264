import HeapSummary.AccessPath.Table
import HeapSummary.Proofs.InterfaceCount
import Mathlib.Logic.Function.Basic

/-!
# Maps in place of searches

A path is known by its parent and last step, and an unmerged candidate by its field and bases. Both are searched for in an
arena. A map that is asked first, and written when a row is made for a key that it does not have, answers the same as the
search (`Arena.Indexed`), since no other row passes for one that was made for a key. So whatever is done to a table or to
a store, doing it with a map gives the same results and leads to the same state.
-/

namespace HeapSummary

section simulation

variable {ε α σ τ : Type} (R : σ → Prop) (view : σ → τ) {t : σ}

/-- If every step keeps the relation and shows in the view as the other step, then so does a loop. -/
theorem foldl_simulates {f : σ → α → σ} {g : τ → α → τ} (hstep : ∀ t a, R t → R (f t a) ∧ view (f t a) = g (view t) a)
    (h : R t) (xs : List α) : R (xs.foldl f t) ∧ view (xs.foldl f t) = xs.foldl g (view t) := by
  induction xs generalizing t with
  | nil => exact ⟨h, rfl⟩
  | cons a xs ih =>
    obtain ⟨hnext, hview⟩ := hstep t a h
    rw [List.foldl_cons, List.foldl_cons, ← hview]
    exact ih hnext

theorem foldlM_simulates {f : σ → α → Except ε σ} {g : τ → α → Except ε τ}
    (hstep : ∀ t a, R t → (f t a).map view = g (view t) a ∧ ∀ t', f t a = .ok t' → R t') (h : R t) (xs : List α) :
    (xs.foldlM f t).map view = xs.foldlM g (view t) ∧ ∀ t', xs.foldlM f t = .ok t' → R t' := by
  induction xs generalizing t with
  | nil =>
    refine ⟨rfl, fun t' ht' => ?_⟩
    cases ht'
    exact h
  | cons a xs ih =>
    obtain ⟨hview, hkeeps⟩ := hstep t a h
    rw [List.foldlM_cons, List.foldlM_cons, ← hview]
    cases hrun : f t a with
    | error e => exact ⟨rfl, fun t' ht' => nomatch ht'⟩
    | ok u => exact ih (hkeeps u hrun)

end simulation

namespace Arena

variable {k : Kind} {α κ : Type} {a : Arena k α} {row : α} {test : κ → Id k × α → Bool} {index : κ → Option (Id k)}
  {key : κ}

theorem entries_push (a : Arena k α) (row : α) : (a.push row).entries = a.entries ++ [(a.nextId, row)] := by
  have hids : (a.push row).ids = a.ids ++ [a.nextId] := by
    rw [ids, size_push, List.range_succ, List.map_append]
    rfl
  have hvalues : (a.push row).values = a.values ++ [row] := Array.toList_push
  have hlength : a.ids.length = a.values.length := by simp [ids, values, size]
  rw [entries, hids, hvalues, List.zip_append hlength]
  rfl

theorem getElem?_entries (a : Arena k α) (i : Nat) : a.entries[i]? = (a.get? ⟨i⟩).map (Prod.mk ⟨i⟩) := by
  by_cases hi : i < a.rows.size
  · simp [entries, ids, values, get?, size, hi]
  · simp [entries, ids, values, get?, size, hi]

theorem entries_modify (a : Arena k α) (x : Id k) (f : α → α) :
    (a.modify x f).entries = a.entries.map fun e => (e.1, if x = e.1 then f e.2 else e.2) := by
  apply List.ext_getElem?
  intro i
  rw [List.getElem?_map, getElem?_entries, getElem?_entries, get?_modify, Option.map_map]
  split
  · rename_i hx
    rw [Option.map_map]
    simp [Function.comp_def, hx]
  · rename_i hx
    simp [Function.comp_def, hx]

/-- The map has for every key the first row that passes the test for it. -/
def Indexed (test : κ → Id k × α → Bool) (a : Arena k α) (index : κ → Option (Id k)) : Prop :=
  ∀ key, index key = (a.entries.find? (test key)).map Prod.fst

theorem indexed_empty : Indexed test empty fun _ => none := fun _ => rfl

theorem Indexed.push_other (h : Indexed test a index) (hrow : ∀ key, test key (a.nextId, row) = false) :
    Indexed test (a.push row) index := by
  intro key
  rw [entries_push, List.find?_append, List.find?_singleton, hrow, h key]
  simp

theorem Indexed.push_own [DecidableEq κ] (h : Indexed test a index) (hnone : index key = none)
    (hrow : ∀ other, test other (a.nextId, row) = decide (other = key)) :
    Indexed test (a.push row) (Function.update index key (some a.nextId)) := by
  intro other
  rw [entries_push, List.find?_append, List.find?_singleton, hrow, Function.update_apply]
  by_cases hother : other = key
  · subst hother
    rw [h other, Option.map_eq_none_iff] at hnone
    simp [hnone]
  · simp [hother, h other]

theorem Indexed.modify {x : Id k} {f : α → α} (h : Indexed test a index)
    (hrow : ∀ key x row, test key (x, f row) = test key (x, row)) : Indexed test (a.modify x f) index := by
  intro key
  have htest : (test key ∘ fun e : Id k × α => (e.1, if x = e.1 then f e.2 else e.2)) = test key := by
    funext e
    rw [Function.comp_apply]
    split
    · exact hrow key e.1 e.2
    · rfl
  rw [entries_modify, List.find?_map, htest, Option.map_map]
  exact h key

end Arena

/-! ### Paths -/

namespace PathTable

/-- What can be done to a table. -/
inductive Operation where
  | enter (d : AccessPath)
  | attach (x : DepNode) (p : Path)
  | setDisjoint (a b : TypeId)

def Operation.apply (t : PathTable) : Operation → PathTable
  | enter d => (t.enter d).1
  | attach x p => t.attach x p
  | setDisjoint a b => t.setDisjoint a b

/-- A table, with a map to its paths. -/
structure Mapped where
  table : PathTable
  interned : Option Path × Step → Option Path

namespace Mapped

variable {t : Mapped}

def empty : Mapped := ⟨.empty, fun _ => none⟩

/-- Enters a path that the map does not have, and notes it there. -/
def enter (t : Mapped) (d : AccessPath) : Mapped × Path :=
  match t.interned (d.parent, d.last) with
  | some p => (t, p)
  | none =>
    let p := t.table.paths.nextId
    (⟨{ t.table with paths := t.table.paths.push d }, Function.update t.interned (d.parent, d.last) (some p)⟩, p)

def apply (t : Mapped) : Operation → Mapped
  | .enter d => (t.enter d).1
  | o => { t with table := o.apply t.table }

def Agrees (t : Mapped) : Prop :=
  t.table.paths.Indexed (fun key e => decide (e.2.parent = key.1 ∧ e.2.last = key.2)) t.interned

theorem Agrees.find? (h : t.Agrees) (parent : Option Path) (last : Step) :
    t.interned (parent, last) = t.table.find? parent last := h (parent, last)

theorem Agrees.enter (h : t.Agrees) (d : AccessPath) :
    (t.enter d).1.Agrees ∧ (t.enter d).1.table = (t.table.enter d).1 ∧ (t.enter d).2 = (t.table.enter d).2 := by
  unfold Mapped.enter PathTable.enter
  rw [← h.find? d.parent d.last]
  cases hfind : t.interned (d.parent, d.last) with
  | some p => exact ⟨h, rfl, rfl⟩
  | none =>
    refine ⟨Arena.Indexed.push_own h hfind fun other => ?_, rfl, rfl⟩
    simp only [Prod.ext_iff, eq_comm]

theorem Agrees.apply (h : t.Agrees) (o : Operation) :
    (t.apply o).Agrees ∧ (t.apply o).table = o.apply t.table := by
  cases o with
  | enter d => exact ⟨(h.enter d).1, (h.enter d).2.1⟩
  | attach x p =>
    refine ⟨?_, rfl⟩
    unfold Mapped.apply Operation.apply attach
    dsimp only
    split <;> exact h
  | setDisjoint a b =>
    refine ⟨?_, rfl⟩
    unfold Mapped.apply Operation.apply setDisjoint
    dsimp only
    split <;> exact h

theorem Agrees.run (h : t.Agrees) (ops : List Operation) :
    (ops.foldl Mapped.apply t).Agrees ∧ (ops.foldl Mapped.apply t).table = ops.foldl Operation.apply t.table :=
  foldl_simulates Agrees table (fun _ o h => h.apply o) h ops

end Mapped

/-- With a map, any sequence of operations gives the table that it gives with searches, and the map gives for every parent
and last step the path that a search finds. -/
theorem interned_finds_paths (ops : List Operation) :
    (ops.foldl Mapped.apply .empty).table = ops.foldl Operation.apply .empty ∧
      ∀ parent last, (ops.foldl Mapped.apply .empty).interned (parent, last) =
        (ops.foldl Operation.apply .empty).find? parent last := by
  have hempty : Mapped.empty.Agrees := Arena.indexed_empty
  obtain ⟨hagrees, htable⟩ := hempty.run ops
  exact ⟨htable, fun parent last => htable ▸ hagrees.find? parent last⟩

end PathTable

/-! ### Accesses -/

namespace Store

theorem arena_of_merge {s s' : Store} {x : CallNode} {group : List Candidate} {m : Candidate}
    (h : s.merge x group = .ok (s', m)) :
    s'.arena = s.arena ∨ ∃ l, s'.arena = s.arena.push l ∧ ∀ f, l = .field f → ∀ c ∈ f.origin, ∃ d, c ∈ s.originOf d := by
  obtain ⟨_, hadd⟩ | hlen := merge_cases h
  · obtain ⟨_, rfl⟩ := add_eq_ok hadd
    exact .inl rfl
  · obtain ⟨l, ls, hread, rfl, rfl⟩ := merge_eq_ok hlen h
    refine .inr ⟨_, rfl, fun f hf c hc => ?_⟩
    cases hf
    obtain ⟨part, hpart, hc⟩ := (FieldLocation.mem_foldl_absorb fun _ _ => rfl).1 hc
    obtain ⟨d, _, hd⟩ := Outcome.exists_of_mem_mapM hread hpart
    exact ⟨d, originOf_of_field (field_eq_ok.1 hd) ▸ hc⟩

/-- Apart from accesses, operations make no candidate but roots and merged ones, and what a merged one stands for stood in
the store before. -/
theorem Operation.arena_cases {s s' : Store} {o : Operation} (h : o.apply s = .ok s') (ho : ∀ a, o ≠ .addAccess a) :
    s'.arena = s.arena ∨ ∃ l, s'.arena = s.arena.push l ∧ ∀ f, l = .field f → ∀ c ∈ f.origin, ∃ d, c ∈ s.originOf d := by
  cases o with
  | addAccess a => exact absurd rfl (ho a)
  | addRoot r =>
    cases h
    exact .inr ⟨.root r, rfl, fun f hf => nomatch hf⟩
  | add x c =>
    obtain ⟨_, rfl⟩ := add_eq_ok h
    exact .inl rfl
  | remove x c =>
    cases h
    exact .inl rfl
  | merge x group =>
    obtain ⟨⟨t, m⟩, hrun, h⟩ := Outcome.bind_eq_ok.1 h
    cases h
    exact arena_of_merge hrun
  | fold x folded =>
    obtain ⟨⟨t, r⟩, hfold, h⟩ := Outcome.bind_eq_ok.1 h
    cases h
    obtain ⟨_, rfl, _⟩ | ⟨group, m, hrun, _⟩ := fold_eq_ok hfold
    · exact .inl rfl
    · exact arena_of_merge hrun

theorem originOf_modify {s : Store} {c : Candidate} {f : Location → Location}
    (hf : ∀ l, (f l).field?.map FieldLocation.origin = l.field?.map FieldLocation.origin) (d : Candidate) :
    originOf { s with arena := s.arena.modify c f } d = s.originOf d := by
  unfold originOf field?
  rw [Arena.get?_modify]
  split
  · cases s.arena.get? d with
    | none => rfl
    | some l => exact congrArg (Option.getD · ∅) (hf l)
  · rfl

/-- A store, with a map to its unmerged candidates. -/
structure Mapped where
  store : Store
  byAccess : Field × PointsTo → Option Candidate

namespace Mapped

variable {t : Mapped} {s' : Store}

def empty : Mapped := ⟨.empty, fun _ => none⟩

/-- Makes a candidate for an access whose key the map does not have, and notes it there. -/
def addAccess (t : Mapped) (a : Access) : Mapped × Candidate :=
  match t.byAccess a.key with
  | some c =>
    let revisit : Location → Location
      | .field l => .field (l.revisit a)
      | .root r => .root r
    ({ t with store.arena := t.store.arena.modify c revisit }, c)
  | none =>
    let c := t.store.arena.nextId
    (⟨{ t.store with arena := t.store.arena.push (.field (.ofAccess c a)) },
      Function.update t.byAccess a.key (some c)⟩, c)

def addLocal (t : Mapped) (x : CallNode) (a : Access) : Mapped :=
  let (t, c) := t.addAccess a
  { t with store := { t.store.setInterface x ((t.store.interface x).insert c) with
    locals := t.store.locals.set x ((t.store.localsOf x).insert c) } }

def ofProgram (p : Program) : Mapped := p.performed.foldl (fun t e => t.addLocal e.1 e.2) empty

def apply (t : Mapped) : Operation → Except Fault Mapped
  | .addAccess a => return (t.addAccess a).1
  | o => return { t with store := ← o.apply t.store }

theorem isFor_field {a : Access} {c : Candidate} {l : FieldLocation} : isFor a c (.field l) = true ↔
    l.origin = IdSet.singleton c ∧ l.fields = IdSet.singleton a.field ∧ l.bases = a.bases := by
  simp [isFor, and_assoc]

/-- The unmerged candidates of a key are those that a search takes for it. -/
def isForKey (key : Field × PointsTo) (e : Candidate × Location) : Bool :=
  isFor ⟨key.1, key.2, ∅, none, .no⟩ e.1 e.2

/-- The map agrees with the search. Origins are within the store, so no merged candidate is its own origin. -/
structure Agrees (t : Mapped) : Prop where
  indexed : t.store.arena.Indexed isForKey t.byAccess
  origins : ∀ c, ∀ o ∈ t.store.originOf c, o.index < t.store.size

theorem Agrees.findAccess? (h : t.Agrees) (a : Access) : t.byAccess a.key = t.store.findAccess? a := h.indexed a.key

theorem Agrees.of_arena (h : t.Agrees) (harena : s'.arena = t.store.arena) : Agrees { t with store := s' } where
  indexed := harena ▸ h.indexed
  origins c o ho := by
    have horigin : s'.originOf c = t.store.originOf c := by rw [originOf, originOf, field?, field?, harena]
    rw [size, harena]
    exact h.origins c o (horigin ▸ ho)

theorem Agrees.origins_of_push {l : Location} (h : t.Agrees) (harena : s'.arena = t.store.arena.push l)
    (horigin : ∀ f, l = .field f → ∀ o ∈ f.origin, o.index < s'.size) : ∀ c, ∀ o ∈ s'.originOf c, o.index < s'.size := by
  intro c o ho
  obtain ⟨f, hf⟩ := exists_field_of_mem_originOf ho
  rw [originOf_of_field hf] at ho
  rw [field?_eq_some, harena, Arena.get?_push] at hf
  split at hf
  · exact horigin f (Option.some.inj hf) o ho
  · have hlt := h.origins c o (originOf_of_field (field?_eq_some.2 hf) ▸ ho)
    rw [size, harena, Arena.size_push]
    exact Nat.lt_succ_of_lt hlt

/-- A merged candidate came after all that it stands for, so it is not taken for an access. -/
theorem Agrees.of_push {l : Location} (h : t.Agrees) (harena : s'.arena = t.store.arena.push l)
    (horigin : ∀ f, l = .field f → ∀ o ∈ f.origin, o.index < t.store.size) : Agrees { t with store := s' } where
  indexed := by
    show s'.arena.Indexed isForKey t.byAccess
    rw [harena]
    refine h.indexed.push_other fun key => ?_
    cases l with
    | root r => rfl
    | field f =>
      have hne : f.origin ≠ IdSet.singleton t.store.arena.nextId := by
        intro heq
        exact Nat.lt_irrefl _ (horigin f rfl t.store.arena.nextId (heq ▸ IdSet.mem_singleton.2 rfl))
      simp [isForKey, isFor, hne]
  origins := by
    refine h.origins_of_push harena fun f hf o ho => ?_
    rw [size, harena, Arena.size_push]
    exact Nat.lt_succ_of_lt (horigin f hf o ho)

theorem Agrees.addAccess (h : t.Agrees) (a : Access) : (t.addAccess a).1.Agrees ∧
    (t.addAccess a).1.store = (t.store.addAccess a).1 ∧ (t.addAccess a).2 = (t.store.addAccess a).2 := by
  unfold Mapped.addAccess Store.addAccess
  rw [← h.findAccess? a]
  cases hfind : t.byAccess a.key with
  | some c =>
    refine ⟨⟨h.indexed.modify fun key x row => ?_, fun d o ho => ?_⟩, rfl, rfl⟩
    · cases row <;> rfl
    · rw [size, Arena.size_modify]
      rw [originOf_modify fun l => by cases l <;> rfl] at ho
      exact h.origins d o ho
  | none =>
    refine ⟨⟨h.indexed.push_own hfind fun other => ?_, h.origins_of_push rfl fun f hf o ho => ?_⟩, rfl, rfl⟩
    · rw [Bool.eq_iff_iff, isForKey, isFor_field, decide_eq_true_eq, Prod.ext_iff]
      show _ = _ ∧ IdSet.singleton a.field = IdSet.singleton other.1 ∧ a.bases = other.2 ↔ _
      rw [IdSet.singleton_inj, eq_comm (a := a.field), eq_comm (a := a.bases)]
      exact and_iff_right rfl
    · cases hf
      rw [IdSet.mem_singleton.1 ho, size, Arena.size_push]
      exact Nat.lt_succ_self _

theorem Agrees.addLocal (h : t.Agrees) (x : CallNode) (a : Access) :
    (t.addLocal x a).Agrees ∧ (t.addLocal x a).store = t.store.addLocal x a := by
  obtain ⟨hagrees, hstore, hcandidate⟩ := h.addAccess a
  unfold Mapped.addLocal Store.addLocal
  generalize t.addAccess a = mapped at hagrees hstore hcandidate ⊢
  generalize t.store.addAccess a = searched at hstore hcandidate ⊢
  obtain ⟨t', c⟩ := mapped
  obtain ⟨s', d⟩ := searched
  obtain rfl : t'.store = s' := hstore
  obtain rfl : c = d := hcandidate
  exact ⟨hagrees.of_arena rfl, rfl⟩

theorem Agrees.addLocals (h : t.Agrees) (es : List (CallNode × Access)) :
    (es.foldl (fun t e => t.addLocal e.1 e.2) t).Agrees ∧
      (es.foldl (fun t e => t.addLocal e.1 e.2) t).store = es.foldl (fun s e => s.addLocal e.1 e.2) t.store :=
  foldl_simulates Agrees store (fun _ e h => h.addLocal e.1 e.2) h es

theorem agrees_ofProgram (p : Program) : (ofProgram p).Agrees ∧ (ofProgram p).store = Store.ofProgram p := by
  have hempty : Agrees empty := ⟨Arena.indexed_empty, fun c o ho => absurd ho IdSet.not_mem_empty⟩
  rw [ofProgram_eq_foldl]
  exact hempty.addLocals p.performed

theorem Agrees.apply (h : t.Agrees) (o : Operation) :
    (t.apply o).map store = o.apply t.store ∧ ∀ t', t.apply o = .ok t' → t'.Agrees := by
  by_cases ho : ∃ a, o = .addAccess a
  · obtain ⟨a, rfl⟩ := ho
    obtain ⟨hagrees, hstore, _⟩ := h.addAccess a
    refine ⟨congrArg Except.ok hstore, fun t' ht' => ?_⟩
    cases ht'
    exact hagrees
  · have happly : t.apply o = (do return { t with store := ← o.apply t.store }) := by
      cases o with
      | addAccess a => exact absurd ⟨a, rfl⟩ ho
      | _ => rfl
    rw [happly]
    cases hrun : o.apply t.store with
    | error e => exact ⟨rfl, fun t' ht' => nomatch ht'⟩
    | ok s' =>
      refine ⟨rfl, fun t' ht' => ?_⟩
      cases ht'
      obtain harena | ⟨l, harena, horigin⟩ := Operation.arena_cases hrun fun a ha => ho ⟨a, ha⟩
      · exact h.of_arena harena
      · refine h.of_push harena fun f hf c hc => ?_
        obtain ⟨d, hd⟩ := horigin f hf c hc
        exact h.origins d c hd

theorem Agrees.run (h : t.Agrees) (ops : List Operation) :
    (ops.foldlM Mapped.apply t).map store = ops.foldlM Operation.apply t.store ∧
      ∀ t', ops.foldlM Mapped.apply t = .ok t' → t'.Agrees :=
  foldlM_simulates Agrees store (fun _ o h => h.apply o) h ops

end Mapped

/-- With a map, any sequence of operations on a program's own store ends as it ends with searches, in the same store, and
the map gives for every access the candidate that a search finds. -/
theorem byAccess_finds_accesses (p : Program) (ops : List Operation) :
    (ops.foldlM Mapped.apply (.ofProgram p)).map Mapped.store = ops.foldlM Operation.apply (ofProgram p) ∧
      ∀ t, ops.foldlM Mapped.apply (.ofProgram p) = .ok t → ∀ a, t.byAccess a.key = t.store.findAccess? a := by
  obtain ⟨hstart, hstore⟩ := Mapped.agrees_ofProgram p
  obtain ⟨hruns, hagrees⟩ := hstart.run ops
  exact ⟨hstore ▸ hruns, fun t ht a => (hagrees t ht).findAccess? a⟩

end Store

end HeapSummary
