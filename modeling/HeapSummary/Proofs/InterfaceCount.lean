import HeapSummary.Proofs.OwnCandidates
import Mathlib.Algebra.BigOperators.Group.Finset.Basic

/-!
# Counting what interfaces hold

The count of a store goes over the nodes that are marked as touched, and every operation marks by itself what it writes.
`Tallied` says that no interface is missed and that all hold field candidates only. `Revises` says what the operations have
in common, and it is enough to keep a store tallied. So any sequence of them does, at whatever nodes, in the program or
not.
-/

namespace HeapSummary

theorem total_eq_sum {α : Type} [DecidableEq α] (f : α → Nat) {xs : List α} (hxs : xs.Nodup) :
    total f xs = ∑ a ∈ xs.toFinset, f a := by
  rw [List.sum_toFinset f hxs]
  clear hxs
  induction xs with
  | nil => rfl
  | cons a xs ih => rw [total_cons, List.map_cons, List.sum_cons, ih]

namespace Store

variable {s s' t : Store} {x : CallNode} {c m : Candidate} {group : List Candidate}

/-- What can be done to a store. -/
inductive Operation where
  | addAccess (a : Access)
  | addRoot (r : Root)
  | add (x : CallNode) (c : Candidate)
  | remove (x : CallNode) (c : Candidate)
  | merge (x : CallNode) (group : List Candidate)
  | fold (x : CallNode) (folded : IdSet .candidate)

/-- The store that an operation leaves, if it succeeds. -/
def Operation.apply (s : Store) : Operation → Except Fault Store
  | addAccess a => return (s.addAccess a).1
  | addRoot r => return (s.addRoot r).1
  | add x c => s.add x c
  | remove x c => return s.remove x c
  | merge x group => return (← s.merge x group).1
  | fold x folded => return (← s.fold x folded).1

/-- Every interface is counted, and interfaces hold field candidates only. -/
structure Tallied (s : Store) : Prop where
  touched : ∀ x, ∀ c ∈ s.interface x, x ∈ s.touched
  fields : ∀ x, ∀ c ∈ s.interface x, ∃ l, s.field? c = some l

/-- The touched nodes include all those whose interface has something in it, and the others add nothing. -/
theorem Tallied.count_eq_sum (h : s.Tallied) : ∃ occupied : Finset CallNode,
    (∀ x, x ∈ occupied ↔ ∃ c, c ∈ s.interface x) ∧ s.count = ∑ x ∈ occupied, (s.interface x).size := by
  refine ⟨s.touched.toList.toFinset.filter fun x => (s.interface x).isEmpty = false, fun x => ?_, ?_⟩
  · rw [Finset.mem_filter, List.mem_toFinset, IdSet.mem_toList, IdSet.isEmpty_eq_false_iff]
    exact and_iff_right_of_imp fun hx => hx.elim (h.touched x)
  · rw [count, total_eq_sum _ (IdSet.toList_nodup _)]
    refine (Finset.sum_filter_of_ne fun x _ hsize => ?_).symm
    by_contra hempty
    rw [Bool.not_eq_false, IdSet.isEmpty_iff] at hempty
    exact hsize (congrArg IdSet.size hempty)

/-! ### What operations have in common -/

/-- Fields stay fields, marks stay, and what enters an interface is a field and enters at a marked node. -/
structure Revises (s s' : Store) : Prop where
  fields : ∀ c, (∃ l, s.field? c = some l) → ∃ l, s'.field? c = some l
  touched : ∀ x ∈ s.touched, x ∈ s'.touched
  entered : ∀ x, ∀ c ∈ s'.interface x, c ∈ s.interface x ∨ x ∈ s'.touched ∧ ∃ l, s'.field? c = some l

theorem Tallied.revise (h : s.Tallied) (hrevises : Revises s s') : s'.Tallied where
  touched x c hc := by
    rcases hrevises.entered x c hc with hold | hnew
    · exact hrevises.touched x (h.touched x c hold)
    · exact hnew.1
  fields x c hc := by
    rcases hrevises.entered x c hc with hold | hnew
    · exact hrevises.fields c (h.fields x c hold)
    · exact hnew.2

theorem revises_of_keeps (hkeeps : Keeps s s') (htouched : s'.touched = s.touched)
    (hinterface : ∀ x, ∀ c ∈ s'.interface x, c ∈ s.interface x) : Revises s s' where
  fields _ hc := hc.imp fun _ hl => hkeeps.field? hl
  touched _ hx := htouched ▸ hx
  entered x c hc := .inl (hinterface x c hc)

theorem revises_setInterface {cs : IdSet .candidate} (hkeeps : Keeps s t) (htouched : t.touched = s.touched)
    (hinterfaces : t.interfaces = s.interfaces) (hcs : ∀ c ∈ cs, c ∈ s.interface x ∨ ∃ l, t.field? c = some l) :
    Revises s (t.setInterface x cs) where
  fields _ hc := hc.imp fun _ hl => hkeeps.field? hl
  touched y hy := IdSet.mem_insert.2 (.inr (htouched ▸ hy))
  entered y c hc := by
    have hget : (t.setInterface x cs).interface y = if y = x then cs else s.interface y := by
      rw [interface, setInterface, IdMap.get_set, hinterfaces, interface]
    rw [hget] at hc
    split at hc
    · rename_i hy
      subst hy
      exact (hcs c hc).imp_right fun hl => ⟨IdSet.mem_insert.2 (.inl rfl), hl⟩
    · exact .inl hc

theorem revises_addAccess (s : Store) (a : Access) : Revises s (s.addAccess a).1 where
  fields _ hc := exists_field?_addAccess (.inr hc)
  touched _ hx := by rwa [touched_addAccess]
  entered x c hc := by
    rw [interface, interface_addAccess] at hc
    exact .inl hc

theorem revises_add (h : s.add x c = .ok s') : Revises s s' := by
  obtain ⟨hfield, rfl⟩ := add_eq_ok h
  refine revises_setInterface (.refl s) rfl rfl fun d hd => ?_
  rcases IdSet.mem_insert.1 hd with rfl | hd
  · exact .inr hfield
  · exact .inl hd

theorem revises_merge (h : s.merge x group = .ok (s', m)) : Revises s s' := by
  obtain ⟨_, hadd⟩ | hlen := merge_cases h
  · exact revises_add hadd
  have hfield := (merged_of_merge hlen h).isField
  obtain ⟨l, ls, _, rfl, rfl⟩ := merge_eq_ok hlen h
  refine revises_setInterface (keeps_of_push rfl) rfl rfl fun d hd => ?_
  rcases IdSet.mem_insert.1 hd with rfl | hd
  · exact .inr hfield
  · exact .inl (mem_foldl_erase.1 hd).1

theorem Operation.revises {o : Operation} (h : o.apply s = .ok s') : Revises s s' := by
  cases o with
  | addAccess a =>
    cases h
    exact revises_addAccess s a
  | addRoot r =>
    cases h
    exact revises_of_keeps (keeps_of_push rfl) rfl fun _ _ hc => hc
  | add x c => exact revises_add h
  | remove x c =>
    cases h
    exact revises_of_keeps (.refl s) rfl fun _ _ hc => (mem_interface_remove.1 hc).1
  | merge x group =>
    obtain ⟨⟨t, m⟩, hmerge, h⟩ := Outcome.bind_eq_ok.1 h
    cases h
    exact revises_merge hmerge
  | fold x folded =>
    obtain ⟨⟨t, r⟩, hfold, h⟩ := Outcome.bind_eq_ok.1 h
    cases h
    obtain ⟨_, rfl, _⟩ | ⟨group, m, hmerge, _⟩ := fold_eq_ok hfold
    · exact revises_of_keeps (.refl _) rfl fun _ _ hc => hc
    · exact revises_merge hmerge

/-! ### Any sequence of operations -/

theorem tallied_ofProgram (p : Program) : (ofProgram p).Tallied where
  touched x c hc := by
    have hrepresents := represents_ofProgram p
    rw [showsLocals_ofProgram p x, hrepresents.locals] at hc
    obtain ⟨a, ha, _⟩ := hc
    exact (hrepresents.touched x).2 ⟨a, ha⟩
  fields x c hc := by
    rw [showsLocals_ofProgram p x] at hc
    exact localsAreFields_ofProgram p x c hc

/-- Whatever operations succeed one after another on a program's own store: the count is the sum of the sizes of all
interfaces that are not empty, and interfaces hold nothing but field candidates of the arena. -/
theorem count_totals_interfaces (p : Program) (ops : List Operation)
    (h : ops.foldlM Operation.apply (ofProgram p) = .ok s) :
    (∃ occupied : Finset CallNode, (∀ x, x ∈ occupied ↔ ∃ c, c ∈ s.interface x) ∧
      s.count = ∑ x ∈ occupied, (s.interface x).size) ∧
    ∀ x, ∀ c ∈ s.interface x, ∃ l, s.arena.get? c = some (.field l) := by
  have htallied : s.Tallied :=
    Outcome.foldlM_keeps (fun s o s' _ hs hrun => hs.revise (Operation.revises hrun)) (tallied_ofProgram p) h
  refine ⟨htallied.count_eq_sum, fun x c hc => ?_⟩
  obtain ⟨l, hl⟩ := htallied.fields x c hc
  exact ⟨l, field?_eq_some.1 hl⟩

/-- A candidate is put into the interface of a node that the program does not have. Two others are merged at the node that
accesses them, and what comes of it is folded into the first interface. A root and one more access are added. The candidate
of the access goes into a third interface and is taken out of it again, and one is taken out where none was put. -/
def scatteredOperations : List Operation :=
  [.add ⟨7⟩ ⟨1⟩, .merge ⟨0⟩ [⟨0⟩, ⟨1⟩], .fold ⟨7⟩ (IdSet.singleton ⟨3⟩), .addRoot (.formal "list" none ∅),
    .addAccess ⟨⟨9⟩, IdSet.singleton ⟨5⟩, ∅, none, .no⟩, .add ⟨2⟩ ⟨6⟩, .remove ⟨2⟩ ⟨6⟩, .remove ⟨9⟩ ⟨0⟩]

/-- Two candidates are left at the node of the program and one at the node outside of it. The third node is marked, and its
interface is empty. -/
theorem count_of_scatteredOperations : ∃ s,
    scatteredOperations.foldlM Operation.apply (ofProgram threeAccesses) = .ok s ∧
    (s.interface ⟨0⟩).toList = [⟨2⟩, ⟨3⟩] ∧ (s.interface ⟨7⟩).toList = [⟨4⟩] ∧ ⟨2⟩ ∈ s.touched ∧ s.interface ⟨2⟩ = ∅ ∧
    (∃ occupied : Finset CallNode, (∀ x, x ∈ occupied ↔ ∃ c, c ∈ s.interface x) ∧
      3 = ∑ x ∈ occupied, (s.interface x).size) ∧
    ∃ l, s.arena.get? ⟨4⟩ = some (.field l) := by
  obtain ⟨s, hrun, hfirst, hsecond, htouched, hempty, hcount⟩ : ∃ s,
      scatteredOperations.foldlM Operation.apply (ofProgram threeAccesses) = .ok s ∧
      (s.interface ⟨0⟩).toList = [⟨2⟩, ⟨3⟩] ∧ (s.interface ⟨7⟩).toList = [⟨4⟩] ∧ ⟨2⟩ ∈ s.touched ∧
      s.interface ⟨2⟩ = ∅ ∧ s.count = 3 :=
    ⟨_, rfl, rfl, rfl, rfl, rfl, rfl⟩
  obtain ⟨hsum, hfields⟩ := count_totals_interfaces threeAccesses scatteredOperations hrun
  rw [hcount] at hsum
  refine ⟨s, hrun, hfirst, hsecond, htouched, hempty, hsum, hfields ⟨7⟩ ⟨4⟩ ?_⟩
  rw [← IdSet.mem_toList, hsecond]
  exact List.mem_cons_self

end Store

end HeapSummary
