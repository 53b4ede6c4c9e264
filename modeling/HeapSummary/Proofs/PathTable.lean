import HeapSummary.Proofs.AliasLabels

/-!
# Tables of access paths

A table that was built by entering roots, and fields of paths entered before, has one path for a parent and a last step,
has every parent before its children, and has root steps just at the paths without a parent (`Interned`). So every path
leads up to a root, and the root and the steps below it name one path.

What climbing gives is read as a way down. `Descends t p steps q` says that the steps lead from `p` to `q`; a climb from
`q` that ends at `p` gives just these steps.
-/

namespace HeapSummary.PathTable

variable {t : PathTable} {p q r z : Path} {d e : AccessPath} {steps suffix : List Step}

/-! ### Entering paths -/

/-- The tables that the operations give, where fields are entered below paths of the table. -/
inductive Built : PathTable → Prop
  | empty : Built empty
  | root {t : PathTable} (h : Built t) (x : DepNode) (type : Option TypeId) : Built (t.root x type).1
  | field {t : PathTable} (h : Built t) {p : Path} (hp : p ∈ t.paths.ids) (f : Field) (type : Option TypeId) :
    Built (t.field p f type).1
  | attach {t : PathTable} (h : Built t) (x : DepNode) (p : Path) : Built (t.attach x p)
  | setDisjoint {t : PathTable} (h : Built t) (a b : TypeId) : Built (t.setDisjoint a b)

/-- One path for a parent and a last step, parents first, and root steps just where there is no parent. -/
structure Interned (t : PathTable) : Prop where
  unique : ∀ p q d e, t.paths.get? p = some d → t.paths.get? q = some e → d.parent = e.parent → d.last = e.last → p = q
  earlier : ∀ p d q, t.paths.get? p = some d → d.parent = some q → q.index < p.index
  rooted : ∀ p d, t.paths.get? p = some d → (d.parent = none ↔ d.last.isRoot = true)

theorem ne_of_find?_eq_none {parent : Option Path} {last : Step} (h : t.find? parent last = none)
    (hp : t.paths.get? p = some d) : ¬ (d.parent = parent ∧ d.last = last) := by
  have hnone := List.find?_eq_none.1 (Option.map_eq_none_iff.1 h) (p, d) (Arena.mem_entries.2 hp)
  simpa using hnone

theorem Interned.enter (h : t.Interned) (hparent : ∀ q, d.parent = some q → q ∈ t.paths.ids)
    (hroot : d.parent = none ↔ d.last.isRoot = true) : (t.enter d).1.Interned := by
  unfold PathTable.enter
  split
  · exact h
  · rename_i hnone
    -- The new path is last in the table, and no path before it has its parent and its last step.
    have hget : ∀ p e, (t.paths.push d).get? p = some e → (p = t.paths.nextId ∧ e = d) ∨ t.paths.get? p = some e := by
      intro p e hp
      rw [Arena.get?_push] at hp
      split at hp
      · rename_i hnew
        exact .inl ⟨hnew, (Option.some.inj hp).symm⟩
      · exact .inr hp
    refine ⟨fun p q e e' hp hq hpar hlast => ?_, fun p e q hp hq => ?_, fun p e hp => ?_⟩
    · rcases hget p e hp with ⟨rfl, rfl⟩ | hpold
      · rcases hget q e' hq with ⟨rfl, rfl⟩ | hqold
        · rfl
        · exact absurd ⟨hpar.symm, hlast.symm⟩ (ne_of_find?_eq_none hnone hqold)
      · rcases hget q e' hq with ⟨rfl, rfl⟩ | hqold
        · exact absurd ⟨hpar, hlast⟩ (ne_of_find?_eq_none hnone hpold)
        · exact h.unique p q e e' hpold hqold hpar hlast
    · rcases hget p e hp with ⟨rfl, rfl⟩ | hpold
      · exact Arena.mem_ids.1 (hparent q hq)
      · exact h.earlier p e q hpold hq
    · rcases hget p e hp with ⟨rfl, rfl⟩ | hpold
      · exact hroot
      · exact h.rooted p e hpold

theorem Built.interned (h : t.Built) : t.Interned := by
  induction h with
  | empty =>
    have hnone : ∀ p d, PathTable.empty.paths.get? p ≠ some d := by
      intro p d hp
      exact Nat.not_lt_zero _ (Arena.lt_size_of_get? hp)
    exact ⟨fun p _ d _ hp => absurd hp (hnone p d), fun p d _ hp => absurd hp (hnone p d),
      fun p d hp => absurd hp (hnone p d)⟩
  | root _ x type ih => exact ih.enter (fun q hq => by cases hq) (by simp [Step.isRoot])
  | field _ hp f type ih =>
    refine ih.enter (fun q hq => ?_) (by simp [Step.isRoot])
    cases hq
    exact hp
  | attach _ x p ih =>
    unfold PathTable.attach
    split
    · exact ih
    · exact ⟨ih.unique, ih.earlier, ih.rooted⟩
  | setDisjoint _ a b ih =>
    unfold PathTable.setDisjoint
    split
    · exact ih
    · exact ⟨ih.unique, ih.earlier, ih.rooted⟩

/-! ### The way down -/

/-- The steps lead from one path down to another. -/
inductive Descends (t : PathTable) : Path → List Step → Path → Prop
  | done {p : Path} : Descends t p [] p
  | step {p q r : Path} {d : AccessPath} {steps : List Step} (hd : t.paths.get? q = some d)
    (hparent : d.parent = some p) (h : Descends t q steps r) : Descends t p (d.last :: steps) r

theorem exists_of_descends_cons {last : Step} (h : t.Descends p (last :: steps) r) :
    ∃ q d, t.paths.get? q = some d ∧ d.parent = some p ∧ d.last = last ∧ t.Descends q steps r := by
  cases h with
  | @step _ q _ d _ hd hparent h => exact ⟨q, d, hd, hparent, rfl, h⟩

theorem Descends.eq (ht : t.Interned) (hq : t.Descends p steps q) (hr : t.Descends p steps r) : q = r := by
  induction hq with
  | done =>
    cases hr
    rfl
  | @step p u q d steps hd hparent _ ih =>
    obtain ⟨v, e, he, hparent', hlast, hrest⟩ := exists_of_descends_cons hr
    obtain rfl := ht.unique u v d e hd he (hparent.trans hparent'.symm) hlast.symm
    exact ih hrest

/-- A climb stops at a path from which the steps lead back down, or it ends at a root and gives the root's step too. -/
theorem descends_of_climb {α : Type} {stop : Path → Option α} {fuel : Nat} {found : Option α}
    (h : t.climb stop fuel p suffix = .ok (found, steps)) (hdown : t.Descends p suffix z) :
    (∃ q a, found = some a ∧ stop q = some a ∧ t.Descends q steps z) ∨
    found = none ∧ ∃ r d rest, t.paths.get? r = some d ∧ d.parent = none ∧ steps = d.last :: rest ∧
      t.Descends r rest z := by
  induction fuel generalizing p suffix with
  | zero => cases h
  | succ fuel ih =>
    obtain ⟨a, ha, rfl, rfl⟩ | ⟨_, d, hd, ⟨hroot, rfl, rfl⟩ | ⟨q, hq, hrest⟩⟩ := climb_cases h
    · exact .inl ⟨p, a, rfl, ha, hdown⟩
    · exact .inr ⟨rfl, p, d, suffix, hd, hroot, rfl, hdown⟩
    · exact ih hrest (.step hd hq hdown)

/-- A path of the table is less far from a root than it is from the table's start, so climbing from it ends. -/
theorem Interned.exists_climb {α : Type} (ht : t.Interned) (stop : Path → Option α) {fuel : Nat}
    (hp : p ∈ t.paths.ids) (hfuel : p.index < fuel) (suffix : List Step) :
    ∃ found steps, t.climb stop fuel p suffix = .ok (found, steps) := by
  induction fuel generalizing p suffix with
  | zero => omega
  | succ fuel ih =>
    cases hstop : stop p with
    | some a => exact ⟨_, _, climb_of_stop hstop⟩
    | none =>
      have hlt := Arena.mem_ids.1 hp
      cases hd : t.paths.get? p with
      | none =>
        have hle := Arena.get?_eq_none_iff.1 hd
        omega
      | some d =>
        cases hparent : d.parent with
        | none => exact ⟨_, _, climb_of_root hstop hd hparent⟩
        | some q =>
          have hearlier := ht.earlier p d q hd hparent
          rw [climb_of_parent hstop hd hparent]
          apply ih
          · exact Arena.mem_ids.2 (by omega)
          · omega

/-! ### Renaming what a climb stops at -/

section rename

variable {α β : Type} {stop : Path → Option α} {fuel : Nat}

theorem climb_of_absent (h : stop p = none) (hp : t.paths.get? p = none) :
    t.climb stop (fuel + 1) p suffix = .error (.outOfBounds t.paths.size p.index) := by
  have hread : t.read p = .error (.outOfBounds t.paths.size p.index) := by simp [read, Arena.read, hp]
  rw [climb, h]
  simp only [hread, bind, Except.bind]

theorem climb_map (f : α → β) (stop : Path → Option α) (fuel : Nat) (p : Path) (suffix : List Step) :
    t.climb (fun q => (stop q).map f) fuel p suffix =
      (t.climb stop fuel p suffix).map fun r => (r.1.map f, r.2) := by
  induction fuel generalizing p suffix with
  | zero => rfl
  | succ fuel ih =>
    cases hstop : stop p with
    | some a =>
      rw [climb_of_stop hstop, climb_of_stop (a := f a) (by rw [hstop]; rfl)]
      rfl
    | none =>
      have hstop' : (stop p).map f = none := by rw [hstop]; rfl
      cases hd : t.paths.get? p with
      | none =>
        rw [climb_of_absent hstop hd, climb_of_absent hstop' hd]
        rfl
      | some d =>
        cases hparent : d.parent with
        | none =>
          rw [climb_of_root hstop hd hparent, climb_of_root hstop' hd hparent]
          rfl
        | some q =>
          rw [climb_of_parent hstop hd hparent, climb_of_parent hstop' hd hparent]
          exact ih q (d.last :: suffix)

end rename

end HeapSummary.PathTable
