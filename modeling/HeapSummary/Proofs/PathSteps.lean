import HeapSummary.Proofs.JustifiedLabels

/-!
# A path is its steps

In a table that operations built, following parents from a path ends at a root, and the steps met on the way name the
path: no other path of the table has them. Entering a field gives the path whose steps are those of the parent and the
field, whatever type is given with it, and no operation changes a path that is there already (`Extends`).

The steps of a path are those of its parent and one more. A parent is entered before its children, so the induction is
on the number of a path.
-/

namespace HeapSummary

namespace PathTable

open Relation (ReflTransGen)

variable {t t' : PathTable} {p q : Path} {d : AccessPath} {steps suffix : List Step}

/-! ### Later operations -/

/-- One operation on a table, a field being entered below a path of the table. -/
inductive Changes (t : PathTable) : PathTable → Prop
  | root (x : DepNode) (type : Option TypeId) : Changes t (t.root x type).1
  | field {p : Path} (hp : p ∈ t.paths.ids) (f : Field) (type : Option TypeId) : Changes t (t.field p f type).1
  | attach (x : DepNode) (p : Path) : Changes t (t.attach x p)
  | setDisjoint (a b : TypeId) : Changes t (t.setDisjoint a b)

/-- Every path of `t` is in `t'` as it was. -/
def Extends (t t' : PathTable) : Prop := ∀ p d, t.paths.get? p = some d → t'.paths.get? p = some d

theorem Extends.refl (t : PathTable) : t.Extends t := fun _ _ h => h

theorem extends_enter (t : PathTable) (d : AccessPath) : t.Extends (t.enter d).1 := by
  unfold enter
  split
  · exact .refl t
  · intro p e hp
    have hne : p ≠ t.paths.nextId := by
      rintro rfl
      exact Nat.lt_irrefl _ (Arena.lt_size_of_get? hp)
    rw [Arena.get?_push, if_neg hne]
    exact hp

theorem Changes.extends (h : t.Changes t') : t.Extends t' := by
  cases h with
  | root x type => exact extends_enter t _
  | field _ f type => exact extends_enter t _
  | attach x p =>
    unfold PathTable.attach
    split <;> exact .refl t
  | setDisjoint a b =>
    unfold PathTable.setDisjoint
    split <;> exact .refl t

theorem extends_of_changes (h : ReflTransGen Changes t t') : t.Extends t' := by
  induction h with
  | refl => exact .refl t
  | tail _ hstep ih => exact fun p d hp => hstep.extends p d (ih p d hp)

theorem exists_get (hp : p ∈ t.paths.ids) : ∃ d, t.paths.get? p = some d := by
  refine Option.ne_none_iff_exists'.1 fun hnone => ?_
  exact Nat.not_lt.2 (Arena.get?_eq_none_iff.1 hnone) (Arena.mem_ids.1 hp)

theorem Extends.size_le (h : t.Extends t') : t.paths.size ≤ t'.paths.size := by
  by_contra hlt
  obtain ⟨d, hd⟩ := exists_get (t := t) (p := ⟨t'.paths.size⟩) (Arena.mem_ids.2 (Nat.not_le.1 hlt))
  exact Nat.lt_irrefl _ (Arena.lt_size_of_get? (h _ d hd))

theorem Extends.read_eq (h : t.Extends t') (hp : p ∈ t.paths.ids) : t'.read p = t.read p := by
  obtain ⟨d, hd⟩ := exists_get hp
  rw [read, read, Arena.read_eq_ok_iff.2 hd, Arena.read_eq_ok_iff.2 (h p d hd)]

/-! ### Climbing -/

section climb

variable {α : Type} {stop : Path → Option α} {fuel fuel' : Nat} {found : Option α}

theorem Extends.climb_eq (h : t.Extends t') (hle : fuel ≤ fuel')
    (hclimb : t.climb stop fuel p suffix = .ok (found, steps)) :
    t'.climb stop fuel' p suffix = .ok (found, steps) := by
  induction fuel generalizing fuel' p suffix with
  | zero => cases hclimb
  | succ fuel ih =>
    obtain ⟨n, rfl⟩ := Nat.exists_eq_add_of_le' (Nat.lt_of_lt_of_le (Nat.succ_pos fuel) hle)
    obtain ⟨a, ha, rfl, rfl⟩ | ⟨hnone, d, hd, ⟨hroot, rfl, rfl⟩ | ⟨q, hq, hrest⟩⟩ := climb_cases hclimb
    · exact climb_of_stop ha
    · exact climb_of_root hnone (h p d hd) hroot
    · rw [climb_of_parent hnone (h p d hd) hq]
      exact ih (Nat.le_of_succ_le_succ hle) hrest

theorem climb_append (h : t.climb stop fuel p suffix = .ok (found, steps)) (rest : List Step) :
    t.climb stop fuel p (suffix ++ rest) = .ok (found, steps ++ rest) := by
  induction fuel generalizing p suffix with
  | zero => cases h
  | succ fuel ih =>
    obtain ⟨a, ha, rfl, rfl⟩ | ⟨hnone, d, hd, ⟨hroot, rfl, rfl⟩ | ⟨q, hq, hclimb⟩⟩ := climb_cases h
    · exact climb_of_stop ha
    · exact climb_of_root hnone hd hroot
    · rw [climb_of_parent hnone hd hq]
      exact ih hclimb

end climb

/-! ### Steps -/

theorem steps_eq_ok :
    t.steps p = .ok steps ↔ ∃ found, t.ascend (fun _ => (none : Option Unit)) p = .ok (found, steps) := by
  simp only [PathTable.steps, Outcome.bind_eq_ok, Outcome.pure_eq_ok, Prod.exists, exists_eq_right]

theorem Extends.steps_eq (h : t.Extends t') (hp : t.steps p = .ok steps) : t'.steps p = .ok steps := by
  obtain ⟨found, hclimb⟩ := steps_eq_ok.1 hp
  exact steps_eq_ok.2 ⟨found, h.climb_eq (Nat.succ_le_succ h.size_le) hclimb⟩

theorem steps_of_root (hd : t.paths.get? p = some d) (hroot : d.parent = none) : t.steps p = .ok [d.last] :=
  steps_eq_ok.2 ⟨none, climb_of_root rfl hd hroot⟩

theorem Interned.steps_of_parent (ht : t.Interned) (hd : t.paths.get? p = some d) (hparent : d.parent = some q) :
    ∃ steps, t.steps q = .ok steps ∧ t.steps p = .ok (steps ++ [d.last]) := by
  have hlt : q.index < t.paths.size := Nat.lt_trans (ht.earlier p d q hd hparent) (Arena.lt_size_of_get? hd)
  obtain ⟨found, steps, hclimb⟩ := ht.exists_climb (fun _ => (none : Option Unit)) (Arena.mem_ids.2 hlt) hlt []
  refine ⟨steps, steps_eq_ok.2 ⟨found, (Extends.refl t).climb_eq (Nat.le_succ _) hclimb⟩, steps_eq_ok.2 ⟨found, ?_⟩⟩
  rw [ascend, climb_of_parent rfl hd hparent]
  exact climb_append hclimb [d.last]

/-- Following parents ends at a root, and all steps below it are fields. -/
theorem Interned.exists_steps (ht : t.Interned) (hp : p ∈ t.paths.ids) :
    ∃ x, ∃ fields : List Field, t.steps p = .ok (.root x :: fields.map .field) := by
  induction hn : p.index using Nat.strongRecOn generalizing p with
  | ind n ih =>
    obtain ⟨d, hd⟩ := exists_get hp
    cases hparent : d.parent with
    | none =>
      cases hlast : d.last with
      | root x => exact ⟨x, [], by rw [steps_of_root hd hparent, hlast]; rfl⟩
      | field f =>
        have hroot := (ht.rooted p d hd).1 hparent
        rw [hlast] at hroot
        cases hroot
    | some q =>
      have hlt := ht.earlier p d q hd hparent
      have hq : q ∈ t.paths.ids := Arena.mem_ids.2 (Nat.lt_trans hlt (Arena.mem_ids.1 hp))
      obtain ⟨x, fields, hfields⟩ := ih q.index (hn ▸ hlt) hq rfl
      obtain ⟨steps, hsteps, hsteps'⟩ := ht.steps_of_parent hd hparent
      obtain ⟨f, hf, _⟩ := ht.appends hd hparent
      obtain rfl : steps = .root x :: fields.map Step.field := Except.ok.inj (hsteps.symm.trans hfields)
      exact ⟨x, fields ++ [f], by rw [hsteps', hf, List.map_append]; rfl⟩

theorem Interned.eq_of_steps_eq (ht : t.Interned) (hp : t.steps p = .ok steps) (hq : t.steps q = .ok steps) :
    p = q := by
  have hdown : ∀ {p}, t.steps p = .ok steps → ∃ r d rest, t.paths.get? r = some d ∧ d.parent = none ∧
      steps = d.last :: rest ∧ t.Descends r rest p := by
    intro p hp
    obtain ⟨found, hclimb⟩ := steps_eq_ok.1 hp
    obtain ⟨_, _, _, hstop, _⟩ | ⟨_, h⟩ := descends_of_climb hclimb .done
    · cases hstop
    · exact h
  obtain ⟨r, d, rest, hd, hroot, hsteps, hrp⟩ := hdown hp
  obtain ⟨r', d', rest', hd', hroot', hsteps', hrq⟩ := hdown hq
  obtain ⟨hlast, rfl⟩ := List.cons.inj (hsteps.symm.trans hsteps')
  obtain rfl := ht.unique r r' d d' hd hd' (hroot.trans hroot'.symm) hlast
  exact hrp.eq ht hrq

/-! ### Entering -/

theorem get_enter (t : PathTable) (d : AccessPath) :
    ∃ e, (t.enter d).1.paths.get? (t.enter d).2 = some e ∧ e.parent = d.parent ∧ e.last = d.last := by
  unfold enter
  split
  · rename_i p hfind
    obtain ⟨⟨_, e⟩, hfound, rfl⟩ := Option.map_eq_some_iff.1 hfind
    have hmatch := List.find?_some hfound
    exact ⟨e, Arena.mem_entries.1 (List.mem_of_find?_eq_some hfound), of_decide_eq_true hmatch⟩
  · refine ⟨d, ?_, rfl, rfl⟩
    rw [Arena.get?_push, if_pos rfl]

theorem Built.steps_field (ht : t.Built) (hp : p ∈ t.paths.ids) (f : Field) (type : Option TypeId) :
    (t.field p f type).1.steps (t.field p f type).2 = (t.steps p).map (· ++ [.field f]) := by
  obtain ⟨e, he, hparent, hlast⟩ := get_enter t ⟨some p, .field f, type⟩
  obtain ⟨steps, hsteps, hsteps'⟩ := (ht.field hp f type).interned.steps_of_parent he hparent
  obtain ⟨x, fields, hfields⟩ := ht.interned.exists_steps hp
  have hkept := (extends_enter t ⟨some p, .field f, type⟩).steps_eq hfields
  obtain rfl : steps = .root x :: fields.map Step.field := Except.ok.inj (hsteps.symm.trans hkept)
  rw [hlast] at hsteps'
  rw [hfields]
  exact hsteps'

end PathTable

namespace AliasContext

variable {c : AliasContext} {p : Path}

/-- A path leads up to a class or to a root, or it is not in the table and in no class. -/
theorem label_ne_unrooted (ht : c.table.Interned) (p q : Path) : c.label p ≠ .error (.unrootedPath q) := by
  intro hlabel
  cases hd : c.table.paths.get? p with
  | some d =>
    obtain ⟨l, hl⟩ := exists_label ht (Arena.mem_ids.2 (Arena.lt_size_of_get? hd))
    rw [hl] at hlabel
    cases hlabel
  | none =>
    cases hstop : c.classOf p with
    | some k =>
      have hl : c.label p = .ok ⟨some k, []⟩ := label_eq_ok.2 ⟨PathTable.climb_of_stop hstop, by simp⟩
      rw [hl] at hlabel
      cases hlabel
    | none =>
      rw [label, PathTable.ascend, PathTable.climb_of_absent hstop hd] at hlabel
      cases hlabel

end AliasContext

namespace PathTable

open Relation (ReflTransGen)
open AliasContext (twinPaths)

variable {t : PathTable}

/-- In a table that operations built, the steps of every path are one root and then fields, and they are the steps of no
other path. The field of a path has the steps of that path and the field, whatever its type. What is done later changes
no path that is there. Hence every path has a label in every context over the table, and no path is ever refused for not
starting at a root. -/
theorem steps_identify_paths (ht : t.Built) :
    (∀ p ∈ t.paths.ids, ∃ x, ∃ fields : List Field, t.steps p = .ok (.root x :: fields.map .field)) ∧
    (∀ p ∈ t.paths.ids, ∀ q ∈ t.paths.ids, p = q ↔ t.steps p = t.steps q) ∧
    (∀ p ∈ t.paths.ids, ∀ f type,
      (t.field p f type).1.steps (t.field p f type).2 = (t.steps p).map (· ++ [.field f])) ∧
    (∀ t', ReflTransGen Changes t t' → ∀ p ∈ t.paths.ids, t'.steps p = t.steps p ∧ t'.read p = t.read p) ∧
    ∀ c : AliasContext, c.table = t →
      (∀ p ∈ t.paths.ids, ∃ l, c.label p = .ok l) ∧ ∀ p q, c.label p ≠ .error (.unrootedPath q) := by
  have hinterned := ht.interned
  refine ⟨fun p hp => hinterned.exists_steps hp, fun p hp q hq => ⟨congrArg _, fun heq => ?_⟩,
    fun p hp => ht.steps_field hp, fun t' hrun p hp => ?_, ?_⟩
  · obtain ⟨x, fields, hsteps⟩ := hinterned.exists_steps hp
    exact hinterned.eq_of_steps_eq hsteps (heq ▸ hsteps)
  · have hextends := extends_of_changes hrun
    obtain ⟨x, fields, hsteps⟩ := hinterned.exists_steps hp
    exact ⟨(hextends.steps_eq hsteps).trans hsteps.symm, hextends.read_eq hp⟩
  · rintro c rfl
    exact ⟨fun p hp => AliasContext.exists_label hinterned hp, AliasContext.label_ne_unrooted hinterned⟩

/-- Two nodes have one field each, of one name. Entering a field once more, with a type this time, gives the path that
was there, without the type, and a field below it is new. -/
theorem steps_of_twinPaths : twinPaths.Built ∧ twinPaths.field ⟨0⟩ ⟨7⟩ (some ⟨3⟩) = (twinPaths, ⟨3⟩) ∧
    twinPaths.steps ⟨3⟩ ≠ twinPaths.steps ⟨4⟩ ∧ (twinPaths.field ⟨3⟩ ⟨8⟩ none).2 = ⟨5⟩ ∧
    (twinPaths.field ⟨3⟩ ⟨8⟩ none).1.steps ⟨5⟩ = .ok [.root ⟨0⟩, .field ⟨7⟩, .field ⟨8⟩] ∧
    (twinPaths.field ⟨3⟩ ⟨8⟩ none).1.read ⟨3⟩ = .ok ⟨some ⟨0⟩, .field ⟨7⟩, none⟩ ∧
    ∀ c : AliasContext, c.table = twinPaths → ∃ l, c.label ⟨4⟩ = .ok l := by
  have hbuilt := AliasContext.built_twinPaths
  obtain ⟨_, hequal, hfield, hlater, hcontexts⟩ := steps_identify_paths hbuilt
  have hstep := hfield ⟨3⟩ (by decide) ⟨8⟩ none
  have hkept := hlater _ (.single (.field (p := ⟨3⟩) (by decide) ⟨8⟩ none)) ⟨3⟩ (by decide)
  refine ⟨hbuilt, rfl, fun h => ?_, rfl, hstep, hkept.2, fun c hc => (hcontexts c hc).1 ⟨4⟩ (by decide)⟩
  exact absurd ((hequal ⟨3⟩ (by decide) ⟨4⟩ (by decide)).2 h) (by decide)

end PathTable

end HeapSummary
