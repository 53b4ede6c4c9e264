import HeapSummary.IdSet.Lemmas
import Mathlib.Data.Finset.Sort

/-!
# Registers of packed sets

Packed sets are used in place of mathematical ones: they are updated, combined, compared and listed, and what is observed
are the answers. Here both kinds are put behind the same commands on registers. The states of the two machines are
related if each register has the same members in both. A command keeps them related and gives the same answer, so a run
of commands gives the same answers, whatever the lengths of the word sequences that it goes through.
-/

namespace HeapSummary

open Function (update)

/-- What can be asked of registers. Commands that combine two registers name the one that takes the result. -/
inductive SetCommand (k : Kind) where
  | insert (r : Nat) (x : Id k)
  | remove (r : Nat) (x : Id k)
  | clear (r : Nat)
  | extend (r : Nat) (xs : List (Id k))
  | unionWith (r q : Nat)
  | subtract (r q : Nat)
  | union (r q target : Nat)
  | difference (r q target : Nat)
  | collect (target : Nat) (xs : List (Id k))
  | contains (r : Nat) (x : Id k)
  | intersects (r q : Nat)
  | isSubset (r q : Nat)
  | equals (r q : Nat)
  | isEmpty (r : Nat)
  | size (r : Nat)
  | list (r : Nat)

inductive SetAnswer (k : Kind) where
  | done
  /-- Whether the command changed the register. -/
  | changed (b : Bool)
  | truth (b : Bool)
  | count (n : Nat)
  | members (xs : List (Id k))

namespace SetCommand

variable {k : Kind}

/-- Packed sets. -/
def onWords (regs : Nat → IdSet k) : SetCommand k → (Nat → IdSet k) × SetAnswer k
  | insert r x => (update regs r ((regs r).add x).1, .changed ((regs r).add x).2)
  | remove r x => (update regs r ((regs r).remove x).1, .changed ((regs r).remove x).2)
  | clear r => (update regs r ∅, .done)
  | extend r xs => (update regs r ((regs r).insertAll xs), .done)
  | unionWith r q => (update regs r ((regs r).unionWith (regs q)).1, .changed ((regs r).unionWith (regs q)).2)
  | subtract r q => (update regs r (regs r \ regs q), .done)
  | union r q target => (update regs target (regs r ∪ regs q), .done)
  | difference r q target => (update regs target (regs r \ regs q), .done)
  | collect target xs => (update regs target (IdSet.ofList xs), .done)
  | contains r x => (regs, .truth ((regs r).contains x))
  | intersects r q => (regs, .truth ((regs r).intersects (regs q)))
  | isSubset r q => (regs, .truth ((regs r).isSubset (regs q)))
  | equals r q => (regs, .truth (regs r = regs q))
  | isEmpty r => (regs, .truth (regs r).isEmpty)
  | size r => (regs, .count (regs r).size)
  | list r => (regs, .members (regs r).toList)

/-- The members of a finite set, ascending. -/
def ascending (a : Finset (Id k)) : List (Id k) := ((a.image Id.index).sort (· ≤ ·)).map Id.mk

/-- Mathematical sets. -/
def onFinsets (sets : Nat → Finset (Id k)) : SetCommand k → (Nat → Finset (Id k)) × SetAnswer k
  | insert r x => (update sets r (Insert.insert x (sets r)), .changed (Insert.insert x (sets r) ≠ sets r))
  | remove r x => (update sets r ((sets r).erase x), .changed ((sets r).erase x ≠ sets r))
  | clear r => (update sets r ∅, .done)
  | extend r xs => (update sets r (sets r ∪ xs.toFinset), .done)
  | unionWith r q => (update sets r (sets r ∪ sets q), .changed (sets r ∪ sets q ≠ sets r))
  | subtract r q => (update sets r (sets r \ sets q), .done)
  | union r q target => (update sets target (sets r ∪ sets q), .done)
  | difference r q target => (update sets target (sets r \ sets q), .done)
  | collect target xs => (update sets target xs.toFinset, .done)
  | contains r x => (sets, .truth (x ∈ sets r))
  | intersects r q => (sets, .truth (sets r ∩ sets q).Nonempty)
  | isSubset r q => (sets, .truth (sets r ⊆ sets q))
  | equals r q => (sets, .truth (sets r = sets q))
  | isEmpty r => (sets, .truth (sets r = ∅))
  | size r => (sets, .count (sets r).card)
  | list r => (sets, .members (ascending (sets r)))

/-- Runs commands one after another and collects the answers. -/
def run {σ : Type} (step : (Nat → σ) → SetCommand k → (Nat → σ) × SetAnswer k) (regs : Nat → σ) :
    List (SetCommand k) → (Nat → σ) × List (SetAnswer k)
  | [] => (regs, [])
  | c :: cs => ((run step (step regs c).1 cs).1, (step regs c).2 :: (run step (step regs c).1 cs).2)

/-! ### One register -/

/-- The packed set has the members of the mathematical one. -/
def Mirrors (s : IdSet k) (a : Finset (Id k)) : Prop := ∀ x, x ∈ s ↔ x ∈ a

variable {s t : IdSet k} {a b : Finset (Id k)}

namespace Mirrors

theorem empty : Mirrors (∅ : IdSet k) ∅ := fun x => by simp

theorem insert (hs : Mirrors s a) (x : Id k) : Mirrors (s.insert x) (Insert.insert x a) := fun y => by
  rw [IdSet.mem_insert, Finset.mem_insert, hs y]

theorem erase (hs : Mirrors s a) (x : Id k) : Mirrors (s.erase x) (a.erase x) := fun y => by
  rw [IdSet.mem_erase, Finset.mem_erase, hs y]

theorem insertAll (hs : Mirrors s a) (xs : List (Id k)) : Mirrors (s.insertAll xs) (a ∪ xs.toFinset) := fun y => by
  rw [IdSet.mem_insertAll, Finset.mem_union, List.mem_toFinset, hs y]

theorem ofList (xs : List (Id k)) : Mirrors (IdSet.ofList xs) xs.toFinset := fun y => by
  rw [IdSet.mem_ofList, List.mem_toFinset]

theorem union (hs : Mirrors s a) (ht : Mirrors t b) : Mirrors (s ∪ t) (a ∪ b) := fun y => by
  rw [IdSet.mem_union, Finset.mem_union, hs y, ht y]

theorem diff (hs : Mirrors s a) (ht : Mirrors t b) : Mirrors (s \ t) (a \ b) := fun y => by
  rw [IdSet.mem_diff, Finset.mem_sdiff, hs y, ht y]

/-! ### Questions -/

theorem eq_iff (hs : Mirrors s a) (ht : Mirrors t b) : s = t ↔ a = b := by
  rw [IdSet.ext_iff, Finset.ext_iff]
  exact forall_congr' fun x => by rw [hs x, ht x]

theorem words_eq_iff (hs : Mirrors s a) (ht : Mirrors t b) : s.words = t.words ↔ a = b := by
  rw [← hs.eq_iff ht]
  cases s
  cases t
  rw [IdSet.mk.injEq]

theorem contains (hs : Mirrors s a) (x : Id k) : s.contains x = decide (x ∈ a) := by
  rw [IdSet.contains_eq]
  exact decide_eq_decide.2 (hs x)

theorem intersects (hs : Mirrors s a) (ht : Mirrors t b) : s.intersects t = decide (a ∩ b).Nonempty := by
  rw [Bool.eq_iff_iff, IdSet.intersects_iff, decide_eq_true_iff]
  exact exists_congr fun x => by rw [Finset.mem_inter, hs x, ht x]

theorem isSubset (hs : Mirrors s a) (ht : Mirrors t b) : s.isSubset t = decide (a ⊆ b) := by
  rw [Bool.eq_iff_iff, IdSet.isSubset_iff, decide_eq_true_iff]
  exact forall_congr' fun x => by rw [hs x, ht x]

theorem add_isNew (hs : Mirrors s a) (x : Id k) : (s.add x).2 = decide (Insert.insert x a ≠ a) := by
  rw [IdSet.add_isNew, hs.contains x, ← decide_not]
  exact decide_eq_decide.2 (not_congr Finset.insert_eq_self.symm)

theorem remove_wasMember (hs : Mirrors s a) (x : Id k) : (s.remove x).2 = decide (a.erase x ≠ a) := by
  rw [IdSet.remove_wasMember, hs.contains x]
  exact decide_eq_decide.2 (by rw [ne_eq, Finset.erase_eq_self, not_not])

theorem unionWith_grows (hs : Mirrors s a) (ht : Mirrors t b) : (s.unionWith t).2 = decide (a ∪ b ≠ a) := by
  rw [IdSet.unionWith_grows, ht.isSubset hs, ← decide_not]
  exact decide_eq_decide.2 (not_congr Finset.union_eq_left.symm)

theorem isEmpty (hs : Mirrors s a) : s.isEmpty = decide (a = ∅) := by
  rw [Bool.eq_iff_iff, IdSet.isEmpty_iff, decide_eq_true_iff]
  exact hs.eq_iff empty

theorem sort_image (hs : Mirrors s a) : (a.image Id.index).sort (· ≤ ·) = s.toList.map Id.index := by
  have hascends : (s.toList.map Id.index).Pairwise (· < ·) := List.pairwise_map.2 (IdSet.toList_pairwise s)
  have hmembers : (s.toList.map Id.index).toFinset = a.image Id.index := by
    ext i
    simp only [List.mem_toFinset, List.mem_map, IdSet.mem_toList, Finset.mem_image, hs _]
  rw [← hmembers]
  exact (List.toFinset_sort (· ≤ ·) (hascends.imp Nat.ne_of_lt)).2 (hascends.imp Nat.le_of_lt)

theorem toList (hs : Mirrors s a) : s.toList = ascending a := by
  rw [ascending, hs.sort_image, List.map_map]
  exact (List.map_id _).symm

theorem size (hs : Mirrors s a) : s.size = a.card := by
  have hinjective : Function.Injective (Id.index : Id k → Nat) := fun x y => Id.ext
  rw [← IdSet.length_toList, ← List.length_map Id.index, ← hs.sort_image, Finset.length_sort,
    Finset.card_image_of_injective a hinjective]

end Mirrors

/-! ### Runs -/

variable {regs : Nat → IdSet k} {sets : Nat → Finset (Id k)}

theorem mirrors_update (h : ∀ r, Mirrors (regs r) (sets r)) (r : Nat) (hs : Mirrors s a) :
    ∀ q, Mirrors (update regs r s q) (update sets r a q) := by
  intro q
  by_cases hq : q = r
  · subst hq
    rwa [Function.update_self, Function.update_self]
  · rw [Function.update_of_ne hq, Function.update_of_ne hq]
    exact h q

/-- A command gives the same answer on both sides and keeps the registers related. -/
theorem step_mirrors (h : ∀ r, Mirrors (regs r) (sets r)) (c : SetCommand k) :
    (onWords regs c).2 = (onFinsets sets c).2 ∧ ∀ r, Mirrors ((onWords regs c).1 r) ((onFinsets sets c).1 r) := by
  cases c with
  | insert r x => exact ⟨congrArg SetAnswer.changed ((h r).add_isNew x), mirrors_update h r ((h r).insert x)⟩
  | remove r x => exact ⟨congrArg SetAnswer.changed ((h r).remove_wasMember x), mirrors_update h r ((h r).erase x)⟩
  | clear r => exact ⟨rfl, mirrors_update h r .empty⟩
  | extend r xs => exact ⟨rfl, mirrors_update h r ((h r).insertAll xs)⟩
  | unionWith r q =>
    exact ⟨congrArg SetAnswer.changed ((h r).unionWith_grows (h q)), mirrors_update h r ((h r).union (h q))⟩
  | subtract r q => exact ⟨rfl, mirrors_update h r ((h r).diff (h q))⟩
  | union r q target => exact ⟨rfl, mirrors_update h target ((h r).union (h q))⟩
  | difference r q target => exact ⟨rfl, mirrors_update h target ((h r).diff (h q))⟩
  | collect target xs => exact ⟨rfl, mirrors_update h target (.ofList xs)⟩
  | contains r x => exact ⟨congrArg SetAnswer.truth ((h r).contains x), h⟩
  | intersects r q => exact ⟨congrArg SetAnswer.truth ((h r).intersects (h q)), h⟩
  | isSubset r q => exact ⟨congrArg SetAnswer.truth ((h r).isSubset (h q)), h⟩
  | equals r q => exact ⟨congrArg SetAnswer.truth (decide_eq_decide.2 ((h r).eq_iff (h q))), h⟩
  | isEmpty r => exact ⟨congrArg SetAnswer.truth (h r).isEmpty, h⟩
  | size r => exact ⟨congrArg SetAnswer.count (h r).size, h⟩
  | list r => exact ⟨congrArg SetAnswer.members (h r).toList, h⟩

theorem run_mirrors (h : ∀ r, Mirrors (regs r) (sets r)) (cs : List (SetCommand k)) :
    (run onWords regs cs).2 = (run onFinsets sets cs).2 ∧
      ∀ r, Mirrors ((run onWords regs cs).1 r) ((run onFinsets sets cs).1 r) := by
  induction cs generalizing regs sets with
  | nil => exact ⟨rfl, h⟩
  | cons c cs ih =>
    obtain ⟨hanswer, hnext⟩ := step_mirrors h c
    obtain ⟨hanswers, hlast⟩ := ih hnext
    exact ⟨congrArg₂ List.cons hanswer hanswers, hlast⟩

/-- Packed sets after the commands, from empty registers, and the answers. -/
def packed (cs : List (SetCommand k)) : (Nat → IdSet k) × List (SetAnswer k) := run onWords (fun _ => ∅) cs

/-- Mathematical sets after the commands, from empty registers, and the answers. -/
def ideal (cs : List (SetCommand k)) : (Nat → Finset (Id k)) × List (SetAnswer k) := run onFinsets (fun _ => ∅) cs

/-- Any run of commands gives the same answers on packed sets as on finite sets and leaves the same members in each
register. No word sequence ever ends in a zero word, and the sequences of two registers are the same just if the
registers have the same members. Each member is listed once, in strictly ascending order. -/
theorem packed_sets_simulate_finsets (cs : List (SetCommand k)) :
    (packed cs).2 = (ideal cs).2 ∧
    ∀ r, ((packed cs).1 r).words.getLast? ≠ some 0 ∧
      (∀ x, x ∈ (packed cs).1 r ↔ x ∈ (ideal cs).1 r) ∧
      (∀ q, ((packed cs).1 r).words = ((packed cs).1 q).words ↔ (ideal cs).1 r = (ideal cs).1 q) ∧
      ((packed cs).1 r).toList.Pairwise (fun x y => x.index < y.index) ∧
      ∀ x, ((packed cs).1 r).toList.count x = if x ∈ (ideal cs).1 r then 1 else 0 := by
  have hempty : ∀ _ : Nat, Mirrors (∅ : IdSet k) ∅ := fun _ => .empty
  obtain ⟨hanswers, hregs⟩ : (packed cs).2 = (ideal cs).2 ∧ ∀ r, Mirrors ((packed cs).1 r) ((ideal cs).1 r) :=
    run_mirrors hempty cs
  refine ⟨hanswers, fun r => ⟨((packed cs).1 r).trimmed, hregs r, fun q => (hregs r).words_eq_iff (hregs q),
    IdSet.toList_pairwise _, fun x => ?_⟩⟩
  rw [(IdSet.toList_nodup _).count]
  simp only [IdSet.mem_toList, hregs r x]

-- A member of the second word comes and goes, and the register is empty again.
example : (packed (k := .field) [.insert 0 ⟨64⟩, .remove 0 ⟨64⟩, .equals 0 1]).2 =
    [.changed true, .changed true, .truth true] := rfl

end SetCommand

end HeapSummary
