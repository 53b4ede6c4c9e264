import HeapSummary.AccessPath.Context
import Mathlib.Data.List.Nodup
import Mathlib.Data.List.Pairwise

/-!
# Classes of an alias context

The classes of a context that merges give share no path, and each has an identifier of its own. So a merge takes in just
the classes that have a path in common with the merged lists: a class that has none with them has none with the classes
taken in either. Every path of a class keeps a class, the same for all of them, and a path without a class gets one only
if it is merged itself.
-/

namespace HeapSummary

namespace AliasClass

variable {k l : AliasClass} {ks : List AliasClass} {M N : List Path} {p : Path}

/-- No path is in both classes. -/
def Apart (k l : AliasClass) : Prop := ∀ p ∈ k.paths, p ∉ l.paths

instance : Std.Symm Apart := ⟨fun _ _ h p hp hp' => h p hp' hp⟩

theorem meets_iff : k.meets M = true ↔ ∃ p ∈ k.paths, p ∈ M := by
  simp [meets]

theorem meets_append_of_apart (h : k.Apart l) : l.meets (M ++ k.paths) = l.meets M := by
  rw [Bool.eq_iff_iff, meets_iff, meets_iff]
  refine exists_congr fun p => and_congr_right fun hp => ?_
  rw [List.mem_append]
  exact or_iff_left fun hk => h p hk hp

/-- Classes that share no path are taken in one by one, whatever was taken in before. -/
theorem collect_eq (h : ks.Pairwise Apart) :
    collect M ks = (M ++ (ks.filter (·.meets M)).flatMap AliasClass.paths, ks.filter fun k => !k.meets M) := by
  induction ks generalizing M with
  | nil => simp [collect]
  | cons k ks ih =>
    obtain ⟨hk, hks⟩ := List.pairwise_cons.1 h
    unfold collect
    split
    · rename_i hmeets
      have hsame : ∀ l ∈ ks, l.meets (M ++ k.paths) = l.meets M := fun l hl => meets_append_of_apart (hk l hl)
      have htaken : ks.filter (·.meets (M ++ k.paths)) = ks.filter (·.meets M) := List.filter_congr hsame
      have hleft : (ks.filter fun l => !l.meets (M ++ k.paths)) = ks.filter fun l => !l.meets M :=
        List.filter_congr fun l hl => congrArg Bool.not (hsame l hl)
      rw [ih hks, htaken, hleft]
      simp [hmeets]
    · rename_i hmeets
      simp [ih hks, hmeets]

end AliasClass

namespace AliasContext

/-- The contexts that merges reach over a table, with any knowledge of what is not aliased. -/
inductive Reached (x : CallNode) (t : PathTable) : AliasContext → Prop
  | start : Reached x t (start x t)
  | merge {c : AliasContext} (h : Reached x t c) (fst snd : List Path) : Reached x t (c.merge fst snd)
  | setNoAlias {c : AliasContext} (h : Reached x t c) (pairs : List NoAlias) : Reached x t { c with noAlias := pairs }

variable {c : AliasContext} {p : Path} {i : AliasClassId} {M fst snd : List Path}

/-- Classes share no path, and their identifiers are distinct and were given out already. -/
structure Separate (c : AliasContext) : Prop where
  apart : c.classes.Pairwise AliasClass.Apart
  ids : (c.classes.map AliasClass.id).Nodup
  given : ∀ k ∈ c.classes, k.id.index < c.nextClass.index

theorem Separate.eq_of_id (h : c.Separate) {k l : AliasClass} (hk : k ∈ c.classes) (hl : l ∈ c.classes)
    (hid : k.id = l.id) : k = l :=
  List.inj_on_of_nodup_map h.ids hk hl hid

theorem Separate.eq_of_path (h : c.Separate) {k l : AliasClass} (hk : k ∈ c.classes) (hl : l ∈ c.classes)
    (hpk : p ∈ k.paths) (hpl : p ∈ l.paths) : k = l := by
  by_contra hne
  exact h.apart.forall hk hl hne p hpk hpl

/-! ### The class of a path -/

theorem classOf_eq_none_iff : c.classOf p = none ↔ ∀ k ∈ c.classes, p ∉ k.paths := by
  simp [classOf]

theorem Separate.classOf_eq_some_iff (h : c.Separate) :
    c.classOf p = some i ↔ ∃ k ∈ c.classes, p ∈ k.paths ∧ k.id = i := by
  unfold classOf
  rw [Option.map_eq_some_iff]
  constructor
  · rintro ⟨k, hfind, hid⟩
    exact ⟨k, List.mem_of_find?_eq_some hfind, by simpa using List.find?_some hfind, hid⟩
  · rintro ⟨k, hk, hp, hid⟩
    cases hfind : c.classes.find? fun k => p ∈ k.paths with
    | none => exact absurd hp (by simpa using List.find?_eq_none.1 hfind k hk)
    | some l =>
      have hl : p ∈ l.paths := by simpa using List.find?_some hfind
      exact ⟨l, rfl, h.eq_of_path hk (List.mem_of_find?_eq_some hfind) hp hl ▸ hid⟩

/-! ### Merging -/

/-- What a merge of the paths `M` makes one class. -/
def gathered (c : AliasContext) (M : List Path) : List Path :=
  M ++ (c.classes.filter (·.meets M)).flatMap AliasClass.paths

theorem mem_gathered : p ∈ c.gathered M ↔ p ∈ M ∨ ∃ k ∈ c.classes, k.meets M = true ∧ p ∈ k.paths := by
  simp [gathered, and_assoc]

theorem Separate.merge_eq (h : c.Separate) (fst snd : List Path) :
    c.merge fst snd = { c with
      classes := (c.classes.filter fun k => !k.meets (fst ++ snd)) ++ [⟨c.nextClass, c.gathered (fst ++ snd)⟩]
      nextClass := ⟨c.nextClass.index + 1⟩ } := by
  rw [merge, AliasClass.collect_eq h.apart, gathered]

theorem Separate.mem_classes_merge (h : c.Separate) {k : AliasClass} : k ∈ (c.merge fst snd).classes ↔
    (k ∈ c.classes ∧ k.meets (fst ++ snd) = false) ∨ k = ⟨c.nextClass, c.gathered (fst ++ snd)⟩ := by
  simp [h.merge_eq]

theorem Separate.apart_gathered (h : c.Separate) {k : AliasClass} (hk : k ∈ c.classes) (hmeets : k.meets M = false)
    (hp : p ∈ k.paths) : p ∉ c.gathered M := by
  intro hmem
  obtain hM | ⟨l, hl, hmeets', hpl⟩ := mem_gathered.1 hmem
  · rw [AliasClass.meets_iff.2 ⟨p, hp, hM⟩] at hmeets
    cases hmeets
  · rw [h.eq_of_path hl hk hpl hp, hmeets] at hmeets'
    cases hmeets'

theorem Separate.merge (h : c.Separate) (fst snd : List Path) : (c.merge fst snd).Separate := by
  have hkept : ∀ k ∈ c.classes.filter (fun k => !k.meets (fst ++ snd)),
      k ∈ c.classes ∧ k.meets (fst ++ snd) = false := fun k hk => by simpa using hk
  refine ⟨?_, ?_, fun k hk => ?_⟩
  · rw [h.merge_eq]
    refine List.pairwise_append.2 ⟨h.apart.filter _, List.pairwise_singleton _ _, fun k hk l hl p hp => ?_⟩
    obtain ⟨hk, hmeets⟩ := hkept k hk
    rw [List.mem_singleton.1 hl]
    exact h.apart_gathered hk hmeets hp
  · rw [h.merge_eq, List.map_append, List.map_singleton, ← List.concat_eq_append]
    refine List.Nodup.concat (fun hmem => ?_) (h.ids.sublist (List.filter_sublist.map _))
    obtain ⟨k, hk, hid⟩ := List.mem_map.1 hmem
    have hlt := h.given k (hkept k hk).1
    rw [hid] at hlt
    exact Nat.lt_irrefl _ hlt
  · rw [h.merge_eq]
    show k.id.index < c.nextClass.index + 1
    obtain ⟨hk, _⟩ | rfl := h.mem_classes_merge.1 hk
    · exact Nat.lt_succ_of_lt (h.given k hk)
    · exact Nat.lt_succ_self _

theorem Reached.separate {x : CallNode} {t : PathTable} (h : Reached x t c) : c.Separate := by
  induction h with
  | start => exact ⟨.nil, .nil, fun k hk => nomatch hk⟩
  | merge _ fst snd ih => exact ih.merge fst snd
  | setNoAlias _ pairs ih => exact ⟨ih.apart, ih.ids, ih.given⟩

theorem Reached.table_eq {x : CallNode} {t : PathTable} (h : Reached x t c) : c.table = t := by
  induction h with
  | start => rfl
  | merge _ fst snd ih => exact ih
  | setNoAlias _ pairs ih => exact ih

/-- The class that a class is part of after a merge of the paths `M`. -/
def carried (c : AliasContext) (M : List Path) (i : AliasClassId) : AliasClassId :=
  if c.classes.any fun k => k.id = i ∧ k.meets M then c.nextClass else i

theorem Separate.carried_id (h : c.Separate) {k : AliasClass} (hk : k ∈ c.classes) :
    c.carried M k.id = if k.meets M then c.nextClass else k.id := by
  have hany : (c.classes.any fun l => l.id = k.id ∧ l.meets M) = k.meets M := by
    rw [Bool.eq_iff_iff, List.any_eq_true]
    constructor
    · rintro ⟨l, hl, hmeets⟩
      obtain ⟨hid, hmeets⟩ := of_decide_eq_true hmeets
      rwa [← h.eq_of_id hl hk hid]
    · intro hmeets
      exact ⟨k, hk, decide_eq_true ⟨rfl, hmeets⟩⟩
  rw [carried, hany]

/-- A path keeps its class, or the one that took it in, and a path without one gets one only by being merged. -/
theorem Separate.classOf_merge (h : c.Separate) (fst snd : List Path) (p : Path) :
    (c.merge fst snd).classOf p =
      match c.classOf p with
      | some i => some (c.carried (fst ++ snd) i)
      | none => if p ∈ fst ++ snd then some c.nextClass else none := by
  have hnew : p ∈ c.gathered (fst ++ snd) → (c.merge fst snd).classOf p = some c.nextClass := fun hp =>
    (h.merge fst snd).classOf_eq_some_iff.2 ⟨_, h.mem_classes_merge.2 (.inr rfl), hp, rfl⟩
  cases hclass : c.classOf p with
  | some i =>
    obtain ⟨k, hk, hp, rfl⟩ := h.classOf_eq_some_iff.1 hclass
    simp only [h.carried_id hk]
    cases hmeets : k.meets (fst ++ snd) with
    | true => exact hnew (mem_gathered.2 (.inr ⟨k, hk, hmeets, hp⟩))
    | false => exact (h.merge fst snd).classOf_eq_some_iff.2 ⟨k, h.mem_classes_merge.2 (.inl ⟨hk, hmeets⟩), hp, rfl⟩
  | none =>
    have hout := classOf_eq_none_iff.1 hclass
    by_cases hp : p ∈ fst ++ snd
    · simp only [if_pos hp]
      exact hnew (mem_gathered.2 (.inl hp))
    · simp only [if_neg hp]
      refine classOf_eq_none_iff.2 fun k hk hpk => ?_
      obtain ⟨hk, _⟩ | rfl := h.mem_classes_merge.1 hk
      · exact hout k hk hpk
      · obtain hM | ⟨l, hl, _, hpl⟩ := mem_gathered.1 hpk
        · exact hp hM
        · exact hout l hl hpl

end AliasContext

end HeapSummary
