import HeapSummary.Proofs.PathTable
import Mathlib.Logic.Relation

/-!
# Alias classes are the components of the merges

Take each merge as an edge that joins all paths of its two lists. The classes of a context are the components of this
graph: two paths have the same class just if a chain of merges leads from one to the other, and a path has no class just
if it was never merged.

So the merges alone decide which paths share a class, and their order decides no more than what classes are called.
Labels are only compared, so contexts whose classes differ in name answer all questions about aliased nodes alike
(`mayAlias_eq_of_sameClass`).
-/

namespace HeapSummary

/-! ### Chains of merges -/

/-- The two paths are in one merged list. -/
def MergedAtOnce (merges : List (List Path)) (a b : Path) : Prop := ∃ M ∈ merges, a ∈ M ∧ b ∈ M

/-- A chain of merges leads from one path to the other, each merged list sharing a path with the next. -/
def Linked (merges : List (List Path)) : Path → Path → Prop := Relation.TransGen (MergedAtOnce merges)

namespace Linked

variable {merges merges' : List (List Path)} {M : List Path} {a b d : Path}

theorem of_mem (hM : M ∈ merges) (ha : a ∈ M) (hb : b ∈ M) : Linked merges a b := .single ⟨M, hM, ha, hb⟩

theorem trans (h : Linked merges a b) (h' : Linked merges b d) : Linked merges a d := Relation.TransGen.trans h h'

theorem symm (h : Linked merges a b) : Linked merges b a := by
  induction h with
  | single hab =>
    obtain ⟨M, hM, ha, hb⟩ := hab
    exact of_mem hM hb ha
  | tail _ hbc ih =>
    obtain ⟨M, hM, hb, hc⟩ := hbc
    exact (of_mem hM hc hb).trans ih

theorem mono (hsub : ∀ M ∈ merges, M ∈ merges') (h : Linked merges a b) : Linked merges' a b := by
  induction h with
  | single hab =>
    obtain ⟨M, hM, ha, hb⟩ := hab
    exact of_mem (hsub M hM) ha hb
  | tail _ hbc ih =>
    obtain ⟨M, hM, hb, hc⟩ := hbc
    exact ih.trans (of_mem (hsub M hM) hb hc)

theorem exists_mem (h : Linked merges a b) : ∃ M ∈ merges, a ∈ M := by
  obtain ⟨_, ⟨M, hM, ha, _⟩, _⟩ := Relation.TransGen.head'_iff.1 h
  exact ⟨M, hM, ha⟩

end Linked

namespace AliasContext

variable {c c' : AliasContext} {x : CallNode} {t : PathTable} {merges : List (List Path)} {M fst snd : List Path}
  {a b d p : Path} {i : AliasClassId} {m n : DepNode}

/-- The contexts over a table that a history of merges gives, the latest merge first. What is not aliased may be set at
any time. -/
inductive After (x : CallNode) (t : PathTable) : List (List Path) → AliasContext → Prop
  | start : After x t [] (start x t)
  | merge {merges : List (List Path)} {c : AliasContext} (h : After x t merges c) (fst snd : List Path) :
    After x t ((fst ++ snd) :: merges) (c.merge fst snd)
  | setNoAlias {merges : List (List Path)} {c : AliasContext} (h : After x t merges c) (pairs : List NoAlias) :
    After x t merges { c with noAlias := pairs }

theorem After.reached (h : After x t merges c) : Reached x t c := by
  induction h with
  | start => exact .start
  | merge _ fst snd ih => exact ih.merge fst snd
  | setNoAlias _ pairs ih => exact ih.setNoAlias pairs

theorem After.nextClass (h : After x t merges c) : c.nextClass.index = merges.length := by
  induction h with
  | start => rfl
  | merge _ fst snd ih =>
    show _ + 1 = _
    rw [ih, List.length_cons]
  | setNoAlias _ pairs ih => exact ih

/-- The next class can be numbered just as long as there were fewer merges than numbers. -/
theorem After.ofNat_nextClass (h : After x t merges c) :
    Id.ofNat c.nextClass.index = .ok c.nextClass ↔ merges.length < Id.reserved := by
  rw [Id.ofNat_eq_ok, h.nextClass]
  exact and_iff_left (Id.ext h.nextClass)

/-! ### Paths of one class -/

def SameClass (c : AliasContext) (a b : Path) : Prop := ∃ k ∈ c.classes, a ∈ k.paths ∧ b ∈ k.paths

theorem Separate.sameClass_trans (h : c.Separate) (hab : c.SameClass a b) (hbd : c.SameClass b d) :
    c.SameClass a d := by
  obtain ⟨k, hk, ha, hb⟩ := hab
  obtain ⟨l, hl, hb', hd⟩ := hbd
  obtain rfl := h.eq_of_path hk hl hb hb'
  exact ⟨k, hk, ha, hd⟩

theorem Separate.sameClass_iff (h : c.Separate) :
    c.SameClass a b ↔ ∃ i, c.classOf a = some i ∧ c.classOf b = some i := by
  simp only [h.classOf_eq_some_iff]
  constructor
  · rintro ⟨k, hk, ha, hb⟩
    exact ⟨k.id, ⟨k, hk, ha, rfl⟩, k, hk, hb, rfl⟩
  · rintro ⟨i, ⟨k, hk, ha, hki⟩, l, hl, hb, hli⟩
    obtain rfl := h.eq_of_id hk hl (hki.trans hli.symm)
    exact ⟨k, hk, ha, hb⟩

theorem classOf_eq_none_iff_not_sameClass : c.classOf a = none ↔ ¬ c.SameClass a a := by
  simp [classOf_eq_none_iff, SameClass]

theorem Separate.sameClass_gathered (h : c.Separate) (ha : a ∈ c.gathered (fst ++ snd))
    (hb : b ∈ c.gathered (fst ++ snd)) : (c.merge fst snd).SameClass a b :=
  ⟨_, h.mem_classes_merge.2 (.inr rfl), ha, hb⟩

theorem Separate.sameClass_merge (h : c.Separate) (fst snd : List Path) (hab : c.SameClass a b) :
    (c.merge fst snd).SameClass a b := by
  obtain ⟨k, hk, ha, hb⟩ := hab
  cases hmeets : k.meets (fst ++ snd) with
  | true =>
    exact h.sameClass_gathered (mem_gathered.2 (.inr ⟨k, hk, hmeets, ha⟩)) (mem_gathered.2 (.inr ⟨k, hk, hmeets, hb⟩))
  | false => exact ⟨k, h.mem_classes_merge.2 (.inl ⟨hk, hmeets⟩), ha, hb⟩

theorem exists_mem_of_mem_gathered (ha : a ∈ c.gathered M) : ∃ b ∈ M, a = b ∨ c.SameClass a b := by
  obtain ha | ⟨k, hk, hmeets, ha⟩ := mem_gathered.1 ha
  · exact ⟨a, ha, .inl rfl⟩
  · obtain ⟨b, hbk, hb⟩ := AliasClass.meets_iff.1 hmeets
    exact ⟨b, hb, .inr ⟨k, hk, ha, hbk⟩⟩

theorem After.linked_of_sameClass (h : After x t merges c) (hab : c.SameClass a b) : Linked merges a b := by
  induction h generalizing a b with
  | start =>
    obtain ⟨k, hk, _⟩ := hab
    cases hk
  | @merge merges c h fst snd ih =>
    have hold : ∀ a b, c.SameClass a b → Linked ((fst ++ snd) :: merges) a b := fun a b hab =>
      (ih hab).mono fun _ => List.mem_cons_of_mem _
    obtain ⟨k, hk, ha, hb⟩ := hab
    obtain ⟨hk, _⟩ | rfl := h.reached.separate.mem_classes_merge.1 hk
    · exact hold a b ⟨k, hk, ha, hb⟩
    · -- each of the two is linked to a merged path, and these are linked by the merge
      have hmerged : ∀ a ∈ c.gathered (fst ++ snd), ∃ b ∈ fst ++ snd, Linked ((fst ++ snd) :: merges) a b := by
        intro a ha
        obtain ⟨b, hb, rfl | hab⟩ := exists_mem_of_mem_gathered ha
        · exact ⟨a, hb, .of_mem List.mem_cons_self hb hb⟩
        · exact ⟨b, hb, hold a b hab⟩
      obtain ⟨a', ha', haa'⟩ := hmerged a ha
      obtain ⟨b', hb', hbb'⟩ := hmerged b hb
      exact (haa'.trans (.of_mem List.mem_cons_self ha' hb')).trans hbb'.symm
  | setNoAlias _ pairs ih => exact ih hab

theorem After.sameClass_of_mem (h : After x t merges c) (hM : M ∈ merges) (ha : a ∈ M) (hb : b ∈ M) :
    c.SameClass a b := by
  induction h with
  | start => cases hM
  | merge h fst snd ih =>
    have hseparate := h.reached.separate
    rcases List.mem_cons.1 hM with rfl | hM
    · exact hseparate.sameClass_gathered (mem_gathered.2 (.inl ha)) (mem_gathered.2 (.inl hb))
    · exact hseparate.sameClass_merge fst snd (ih hM)
  | setNoAlias _ pairs ih => exact ih hM

theorem After.sameClass_iff_linked (h : After x t merges c) : c.SameClass a b ↔ Linked merges a b := by
  refine ⟨h.linked_of_sameClass, fun hab => ?_⟩
  induction hab with
  | single hab =>
    obtain ⟨M, hM, ha, hb⟩ := hab
    exact h.sameClass_of_mem hM ha hb
  | tail _ hbd ih =>
    obtain ⟨M, hM, hb, hd⟩ := hbd
    exact h.reached.separate.sameClass_trans ih (h.sameClass_of_mem hM hb hd)

theorem After.classOf_eq_none_iff (h : After x t merges c) : c.classOf a = none ↔ ∀ M ∈ merges, a ∉ M := by
  rw [classOf_eq_none_iff_not_sameClass]
  constructor
  · intro hnone M hM ha
    exact hnone (h.sameClass_of_mem hM ha ha)
  · intro hout haa
    obtain ⟨M, hM, ha⟩ := (h.linked_of_sameClass haa).exists_mem
    exact hout M hM ha

/-- Paths that were merged have the same label, which nothing but the classes decides. -/
theorem isAliased_of_sameClass (h : c.Separate) (hab : c.SameClass a b) : c.isAliased a b = .ok true := by
  obtain ⟨i, ha, hb⟩ := h.sameClass_iff.1 hab
  have hlabel : ∀ p, c.classOf p = some i → c.label p = .ok ⟨some i, []⟩ := fun p hp =>
    label_eq_ok.2 ⟨PathTable.climb_of_stop hp, fun hnone => by cases hnone⟩
  unfold isAliased
  split
  · rfl
  · exact Outcome.bind_eq_ok.2 ⟨_, hlabel a ha, Outcome.bind_eq_ok.2 ⟨_, hlabel b hb, if_pos rfl⟩⟩

end AliasContext

/-! ### Names of classes -/

def Label.rename (ρ : AliasClassId → AliasClassId) (l : Label) : Label := ⟨l.aliasClass.map ρ, l.steps⟩

namespace AliasContext

variable {c c' : AliasContext} {x y : CallNode} {t : PathTable} {merges merges' : List (List Path)} {p q : Path}
  {l : Label} {i : AliasClassId} {ρ : AliasClassId → AliasClassId} {m n : DepNode}

/-- Contexts with the same classes differ in the names of the classes only. -/
theorem Separate.exists_rename (h : c.Separate) (h' : c'.Separate)
    (hsame : ∀ a b, c.SameClass a b ↔ c'.SameClass a b) :
    ∃ ρ, (∀ p, c'.classOf p = (c.classOf p).map ρ) ∧
      ∀ p q i j, c.classOf p = some i → c.classOf q = some j → ρ i = ρ j → i = j := by
  have hname : ∀ i, ∃ j, ∀ p, c.classOf p = some i → c'.classOf p = some j := by
    intro i
    by_cases hused : ∃ p, c.classOf p = some i
    · obtain ⟨p, hp⟩ := hused
      obtain ⟨j, hj, _⟩ := h'.sameClass_iff.1 ((hsame p p).1 (h.sameClass_iff.2 ⟨i, hp, hp⟩))
      refine ⟨j, fun q hq => ?_⟩
      obtain ⟨k, hpk, hqk⟩ := h'.sameClass_iff.1 ((hsame p q).1 (h.sameClass_iff.2 ⟨i, hp, hq⟩))
      rwa [← Option.some.inj (hj.symm.trans hpk)] at hqk
    · exact ⟨i, fun p hp => absurd ⟨p, hp⟩ hused⟩
  choose ρ hρ using hname
  refine ⟨ρ, fun p => ?_, fun p q i j hp hq heq => ?_⟩
  · cases hp : c.classOf p with
    | none =>
      have hout := mt (hsame p p).2 (classOf_eq_none_iff_not_sameClass.1 hp)
      exact classOf_eq_none_iff_not_sameClass.2 hout
    | some i => exact hρ i p hp
  · have hpq : c'.SameClass p q := h'.sameClass_iff.2 ⟨ρ i, hρ i p hp, heq ▸ hρ j q hq⟩
    obtain ⟨k, hpk, hqk⟩ := h.sameClass_iff.1 ((hsame p q).2 hpq)
    exact Option.some.inj ((hp.symm.trans hpk).trans (hqk.symm.trans hq))

theorem label_rename (htable : c'.table = c.table) (h : ∀ p, c'.classOf p = (c.classOf p).map ρ) (p : Path) :
    c'.label p = (c.label p).map (Label.rename ρ) := by
  have hascend : c'.table.ascend c'.classOf p = (c.table.ascend c.classOf p).map fun r => (r.1.map ρ, r.2) := by
    rw [htable, funext h]
    exact PathTable.climb_map ρ c.classOf _ p []
  unfold label
  rw [hascend]
  cases c.table.ascend c.classOf p with
  | error e => rfl
  | ok r =>
    obtain ⟨found, steps⟩ := r
    cases found with
    | none =>
      cases hroot : steps.head?.any Step.isRoot with
      | true => simp [Except.map, bind, Except.bind, pure, Except.pure, hroot, Label.rename]
      | false => simp [Except.map, bind, Except.bind, hroot]
    | some i => rfl

theorem exists_classOf_of_label (h : c.label p = .ok l) (hi : l.aliasClass = some i) : ∃ q, c.classOf q = some i := by
  obtain ⟨q, j, hj, hq, _⟩ | ⟨hnone, _⟩ := PathTable.descends_of_climb (label_eq_ok.1 h).1 .done
  · rw [hi] at hj
    exact ⟨q, Option.some.inj hj ▸ hq⟩
  · rw [hi] at hnone
    cases hnone

theorem eq_of_rename_eq {k : Label}
    (hinj : ∀ p q i j, c.classOf p = some i → c.classOf q = some j → ρ i = ρ j → i = j)
    (hp : c.label p = .ok k) (hq : c.label q = .ok l) (heq : k.rename ρ = l.rename ρ) : k = l := by
  obtain ⟨u, steps⟩ := k
  obtain ⟨v, steps'⟩ := l
  obtain ⟨hclass, rfl⟩ : u.map ρ = v.map ρ ∧ steps = steps' := Label.mk.inj heq
  cases u with
  | none => rw [Option.map_eq_none_iff.1 hclass.symm]
  | some i =>
    obtain ⟨j, rfl, hij⟩ := Option.map_eq_some_iff.1 hclass.symm
    obtain ⟨p', hp'⟩ := exists_classOf_of_label hp rfl
    obtain ⟨q', hq'⟩ := exists_classOf_of_label hq rfl
    rw [hinj p' q' i j hp' hq' hij.symm]

theorem mayAlias_eq_of_sameClass (h : c.Separate) (h' : c'.Separate) (htable : c'.table = c.table)
    (hsame : ∀ a b, c.SameClass a b ↔ c'.SameClass a b) (m n : DepNode) : c'.mayAlias m n = c.mayAlias m n := by
  obtain ⟨ρ, hρ, hinj⟩ := h.exists_rename h' hsame
  have hmapM := Outcome.mapM_map (label_rename htable hρ)
  unfold mayAlias
  rw [htable, hmapM, hmapM]
  cases hleft : (c.table.pathsOf m).mapM c.label with
  | error e => rfl
  | ok left =>
    cases hright : (c.table.pathsOf n).mapM c.label with
    | error e => rfl
    | ok right =>
      have hmem : ∀ k ∈ left, (k.rename ρ ∈ right.map (Label.rename ρ) ↔ k ∈ right) := by
        intro k hk
        refine ⟨fun hrenamed => ?_, List.mem_map_of_mem⟩
        obtain ⟨l, hl, heq⟩ := List.mem_map.1 hrenamed
        obtain ⟨p, _, hp⟩ := Outcome.exists_of_mem_mapM hright hl
        obtain ⟨q, _, hq⟩ := Outcome.exists_of_mem_mapM hleft hk
        exact eq_of_rename_eq hinj hp hq heq ▸ hl
      show Except.ok ((left.map (Label.rename ρ)).any fun l => l ∈ right.map (Label.rename ρ)) =
        Except.ok (left.any fun l => l ∈ right)
      refine congrArg Except.ok (Bool.eq_iff_iff.2 ?_)
      simp only [List.any_map, List.any_eq_true, Function.comp_apply, decide_eq_true_eq]
      exact exists_congr fun k => and_congr_right fun hk => hmem k hk

/-- The classes of a context are the components of its merges. They share no path and have identifiers of their own, all
given out before. Two paths have the same class just if a chain of merges links them, and a path has none just if it was
never merged. The order of the merges changes no answer about nodes, and paths that were merged at once are aliased,
whatever merges follow, whatever is set as not aliased and whatever the table says of their types. -/
theorem classes_are_components (hc : After x t merges c) :
    c.Separate ∧ c.nextClass.index = merges.length ∧
    (∀ a b, (∃ i, c.classOf a = some i ∧ c.classOf b = some i) ↔ Linked merges a b) ∧
    (∀ a, c.classOf a = none ↔ ∀ M ∈ merges, a ∉ M) ∧
    (∀ y merges' c', After y t merges' c' → merges'.Perm merges → ∀ m n, c'.mayAlias m n = c.mayAlias m n) ∧
    ∀ M ∈ merges, ∀ a ∈ M, ∀ b ∈ M, ∀ pairs t',
      ({ c with noAlias := pairs, table := t' } : AliasContext).isAliased a b = .ok true := by
  have hseparate := hc.reached.separate
  refine ⟨hseparate, hc.nextClass, fun a b => ?_, fun a => hc.classOf_eq_none_iff, ?_, ?_⟩
  · rw [← hseparate.sameClass_iff, hc.sameClass_iff_linked]
  · intro y merges' c' hc' hperm
    have htable : c'.table = c.table := hc'.reached.table_eq.trans hc.reached.table_eq.symm
    refine mayAlias_eq_of_sameClass hseparate hc'.reached.separate htable fun a b => ?_
    rw [hc.sameClass_iff_linked, hc'.sameClass_iff_linked]
    exact ⟨Linked.mono fun _ hM => hperm.mem_iff.2 hM, Linked.mono fun _ hM => hperm.mem_iff.1 hM⟩
  · intro M hM a ha b hb pairs t'
    have hab : c.SameClass a b := hc.sameClass_of_mem hM ha hb
    exact isAliased_of_sameClass ⟨hseparate.apart, hseparate.ids, hseparate.given⟩ hab

/-- The last of three merges joins the classes of the others, and in another order they join as well. -/
theorem components_twinPaths : ∃ c c', After ⟨0⟩ twinPaths [[⟨1⟩, ⟨2⟩], [⟨2⟩, ⟨3⟩], [⟨0⟩, ⟨1⟩]] c ∧
    After ⟨0⟩ twinPaths [[⟨2⟩, ⟨3⟩], [⟨0⟩, ⟨1⟩], [⟨1⟩, ⟨2⟩]] c' ∧
    (∃ i, c.classOf ⟨0⟩ = some i ∧ c.classOf ⟨3⟩ = some i) ∧ c.classOf ⟨4⟩ = none ∧
    c'.mayAlias ⟨0⟩ ⟨1⟩ = c.mayAlias ⟨0⟩ ⟨1⟩ ∧
    ({ c with noAlias := [⟨⟨0⟩, ⟨1⟩⟩], table := PathTable.empty } : AliasContext).isAliased ⟨0⟩ ⟨1⟩ = .ok true := by
  have hc := ((After.start (x := ⟨0⟩) (t := twinPaths)).merge [⟨0⟩] [⟨1⟩]).merge [⟨2⟩] [⟨3⟩] |>.merge [⟨1⟩] [⟨2⟩]
  have hc' := ((After.start (x := ⟨0⟩) (t := twinPaths)).merge [⟨1⟩] [⟨2⟩]).merge [⟨0⟩] [⟨1⟩] |>.merge [⟨2⟩] [⟨3⟩]
  obtain ⟨_, _, hclasses, hnone, hperm, haliased⟩ := classes_are_components hc
  have h01 : MergedAtOnce [[⟨1⟩, ⟨2⟩], [⟨2⟩, ⟨3⟩], [⟨0⟩, ⟨1⟩]] ⟨0⟩ ⟨1⟩ := ⟨[⟨0⟩, ⟨1⟩], by decide⟩
  have h12 : MergedAtOnce [[⟨1⟩, ⟨2⟩], [⟨2⟩, ⟨3⟩], [⟨0⟩, ⟨1⟩]] ⟨1⟩ ⟨2⟩ := ⟨[⟨1⟩, ⟨2⟩], by decide⟩
  have h23 : MergedAtOnce [[⟨1⟩, ⟨2⟩], [⟨2⟩, ⟨3⟩], [⟨0⟩, ⟨1⟩]] ⟨2⟩ ⟨3⟩ := ⟨[⟨2⟩, ⟨3⟩], by decide⟩
  have hlinked : Linked _ ⟨0⟩ ⟨3⟩ := ((Relation.TransGen.single h01).tail h12).tail h23
  exact ⟨_, _, hc, hc', (hclasses ⟨0⟩ ⟨3⟩).2 hlinked, (hnone ⟨4⟩).2 (by decide),
    hperm _ _ _ hc' (by decide) ⟨0⟩ ⟨1⟩, haliased [⟨0⟩, ⟨1⟩] (by decide) ⟨0⟩ (by decide) ⟨1⟩ (by decide) _ _⟩

end AliasContext

end HeapSummary
