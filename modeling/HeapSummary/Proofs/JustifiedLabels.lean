import HeapSummary.Proofs.AliasComponents

/-!
# Equal labels are justified

Two paths are congruent if merges and common fields make them so: `Congruent` is the least equivalence that relates the
paths of one merged list and, below related paths, the fields of one name. Paths of equal labels are congruent, so nodes
are reported as aliased only if congruent paths say so.

A label is read from its top. Classes of one identifier are one class, and a chain of merges runs between any two paths
of it; a root step names one path of the table. From there on the two ways down have the same steps, all of them fields.
-/

namespace HeapSummary

namespace PathTable

variable {t : PathTable} {merges : List (List Path)} {a b p q : Path} {steps : List Step}

/-- `a'` is the field `f` of `a`. -/
def Appends (t : PathTable) (a : Path) (f : Field) (a' : Path) : Prop :=
  ∃ d, t.paths.get? a' = some d ∧ d.parent = some a ∧ d.last = .field f

/-- The least equivalence that relates paths merged at once and one field of related paths. -/
inductive Congruent (t : PathTable) (merges : List (List Path)) : Path → Path → Prop
  | merged {a b : Path} (h : MergedAtOnce merges a b) : Congruent t merges a b
  | append {a b a' b' : Path} {f : Field} (h : Congruent t merges a b) (ha : t.Appends a f a') (hb : t.Appends b f b') :
    Congruent t merges a' b'
  | refl (a : Path) : Congruent t merges a a
  | symm {a b : Path} (h : Congruent t merges a b) : Congruent t merges b a
  | trans {a b d : Path} (h : Congruent t merges a b) (h' : Congruent t merges b d) : Congruent t merges a d

theorem congruent_of_linked (h : Linked merges a b) : t.Congruent merges a b := by
  induction h with
  | single hab => exact .merged hab
  | tail _ hbd ih => exact .trans ih (.merged hbd)

theorem Interned.appends (ht : t.Interned) {d : AccessPath} (hd : t.paths.get? q = some d)
    (hparent : d.parent = some p) : ∃ f, d.last = .field f ∧ t.Appends p f q := by
  cases hlast : d.last with
  | root x =>
    have hnone : d.parent = none := (ht.rooted q d hd).2 (by rw [hlast]; rfl)
    rw [hparent] at hnone
    cases hnone
  | field f => exact ⟨f, rfl, d, hd, hparent, hlast⟩

theorem Congruent.descends (ht : t.Interned) (h : t.Congruent merges p q) (ha : t.Descends p steps a)
    (hb : t.Descends q steps b) : t.Congruent merges a b := by
  induction ha generalizing q with
  | done =>
    cases hb
    exact h
  | @step p u a d steps hd hparent _ ih =>
    obtain ⟨v, e, he, hparent', hlast, hrest⟩ := exists_of_descends_cons hb
    obtain ⟨f, hf, hu⟩ := ht.appends hd hparent
    obtain ⟨f', hf', hv⟩ := ht.appends he hparent'
    obtain rfl : f = f' := Step.field.inj (hf.symm.trans (hlast.symm.trans hf'))
    exact ih (.append h hu hv) hrest

end PathTable

namespace AliasContext

open PathTable (Congruent)

variable {c : AliasContext} {x : CallNode} {t : PathTable} {merges : List (List Path)} {a b : Path} {l : Label}

/-- Every path of the table has a label: it leads up to a class or to a root. -/
theorem exists_label (ht : c.table.Interned) (ha : a ∈ c.table.paths.ids) : ∃ l, c.label a = .ok l := by
  have hfuel : a.index < c.table.paths.size + 1 := Nat.lt_succ_of_lt (Arena.mem_ids.1 ha)
  obtain ⟨found, steps, hclimb⟩ := ht.exists_climb c.classOf ha hfuel []
  refine ⟨⟨found, steps⟩, label_eq_ok.2 ⟨hclimb, ?_⟩⟩
  rintro rfl
  obtain ⟨_, _, hsome, _⟩ | ⟨_, r, d, rest, hd, hroot, rfl, _⟩ := PathTable.descends_of_climb hclimb .done
  · cases hsome
  · simpa using (ht.rooted r d hd).1 hroot

theorem congruent_of_label_eq (ht : t.Interned) (hc : After x t merges c) (ha : c.label a = .ok l)
    (hb : c.label b = .ok l) : t.Congruent merges a b := by
  obtain rfl := hc.reached.table_eq
  have hseparate := hc.reached.separate
  obtain ⟨p, i, hi, hp, hpa⟩ | ⟨hnone, r, d, rest, hd, hroot, hsteps, hra⟩ :=
    PathTable.descends_of_climb (label_eq_ok.1 ha).1 .done
  · obtain ⟨q, j, hj, hq, hqb⟩ | ⟨hnone, _⟩ := PathTable.descends_of_climb (label_eq_ok.1 hb).1 .done
    · obtain rfl : i = j := Option.some.inj (hi.symm.trans hj)
      have hpq : c.SameClass p q := hseparate.sameClass_iff.2 ⟨i, hp, hq⟩
      exact (PathTable.congruent_of_linked (hc.linked_of_sameClass hpq)).descends ht hpa hqb
    · rw [hi] at hnone
      cases hnone
  · obtain ⟨_, _, hsome, _⟩ | ⟨_, r', d', rest', hd', hroot', hsteps', hrb⟩ :=
      PathTable.descends_of_climb (label_eq_ok.1 hb).1 .done
    · rw [hnone] at hsome
      cases hsome
    · -- without a class both lead up to one root, and then they are one path
      obtain ⟨hlast, rfl⟩ := List.cons.inj (hsteps.symm.trans hsteps')
      obtain rfl := ht.unique r r' d d' hd hd' (hroot.trans hroot'.symm) hlast
      obtain rfl := hra.eq ht hrb
      exact .refl a

/-- Labels exist for all paths of a table that operations built, and paths of equal labels are congruent, whatever was
merged before. Nodes are reported as aliased only if some path of one is congruent to some path of the other. -/
theorem equal_labels_congruent (ht : t.Built) (hc : After x t merges c) :
    (∀ a ∈ t.paths.ids, ∃ l, c.label a = .ok l) ∧
    (∀ a b l, c.label a = .ok l → c.label b = .ok l → Congruent t merges a b) ∧
    ∀ m n, c.mayAlias m n = .ok true → ∃ p ∈ t.pathsOf m, ∃ q ∈ t.pathsOf n, Congruent t merges p q := by
  have htable := hc.reached.table_eq
  refine ⟨fun a ha => ?_, fun a b l => congruent_of_label_eq ht.interned hc, fun m n halias => ?_⟩
  · subst htable
    exact exists_label ht.interned ha
  · obtain ⟨p, hp, q, hq, l, hpl, hql⟩ := (mayAlias_iff halias).1 rfl
    rw [htable] at hp hq
    exact ⟨p, hp, q, hq, congruent_of_label_eq ht.interned hc hpl hql⟩

theorem built_twinPaths : twinPaths.Built := by
  have roots := ((PathTable.Built.empty.root ⟨0⟩ none).root ⟨1⟩ none).root ⟨2⟩ none
  have fields := (roots.field (p := ⟨0⟩) (by decide) ⟨7⟩ none).field (p := ⟨1⟩) (by decide) ⟨7⟩ none
  exact (fields.attach ⟨0⟩ ⟨3⟩).attach ⟨1⟩ ⟨4⟩

/-- With the first two nodes merged, one field of them has one label and makes them aliased. -/
theorem congruent_twinPaths : twinPaths.Built ∧ ∃ c, After ⟨0⟩ twinPaths [[⟨0⟩, ⟨1⟩]] c ∧
    c.label ⟨3⟩ = .ok ⟨some ⟨0⟩, [.field ⟨7⟩]⟩ ∧ c.label ⟨4⟩ = .ok ⟨some ⟨0⟩, [.field ⟨7⟩]⟩ ∧
    Congruent twinPaths [[⟨0⟩, ⟨1⟩]] ⟨3⟩ ⟨4⟩ ∧ c.mayAlias ⟨0⟩ ⟨1⟩ = .ok true ∧
    ∃ p ∈ twinPaths.pathsOf ⟨0⟩, ∃ q ∈ twinPaths.pathsOf ⟨1⟩, Congruent twinPaths [[⟨0⟩, ⟨1⟩]] p q := by
  have hc := (After.start (x := ⟨0⟩) (t := twinPaths)).merge [⟨0⟩] [⟨1⟩]
  obtain ⟨_, hlabels, hnodes⟩ := equal_labels_congruent built_twinPaths hc
  exact ⟨built_twinPaths, _, hc, rfl, rfl, hlabels ⟨3⟩ ⟨4⟩ _ rfl rfl, rfl, hnodes ⟨0⟩ ⟨1⟩ rfl⟩

end AliasContext

end HeapSummary
