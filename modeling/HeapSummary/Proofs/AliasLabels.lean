import HeapSummary.Proofs.AliasClasses
import HeapSummary.Proofs.Outcome

/-!
# What a merge does to labels

A label names the closest class above a path and the steps below it. So a merge that puts one of the paths below that
class into a class of its own cuts the label short, at the closest such path. Two paths of one label have the same label
again just if they are cut at the same height, or both not at all, and that is when a merge keeps them aliased. If only
one of them is cut, or one higher up than the other, the merge makes their labels differ: an alias may be lost.
-/

namespace HeapSummary

namespace PathTable

variable {t : PathTable} {M : List Path} {p q : Path} {n : Nat}

def parent? (t : PathTable) (p : Path) : Option Path := (t.paths.get? p).bind AccessPath.parent

/-- A path and its ancestors from the closest on, at most `n` paths together. -/
def lineage (t : PathTable) : Nat → Path → List Path
  | 0, _ => []
  | n + 1, p => p :: ((t.parent? p).map (t.lineage n)).getD []

/-- How far up from `p` the closest path of `M` is, if it is among the first `n`. -/
def closest? (t : PathTable) (M : List Path) (n : Nat) (p : Path) : Option Nat := (t.lineage n p).findIdx? (· ∈ M)

theorem length_lineage_le (t : PathTable) (n : Nat) (p : Path) : (t.lineage n p).length ≤ n := by
  induction n generalizing p with
  | zero => exact Nat.le_refl 0
  | succ n ih =>
    rw [lineage, List.length_cons]
    cases t.parent? p with
    | none => exact Nat.succ_le_succ (Nat.zero_le n)
    | some q => exact Nat.succ_le_succ (ih q)

theorem closest?_lt {i : Nat} (h : t.closest? M n p = some i) : i < n := by
  have hi := (List.findIdx?_eq_some_iff_findIdx_eq.1 h).1
  exact Nat.lt_of_lt_of_le hi (t.length_lineage_le n p)

theorem closest?_of_mem (h : p ∈ M) : t.closest? M (n + 1) p = some 0 := by
  simp [closest?, lineage, List.findIdx?_cons, h]

theorem closest?_of_root (h : p ∉ M) (hp : t.parent? p = none) : t.closest? M (n + 1) p = none := by
  simp [closest?, lineage, List.findIdx?_cons, h, hp]

theorem closest?_of_parent (h : p ∉ M) (hp : t.parent? p = some q) :
    t.closest? M (n + 1) p = (t.closest? M n q).map (· + 1) := by
  simp [closest?, lineage, List.findIdx?_cons, h, hp]

/-! ### Climbing -/

section climb

variable {α : Type} {stop : Path → Option α} {fuel : Nat} {suffix : List Step} {d : AccessPath}

theorem climb_of_stop {a : α} (h : stop p = some a) : t.climb stop (fuel + 1) p suffix = .ok (some a, suffix) := by
  rw [climb, h]

theorem climb_of_root (h : stop p = none) (hd : t.paths.get? p = some d) (hroot : d.parent = none) :
    t.climb stop (fuel + 1) p suffix = .ok (none, d.last :: suffix) := by
  rw [climb, h]
  exact Outcome.bind_eq_ok.2 ⟨d, Arena.read_eq_ok_iff.2 hd, by rw [hroot]; rfl⟩

theorem climb_of_parent (h : stop p = none) (hd : t.paths.get? p = some d) (hparent : d.parent = some q) :
    t.climb stop (fuel + 1) p suffix = t.climb stop fuel q (d.last :: suffix) := by
  have hread : t.read p = .ok d := Arena.read_eq_ok_iff.2 hd
  simp [climb, h, hread, hparent, bind, Except.bind]

theorem climb_cases {found : Option α} {steps : List Step}
    (h : t.climb stop (fuel + 1) p suffix = .ok (found, steps)) :
    (∃ a, stop p = some a ∧ found = some a ∧ steps = suffix) ∨
    stop p = none ∧ ∃ d, t.paths.get? p = some d ∧ ((d.parent = none ∧ found = none ∧ steps = d.last :: suffix) ∨
      ∃ q, d.parent = some q ∧ t.climb stop fuel q (d.last :: suffix) = .ok (found, steps)) := by
  cases hstop : stop p with
  | some a =>
    rw [climb_of_stop hstop] at h
    cases h
    exact .inl ⟨a, rfl, rfl, rfl⟩
  | none =>
    rw [climb, hstop] at h
    obtain ⟨d, hd, h⟩ := Outcome.bind_eq_ok.1 h
    refine .inr ⟨rfl, d, Arena.read_eq_ok_iff.1 hd, ?_⟩
    cases hparent : d.parent with
    | none =>
      rw [hparent] at h
      cases h
      exact .inl ⟨rfl, rfl, rfl⟩
    | some q =>
      rw [hparent] at h
      exact .inr ⟨q, rfl, h⟩

end climb

end PathTable

/-! ### Labels that are cut -/

namespace Label

variable {i : AliasClassId} {carried : AliasClassId → AliasClassId} {l : Label} {u v : Option Nat}

/-- The label after a merge into class `i`, for a path whose closest merged path is so far up. The other classes become
what `carried` says. -/
def cut (i : AliasClassId) (carried : AliasClassId → AliasClassId) (l : Label) : Option Nat → Label
  | some height => ⟨some i, l.steps.drop (l.steps.length - height)⟩
  | none => ⟨l.aliasClass.map carried, l.steps⟩

theorem cut_eq_cut_iff (hu : ∀ j, u = some j → j < l.steps.length) (hv : ∀ j, v = some j → j < l.steps.length) :
    l.cut i carried u = l.cut i carried v ↔ u = v := by
  refine ⟨fun h => ?_, congrArg _⟩
  have hlength := congrArg (fun l : Label => l.steps.length) h
  cases u with
  | none =>
    cases v with
    | none => rfl
    | some k =>
      have hk := hv k rfl
      simp only [cut, List.length_drop] at hlength
      omega
  | some j =>
    have hj := hu j rfl
    cases v with
    | none =>
      simp only [cut, List.length_drop] at hlength
      omega
    | some k =>
      have hk := hv k rfl
      simp only [cut, List.length_drop] at hlength
      exact congrArg some (by omega)

theorem cut_concat {found : Option AliasClassId} {steps : List Step} {last : Step}
    (hu : ∀ j, u = some j → j < steps.length) :
    cut i carried ⟨found, steps ++ [last]⟩ (u.map (· + 1)) =
      ⟨(cut i carried ⟨found, steps⟩ u).aliasClass, (cut i carried ⟨found, steps⟩ u).steps ++ [last]⟩ := by
  cases u with
  | none => rfl
  | some j =>
    have hj := hu j rfl
    have hdrop : (steps ++ [last]).length - (j + 1) = steps.length - j := by
      rw [List.length_append, List.length_singleton]
      omega
    simp only [cut, Option.map_some, hdrop]
    rw [List.drop_append_of_le_length (Nat.sub_le _ _)]

end Label

namespace PathTable

variable {t : PathTable} {M : List Path} {p : Path} {fuel : Nat} {suffix steps : List Step} {i : AliasClassId}
  {carried : AliasClassId → AliasClassId} {stop stop' : Path → Option AliasClassId} {found : Option AliasClassId}

/-- Climbing with more places to stop gives the label that is cut at the closest of them. -/
theorem climb_of_more (hold : ∀ q k, stop q = some k → stop' q = some (carried k))
    (hnew : ∀ q, stop q = none → stop' q = if q ∈ M then some i else none)
    (h : t.climb stop fuel p suffix = .ok (found, steps)) :
    ∃ own, steps = own ++ suffix ∧ ∃ l, l = Label.cut i carried ⟨found, own⟩ (t.closest? M own.length p) ∧
      t.climb stop' fuel p suffix = .ok (l.aliasClass, l.steps ++ suffix) := by
  induction fuel generalizing p suffix with
  | zero => cases h
  | succ fuel ih =>
    obtain ⟨k, hk, rfl, rfl⟩ | ⟨hnone, d, hd, hclimb⟩ := climb_cases h
    · exact ⟨[], rfl, _, rfl, climb_of_stop (hold p k hk)⟩
    have hparent : t.parent? p = d.parent := by rw [parent?, hd]; rfl
    have hp := hnew p hnone
    by_cases hM : p ∈ M
    · rw [if_pos hM] at hp
      -- The path itself is merged, so no step is left of what it had.
      obtain ⟨own, hown, hsteps⟩ : ∃ own, own ≠ [] ∧ steps = own ++ suffix := by
        obtain ⟨_, _, rfl⟩ | ⟨q, _, hq⟩ := hclimb
        · exact ⟨[d.last], by simp, rfl⟩
        · obtain ⟨own, rfl, _⟩ := ih hq
          exact ⟨own ++ [d.last], by simp, by simp⟩
      obtain ⟨n, hn⟩ := Nat.exists_eq_succ_of_ne_zero (mt List.length_eq_zero_iff.1 hown)
      refine ⟨own, hsteps, _, rfl, ?_⟩
      rw [hn, closest?_of_mem hM, climb_of_stop hp]
      simp [Label.cut]
    · rw [if_neg hM] at hp
      obtain ⟨hroot, rfl, rfl⟩ | ⟨q, hq, hrest⟩ := hclimb
      · refine ⟨[d.last], rfl, _, rfl, ?_⟩
        rw [List.length_singleton, closest?_of_root hM (hparent.trans hroot), climb_of_root hp hd hroot]
        rfl
      · obtain ⟨own, rfl, _, rfl, hclimb⟩ := ih hrest
        refine ⟨own ++ [d.last], by simp, _, rfl, ?_⟩
        rw [climb_of_parent hp hd hq, hclimb, List.length_append, List.length_singleton,
          closest?_of_parent hM (hparent.trans hq), Label.cut_concat fun j hj => closest?_lt hj]
        simp

end PathTable

/-! ### Merging -/

namespace AliasContext

variable {c : AliasContext} {x : CallNode} {t : PathTable} {p q : Path} {l : Label} {fst snd : List Path} {m n : DepNode}

theorem label_eq_ok : c.label p = .ok l ↔ c.table.ascend c.classOf p = .ok (l.aliasClass, l.steps) ∧
    (l.aliasClass = none → l.steps.head?.any Step.isRoot = true) := by
  simp only [label, Outcome.bind_eq_ok, Prod.exists]
  constructor
  · rintro ⟨found, steps, hascend, h⟩
    split at h
    · cases h
    · rename_i hrooted
      cases h
      have hroot : found = none → steps.head?.any Step.isRoot = true := by simpa using hrooted
      exact ⟨hascend, hroot⟩
  · rintro ⟨hascend, hrooted⟩
    refine ⟨_, _, hascend, if_neg ?_⟩
    cases hclass : l.aliasClass with
    | none => simp [hrooted hclass]
    | some k => simp

/-- A path that has a label has one after a merge, the old one cut at the closest merged path. -/
theorem Separate.label_merge (h : c.Separate) (fst snd : List Path) (hp : c.label p = .ok l) :
    (c.merge fst snd).label p = .ok (l.cut c.nextClass (c.carried (fst ++ snd))
      (c.table.closest? (fst ++ snd) l.steps.length p)) := by
  obtain ⟨hascend, hrooted⟩ := label_eq_ok.1 hp
  have hold : ∀ q k, c.classOf q = some k → (c.merge fst snd).classOf q = some (c.carried (fst ++ snd) k) :=
    fun q k hq => by rw [h.classOf_merge, hq]
  have hnew : ∀ q, c.classOf q = none → (c.merge fst snd).classOf q = if q ∈ fst ++ snd then some c.nextClass else none :=
    fun q hq => by rw [h.classOf_merge, hq]
  obtain ⟨own, hown, _, rfl, hclimb⟩ := PathTable.climb_of_more hold hnew hascend
  rw [List.append_nil] at hown
  subst hown
  rw [List.append_nil] at hclimb
  refine label_eq_ok.2 ⟨hclimb, fun hnone => ?_⟩
  cases hclosest : c.table.closest? (fst ++ snd) l.steps.length p with
  | none =>
    rw [hclosest] at hnone
    exact hrooted (Option.map_eq_none_iff.1 hnone)
  | some j =>
    rw [hclosest] at hnone
    cases hnone

/-! ### Aliased nodes -/

theorem exists_mayAlias_iff : (∃ answer, c.mayAlias m n = .ok answer) ↔
    ∀ p, p ∈ c.table.pathsOf m ∨ p ∈ c.table.pathsOf n → ∃ l, c.label p = .ok l := by
  simp only [mayAlias, Outcome.bind_eq_ok]
  constructor
  · rintro ⟨_, left, hleft, right, hright, _⟩ p (hp | hp)
    · exact Outcome.exists_of_mapM hleft hp
    · exact Outcome.exists_of_mapM hright hp
  · intro h
    obtain ⟨left, hleft⟩ := Outcome.exists_mapM_eq_ok fun p hp => h p (.inl hp)
    obtain ⟨right, hright⟩ := Outcome.exists_mapM_eq_ok fun p hp => h p (.inr hp)
    exact ⟨_, left, hleft, right, hright, rfl⟩

theorem mayAlias_iff {answer : Bool} (h : c.mayAlias m n = .ok answer) : answer = true ↔
    ∃ p ∈ c.table.pathsOf m, ∃ q ∈ c.table.pathsOf n, ∃ l, c.label p = .ok l ∧ c.label q = .ok l := by
  simp only [mayAlias, Outcome.bind_eq_ok, Outcome.pure_eq_ok] at h
  obtain ⟨left, hleft, right, hright, rfl⟩ := h
  simp only [List.any_eq_true, decide_eq_true_eq]
  refine Outcome.exists_iff_of_mapM hleft fun p l hp => ?_
  have hmem : (∃ k ∈ right, k = l) ↔ ∃ q ∈ c.table.pathsOf n, c.label q = .ok l :=
    Outcome.exists_iff_of_mapM hright fun q k hq => by rw [hq, Except.ok.injEq]
  simp only [hp, Except.ok.injEq, exists_eq_left', ← hmem, exists_eq_right]

/-- A merge keeps the alias of two nodes if it cuts the labels of two paths that carry it at the same height, or cuts
neither. The question is answered after the merge whenever it was before. For each two paths of one label the condition
is exact: their labels agree after the merge only if it holds. -/
theorem mayAlias_kept (hc : Reached x t c) (fst snd : List Path) (hbefore : c.mayAlias m n = .ok true) :
    (∃ answer, (c.merge fst snd).mayAlias m n = .ok answer ∧
      ((∃ p ∈ t.pathsOf m, ∃ q ∈ t.pathsOf n, ∃ l, c.label p = .ok l ∧ c.label q = .ok l ∧
        t.closest? (fst ++ snd) l.steps.length p = t.closest? (fst ++ snd) l.steps.length q) → answer = true)) ∧
    ∀ p q l, c.label p = .ok l → c.label q = .ok l → ((c.merge fst snd).label p = (c.merge fst snd).label q ↔
      t.closest? (fst ++ snd) l.steps.length p = t.closest? (fst ++ snd) l.steps.length q) := by
  have hseparate := hc.separate
  obtain rfl := hc.table_eq
  have hpair : ∀ p q l, c.label p = .ok l → c.label q = .ok l → ((c.merge fst snd).label p = (c.merge fst snd).label q ↔
      c.table.closest? (fst ++ snd) l.steps.length p = c.table.closest? (fst ++ snd) l.steps.length q) := by
    intro p q l hp hq
    rw [hseparate.label_merge fst snd hp, hseparate.label_merge fst snd hq, Except.ok.injEq]
    exact Label.cut_eq_cut_iff (fun _ => PathTable.closest?_lt) (fun _ => PathTable.closest?_lt)
  refine ⟨?_, hpair⟩
  obtain ⟨answer, hafter⟩ : ∃ answer, (c.merge fst snd).mayAlias m n = .ok answer := by
    refine exists_mayAlias_iff.2 fun p hp => ?_
    obtain ⟨l, hl⟩ := exists_mayAlias_iff.1 ⟨true, hbefore⟩ p hp
    exact ⟨_, hseparate.label_merge fst snd hl⟩
  refine ⟨answer, hafter, ?_⟩
  rintro ⟨p, hp, q, hq, l, hpl, hql, heven⟩
  have hlabel := hseparate.label_merge fst snd hpl
  exact (mayAlias_iff hafter).2 ⟨p, hp, q, hq, _, hlabel, (hpair p q l hpl hql).2 heven ▸ hlabel⟩

/-- Three nodes, and one field of the first two, which are the paths of these nodes. -/
def twinPaths : PathTable :=
  let roots := (((PathTable.empty.root ⟨0⟩ none).1.root ⟨1⟩ none).1.root ⟨2⟩ none).1
  let fields := ((roots.field ⟨0⟩ ⟨7⟩ none).1.field ⟨1⟩ ⟨7⟩ none).1
  (fields.attach ⟨0⟩ ⟨3⟩).attach ⟨1⟩ ⟨4⟩

/-- With the first two nodes merged, their fields are aliased, and merging these fields and the third node cuts both
labels at the fields. -/
theorem mayAlias_kept_twinPaths : ∃ c, Reached ⟨0⟩ twinPaths c ∧ c.mayAlias ⟨0⟩ ⟨1⟩ = .ok true ∧
    (c.merge [⟨3⟩, ⟨4⟩] [⟨2⟩]).mayAlias ⟨0⟩ ⟨1⟩ = .ok true := by
  have hc := (Reached.start (x := ⟨0⟩) (t := twinPaths)).merge [⟨0⟩] [⟨1⟩]
  obtain ⟨⟨answer, hanswer, hkept⟩, _⟩ := mayAlias_kept (m := ⟨0⟩) (n := ⟨1⟩) hc [⟨3⟩, ⟨4⟩] [⟨2⟩] rfl
  obtain rfl := hkept ⟨⟨3⟩, by decide, ⟨4⟩, by decide, ⟨some ⟨0⟩, [.field ⟨7⟩]⟩, rfl, rfl, rfl⟩
  exact ⟨_, hc, rfl, hanswer⟩

/-- Merging only one of the fields with the third node loses the alias, though all merged paths are in the table. -/
theorem mayAlias_lost_twinPaths : ∃ c, Reached ⟨0⟩ twinPaths c ∧ (∀ p ∈ [⟨3⟩] ++ [⟨2⟩], p ∈ twinPaths.paths.ids) ∧
    c.mayAlias ⟨0⟩ ⟨1⟩ = .ok true ∧ (c.merge [⟨3⟩] [⟨2⟩]).mayAlias ⟨0⟩ ⟨1⟩ = .ok false :=
  ⟨_, Reached.start.merge [⟨0⟩] [⟨1⟩], by decide, rfl, rfl⟩

end AliasContext

end HeapSummary
