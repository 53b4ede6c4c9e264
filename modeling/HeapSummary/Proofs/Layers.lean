import HeapSummary.Bounding.Depth
import HeapSummary.Proofs.Store

/-!
# Layers

Taking layers ends in one of two ways. If the first layer is too large, it becomes the border as it is. Otherwise what
is taken is within the limit, and, once a layer has been asked for, it is sealed: of all objects that roots and taken
candidates hold, only those of the border are bases of candidates that were not taken.
-/

namespace HeapSummary.Bounding

variable {s : Store} {max depth : Nat} {R : PointsTo} {I : IdSet .candidate} {f : Frontier} {c : Candidate}

/-- One dereference of the objects leads to `c`. -/
def Based (s : Store) (objects : PointsTo) (c : Candidate) : Prop := ∃ o, o ∈ s.basesOf c ∧ o ∈ objects

/-- Only the border leads from roots and taken candidates to others of the interface. -/
def Frontier.Sealed (s : Store) (R : PointsTo) (I : IdSet .candidate) (f : Frontier) : Prop :=
  ∀ d ∈ I, d ∉ f.taken → ¬ Based s R d ∧ ∀ c ∈ f.taken, Based s (s.ptsOf c) d → c ∈ f.border

/-- Some layers of an interface are taken. -/
structure Frontier.Layered (max : Nat) (I : IdSet .candidate) (f : Frontier) : Prop where
  remaining : ∀ c, c ∈ f.remaining ↔ c ∈ I ∧ c ∉ f.taken
  taken : ∀ c ∈ f.taken, c ∈ I
  border : ∀ c ∈ f.border, c ∈ f.taken
  nodup : f.border.Nodup
  size : f.taken.size ≤ max

/-- The next layer is made of the candidates left that objects held so far lead to. -/
def Frontier.layer (s : Store) (f : Frontier) : IdSet .candidate :=
  f.remaining.filter fun c => (s.basesOf c).intersects f.objects

theorem Frontier.mem_layer : c ∈ f.layer s ↔ c ∈ f.remaining ∧ Based s f.objects c := by
  unfold Frontier.layer Based
  rw [IdSet.mem_filter, IdSet.intersects_iff]

/-- The frontier with the next layer taken. -/
def Frontier.advance (s : Store) (f : Frontier) (objects : PointsTo) : Frontier where
  objects := objects
  remaining := f.remaining \ f.layer s
  taken := f.taken ∪ f.layer s
  border := (f.layer s).toList
  oversized := false

theorem takeLayers_succ : takeLayers s max (depth + 1) f =
    if (f.layer s).isEmpty then f
    else if f.taken.isEmpty && max < (f.layer s).size then
      { f with taken := f.layer s, border := (f.layer s).toList, oversized := true }
    else if max < f.taken.size + (f.layer s).size then f
    else takeLayers s max depth (f.advance s
      (if depth = 0 then f.objects else f.objects ∪ IdSet.unionMap (f.layer s).toList s.ptsOf)) := rfl

/-- The objects at hand are those that roots and taken candidates hold. -/
def Frontier.Holds (s : Store) (R : PointsTo) (f : Frontier) : Prop :=
  ∀ o, o ∈ f.objects ↔ o ∈ R ∨ ∃ c ∈ f.taken, o ∈ s.ptsOf c

/-! ### One layer -/

theorem Frontier.Layered.size_advance (h : f.Layered max I) :
    (f.taken ∪ f.layer s).size = f.taken.size + (f.layer s).size :=
  IdSet.size_eq_add (fun _ => IdSet.mem_union) fun c hc hl => ((h.remaining c).1 (Frontier.mem_layer.1 hl).1).2 hc

theorem Frontier.Layered.advance (h : f.Layered max I) (hsize : f.taken.size + (f.layer s).size ≤ max)
    (objects : PointsTo) : (f.advance s objects).Layered max I := by
  refine ⟨fun c => ?_, fun c hc => ?_, fun c hc => ?_, IdSet.toList_nodup _, ?_⟩
  · show c ∈ f.remaining \ f.layer s ↔ c ∈ I ∧ c ∉ f.taken ∪ f.layer s
    rw [IdSet.mem_diff, IdSet.mem_union, h.remaining, not_or, and_assoc]
  · rcases IdSet.mem_union.1 hc with hc | hc
    · exact h.taken c hc
    · exact ((h.remaining c).1 (Frontier.mem_layer.1 hc).1).1
  · exact IdSet.mem_union.2 (.inr (IdSet.mem_toList.1 hc))
  · exact Nat.le_trans (Nat.le_of_eq h.size_advance) hsize

theorem Frontier.Holds.advance (h : f.Holds s R) :
    (f.advance s (f.objects ∪ IdSet.unionMap (f.layer s).toList s.ptsOf)).Holds s R := by
  intro o
  show o ∈ f.objects ∪ IdSet.unionMap (f.layer s).toList s.ptsOf ↔ o ∈ R ∨ ∃ c ∈ f.taken ∪ f.layer s, o ∈ s.ptsOf c
  simp only [IdSet.mem_union, IdSet.mem_unionMap, IdSet.mem_toList, h o, or_and_right, exists_or, or_assoc]

theorem Frontier.Layered.not_based (h : f.Layered max I) (hholds : f.Holds s R) (hc : c ∈ I) (hout : c ∉ f.taken)
    (hlayer : c ∉ f.layer s) : ¬ Based s R c ∧ ∀ a ∈ f.taken, ¬ Based s (s.ptsOf a) c := by
  have hbased : ¬ Based s f.objects c := fun hbased =>
    hlayer (Frontier.mem_layer.2 ⟨(h.remaining c).2 ⟨hc, hout⟩, hbased⟩)
  refine ⟨fun ⟨o, hbase, ho⟩ => hbased ⟨o, hbase, ?_⟩, fun a ha ⟨o, hbase, ho⟩ => hbased ⟨o, hbase, ?_⟩⟩
  · exact (hholds o).2 (.inl ho)
  · exact (hholds o).2 (.inr ⟨a, ha, ho⟩)

theorem Frontier.Layered.sealed_advance (h : f.Layered max I) (hholds : f.Holds s R) (objects : PointsTo) :
    (f.advance s objects).Sealed s R I := by
  intro d hd hout
  have hleft : d ∉ f.taken ∧ d ∉ f.layer s := not_or.1 fun h => hout (IdSet.mem_union.2 h)
  obtain ⟨hroots, htaken⟩ := h.not_based hholds hd hleft.1 hleft.2
  refine ⟨hroots, fun c hc hlead => ?_⟩
  rcases IdSet.mem_union.1 hc with hc | hc
  · exact absurd hlead (htaken c hc)
  · exact IdSet.mem_toList.2 hc

theorem Frontier.Layered.sealed_of_isEmpty (h : f.Layered max I) (hholds : f.Holds s R)
    (hempty : (f.layer s).isEmpty = true) : f.Sealed s R I := by
  intro d hd hout
  have hlayer : d ∉ f.layer s := IdSet.isEmpty_iff.1 hempty ▸ IdSet.not_mem_empty
  obtain ⟨hroots, htaken⟩ := h.not_based hholds hd hout hlayer
  exact ⟨hroots, fun c hc hlead => absurd hlead (htaken c hc)⟩

/-! ### All layers -/

/-- The frontier before any layer is taken. -/
def Frontier.initial (R : PointsTo) (I : IdSet .candidate) : Frontier := ⟨R, I, ∅, [], false⟩

theorem Frontier.layered_initial : (Frontier.initial R I).Layered max I :=
  ⟨fun c => by simp [Frontier.initial], fun c hc => absurd hc IdSet.not_mem_empty,
    fun c hc => absurd hc List.not_mem_nil, List.nodup_nil, Nat.zero_le max⟩

theorem Frontier.holds_initial : (Frontier.initial R I).Holds s R := fun o => by simp [Frontier.initial]

/-- The first layer alone is more than may be taken, and it is the border. -/
def Frontier.Collapsed (s : Store) (R : PointsTo) (I : IdSet .candidate) (f : Frontier) : Prop :=
  f.oversized = true ∧ ∀ c, c ∈ f.border ↔ c ∈ I ∧ Based s R c

theorem takeLayers_cases (h : f.Layered max I) (hover : f.oversized = false) (hholds : depth ≠ 0 → f.Holds s R)
    (hsealed : f.taken ≠ ∅ → f.Sealed s R I) :
    (takeLayers s max depth f).Collapsed s R I ∨
      (takeLayers s max depth f).oversized = false ∧ (takeLayers s max depth f).Layered max I ∧
        (depth ≠ 0 ∨ f.taken ≠ ∅ → (takeLayers s max depth f).Sealed s R I) := by
  induction depth generalizing f with
  | zero => exact .inr ⟨hover, h, fun hs => hsealed (hs.resolve_left fun hne => hne rfl)⟩
  | succ depth ih =>
    have hholds := hholds (Nat.succ_ne_zero depth)
    rw [takeLayers_succ]
    by_cases hempty : (f.layer s).isEmpty = true
    · rw [if_pos hempty]
      exact .inr ⟨hover, h, fun _ => h.sealed_of_isEmpty hholds hempty⟩
    rw [if_neg hempty]
    by_cases hlarge : (f.taken.isEmpty && max < (f.layer s).size) = true
    · rw [if_pos hlarge]
      have htaken : f.taken = ∅ := IdSet.isEmpty_iff.1 (Bool.and_eq_true_iff.1 hlarge).1
      refine .inl ⟨rfl, fun c => ?_⟩
      -- nothing is taken yet, so all candidates remain and the objects are those of the roots
      have hobjects : f.objects = R := IdSet.ext fun o => by rw [hholds, htaken]; simp
      rw [IdSet.mem_toList, Frontier.mem_layer, h.remaining, htaken, hobjects]
      simp
    rw [if_neg hlarge]
    by_cases hfull : max < f.taken.size + (f.layer s).size
    · rw [if_pos hfull]
      refine .inr ⟨hover, h, fun _ => hsealed fun htaken => hlarge ?_⟩
      rw [htaken] at hfull ⊢
      have hzero : (∅ : IdSet .candidate).size = 0 := rfl
      rw [hzero, Nat.zero_add] at hfull
      simp [IdSet.isEmpty_iff.2, hfull]
    · rw [if_neg hfull]
      generalize hobjects : (if depth = 0 then f.objects
        else f.objects ∪ IdSet.unionMap (f.layer s).toList s.ptsOf) = objects
      have hholds' : depth ≠ 0 → (f.advance s objects).Holds s R := by
        intro hdepth
        rw [← hobjects, if_neg hdepth]
        exact hholds.advance
      have htaken : f.taken ∪ f.layer s ≠ ∅ := by
        obtain ⟨c, hc⟩ := IdSet.isEmpty_eq_false_iff.1 (Bool.not_eq_true _ ▸ hempty)
        exact fun hnone => IdSet.not_mem_empty (hnone ▸ IdSet.mem_union.2 (.inr hc))
      have hnext := ih (h.advance (Nat.not_lt.1 hfull) objects) rfl hholds' fun _ => h.sealed_advance hholds objects
      exact hnext.imp_right fun hnext => ⟨hnext.1, hnext.2.1, fun _ => hnext.2.2 (.inr htaken)⟩

/-- From nothing taken, either the first layer is too large and is the border, or what is taken is within the limit and
sealed. -/
theorem takeLayers_initial (s : Store) (max depth : Nat) (R : PointsTo) (I : IdSet .candidate) :
    (takeLayers s max depth (.initial R I)).Collapsed s R I ∨
      (takeLayers s max depth (.initial R I)).oversized = false ∧
        (takeLayers s max depth (.initial R I)).Layered max I ∧
        (depth ≠ 0 → (takeLayers s max depth (.initial R I)).Sealed s R I) := by
  have hnext := @takeLayers_cases s max depth R I _ Frontier.layered_initial rfl (fun _ => Frontier.holds_initial)
    fun hne => absurd rfl hne
  exact hnext.imp_right fun hnext => ⟨hnext.1, hnext.2.1, fun hdepth => hnext.2.2 (.inl hdepth)⟩

theorem mem_of_mem_border (h : c ∈ (takeLayers s max depth (.initial R I)).border) : c ∈ I := by
  obtain ⟨_, hborder⟩ | ⟨_, hlayered, _⟩ := takeLayers_initial s max depth R I
  · exact ((hborder c).1 h).1
  · exact hlayered.taken c (hlayered.border c h)

end HeapSummary.Bounding
