import HeapSummary.Proofs.Absorption
import Mathlib.Data.Set.Card
import Mathlib.Order.Lattice.Nat

/-!
# Layers are distances

The distance of a candidate is the least number of edges that lead to it from a root. Layers are taken with no edge at
hand: a layer is what the objects held so far lead to, and on the last level the objects are not brought up to date any
more. All the same, the layer after the candidates within distance `n` is made of those at distance `n + 1`
(`mem_layer_iff`), since a candidate is at that distance if one of the former leads to it and none of them is it. Taking
layers thus takes all candidates up to the largest distance at which they are not too many, and the border is made of
those furthest away among them.
-/

namespace HeapSummary

theorem IdSet.ncard_eq {k : Kind} {s : IdSet k} {S : Set (Id k)} (h : ∀ x, x ∈ S ↔ x ∈ s) : S.ncard = s.size := by
  have hS : S = ↑s.toList.toFinset := by
    ext x
    rw [h, Finset.mem_coe, List.mem_toFinset, IdSet.mem_toList]
  rw [hS, Set.ncard_coe_finset, List.toFinset_card_of_nodup s.toList_nodup, IdSet.length_toList]

namespace CandidateGraph

variable {g : CandidateGraph} {c : Candidate} {n : Nat}

/-- `n` edges lead from a root to `c`. -/
inductive Walk (g : CandidateGraph) : Nat → Candidate → Prop
  | root {c : Candidate} (h : c ∈ g.roots) : Walk g 0 c
  | step {n : Nat} {c d : Candidate} (h : Walk g n c) (hd : d ∈ g.succsOf c) : Walk g (n + 1) d

/-- No fewer than `n` edges lead from a root to `c`, and `n` edges do. -/
def AtDistance (g : CandidateGraph) (n : Nat) (c : Candidate) : Prop := IsLeast {k | g.Walk k c} n

theorem Walk.exists_atDistance (h : g.Walk n c) : ∃ k ≤ n, g.AtDistance k c :=
  ⟨sInf {k | g.Walk k c}, Nat.sInf_le h, Nat.sInf_mem ⟨n, h⟩, fun _ hk => Nat.sInf_le hk⟩

end CandidateGraph

namespace Bounding

variable {b : Bounding} {c : Candidate} {f : Frontier} {R : PointsTo} {n k max depth : Nat}

/-- The candidates of the interface at one distance. -/
def atDistance (b : Bounding) (n : Nat) : Set Candidate := {c | c ∈ b.interface ∧ b.graph.AtDistance n c}

/-- The candidates of the interface up to a distance. -/
def within (b : Bounding) (n : Nat) : Set Candidate := {c | c ∈ b.interface ∧ ∃ k ≤ n, b.graph.AtDistance k c}

/-- The candidates furthest away among those up to a distance. -/
def border (b : Bounding) (n : Nat) : Set Candidate :=
  {c | c ∈ b.within n ∧ ∃ k, b.graph.AtDistance k c ∧ ∀ d ∈ b.within n, ∀ j, b.graph.AtDistance j d → j ≤ k}

/-! ### Distances -/

theorem mem_within_iff : c ∈ b.within n ↔ c ∈ b.interface ∧ ∃ k ≤ n, b.graph.Walk k c := by
  refine and_congr_right fun _ => ⟨?_, ?_⟩
  · rintro ⟨k, hk, hdist⟩
    exact ⟨k, hk, hdist.1⟩
  · rintro ⟨k, hk, hwalk⟩
    obtain ⟨j, hj, hdist⟩ := hwalk.exists_atDistance
    exact ⟨j, Nat.le_trans hj hk, hdist⟩

theorem within_mono (h : n ≤ k) : b.within n ⊆ b.within k := by
  rintro c ⟨hc, j, hj, hdist⟩
  exact ⟨hc, j, Nat.le_trans hj h, hdist⟩

theorem finite_within (b : Bounding) (n : Nat) : (b.within n).Finite :=
  b.interface.toList.finite_toSet.subset fun _ hc => IdSet.mem_toList.2 hc.1

theorem within_succ (b : Bounding) (n : Nat) : b.within (n + 1) = b.within n ∪ b.atDistance (n + 1) := by
  ext c
  constructor
  · rintro ⟨hc, k, hk, hdist⟩
    rcases Nat.lt_or_eq_of_le hk with hlt | rfl
    · exact .inl ⟨hc, k, Nat.le_of_lt_succ hlt, hdist⟩
    · exact .inr ⟨hc, hdist⟩
  · rintro (hc | ⟨hc, hdist⟩)
    · exact within_mono (Nat.le_succ n) hc
    · exact ⟨hc, n + 1, Nat.le_refl _, hdist⟩

theorem atDistance_of_walk (hc : c ∈ b.interface) (hout : c ∉ b.within n) (hk : k ≤ n + 1) (hwalk : b.graph.Walk k c) :
    c ∈ b.atDistance (n + 1) := by
  have hfar : ∀ j, b.graph.Walk j c → n + 1 ≤ j := by
    intro j hj
    by_contra hlt
    exact hout (mem_within_iff.2 ⟨hc, j, by omega, hj⟩)
  obtain rfl : k = n + 1 := Nat.le_antisymm hk (hfar k hwalk)
  exact ⟨hc, hwalk, hfar⟩

theorem not_mem_within_of_atDistance (hc : c ∈ b.atDistance (n + 1)) : c ∉ b.within n := by
  rintro ⟨_, k, hk, hdist⟩
  have heq : k = n + 1 := hdist.unique hc.2
  omega

theorem mem_within_of_walk (hb : b.Exact) (hnone : ∀ c, c ∉ b.atDistance (n + 1)) (hc : c ∈ b.interface)
    (hwalk : b.graph.Walk k c) : c ∈ b.within n := by
  induction hwalk with
  | root hroot => exact absurd hroot (hb.not_mem_roots_of_interface hc)
  | @step _ a d _ hd ih =>
    obtain ⟨j, hj, hwalk⟩ : ∃ j ≤ n, b.graph.Walk j a := by
      rcases (hb.nodes a).1 ((hb.edges a d).1 hd).1 with hroot | ha
      · exact ⟨0, Nat.zero_le n, .root hroot⟩
      · exact (mem_within_iff.1 (ih ha)).2
    by_contra hout
    exact hnone d (atDistance_of_walk hc hout (Nat.succ_le_succ hj) (hwalk.step hd))

theorem within_eq_of_none (hb : b.Exact) (hnone : ∀ c, c ∉ b.atDistance (n + 1)) (h : n ≤ k) :
    b.within k = b.within n := by
  refine Set.Subset.antisymm (fun c hc => ?_) (within_mono h)
  obtain ⟨hmem, j, _, hwalk⟩ := mem_within_iff.1 hc
  exact mem_within_of_walk hb hnone hmem hwalk

theorem mem_border_iff (hwithin : b.within k = b.within n) (hsome : ∃ a, a ∈ b.atDistance n) :
    c ∈ b.border k ↔ c ∈ b.atDistance n := by
  obtain ⟨a, ha⟩ := hsome
  have hlast : ∀ d ∈ b.within k, ∀ j, b.graph.AtDistance j d → j ≤ n := by
    intro d hd j hj
    rw [hwithin] at hd
    obtain ⟨_, i, hi, hdist⟩ := hd
    exact hj.unique hdist ▸ hi
  constructor
  · rintro ⟨hc, j, hj, hmost⟩
    have hle : j ≤ n := hlast c hc j hj
    have hge : n ≤ j := hmost a (hwithin ▸ ⟨ha.1, n, Nat.le_refl n, ha.2⟩) n ha.2
    exact ⟨hc.1, Nat.le_antisymm hle hge ▸ hj⟩
  · rintro ⟨hc, hdist⟩
    exact ⟨hwithin ▸ ⟨hc, n, Nat.le_refl n, hdist⟩, n, hdist, hlast⟩

theorem ncard_atDistance_one (hb : b.Exact) :
    (b.atDistance 1).ncard = (IdSet.unionMap b.graph.roots b.graph.succsOf).size := by
  refine IdSet.ncard_eq fun c => ?_
  rw [IdSet.mem_unionMap]
  constructor
  · rintro ⟨_, hwalk, _⟩
    cases hwalk with
    | step hwalk hd =>
      cases hwalk with
      | root hr => exact ⟨_, hr, hd⟩
  · rintro ⟨r, hr, hd⟩
    have hc := hb.target_mem_interface hd
    have hwalk : b.graph.Walk 1 c := .step (.root hr) hd
    refine ⟨hc, hwalk, fun k hk => Nat.one_le_iff_ne_zero.2 ?_⟩
    rintro rfl
    cases hk with
    | root hroot => exact hb.not_mem_roots_of_interface hc hroot

/-! ### One layer -/

/-- After the candidates within a distance, the next layer is made of those at the next distance. -/
theorem mem_layer_iff (hb : b.Exact) (hR : b.graph.rootsPts b.store = .ok R) (hlayered : f.Layered max b.interface)
    (hholds : f.Holds b.store R) (htaken : ∀ c, c ∈ f.taken ↔ c ∈ b.within n) :
    c ∈ f.layer b.store ↔ c ∈ b.atDistance (n + 1) := by
  constructor
  · intro hc
    obtain ⟨hremaining, o, hbase, ho⟩ := Frontier.mem_layer.1 hc
    obtain ⟨hc, hout⟩ := (hlayered.remaining c).1 hremaining
    rw [htaken] at hout
    obtain ⟨a, j, hj, hwalk, hobject⟩ : ∃ a j, j ≤ n ∧ b.graph.Walk j a ∧ o ∈ b.store.objectsOf a := by
      rcases (hholds o).1 ho with ho | ⟨a, ha, ho⟩
      · obtain ⟨r, hr, ho⟩ := (mem_rootsPts hR).1 ho
        exact ⟨r, 0, Nat.zero_le n, .root hr, ho⟩
      · obtain ⟨hmem, j, hj, hwalk⟩ := mem_within_iff.1 ((htaken a).1 ha)
        obtain ⟨l, hl⟩ := hb.fields a hmem
        exact ⟨a, j, hj, hwalk, Store.ptsOf_of_field hl ▸ ho⟩
    have hnode : a ∈ b.graph.nodes := by
      cases hwalk with
      | root hroot => exact (hb.nodes a).2 (.inl hroot)
      | step _ hd => exact ((hb.edges _ a).1 hd).2.1
    have hedge : c ∈ b.graph.succsOf a :=
      (hb.edges a c).2 ⟨hnode, (hb.nodes c).2 (.inr hc), Store.leads_iff.2 ⟨o, hbase, hobject⟩⟩
    exact atDistance_of_walk hc hout (Nat.succ_le_succ hj) (hwalk.step hedge)
  · intro hdist
    have hout : c ∉ f.taken := fun hc => not_mem_within_of_atDistance hdist ((htaken c).1 hc)
    obtain ⟨hc, hwalk, _⟩ := hdist
    by_contra hlayer
    obtain ⟨hroots, hothers⟩ := hlayered.not_based hholds hc hout hlayer
    cases hwalk with
    | @step _ a _ hwalk hd =>
      rcases (hb.nodes a).1 ((hb.edges a c).1 hd).1 with hroot | ha
      · exact hroots (based_of_root hb hR hroot hd)
      · have hin : a ∈ f.taken := (htaken a).2 (mem_within_iff.2 ⟨ha, n, Nat.le_refl n, hwalk⟩)
        exact hothers a hin (based_of_interface hb ha hd)

/-! ### All layers -/

/-- The candidates within distance `n` are taken, and those at this distance are the border. -/
structure Frontier.Level (b : Bounding) (max n : Nat) (f : Frontier) : Prop extends f.Layered max b.interface where
  fits : f.oversized = false
  within : ∀ c, c ∈ f.taken ↔ c ∈ b.within n
  last : ∀ c, c ∈ f.border ↔ c ∈ b.atDistance n
  occurs : ∃ c, c ∈ b.atDistance n

theorem Frontier.Level.ncard_le (h : f.Level b max n) : (b.within n).ncard ≤ max :=
  IdSet.ncard_eq (fun c => (h.within c).symm) ▸ h.size

theorem exists_takeLayers_succ (hlayered : f.Layered max b.interface) (hholds : f.Holds b.store R)
    (htaken : ∀ c, c ∈ f.taken ↔ c ∈ b.within n) (hlayer : ∀ c, c ∈ f.layer b.store ↔ c ∈ b.atDistance (n + 1))
    (hsome : ∃ c, c ∈ f.layer b.store) (hfits : f.taken.size + (f.layer b.store).size ≤ max) :
    ∃ f', takeLayers b.store max (depth + 1) f = takeLayers b.store max depth f' ∧
      f'.Level b max (n + 1) ∧ (depth ≠ 0 → f'.Holds b.store R) := by
  have hlarge : ¬ (f.taken.isEmpty && decide (max < (f.layer b.store).size)) = true := by
    rw [Bool.and_eq_true_iff, decide_eq_true_eq]
    omega
  rw [takeLayers_succ, IdSet.isEmpty_eq_false_iff.2 hsome, if_neg Bool.false_ne_true, if_neg hlarge,
    if_neg (Nat.not_lt.2 hfits)]
  refine ⟨_, rfl, ⟨hlayered.advance hfits _, rfl, fun c => ?_, fun c => ?_, ?_⟩, fun hdepth => ?_⟩
  · rw [within_succ]
    exact IdSet.mem_union.trans (or_congr (htaken c) (hlayer c))
  · exact IdSet.mem_toList.trans (hlayer c)
  · obtain ⟨c, hc⟩ := hsome
    exact ⟨c, (hlayer c).1 hc⟩
  · rw [if_neg hdepth]
    exact hholds.advance

theorem takeLayers_level (hb : b.Exact) (hR : b.graph.rootsPts b.store = .ok R) (h : f.Level b max n)
    (hholds : depth ≠ 0 → f.Holds b.store R) : ∃ k, (takeLayers b.store max depth f).Level b max k ∧
      ∃ d, b.within d = b.within k ∧ IsGreatest {j | j ≤ n + depth ∧ (b.within j).ncard ≤ max} d := by
  induction depth generalizing f n with
  | zero => exact ⟨n, h, n, rfl, ⟨Nat.le_refl n, h.ncard_le⟩, fun j hj => hj.1⟩
  | succ depth ih =>
    have hholds := hholds (Nat.succ_ne_zero depth)
    have hlayer : ∀ c, c ∈ f.layer b.store ↔ c ∈ b.atDistance (n + 1) := fun c =>
      mem_layer_iff hb hR h.toLayered hholds h.within
    by_cases hempty : (f.layer b.store).isEmpty = true
    · -- all candidates that edges lead to are taken, however far one looks
      rw [takeLayers_succ, if_pos hempty]
      have hnone : ∀ c, c ∉ b.atDistance (n + 1) := fun c hc =>
        IdSet.not_mem_empty (IdSet.isEmpty_iff.1 hempty ▸ (hlayer c).2 hc)
      have heq := within_eq_of_none hb hnone (Nat.le_add_right n (depth + 1))
      exact ⟨n, h, n + (depth + 1), heq, ⟨Nat.le_refl _, heq ▸ h.ncard_le⟩, fun j hj => hj.1⟩
    by_cases hfull : max < f.taken.size + (f.layer b.store).size
    · have htaken : f.taken.isEmpty = false := by
        obtain ⟨c, hc⟩ := h.occurs
        exact IdSet.isEmpty_eq_false_iff.2 ⟨c, (h.within c).2 ⟨hc.1, n, Nat.le_refl n, hc.2⟩⟩
      rw [takeLayers_succ, if_neg hempty, htaken, Bool.false_and, if_neg Bool.false_ne_true, if_pos hfull]
      have hcard : (b.within (n + 1)).ncard = f.taken.size + (f.layer b.store).size := by
        rw [← h.size_advance, within_succ]
        exact IdSet.ncard_eq fun c => (IdSet.mem_union.trans (or_congr (h.within c) (hlayer c))).symm
      refine ⟨n, h, n, rfl, ⟨Nat.le_add_right n _, h.ncard_le⟩, fun j hj => ?_⟩
      by_contra hlt
      have hmono : (b.within (n + 1)).ncard ≤ (b.within j).ncard :=
        Set.ncard_le_ncard (within_mono (Nat.lt_of_not_le hlt)) (finite_within b j)
      have hle : (b.within j).ncard ≤ max := hj.2
      omega
    · have hsome : ∃ c, c ∈ f.layer b.store := IdSet.isEmpty_eq_false_iff.1 (Bool.not_eq_true _ ▸ hempty)
      obtain ⟨f', hrun, hlevel, hnext⟩ :=
        exists_takeLayers_succ h.toLayered hholds h.within hlayer hsome (Nat.not_lt.1 hfull)
      have hdepth : n + 1 + depth = n + (depth + 1) := by omega
      rw [hrun, ← hdepth]
      exact ih hlevel hnext

/-- If there are candidates at distance 1, but not too many, taking layers takes all candidates up to the largest
distance within which they are not too many. -/
theorem takeLayers_within (hb : b.Exact) (hR : b.graph.rootsPts b.store = .ok R) (hdepth : 1 ≤ depth)
    (hsome : 0 < (b.atDistance 1).ncard) (hmax : (b.atDistance 1).ncard ≤ max) :
    (takeLayers b.store max depth (.initial R b.interface)).Layered max b.interface ∧
      (takeLayers b.store max depth (.initial R b.interface)).oversized = false ∧
      ∃ d, IsGreatest {k | k ≤ depth ∧ (b.within k).ncard ≤ max} d ∧
        (∀ c, c ∈ (takeLayers b.store max depth (.initial R b.interface)).taken ↔ c ∈ b.within d) ∧
        ∀ c, c ∈ (takeLayers b.store max depth (.initial R b.interface)).border ↔ c ∈ b.border d := by
  obtain ⟨depth, rfl⟩ : ∃ k, depth = k + 1 := ⟨depth - 1, by omega⟩
  have htaken : ∀ c, c ∈ (Frontier.initial R b.interface).taken ↔ c ∈ b.within 0 := by
    refine fun c => ⟨fun hc => absurd hc IdSet.not_mem_empty, fun hc => ?_⟩
    obtain ⟨hc, k, hk, hwalk⟩ := mem_within_iff.1 hc
    obtain rfl : k = 0 := Nat.le_zero.1 hk
    cases hwalk with
    | root hroot => exact absurd hroot (hb.not_mem_roots_of_interface hc)
  have hlayered : (Frontier.initial R b.interface).Layered max b.interface := Frontier.layered_initial
  have hlayer : ∀ c, c ∈ (Frontier.initial R b.interface).layer b.store ↔ c ∈ b.atDistance 1 := fun c =>
    mem_layer_iff hb hR hlayered Frontier.holds_initial htaken
  have hfirst : ∃ c, c ∈ (Frontier.initial R b.interface).layer b.store := by
    obtain ⟨c, hc⟩ := Set.nonempty_of_ncard_ne_zero (Nat.ne_of_gt hsome)
    exact ⟨c, (hlayer c).2 hc⟩
  have hfits : 0 + ((Frontier.initial R b.interface).layer b.store).size ≤ max := by
    rwa [Nat.zero_add, ← IdSet.ncard_eq fun c => (hlayer c).symm]
  obtain ⟨f, hrun, hlevel, hholds⟩ :=
    exists_takeLayers_succ hlayered Frontier.holds_initial htaken hlayer hfirst hfits
  obtain ⟨k, hk, d, hwithin, hgreatest⟩ := takeLayers_level hb hR hlevel hholds
  rw [Nat.zero_add, Nat.add_comm 1 depth] at hgreatest
  rw [hrun]
  refine ⟨hk.toLayered, hk.fits, d, hgreatest, fun c => hwithin ▸ hk.within c, fun c => ?_⟩
  exact (hk.last c).trans (mem_border_iff hwithin hk.occurs).symm

end Bounding

end HeapSummary
