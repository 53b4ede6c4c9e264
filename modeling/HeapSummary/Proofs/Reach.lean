import HeapSummary.Propagation.Reach
import Mathlib.Logic.Relation

/-!
# Laws of what a procedure reaches

All that a procedure's reach ever does is take candidates that it touches, one after another (`Takes`). What one such step
keeps, saturation keeps: `Tracks` ties the three parts of a reach together, and it holds whatever is taken. Saturation
ends when a round reaches nothing new. Such a round has changed nothing at all, so nothing that the procedure draws on is
left to take (`settled_saturate`).
-/

namespace HeapSummary.Reach

variable {s : Store} {S : Candidate → Prop} {r r' : Reach} {c : Candidate} {incoming : List (IdSet .candidate)}

/-! ### Taking -/

/-- One step: a touched candidate of `S` is taken. -/
def Takes (s : Store) (S : Candidate → Prop) (r r' : Reach) : Prop :=
  ∃ c, S c ∧ r.touches s c = true ∧ r' = r.take s c

theorem touches_iff : r.touches s c = true ↔ ∃ o ∈ s.basesOf c, o ∈ r.objects := IdSet.intersects_iff

theorem touches_take (d : Candidate) (h : r.touches s c = true) : (r.take s d).touches s c = true := by
  obtain ⟨o, hbase, ho⟩ := touches_iff.1 h
  exact touches_iff.2 ⟨o, hbase, IdSet.mem_union.2 (.inl ho)⟩

theorem takes_foldl_take {cs : List Candidate} (h : ∀ c ∈ cs, S c ∧ r.touches s c = true) :
    Relation.ReflTransGen (Takes s S) r (cs.foldl (take s) r) := by
  induction cs generalizing r with
  | nil => exact .refl
  | cons c cs ih =>
    have hstep : Takes s S r (r.take s c) := ⟨c, (h c List.mem_cons_self).1, (h c List.mem_cons_self).2, rfl⟩
    refine .head hstep (ih fun d hd => ?_)
    exact ⟨(h d (List.mem_cons_of_mem c hd)).1, touches_take c (h d (List.mem_cons_of_mem c hd)).2⟩

theorem takes_settleLocals (h : ∀ c ∈ r.pending, S c) :
    Relation.ReflTransGen (Takes s S) r (r.settleLocals s) := by
  fun_induction settleLocals s r with
  | case1 r _ _ => exact .refl
  | case2 r added _ ih =>
    have hadded : ∀ c ∈ added, S c ∧ r.touches s c = true := by
      intro c hc
      obtain ⟨hpending, htouch⟩ := List.mem_filter.1 hc
      exact ⟨h c (IdSet.mem_toList.1 hpending), htouch⟩
    exact (takes_foldl_take hadded).trans (ih fun c hc => h c (mem_pending_foldl_take.1 hc).1)

theorem takes_consider (h : S c) : Relation.ReflTransGen (Takes s S) r (r.consider s c) := by
  unfold consider
  split
  · rename_i htake
    exact .single ⟨c, h, htake.2, rfl⟩
  · exact .refl

theorem takes_pull {cs : IdSet .candidate} (h : ∀ c ∈ cs, S c) :
    Relation.ReflTransGen (Takes s S) r (r.pull s cs) :=
  List.foldlRecOn cs.toList _ .refl fun _ hrun c hc => hrun.trans (takes_consider (h c (IdSet.mem_toList.1 hc)))

theorem takes_round (hlocal : ∀ c ∈ r.pending, S c) (hin : ∀ t ∈ incoming, ∀ c ∈ t, S c) :
    Relation.ReflTransGen (Takes s S) r (r.round s incoming) :=
  List.foldlRecOn incoming _ (takes_settleLocals hlocal) fun _ hrun t ht => hrun.trans (takes_pull (hin t ht))

theorem pending_subset (h : Relation.ReflTransGen (Takes s S) r r') (hc : c ∈ r'.pending) : c ∈ r.pending := by
  induction h with
  | refl => exact hc
  | tail _ hstep ih =>
    obtain ⟨d, _, _, rfl⟩ := hstep
    exact ih (IdSet.mem_erase.1 hc).2

theorem takes_saturate (hlocal : ∀ c ∈ r.pending, S c) (hin : ∀ t ∈ incoming, ∀ c ∈ t, S c) :
    Relation.ReflTransGen (Takes s S) r (r.saturate s incoming) := by
  fun_induction saturate s incoming r with
  | case1 r next h => exact takes_round hlocal hin
  | case2 r next h ih =>
    have hround := takes_round (s := s) hlocal hin
    exact hround.trans (ih fun c hc => hlocal c (pending_subset hround hc))

/-! ### The parts of a reach -/

/-- How the parts belong together: the locals are reached or pending, never both, and the objects in reach are those of
the roots and of what is reached. -/
structure Tracks (s : Store) (q : Procedure) (r : Reach) : Prop where
  apart : ∀ c ∈ r.pending, c ∉ r.reached
  covers : ∀ c ∈ s.localsOf q.node, c ∈ r.pending ∨ c ∈ r.reached
  pending_local : ∀ c ∈ r.pending, c ∈ s.localsOf q.node
  objects : ∀ o, o ∈ r.objects ↔ o ∈ q.rootPts ∨ ∃ d ∈ r.reached, o ∈ s.ptsOf d

variable {q : Procedure}

theorem Tracks.take (h : Tracks s q r) (c : Candidate) : Tracks s q (r.take s c) where
  apart d hd hreached := by
    obtain ⟨hne, hd⟩ := IdSet.mem_erase.1 hd
    exact h.apart d hd ((IdSet.mem_insert.1 hreached).resolve_left hne)
  covers d hd := by
    by_cases hdc : d = c
    · exact .inr (IdSet.mem_insert.2 (.inl hdc))
    · exact (h.covers d hd).imp (fun hp => IdSet.mem_erase.2 ⟨hdc, hp⟩) fun hr => IdSet.mem_insert.2 (.inr hr)
  pending_local d hd := h.pending_local d (IdSet.mem_erase.1 hd).2
  objects o := by
    simp only [Reach.take, IdSet.mem_union, IdSet.mem_insert, h.objects, exists_eq_or_imp, or_assoc]
    exact or_congr_right or_comm

theorem Tracks.of_takes (h : Tracks s q r) (hrun : Relation.ReflTransGen (Takes s S) r r') : Tracks s q r' := by
  induction hrun with
  | refl => exact h
  | tail _ hstep ih =>
    obtain ⟨c, _, _, rfl⟩ := hstep
    exact ih.take c

/-! ### Rounds that reach nothing new -/

/-- Nothing is left to take. -/
def Settled (s : Store) (incoming : List (IdSet .candidate)) (r : Reach) : Prop :=
  (∀ c ∈ r.pending, r.touches s c = false) ∧ ∀ t ∈ incoming, ∀ c ∈ t, c ∈ r.reached ∨ r.touches s c = false

theorem mem_reached_foldl_take {cs : List Candidate} :
    c ∈ (cs.foldl (take s) r).reached ↔ c ∈ r.reached ∨ c ∈ cs := by
  induction cs generalizing r with
  | nil => simp
  | cons d cs ih =>
    rw [List.foldl_cons, ih, List.mem_cons, Reach.take, IdSet.mem_insert, or_comm (a := c = d), or_assoc]

theorem settleLocals_eq_self (h : Tracks s q r) (hsame : ∀ c ∈ (r.settleLocals s).reached, c ∈ r.reached) :
    r.settleLocals s = r ∧ ∀ c ∈ r.pending, r.touches s c = false := by
  rw [settleLocals] at hsame ⊢
  split at hsame
  · rename_i hnone
    rw [dif_pos hnone]
    refine ⟨rfl, fun c hc => ?_⟩
    simpa using List.filter_eq_nil_iff.1 hnone c (IdSet.mem_toList.2 hc)
  · rename_i hsome
    obtain ⟨c, hc⟩ := List.exists_mem_of_ne_nil _ hsome
    have hreached := (grows_settleLocals s _).1 c (mem_reached_foldl_take (s := s) (r := r).2 (.inr hc))
    exact absurd (hsame c hreached) (h.apart c (IdSet.mem_toList.1 (List.mem_filter.1 hc).1))

theorem pull_eq_self {cs : IdSet .candidate} (hsame : ∀ c ∈ (r.pull s cs).reached, c ∈ r.reached) :
    r.pull s cs = r ∧ ∀ c ∈ cs, c ∈ r.reached ∨ r.touches s c = false := by
  have hlist : ∀ xs : List Candidate, (∀ c ∈ (xs.foldl (consider s) r).reached, c ∈ r.reached) →
      xs.foldl (consider s) r = r ∧ ∀ c ∈ xs, c ∈ r.reached ∨ r.touches s c = false := by
    intro xs
    induction xs with
    | nil => exact fun _ => ⟨rfl, by simp⟩
    | cons d xs ih =>
      intro hsame
      rw [List.foldl_cons] at hsame ⊢
      by_cases htake : d ∉ r.reached ∧ r.touches s d = true
      · rw [consider, if_pos htake] at hsame
        have hkept : d ∈ (xs.foldl (consider s) (r.take s d)).reached :=
          List.foldlRecOn (motive := fun r => d ∈ r.reached) xs _ (IdSet.mem_insert.2 (.inl rfl))
            fun r hd e _ => (grows_consider s r e).1 d hd
        exact absurd (hsame d hkept) htake.1
      · rw [consider, if_neg htake] at hsame ⊢
        obtain ⟨heq, hxs⟩ := ih hsame
        refine ⟨heq, fun c hc => ?_⟩
        rcases List.mem_cons.1 hc with rfl | hc
        · simp only [not_and, Bool.not_eq_true] at htake
          exact (Classical.em (c ∈ r.reached)).imp_right htake
        · exact hxs c hc
  obtain ⟨heq, h⟩ := hlist cs.toList hsame
  exact ⟨heq, fun c hc => h c (IdSet.mem_toList.2 hc)⟩

theorem round_eq_self (h : Tracks s q r) (hsame : (r.round s incoming).reached = r.reached) :
    r.round s incoming = r ∧ Settled s incoming r := by
  have hpull : ∀ (ts : List (IdSet .candidate)) (r : Reach), ∀ c ∈ r.reached, c ∈ (ts.foldl (pull s) r).reached :=
    fun ts r c hc => List.foldlRecOn (motive := fun r => c ∈ r.reached) ts _ hc
      fun r hc t _ => (grows_pull s r t).1 c hc
  have hlist : ∀ ts : List (IdSet .candidate), (∀ c ∈ (ts.foldl (pull s) r).reached, c ∈ r.reached) →
      ts.foldl (pull s) r = r ∧ ∀ t ∈ ts, ∀ c ∈ t, c ∈ r.reached ∨ r.touches s c = false := by
    intro ts
    induction ts with
    | nil => exact fun _ => ⟨rfl, by simp⟩
    | cons t ts ih =>
      intro hsame
      rw [List.foldl_cons] at hsame ⊢
      obtain ⟨heq, ht⟩ := pull_eq_self fun c hc => hsame c (hpull ts _ c hc)
      rw [heq] at hsame ⊢
      obtain ⟨heq', hts⟩ := ih hsame
      refine ⟨heq', fun u hu => ?_⟩
      rcases List.mem_cons.1 hu with rfl | hu
      · exact ht
      · exact hts u hu
  unfold round at hsame ⊢
  obtain ⟨hsettle, hpending⟩ := settleLocals_eq_self h fun c hc => hsame ▸ hpull incoming _ c hc
  rw [hsettle] at hsame ⊢
  obtain ⟨heq, hin⟩ := hlist incoming fun c hc => hsame ▸ hc
  exact ⟨heq, hpending, hin⟩

theorem settled_saturate (h : Tracks s q r) : Settled s incoming (r.saturate s incoming) := by
  fun_induction saturate s incoming r with
  | case1 r next hsame =>
    obtain ⟨heq, hsettled⟩ := round_eq_self h hsame
    show Settled s incoming (r.round s incoming)
    rwa [heq]
  | case2 r next _ ih =>
    exact ih (h.of_takes (takes_round (S := fun _ => True) (fun _ _ => trivial) fun _ _ _ _ => trivial))

/-- Saturation that reaches nothing new has changed nothing. -/
theorem saturate_eq_self (h : Tracks s q r) (hsame : (r.saturate s incoming).reached = r.reached) :
    r.saturate s incoming = r := by
  rw [saturate] at hsame ⊢
  split at hsame
  · rename_i hround
    rw [dif_pos hround]
    exact (round_eq_self h hround).1
  · rename_i hround
    refine absurd (IdSet.ext fun c => ⟨fun hc => ?_, (grows_round s incoming r).1 c⟩) hround
    exact hsame ▸ (grows_saturate s incoming _).1 c hc

end HeapSummary.Reach
