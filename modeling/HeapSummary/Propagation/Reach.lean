import HeapSummary.IdSet.Lemmas
import HeapSummary.Store

/-!
# What a procedure reaches

A procedure reaches a candidate if one of the objects in its reach can be the candidate's base; the objects that the
candidate may hold are then in its reach too. `Reach` is the state of that growth for one procedure, and `saturate` grows
it to the end over the procedure's own locals and given sets of further candidates.
-/

namespace HeapSummary

structure Reach where
  reached : IdSet .candidate
  /-- Locals that nothing in reach leads to so far. -/
  pending : IdSet .candidate
  /-- Objects in reach. -/
  objects : PointsTo
  deriving DecidableEq

namespace Reach

instance : Inhabited Reach := ⟨∅, ∅, ∅⟩

/-- Whether an object in reach can be the base of `c`. -/
def touches (s : Store) (r : Reach) (c : Candidate) : Bool := (s.basesOf c).intersects r.objects

def take (s : Store) (r : Reach) (c : Candidate) : Reach :=
  ⟨r.reached.insert c, r.pending.erase c, r.objects ∪ s.ptsOf c⟩

theorem mem_pending_foldl_take {s : Store} {r : Reach} {cs : List Candidate} {c : Candidate} :
    c ∈ (cs.foldl (take s) r).pending ↔ c ∈ r.pending ∧ c ∉ cs := by
  induction cs generalizing r with
  | nil => simp
  | cons d cs ih =>
    rw [List.foldl_cons, ih, take, IdSet.mem_erase, List.mem_cons, not_or]
    exact ⟨fun ⟨⟨h1, h2⟩, h3⟩ => ⟨h2, h1, h3⟩, fun ⟨h1, h2, h3⟩ => ⟨⟨h2, h1⟩, h3⟩⟩

/-- Takes pending locals, round by round, until none is touched. -/
def settleLocals (s : Store) (r : Reach) : Reach :=
  let added := r.pending.toList.filter (r.touches s)
  if _h : added = [] then r else settleLocals s (added.foldl (take s) r)
termination_by r.pending.size
decreasing_by
  obtain ⟨c, hc⟩ := List.exists_mem_of_ne_nil added _h
  refine IdSet.size_lt_of_ssubset (y := c) (fun d hd => (mem_pending_foldl_take.1 hd).1) ?_ (fun hmem => ?_)
  · exact IdSet.mem_toList.1 (List.mem_filter.1 hc).1
  · exact (mem_pending_foldl_take.1 hmem).2 hc

/-- Takes a candidate if it is touched and new. -/
def consider (s : Store) (r : Reach) (c : Candidate) : Reach :=
  if c ∉ r.reached ∧ r.touches s c = true then r.take s c else r

/-- Considers the members of a set in ascending order; each one taken may make way for the next. -/
def pull (s : Store) (r : Reach) (cs : IdSet .candidate) : Reach := cs.toList.foldl (consider s) r

/-- The locals first, then every given set. -/
def round (s : Store) (incoming : List (IdSet .candidate)) (r : Reach) : Reach :=
  incoming.foldl (pull s) (r.settleLocals s)

/-! ### Growth

Only candidates of the store are ever taken, so a round that reaches more leaves fewer to reach. -/

/-- What was reached stays, and what is new has a place in the store. -/
def Grows (s : Store) (r r' : Reach) : Prop :=
  (∀ c ∈ r.reached, c ∈ r'.reached) ∧ ∀ c ∈ r'.reached, c ∈ r.reached ∨ c ∈ s.ids

theorem Grows.refl (s : Store) (r : Reach) : Grows s r r := ⟨fun _ h => h, fun _ h => .inl h⟩

theorem Grows.trans {s : Store} {r₁ r₂ r₃ : Reach} (h : Grows s r₁ r₂) (h' : Grows s r₂ r₃) : Grows s r₁ r₃ :=
  ⟨fun c hc => h'.1 c (h.1 c hc), fun c hc => (h'.2 c hc).elim (h.2 c) .inr⟩

theorem mem_ids_of_touches {s : Store} {r : Reach} {c : Candidate} (h : r.touches s c = true) : c ∈ s.ids := by
  obtain ⟨x, hx, _⟩ := IdSet.intersects_iff.1 h
  unfold Store.basesOf Store.field? at hx
  cases hc : s.arena.get? c with
  | none => simp [hc] at hx
  | some l => exact Arena.mem_ids.2 (Arena.lt_size_of_get? hc)

theorem grows_take {s : Store} (r : Reach) {c : Candidate} (hc : c ∈ s.ids) : Grows s r (r.take s c) := by
  refine ⟨fun d hd => IdSet.mem_insert.2 (.inr hd), fun d hd => ?_⟩
  exact (IdSet.mem_insert.1 hd).elim (fun h => .inr (h ▸ hc)) .inl

theorem grows_foldl_take {s : Store} (r : Reach) {cs : List Candidate} (h : ∀ c ∈ cs, c ∈ s.ids) :
    Grows s r (cs.foldl (take s) r) := by
  induction cs generalizing r with
  | nil => exact .refl s r
  | cons c cs ih =>
    exact (grows_take r (h c List.mem_cons_self)).trans (ih _ fun d hd => h d (List.mem_cons_of_mem _ hd))

theorem grows_settleLocals (s : Store) (r : Reach) : Grows s r (r.settleLocals s) := by
  fun_induction settleLocals s r with
  | case1 r _ _ => exact .refl s r
  | case2 r added _ ih =>
    exact (grows_foldl_take r fun c hc => mem_ids_of_touches (List.mem_filter.1 hc).2).trans ih

theorem grows_consider (s : Store) (r : Reach) (c : Candidate) : Grows s r (r.consider s c) := by
  unfold consider
  split
  · rename_i h
    exact grows_take r (mem_ids_of_touches h.2)
  · exact .refl s r

theorem grows_pull (s : Store) (r : Reach) (cs : IdSet .candidate) : Grows s r (r.pull s cs) := by
  unfold pull
  generalize cs.toList = cs
  induction cs generalizing r with
  | nil => exact .refl s r
  | cons c cs ih => exact (grows_consider s r c).trans (ih _)

theorem grows_round (s : Store) (incoming : List (IdSet .candidate)) (r : Reach) : Grows s r (r.round s incoming) := by
  refine (grows_settleLocals s r).trans ?_
  unfold round
  generalize r.settleLocals s = r'
  induction incoming generalizing r' with
  | nil => exact .refl s r'
  | cons t ts ih => exact (grows_pull s r' t).trans (ih _)

/-- Candidates of the store that are not reached. -/
def missing (s : Store) (r : Reach) : Nat := s.ids.countP fun c => !r.reached.contains c

theorem missing_le {s : Store} {r r' : Reach} (h : Grows s r r') : r'.missing s ≤ r.missing s := by
  refine List.countP_mono_left fun c _ hc => ?_
  rw [Bool.not_eq_true', IdSet.contains_eq, decide_eq_false_iff_not] at hc ⊢
  exact fun hmem => hc (h.1 c hmem)

theorem missing_lt {s : Store} {r r' : Reach} (h : Grows s r r') (hne : r'.reached ≠ r.reached) :
    r'.missing s < r.missing s := by
  obtain ⟨c, hc, hnc⟩ : ∃ c, c ∈ r'.reached ∧ c ∉ r.reached := by
    refine Classical.byContradiction fun hno => hne (IdSet.ext fun c => ⟨fun hc => ?_, h.1 c⟩)
    exact Classical.byContradiction fun hnc => hno ⟨c, hc, hnc⟩
  have hids : c ∈ s.ids := (h.2 c hc).resolve_left hnc
  have hle := missing_le h
  refine Nat.lt_of_le_of_ne hle fun heq => ?_
  obtain ⟨as, bs, hsplit⟩ := List.append_of_mem hids
  have hmono : ∀ xs : List Candidate, xs.countP (fun c => !r'.reached.contains c) ≤
      xs.countP fun c => !r.reached.contains c := fun xs => by
    refine List.countP_mono_left fun d _ hd => ?_
    rw [Bool.not_eq_true', IdSet.contains_eq, decide_eq_false_iff_not] at hd ⊢
    exact fun hmem => hd (h.1 d hmem)
  have h1 := hmono as
  have h2 := hmono bs
  simp only [missing, hsplit, List.countP_append, List.countP_cons, IdSet.contains_eq, hc, hnc, decide_true,
    decide_false, Bool.not_true, Bool.not_false, Bool.false_eq_true, if_true, if_false] at heq h1 h2
  omega

/-- Rounds until one reaches nothing new. -/
def saturate (s : Store) (incoming : List (IdSet .candidate)) (r : Reach) : Reach :=
  let next := r.round s incoming
  if _h : next.reached = r.reached then next else saturate s incoming next
termination_by r.missing s
decreasing_by exact missing_lt (grows_round s incoming r) _h

theorem grows_saturate (s : Store) (incoming : List (IdSet .candidate)) (r : Reach) :
    Grows s r (r.saturate s incoming) := by
  fun_induction saturate s incoming r with
  | case1 r next h => exact grows_round s incoming r
  | case2 r next h ih => exact (grows_round s incoming r).trans ih

end Reach

end HeapSummary
