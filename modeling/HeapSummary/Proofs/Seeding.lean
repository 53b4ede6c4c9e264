import HeapSummary.Proofs.Store
import HeapSummary.Propagation

/-!
# What seeding puts into interfaces

Before any bounding, an interface holds its node's own candidates and those that propagation brought to the node. A
program's own store has the locals of each node in its interface, and seeding adds the rest. It changes no candidate.
-/

namespace HeapSummary

namespace Store

variable {s s' t : Store} {x y : CallNode} {c : Candidate}

/-! ### Own candidates -/

theorem interface_addAccess (s : Store) (a : Access) : (s.addAccess a).1.interfaces = s.interfaces := by
  unfold addAccess
  split <;> rfl

/-- Every interface has the locals of its node and nothing else. -/
def ShowsLocals (s : Store) : Prop := ∀ x, s.interface x = s.localsOf x

theorem ShowsLocals.addLocal (h : s.ShowsLocals) (x : CallNode) (a : Access) : (s.addLocal x a).ShowsLocals := by
  intro y
  show ((s.addAccess a).1.interfaces.set x (((s.addAccess a).1.interface x).insert (s.addAccess a).2)).get y =
    ((s.addAccess a).1.locals.set x (((s.addAccess a).1.localsOf x).insert (s.addAccess a).2)).get y
  rw [interface, localsOf, interface_addAccess, locals_addAccess, IdMap.get_set, IdMap.get_set]
  split
  · exact congrArg (IdSet.insert · _) (h x)
  · exact h y

theorem showsLocals_ofProgram (p : Program) : (ofProgram p).ShowsLocals := by
  refine List.foldlRecOn _ _ (fun x => rfl) fun s hs node _ => ?_
  exact List.foldlRecOn _ _ hs fun s hs a _ => hs.addLocal node.1 a

/-! ### Adding -/

/-- The candidates that `new` says were added to interfaces, all of them fields, and nothing else was done. -/
structure Added (s : Store) (new : CallNode → Candidate → Prop) (s' : Store) : Prop where
  arena : s'.arena = s.arena
  fields : ∀ x c, new x c → ∃ f, s.field? c = some f
  interface : ∀ x c, c ∈ s'.interface x ↔ c ∈ s.interface x ∨ new x c

theorem added_nothing {new : CallNode → Candidate → Prop} (h : ∀ x c, ¬ new x c) : Added s new s :=
  ⟨rfl, fun x c hc => absurd hc (h x c), fun x c => (or_iff_left (h x c)).symm⟩

theorem Added.trans {first second both : CallNode → Candidate → Prop} (h : Added s first t) (h' : Added t second s')
    (hboth : ∀ x c, both x c ↔ first x c ∨ second x c) : Added s both s' where
  arena := h'.arena.trans h.arena
  fields x c hc := by
    rcases (hboth x c).1 hc with hc | hc
    · exact h.fields x c hc
    · obtain ⟨f, hf⟩ := h'.fields x c hc
      exact ⟨f, by rwa [field?, h.arena] at hf⟩
  interface x c := by rw [h'.interface, h.interface, hboth, or_assoc]

theorem added_add (h : s.add x c = .ok s') : Added s (fun y d => y = x ∧ d = c) s' := by
  obtain ⟨hfield, rfl⟩ := add_eq_ok h
  refine ⟨rfl, fun y d hd => hd.2 ▸ hfield, fun y d => ?_⟩
  show d ∈ (s.interfaces.set x _).get y ↔ _
  rw [IdMap.get_set]
  split
  · rename_i hy
    subst hy
    rw [IdSet.mem_insert, or_comm]
    simp
  · rename_i hy
    simp [hy, interface]

theorem added_addAll {cs : IdSet .candidate} (h : s.addAll x cs = .ok s') :
    Added s (fun y d => y = x ∧ d ∈ cs) s' := by
  unfold addAll at h
  simp only [← IdSet.mem_toList (s := cs)]
  generalize cs.toList = cs at h ⊢
  induction cs generalizing s with
  | nil =>
    cases h
    exact added_nothing fun _ _ hd => nomatch hd.2
  | cons c cs ih =>
    obtain ⟨t, hadd, h⟩ := Outcome.bind_eq_ok.1 h
    exact (added_add hadd).trans (ih h) fun y d => by rw [List.mem_cons, and_or_left]

end Store

theorem Propagation.added_seed {g : CallGraph} {out : Propagation} {s s' : Store} {mon mon' : Monitor}
    (h : out.seed g s mon = .ok s' mon') : s.Added (fun x c => x ∈ g.ids ∧ c ∈ out.get x) s' := by
  unfold Propagation.seed at h
  generalize g.ids = xs at h ⊢
  induction xs generalizing s mon with
  | nil =>
    obtain ⟨rfl, _⟩ := Outcome.pure_run_eq_ok.1 h
    exact Store.added_nothing fun _ _ hd => nomatch hd.1
  | cons x xs ih =>
    simp only [List.foldlM_cons, Outcome.bind_run_eq_ok, Polled.attempt_eq_ok] at h
    obtain ⟨t, _, ⟨_, _, _, hadd, rfl⟩, h⟩ := h
    refine (Store.added_addAll hadd).trans (ih h) fun y c => ?_
    rw [List.mem_cons, or_and_right]
    exact or_congr_left (and_congr_right fun hy => hy ▸ Iff.rfl)

end HeapSummary
