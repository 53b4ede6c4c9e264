import HeapSummary.Proofs.Faultless

/-!
# Cancellation changes nothing but whether there is a result

A computation that only polls and makes checked steps does not depend on its monitor before it is canceled: it is a number
of polls followed by one outcome (`Metered`). The number is the computation's cost. All of a summary before the
registrations is such a computation. So a budget that covers the cost changes nothing and is spent by the cost, and with a
smaller one the first refused poll ends the run, with nothing registered.

A monitor need not keep to a budget: its answers may change from poll to poll in any way. But a run hears no answer after
the first refusal, and so it ends under any monitor as it does under one that never cancels, or under a budget.
-/

namespace HeapSummary

namespace Monitor

/-- The first poll that is refused comes after `n` that are granted. -/
def RefusesAfter (m : Monitor) (n : Nat) : Prop := (∀ j < n, (m.after j).poll.1 = true) ∧ (m.after n).poll.1 = false

theorem after_succ (m : Monitor) (n : Nat) : m.after (n + 1) = (m.after n).poll.2 := by
  induction n generalizing m with
  | zero => rfl
  | succ n ih => exact ih m.poll.2

theorem granted_or_refusesAfter (m : Monitor) (k : Nat) :
    (∀ j < k, (m.after j).poll.1 = true) ∨ ∃ n < k, m.RefusesAfter n := by
  induction k with
  | zero => exact .inl fun j hj => absurd hj (Nat.not_lt_zero j)
  | succ k ih =>
    rcases ih with hall | ⟨n, hn, hrefuses⟩
    · cases hk : (m.after k).poll.1 with
      | false => exact .inr ⟨k, Nat.lt_succ_self k, hall, hk⟩
      | true => exact .inl (Nat.forall_lt_succ_right.2 ⟨hall, hk⟩)
    · exact .inr ⟨n, Nat.lt_succ_of_lt hn, hrefuses⟩

theorem poll_after_scripted {answers : List Bool} {n : Nat} (hn : n < answers.length) :
    ((scripted answers).after n).poll.1 = answers.get ⟨n, hn⟩ := by
  induction answers generalizing n with
  | nil => exact absurd hn (Nat.not_lt_zero n)
  | cons granted answers ih =>
    cases n with
    | zero => rfl
    | succ n => exact ih (Nat.lt_of_succ_lt_succ hn)

/-- Monitors can answer the polls of a run in any way. -/
theorem exists_answering (answer : Nat → Bool) (k : Nat) : ∃ m : Monitor, ∀ n < k, (m.after n).poll.1 = answer n := by
  refine ⟨.scripted ((List.range k).map answer), fun n hn => ?_⟩
  rw [poll_after_scripted (by simpa using hn)]
  simp

end Monitor

namespace Polled

variable {α β σ : Type}

/-! ### Polls in a row -/

def polls : Nat → Polled Unit
  | 0 => pure ()
  | n + 1 => do
    poll
    polls n

theorem polls_add (j k : Nat) : polls (j + k) = (do polls j; polls k) := by
  induction j with
  | zero => rw [Nat.zero_add, polls, pure_bind]
  | succ j ih => rw [Nat.add_right_comm, polls, polls, ih, bind_assoc]

theorem polls_never (k : Nat) : polls k .never = .ok () .never := by
  induction k with
  | zero => rfl
  | succ k ih => exact ih

theorem polls_unlimited (k consumed : Nat) :
    polls k (.fuel ⟨none, consumed⟩) = .ok () (.fuel ⟨none, consumed + k⟩) := by
  induction k generalizing consumed with
  | zero => rfl
  | succ k ih =>
    have hrest := ih (consumed + 1)
    rwa [Nat.add_assoc, Nat.add_comm 1 k] at hrest

theorem polls_of_le {k n : Nat} (h : k ≤ n) (consumed : Nat) :
    polls k (.fuel ⟨some n, consumed⟩) = .ok () (.fuel ⟨some (n - k), consumed + k⟩) := by
  induction k generalizing n consumed with
  | zero => rfl
  | succ k ih =>
    obtain ⟨n, rfl⟩ : ∃ m, n = m + 1 := ⟨n - 1, by omega⟩
    have hrest := ih (Nat.le_of_succ_le_succ h) (consumed + 1)
    rw [Nat.add_assoc, Nat.add_comm 1 k] at hrest
    rw [Nat.add_sub_add_right]
    exact hrest

/-- The poll after the last one granted is counted too. -/
theorem polls_of_lt {k n : Nat} (h : n < k) (consumed : Nat) :
    polls k (.fuel ⟨some n, consumed⟩) = .error .canceled (.fuel ⟨some 0, consumed + n + 1⟩) := by
  induction k generalizing n consumed with
  | zero => omega
  | succ k ih =>
    cases n with
    | zero => rfl
    | succ n =>
      have hrest := ih (Nat.lt_of_succ_lt_succ h) (consumed + 1)
      rw [Nat.add_assoc consumed, Nat.add_comm 1 n] at hrest
      exact hrest

theorem poll_eq (m : Monitor) : poll m = if m.poll.1 then .ok () m.poll.2 else .error .canceled m.poll.2 := by
  unfold poll
  rcases m.poll with ⟨granted, m'⟩
  cases granted <;> rfl

theorem polls_of_granted {k : Nat} {m : Monitor} (h : ∀ j < k, (m.after j).poll.1 = true) :
    polls k m = .ok () (m.after k) := by
  induction k generalizing m with
  | zero => rfl
  | succ k ih =>
    have hfirst : poll m = .ok () m.poll.2 := (poll_eq m).trans (if_pos (h 0 (Nat.succ_pos k)))
    exact (bind_of_ok hfirst).trans (ih fun j hj => h (j + 1) (Nat.succ_lt_succ hj))

theorem polls_of_refused {k n : Nat} {m : Monitor} (hn : n < k) (h : m.RefusesAfter n) :
    polls k m = .error .canceled (m.after (n + 1)) := by
  obtain ⟨hgranted, hrefused⟩ := h
  obtain ⟨rest, rfl⟩ : ∃ rest, k = n + (rest + 1) := ⟨k - n - 1, by omega⟩
  have hpoll : poll (m.after n) = .error .canceled (m.after n).poll.2 := by rw [poll_eq, if_neg (by simp [hrefused])]
  rw [polls_add, bind_of_ok (polls_of_granted hgranted), Monitor.after_succ]
  exact bind_of_error hpoll

/-! ### Metered computations -/

/-- A number of polls, and then an outcome that does not depend on the monitor. -/
def Metered (run : Polled α) : Prop := ∃ k r, run = do polls k; attempt r

theorem metered_attempt (r : Except Fault α) : Metered (attempt r) := ⟨0, r, by rw [polls, pure_bind]⟩

theorem metered_pure (a : α) : Metered (pure a : Polled α) := metered_attempt (.ok a)

theorem metered_fault (f : Fault) : Metered (throw (.fault f) : Polled α) := metered_attempt (.error f)

theorem metered_poll : Metered poll := by
  refine ⟨1, .ok (), ?_⟩
  rw [polls, polls, bind_assoc, pure_bind]
  exact (bind_pure poll).symm

theorem Metered.bind {x : Polled α} {f : α → Polled β} (hx : Metered x) (hf : ∀ a, Metered (f a)) :
    Metered (x >>= f) := by
  obtain ⟨j, r, rfl⟩ := hx
  cases r with
  | error e =>
    refine ⟨j, .error e, ?_⟩
    rw [bind_assoc]
    rfl
  | ok a =>
    obtain ⟨k, r, hk⟩ := hf a
    have hrest : attempt (.ok a) >>= f = (do polls k; attempt r) := hk
    exact ⟨j + k, r, by rw [polls_add, bind_assoc, bind_assoc, hrest]⟩

theorem metered_foldlM {f : σ → α → Polled σ} (hf : ∀ s a, Metered (f s a)) (xs : List α) (s : σ) :
    Metered (xs.foldlM f s) := by
  induction xs generalizing s with
  | nil => exact metered_pure s
  | cons a xs ih =>
    rw [List.foldlM_cons]
    exact (hf s a).bind ih

theorem metered_forM_poll (xs : List α) : Metered (xs.forM fun _ => poll) := by
  induction xs with
  | nil => exact metered_pure ()
  | cons a xs ih => exact metered_poll.bind fun _ => ih

/-- What a run ends with, whatever its monitor is in the end. -/
def result : EStateM.Result Stop Monitor α → Except Stop α
  | .ok a _ => .ok a
  | .error stop _ => .error stop

theorem Metered.result_cases {run : Polled α} (h : Metered run) (m : Monitor) :
    result (run m) = result (run .never) ∨
      ∃ n, m.RefusesAfter n ∧ result (run m) = result (run (.fuel ⟨some n, 0⟩)) := by
  obtain ⟨k, r, rfl⟩ := h
  have hattempt : ∀ m m', result (attempt r m) = result (attempt r m') := by
    intro m m'
    cases r <;> rfl
  rcases m.granted_or_refusesAfter k with hgranted | ⟨n, hn, hrefuses⟩
  · left
    rw [bind_of_ok (polls_of_granted hgranted), bind_of_ok (polls_never k)]
    exact hattempt _ _
  · refine .inr ⟨n, hrefuses, ?_⟩
    rw [bind_of_error (polls_of_refused hn hrefuses), bind_of_error (polls_of_lt hn 0)]
    rfl

theorem Metered.exists_cost {run : Polled α} {a : α} (h : Metered run) (hreturns : Returns run a) :
    ∃ k, run = do polls k; return a := by
  obtain ⟨k, r, rfl⟩ := h
  have hnever : (do polls k; attempt r) .never = attempt r .never := bind_of_ok (polls_never k)
  obtain ⟨m, hok, _⟩ | ⟨hcancels, _⟩ := hreturns .never
  · obtain ⟨rfl, _⟩ := attempt_eq_ok.1 (hnever ▸ hok)
    exact ⟨k, rfl⟩
  · exact absurd Monitor.neverCancels_never hcancels

end Polled

/-! ### The parts of a summary -/

open Polled (Metered)

namespace Propagation

variable (p : Program) (g : CallGraph) (s : Store)

theorem metered_settle (out : Propagation) (queue : WorkQueue) : Metered (settle g out queue) := by
  fun_induction settle g out queue with
  | case1 out => exact Polled.metered_pure out
  | case2 out queue x rest hq ihgrew ihsame =>
    refine Polled.metered_poll.bind fun _ => ?_
    split
    · exact Polled.metered_fault _
    · rename_i d hd
      split
      · rename_i hgrew
        exact ihgrew d hd hgrew
      · exact ihsame

theorem metered_plain : Metered (plain g s) := by
  refine (metered_settle g _ _).bind fun out => ?_
  exact Polled.metered_foldlM (fun _ _ => Polled.metered_poll.bind fun _ => Polled.metered_pure _) _ _

theorem metered_converge (sites : List Site) (reach : IdMap .callNode Reach) : Metered (converge s sites reach) := by
  fun_induction converge s sites reach with
  | case1 reach ih =>
    refine Polled.metered_poll.bind fun _ => (Polled.metered_forM_poll sites).bind fun _ => ?_
    split
    · exact Polled.metered_pure _
    · rename_i hagree
      exact ih hagree

theorem metered_propagate (isGated : Bool) : Metered (propagate p g s isGated) := by
  cases isGated with
  | false => exact metered_plain g s
  | true =>
    refine (metered_plain g s).bind fun plain => (Polled.metered_attempt _).bind fun visit => ?_
    refine (Polled.metered_attempt _).bind fun sites => (Polled.metered_attempt _).bind fun _ => ?_
    exact (metered_converge s sites _).bind fun _ => Polled.metered_pure _

theorem metered_seed (out : Propagation) : Metered (out.seed g s) :=
  Polled.metered_foldlM (fun _ _ => Polled.metered_poll.bind fun _ => Polled.metered_attempt _) _ _

end Propagation

theorem Bounding.metered_runAll (o : Options) (immutables : IdSet .type) (ps : List Procedure) (s : Store) :
    Metered (Bounding.runAll o immutables ps s) := by
  induction ps generalizing s with
  | nil => exact Polled.metered_pure _
  | cons p ps ih =>
    refine Polled.metered_poll.bind fun _ => (Polled.metered_attempt _).bind fun bounded => ?_
    exact (ih bounded.1).bind fun _ => Polled.metered_pure _

namespace Summary

theorem metered_foldPruned (g : CallGraph) (out : Propagation) (s : Store) (q : Procedure) :
    Metered (foldPruned g out s q) := by
  refine (Polled.metered_attempt _).bind fun callees => Polled.metered_foldlM (fun s y => ?_) _ _
  exact Polled.metered_poll.bind fun _ => (Polled.metered_attempt _).bind fun _ => Polled.metered_pure _

theorem metered_prepare (p : Program) (o : Options) : Metered (prepare p o) := by
  refine Metered.bind ?_ fun _ => Polled.metered_poll.bind fun _ => Polled.metered_pure _
  refine (Polled.metered_attempt _).bind fun g => (Propagation.metered_propagate p g _ _).bind fun out => ?_
  refine (Propagation.metered_seed g _ out).bind fun seeded => (Bounding.metered_runAll o _ _ seeded).bind fun bounded => ?_
  dsimp only
  split
  · exact (Polled.metered_foldlM (metered_foldPruned g out) _ _).bind fun _ => Polled.metered_pure _
  · exact Polled.metered_pure _

end Summary

/-- How a summary ends and what is registered then, whatever its monitor is in the end. -/
def Summary.ending : EStateM.Result Stop Session Statistics → Except Stop Statistics × List Registration
  | .ok stats session => (.ok stats, session.registered)
  | .error stop session => (.error stop, session.registered)

theorem Summary.ending_congr {p : Program} {o : Options} {mon mon' : Monitor}
    (h : Polled.result (prepare p o mon) = Polled.result (prepare p o mon')) (earlier : List Registration) :
    ending (summarize p o ⟨mon, earlier⟩) = ending (summarize p o ⟨mon', earlier⟩) := by
  rcases hrun : prepare p o mon with ⟨⟨stats, s⟩, m⟩ | ⟨stop, m⟩ <;>
    rcases hrun' : prepare p o mon' with ⟨⟨stats', s'⟩, m'⟩ | ⟨stop', m'⟩ <;> rw [hrun, hrun'] at h <;> cases h
  · rw [summarize_of_ok hrun, summarize_of_ok hrun']
    rfl
  · rw [summarize_of_error hrun, summarize_of_error hrun']
    rfl

/-- Whatever a monitor answers, a summary under it ends as without cancellation, or as with a budget of the polls that
were granted before the first refusal. -/
theorem ending_under_monitor (p : Program) (o : Options) (mon : Monitor) (earlier : List Registration) :
    Summary.ending (summarize p o ⟨mon, earlier⟩) = Summary.ending (summarize p o ⟨.never, earlier⟩) ∨
      ∃ n, mon.RefusesAfter n ∧ Summary.ending (summarize p o ⟨mon, earlier⟩) =
        Summary.ending (summarize p o ⟨.fuel ⟨some n, 0⟩, earlier⟩) := by
  rcases (Summary.metered_prepare p o).result_cases mon with hnever | ⟨n, hrefuses, hbudget⟩
  · exact .inl (Summary.ending_congr hnever earlier)
  · exact .inr ⟨n, hrefuses, Summary.ending_congr hbudget earlier⟩

/-- A summary has a cost, the polls that it counts with no limit. With a budget of at least that much it ends with the
same statistics, registers the same interfaces in the same store and has counted as many polls. With a smaller budget it
is canceled at the first poll beyond it and has registered nothing. -/
theorem summarize_with_budget {p : Program} (hp : p.Built) (o : Options) :
    ∃ cost stats s, ∀ earlier,
      summarize p o ⟨.fuel (.ofBudget Fuel.limit), earlier⟩ =
        .ok stats ⟨.fuel ⟨none, cost⟩, earlier ++ Summary.registrations p s⟩ ∧
      ∀ n < Fuel.limit,
        (cost ≤ n → summarize p o ⟨.fuel (.ofBudget n), earlier⟩ =
          .ok stats ⟨.fuel ⟨some (n - cost), cost⟩, earlier ++ Summary.registrations p s⟩) ∧
        (n < cost → summarize p o ⟨.fuel (.ofBudget n), earlier⟩ =
          .error .canceled ⟨.fuel ⟨some 0, n + 1⟩, earlier⟩) := by
  obtain ⟨stats, s, hreturns⟩ := Summary.exists_returns_prepare hp o
  obtain ⟨cost, hcost⟩ := (Summary.metered_prepare p o).exists_cost hreturns
  refine ⟨cost, stats, s, fun earlier => ⟨?_, fun n hn => ⟨fun hle => ?_, fun hlt => ?_⟩⟩⟩
  · apply Summary.summarize_of_ok
    have hpolls := Polled.polls_unlimited cost 0
    rw [Nat.zero_add] at hpolls
    rw [hcost, Fuel.ofBudget, if_pos rfl]
    exact Polled.bind_of_ok hpolls
  · apply Summary.summarize_of_ok
    have hpolls := Polled.polls_of_le hle 0
    rw [Nat.zero_add] at hpolls
    rw [hcost, Fuel.ofBudget, if_neg (Nat.ne_of_lt hn)]
    exact Polled.bind_of_ok hpolls
  · apply Summary.summarize_of_error
    have hpolls := Polled.polls_of_lt hlt 0
    rw [Nat.zero_add] at hpolls
    rw [hcost, Fuel.ofBudget, if_neg (Nat.ne_of_lt hn)]
    exact Polled.bind_of_error hpolls

/-- The polls that were counted when a summary ended. -/
def pollsCounted : EStateM.Result Stop Session Statistics → Option Nat
  | .ok _ session => session.monitor.consumed?
  | .error _ session => session.monitor.consumed?

/-- The run costs 14 polls: one less cancels it at the last poll, before the registrations. -/
theorem budget_of_strayProgram : strayProgram.Built ∧
    ∃ stats registered, summarize strayProgram .standard ⟨.fuel (.ofBudget 14), []⟩ =
        .ok stats ⟨.fuel ⟨some 0, 14⟩, registered⟩ ∧
      summarize strayProgram .standard ⟨.fuel (.ofBudget 13), []⟩ = .error .canceled ⟨.fuel ⟨some 0, 14⟩, []⟩ := by
  obtain ⟨cost, stats, s, hruns⟩ := summarize_with_budget built_strayProgram .standard
  obtain ⟨hunlimited, hbudget⟩ := hruns []
  have hcount : pollsCounted (summarize strayProgram .standard ⟨.fuel (.ofBudget Fuel.limit), []⟩) = some 14 := by
    decide +kernel
  rw [hunlimited] at hcount
  obtain rfl : cost = 14 := Option.some.inj hcount
  exact ⟨built_strayProgram, stats, _, (hbudget 14 (by decide)).1 (Nat.le_refl 14), (hbudget 13 (by decide)).2 (by omega)⟩

end HeapSummary
