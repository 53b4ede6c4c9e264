import HeapSummary.Monitor
import Mathlib.Data.List.Forall2

/-!
# Outcomes

What is known of a computation that ended. For checked operations (`Except Fault`) the lemmas read a successful run
backwards, step by step. For computations that poll a monitor, `Polled.Returns run a` says that `a` is the only result of
`run`: with every monitor the run ends with `a`, or it is canceled, and it is canceled only by a monitor that refuses a
poll sooner or later.
-/

namespace HeapSummary

/-! ### Checked operations -/

namespace Outcome

variable {ε α β σ : Type}

theorem bind_eq_ok {x : Except ε α} {f : α → Except ε β} {b : β} :
    x >>= f = .ok b ↔ ∃ a, x = .ok a ∧ f a = .ok b := by
  cases x with
  | error e => simp [bind, Except.bind]
  | ok a => simp [bind, Except.bind]

theorem bind_of_ok {x : Except ε α} {a : α} (h : x = .ok a) (f : α → Except ε β) : x >>= f = f a := by
  rw [h]
  rfl

theorem pure_eq_ok {a b : α} : (pure a : Except ε α) = .ok b ↔ a = b := by simp [pure, Except.pure]

theorem mapM_eq_ok {f : α → Except ε β} {xs : List α} {ys : List β} :
    xs.mapM f = .ok ys ↔ List.Forall₂ (fun x y => f x = .ok y) xs ys := by
  induction xs generalizing ys with
  | nil =>
    rw [List.mapM_nil, pure_eq_ok, List.forall₂_nil_left_iff]
    exact eq_comm
  | cons x xs ih =>
    rw [List.mapM_cons, List.forall₂_cons_left_iff]
    simp only [bind_eq_ok, pure_eq_ok, ih]
    constructor
    · rintro ⟨y, hy, zs, hzs, rfl⟩
      exact ⟨y, zs, hy, hzs, rfl⟩
    · rintro ⟨y, zs, hy, hzs, rfl⟩
      exact ⟨y, hy, zs, hzs, rfl⟩

theorem exists_iff_of_mapM {f : α → Except ε β} {xs : List α} {ys : List β} (h : xs.mapM f = .ok ys)
    {P : α → Prop} {Q : β → Prop} (hPQ : ∀ x y, f x = .ok y → (P x ↔ Q y)) : (∃ y ∈ ys, Q y) ↔ ∃ x ∈ xs, P x := by
  rw [mapM_eq_ok] at h
  induction h with
  | nil => simp
  | cons hx _ ih => rw [List.exists_mem_cons_iff, List.exists_mem_cons_iff, ih, hPQ _ _ hx]

theorem forall_iff_of_mapM {f : α → Except ε β} {xs : List α} {ys : List β} (h : xs.mapM f = .ok ys)
    {P : α → Prop} {Q : β → Prop} (hPQ : ∀ x y, f x = .ok y → (P x ↔ Q y)) : (∀ y ∈ ys, Q y) ↔ ∀ x ∈ xs, P x := by
  rw [mapM_eq_ok] at h
  induction h with
  | nil => simp
  | cons hx _ ih => rw [List.forall_mem_cons, List.forall_mem_cons, ih, hPQ _ _ hx]

theorem exists_of_mapM {f : α → Except ε β} {xs : List α} {ys : List β} (h : xs.mapM f = .ok ys) {x : α}
    (hx : x ∈ xs) : ∃ y, f x = .ok y := by
  rw [mapM_eq_ok] at h
  induction h with
  | nil => cases hx
  | @cons z y xs ys hz _ ih =>
    rcases List.mem_cons.1 hx with rfl | hx
    · exact ⟨y, hz⟩
    · exact ih hx

theorem exists_of_mem_mapM {f : α → Except ε β} {xs : List α} {ys : List β} (h : xs.mapM f = .ok ys) {y : β}
    (hy : y ∈ ys) : ∃ x ∈ xs, f x = .ok y := by
  have hiff : ∀ x z, f x = .ok z → (f x = .ok y ↔ z = y) := fun x z hz => by rw [hz, Except.ok.injEq]
  exact (exists_iff_of_mapM h hiff).1 ⟨y, hy, rfl⟩

theorem mapM_map {γ : Type} {f : α → Except ε β} {g : α → Except ε γ} {r : β → γ} (h : ∀ x, g x = (f x).map r)
    (xs : List α) : xs.mapM g = (xs.mapM f).map (List.map r) := by
  induction xs with
  | nil => rfl
  | cons x xs ih =>
    rw [List.mapM_cons, List.mapM_cons, ih, h]
    cases f x with
    | error e => rfl
    | ok y =>
      cases xs.mapM f with
      | error e => rfl
      | ok ys => rfl

theorem exists_mapM_eq_ok {f : α → Except ε β} {xs : List α} (h : ∀ x ∈ xs, ∃ y, f x = .ok y) :
    ∃ ys, xs.mapM f = .ok ys := by
  induction xs with
  | nil => exact ⟨[], rfl⟩
  | cons x xs ih =>
    obtain ⟨y, hy⟩ := h x List.mem_cons_self
    obtain ⟨ys, hys⟩ := ih fun z hz => h z (List.mem_cons_of_mem x hz)
    exact ⟨y :: ys, mapM_eq_ok.2 (.cons hy (mapM_eq_ok.1 hys))⟩

theorem exists_mapM_pair_eq_ok {f : α → Except ε β} {xs : List α} (h : ∀ x ∈ xs, ∃ y, f x = .ok y) :
    ∃ ps, (xs.mapM fun x => return (x, ← f x)) = .ok ps := by
  apply exists_mapM_eq_ok
  intro x hx
  obtain ⟨y, hy⟩ := h x hx
  exact ⟨(x, y), bind_eq_ok.2 ⟨y, hy, rfl⟩⟩

theorem mapM_eq_ok_map {f : α → Except ε β} {g : α → β} {xs : List α} (h : ∀ x ∈ xs, f x = .ok (g x)) :
    xs.mapM f = .ok (xs.map g) := by
  rw [mapM_eq_ok, List.forall₂_map_right_iff, List.forall₂_same]
  exact h

theorem mem_of_mapM_pair {f : α → Except ε β} {xs : List α} {ps : List (α × β)}
    (h : (xs.mapM fun x => return (x, ← f x)) = .ok ps) {x : α} {y : β} :
    (x, y) ∈ ps ↔ x ∈ xs ∧ f x = .ok y := by
  rw [mapM_eq_ok] at h
  induction h with
  | nil => simp
  | @cons z p xs ps hz _ ih =>
    simp only [bind_eq_ok, pure_eq_ok] at hz
    obtain ⟨w, hw, rfl⟩ := hz
    rw [List.mem_cons, List.mem_cons, ih, Prod.mk.injEq]
    constructor
    · rintro (⟨rfl, rfl⟩ | ⟨hx, hy⟩)
      · exact ⟨.inl rfl, hw⟩
      · exact ⟨.inr hx, hy⟩
    · rintro ⟨rfl | hx, hy⟩
      · exact .inl ⟨rfl, Except.ok.inj (hy.symm.trans hw)⟩
      · exact .inr ⟨hx, hy⟩

theorem map_of_mapM {f : α → Except ε β} {g : β → α} (hg : ∀ x y, f x = .ok y → g y = x) {xs : List α} {ys : List β}
    (h : xs.mapM f = .ok ys) : ys.map g = xs := by
  rw [mapM_eq_ok] at h
  induction h with
  | nil => rfl
  | cons hx _ ih => rw [List.map_cons, ih, hg _ _ hx]

theorem map_fst_of_mapM_pair {f : α → Except ε β} {xs : List α} {ps : List (α × β)}
    (h : (xs.mapM fun x => return (x, ← f x)) = .ok ps) : ps.map Prod.fst = xs := by
  refine map_of_mapM (fun x p hp => ?_) h
  simp only [bind_eq_ok, pure_eq_ok] at hp
  obtain ⟨y, _, rfl⟩ := hp
  rfl

theorem foldlM_keeps {f : σ → α → Except ε σ} {P : σ → Prop} {xs : List α} {s t : σ}
    (hstep : ∀ s a t, a ∈ xs → P s → f s a = .ok t → P t) (hs : P s) (h : xs.foldlM f s = .ok t) : P t := by
  induction xs generalizing s with
  | nil =>
    rw [List.foldlM_nil, pure_eq_ok] at h
    exact h ▸ hs
  | cons a xs ih =>
    rw [List.foldlM_cons, bind_eq_ok] at h
    obtain ⟨u, hu, h⟩ := h
    exact ih (fun s b t hb => hstep s b t (List.mem_cons_of_mem a hb)) (hstep s a u List.mem_cons_self hs hu) h

/-- A property of the state and what is still to come holds at the end if every step hands it on. -/
theorem foldlM_rest {f : σ → α → Except ε σ} {P : List α → σ → Prop} {xs : List α} {s t : σ}
    (hstep : ∀ a xs s t, P (a :: xs) s → f s a = .ok t → P xs t) (hs : P xs s) (h : xs.foldlM f s = .ok t) : P [] t := by
  induction xs generalizing s with
  | nil =>
    rw [List.foldlM_nil, pure_eq_ok] at h
    exact h ▸ hs
  | cons a xs ih =>
    rw [List.foldlM_cons, bind_eq_ok] at h
    obtain ⟨u, hu, h⟩ := h
    exact ih (hstep a xs s u hs hu) h

theorem forM_eq_ok {f : α → Except ε Unit} {xs : List α} (h : ∀ x ∈ xs, f x = .ok ()) : xs.forM f = .ok () := by
  induction xs with
  | nil => rfl
  | cons x xs ih =>
    show (f x >>= fun _ => xs.forM f) = _
    rw [bind_eq_ok]
    exact ⟨(), h x List.mem_cons_self, ih fun y hy => h y (List.mem_cons_of_mem x hy)⟩

/-! ### Operations that succeed -/

/-- The operation succeeds, and its result has the property. -/
def Yields (r : Except ε α) (P : α → Prop) : Prop := ∃ a, r = .ok a ∧ P a

theorem Yields.of_ok {r : Except ε α} {P : α → Prop} {a : α} (h : Yields r P) (hr : r = .ok a) : P a := by
  obtain ⟨b, hb, hP⟩ := h
  cases hr.symm.trans hb
  exact hP

theorem Yields.pure {P : α → Prop} {a : α} (h : P a) : Yields (pure a : Except ε α) P := ⟨a, rfl, h⟩

theorem Yields.bind {x : Except ε α} {f : α → Except ε β} {P : α → Prop} {Q : β → Prop} (hx : Yields x P)
    (hf : ∀ a, x = .ok a → P a → Yields (f a) Q) : Yields (x >>= f) Q := by
  obtain ⟨a, rfl, ha⟩ := hx
  exact hf a rfl ha

theorem Yields.bind_ok {x : Except ε α} {f : α → Except ε β} {Q : β → Prop} {a : α} (hx : x = .ok a)
    (hf : Yields (f a) Q) : Yields (x >>= f) Q := .bind (P := (· = a)) ⟨a, hx, rfl⟩ fun _ _ h => h ▸ hf

theorem Yields.foldlM {f : σ → α → Except ε σ} {P : σ → Prop} {xs : List α} {s : σ}
    (hstep : ∀ s, ∀ a ∈ xs, P s → Yields (f s a) P) (hs : P s) : Yields (xs.foldlM f s) P := by
  induction xs generalizing s with
  | nil => exact .pure hs
  | cons a xs ih =>
    rw [List.foldlM_cons]
    refine .bind (hstep s a List.mem_cons_self hs) fun t _ ht => ?_
    exact ih (fun u b hb => hstep u b (List.mem_cons_of_mem a hb)) ht

/-! ### Results that evaluation finds -/

instance decidableExistsOk {r : Except ε α} {P : α → Prop} [DecidablePred P] : Decidable (∃ a, r = .ok a ∧ P a) :=
  match r with
  | .error _ => isFalse fun h => h.elim fun _ h => nomatch h.1
  | .ok a => decidable_of_iff (P a) ⟨fun h => ⟨a, rfl, h⟩, fun h => h.elim fun _ h => Except.ok.inj h.1 ▸ h.2⟩

instance decidableExistsOkState {r : EStateM.Result ε σ α} {P : α → σ → Prop} [∀ a m, Decidable (P a m)] :
    Decidable (∃ a m, r = .ok a m ∧ P a m) :=
  match r with
  | .error _ _ => isFalse fun h => h.elim fun _ h => h.elim fun _ h => nomatch h.1
  | .ok a m => decidable_of_iff (P a m) ⟨fun h => ⟨a, m, rfl, h⟩, fun h => h.elim fun _ h => h.elim fun _ h => by
      obtain ⟨rfl, rfl⟩ := EStateM.Result.ok.inj h.1
      exact h.2⟩

/-! ### Runs that end -/

theorem bind_run_eq_ok {x : EStateM ε σ α} {f : α → EStateM ε σ β} {b : β} {m m' : σ} :
    (x >>= f) m = .ok b m' ↔ ∃ a m₁, x m = .ok a m₁ ∧ f a m₁ = .ok b m' := by
  show EStateM.bind x f m = .ok b m' ↔ _
  unfold EStateM.bind
  cases x m with
  | ok a m₁ => simp
  | error e m₁ => simp

theorem bind_run_eq_error {x : EStateM ε σ α} {f : α → EStateM ε σ β} {e : ε} {m m' : σ} :
    (x >>= f) m = .error e m' ↔ x m = .error e m' ∨ ∃ a m₁, x m = .ok a m₁ ∧ f a m₁ = .error e m' := by
  show EStateM.bind x f m = .error e m' ↔ _
  unfold EStateM.bind
  cases x m with
  | ok a m₁ => simp
  | error e m₁ => simp

theorem pure_run_eq_ok {a b : α} {m m' : σ} : (pure a : EStateM ε σ α) m = .ok b m' ↔ a = b ∧ m = m' := by
  show EStateM.Result.ok a m = .ok b m' ↔ _
  rw [EStateM.Result.ok.injEq]

end Outcome

/-! ### Monitors -/

namespace Monitor

/-- The monitor after a number of polls. -/
def after : Nat → Monitor → Monitor
  | 0, m => m
  | n + 1, m => after n m.poll.2

/-- Grants every poll, now and later. -/
def NeverCancels (m : Monitor) : Prop := ∀ n, (m.after n).poll.1 = true

theorem neverCancels_never : never.NeverCancels := by
  intro n
  induction n with
  | zero => rfl
  | succ n ih => exact ih

theorem NeverCancels.poll {m : Monitor} (h : m.NeverCancels) : m.poll.2.NeverCancels := fun n => h (n + 1)

end Monitor

namespace Polled

variable {α β σ : Type}

/-- `a` is the only result of the run, and nothing but a monitor keeps the run from it. -/
def Returns (run : Polled α) (a : α) : Prop :=
  ∀ m : Monitor, (∃ m', run m = .ok a m' ∧ (m.NeverCancels → m'.NeverCancels)) ∨
    (¬ m.NeverCancels ∧ ∃ m', run m = .error .canceled m')

theorem Returns.eq_of_ok {run : Polled α} {a b : α} {m m' : Monitor} (h : Returns run a) (hrun : run m = .ok b m') :
    b = a := by
  obtain ⟨_, hok, _⟩ | ⟨_, _, herror⟩ := h m
  · rw [hrun] at hok
    cases hok
    rfl
  · rw [hrun] at herror
    cases herror

theorem bind_of_ok {x : Polled α} {f : α → Polled β} {a : α} {m m' : Monitor} (h : x m = .ok a m') :
    (x >>= f) m = f a m' := by
  show EStateM.bind x f m = f a m'
  simp [EStateM.bind, h]

theorem bind_of_error {x : Polled α} {f : α → Polled β} {e : Stop} {m m' : Monitor} (h : x m = .error e m') :
    (x >>= f) m = .error e m' := by
  show EStateM.bind x f m = .error e m'
  simp [EStateM.bind, h]

theorem attempt_eq_ok {r : Except Fault α} {a : α} {m m' : Monitor} :
    attempt r m = .ok a m' ↔ r = .ok a ∧ m = m' := by
  cases r with
  | ok b => simp [attempt]
  | error f => simp [attempt]

theorem returns_pure (a : α) : Returns (pure a) a := fun m => .inl ⟨m, rfl, id⟩

theorem Returns.bind {x : Polled α} {f : α → Polled β} {a : α} {b : β} (hx : Returns x a) (hf : Returns (f a) b) :
    Returns (x >>= f) b := by
  intro m
  obtain ⟨m₁, hok, hkeep⟩ | ⟨hnot, m₁, herr⟩ := hx m
  · rw [bind_of_ok hok]
    obtain ⟨m₂, hok', hkeep'⟩ | ⟨hnot', m₂, herr'⟩ := hf m₁
    · exact .inl ⟨m₂, hok', fun hm => hkeep' (hkeep hm)⟩
    · exact .inr ⟨fun hm => hnot' (hkeep hm), m₂, herr'⟩
  · exact .inr ⟨hnot, m₁, bind_of_error herr⟩

theorem returns_poll : Returns poll () := by
  intro m
  unfold poll
  rcases hm : m.poll with ⟨granted, m'⟩
  cases granted with
  | true => exact .inl ⟨m', rfl, fun h => by simpa [hm] using h.poll⟩
  | false => exact .inr ⟨fun h => by simpa [Monitor.after, hm] using h 0, m', rfl⟩

theorem returns_attempt {r : Except Fault α} {a : α} (h : r = .ok a) : Returns (attempt r) a := by
  subst h
  exact fun m => .inl ⟨m, rfl, id⟩

theorem returns_forM_poll (xs : List α) : Returns (xs.forM fun _ => poll) () := by
  induction xs with
  | nil => exact returns_pure _
  | cons x xs ih =>
    exact returns_poll.bind ih

theorem returns_foldlM {f : σ → α → Polled σ} {g : σ → α → σ} {xs : List α}
    (h : ∀ s, ∀ a ∈ xs, Returns (f s a) (g s a)) (s : σ) : Returns (xs.foldlM f s) (xs.foldl g s) := by
  induction xs generalizing s with
  | nil => exact returns_pure s
  | cons a xs ih =>
    rw [List.foldlM_cons, List.foldl_cons]
    exact (h s a List.mem_cons_self).bind (ih (fun t b hb => h t b (List.mem_cons_of_mem a hb)) _)

theorem Returns.exists_bind {x : Polled α} {f : α → Polled β} {P : β → Prop} {a : α} (hx : Returns x a)
    (hf : ∃ b, Returns (f a) b ∧ P b) : ∃ b, Returns (x >>= f) b ∧ P b := by
  obtain ⟨b, hrun, hb⟩ := hf
  exact ⟨b, hx.bind hrun, hb⟩

theorem exists_returns_foldlM {f : σ → α → Polled σ} {P : σ → Prop} {xs : List α} {s : σ}
    (hstep : ∀ s, ∀ a ∈ xs, P s → ∃ t, Returns (f s a) t ∧ P t) (hs : P s) :
    ∃ t, Returns (xs.foldlM f s) t ∧ P t := by
  induction xs generalizing s with
  | nil => exact ⟨s, returns_pure s, hs⟩
  | cons a xs ih =>
    obtain ⟨t, hrun, ht⟩ := hstep s a List.mem_cons_self hs
    rw [List.foldlM_cons]
    exact hrun.exists_bind (ih (fun t b hb => hstep t b (List.mem_cons_of_mem a hb)) ht)

end Polled

end HeapSummary
