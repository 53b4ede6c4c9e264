/-!
# Totals

Sums of natural numbers over lists, and how they compare: for counters, and for the measures of searches and queues.
-/

namespace HeapSummary

variable {α : Type} {f g : α → Nat}

/-- The sum of `f` over a list. -/
def total (f : α → Nat) : List α → Nat
  | [] => 0
  | a :: xs => f a + total f xs

@[simp] theorem total_nil : total f [] = 0 := rfl

@[simp] theorem total_cons (a : α) (xs : List α) : total f (a :: xs) = f a + total f xs := rfl

theorem total_perm {xs ys : List α} (h : xs.Perm ys) : total f xs = total f ys := by
  induction h with
  | nil => rfl
  | cons a _ ih => simp [ih]
  | swap a b xs => simp only [total_cons]; omega
  | trans _ _ ih₁ ih₂ => rw [ih₁, ih₂]

theorem total_le {xs : List α} (h : ∀ a ∈ xs, f a ≤ g a) : total f xs ≤ total g xs := by
  induction xs with
  | nil => exact Nat.le_refl 0
  | cons a xs ih =>
    have ha := h a (by simp)
    have := ih fun b hb => h b (List.mem_cons_of_mem _ hb)
    simp only [total_cons]
    omega

theorem total_lt {xs : List α} (h : ∀ a ∈ xs, f a ≤ g a) {b : α} (hb : b ∈ xs) (hlt : f b < g b) :
    total f xs < total g xs := by
  induction xs with
  | nil => simp at hb
  | cons a xs ih =>
    have ha := h a (by simp)
    have hxs : ∀ c ∈ xs, f c ≤ g c := fun c hc => h c (List.mem_cons_of_mem _ hc)
    simp only [total_cons]
    rcases List.mem_cons.1 hb with rfl | hb
    · have := total_le hxs
      omega
    · have := ih hxs hb
      omega

theorem le_total {xs : List α} {a : α} (h : a ∈ xs) : f a ≤ total f xs := by
  induction xs with
  | nil => simp at h
  | cons b xs ih =>
    simp only [total_cons]
    rcases List.mem_cons.1 h with rfl | h
    · omega
    · have := ih h
      omega

end HeapSummary
