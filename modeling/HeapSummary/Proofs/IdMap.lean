import HeapSummary.IdMap

/-!
# Maps written in a loop

What an entry of a map is after a loop that writes or changes entries.
-/

namespace HeapSummary

namespace IdMap

variable {k : Kind} {α β : Type} [Inhabited α] (key : β → Id k) {value : β → α} {x : Id k} {v : α}

theorem get_foldl_set_of_forall_ne {bs : List β} {m : IdMap k α} (h : ∀ b ∈ bs, key b ≠ x) :
    (bs.foldl (fun m b => m.set (key b) (value b)) m).get x = m.get x := by
  induction bs generalizing m with
  | nil => rfl
  | cons b bs ih =>
    rw [List.foldl_cons, ih fun b' hb' => h b' (List.mem_cons_of_mem b hb'), get_set,
      if_neg (Ne.symm (h b List.mem_cons_self))]

theorem get_foldl_set_of_forall_eq {bs : List β} {m : IdMap k α} (h : ∀ b ∈ bs, key b = x → value b = v)
    (hx : m.get x = v ∨ ∃ b ∈ bs, key b = x) : (bs.foldl (fun m b => m.set (key b) (value b)) m).get x = v := by
  induction bs generalizing m with
  | nil => simpa using hx
  | cons b bs ih =>
    rw [List.foldl_cons]
    refine ih (fun b' hb' => h b' (List.mem_cons_of_mem b hb')) ?_
    rw [get_set]
    by_cases hb : key b = x
    · rw [if_pos hb.symm]
      exact .inl (h b List.mem_cons_self hb)
    · rw [if_neg (Ne.symm hb)]
      refine hx.imp_right ?_
      rintro ⟨b', hb', hkey⟩
      rcases List.mem_cons.1 hb' with rfl | hb'
      · exact absurd hkey hb
      · exact ⟨b', hb', hkey⟩

theorem exists_get_of_mem_values {m : IdMap k α} (h : v ∈ m.values) : ∃ x, m.get x = v := by
  obtain ⟨i, hi, rfl⟩ := List.getElem_of_mem h
  have hsize : i < m.entries.size := by simpa [values] using hi
  exact ⟨⟨i⟩, by simp [get, values, hsize]⟩

/-- Changing several entries alike, some of them more than once, is the same as changing each of them once. -/
theorem get_foldl_modify {f : α → α} (hf : ∀ v, f (f v) = f v) (xs : List (Id k)) (m : IdMap k α) (x : Id k) :
    (xs.foldl (fun m y => m.modify y f) m).get x = if x ∈ xs then f (m.get x) else m.get x := by
  induction xs generalizing m with
  | nil => simp
  | cons y xs ih =>
    rw [List.foldl_cons, ih, get_modify]
    by_cases hxy : x = y
    · subst hxy
      rw [if_pos rfl, hf, if_pos List.mem_cons_self, ite_self]
    · simp [hxy]

end IdMap

end HeapSummary
