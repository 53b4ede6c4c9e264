import HeapSummary.Id

/-!
# Maps from identifiers

A total map from the identifiers of one kind. All but finitely many identifiers have the default value; writing makes
room as needed.
-/

namespace HeapSummary

structure IdMap (k : Kind) (α : Type) where
  entries : Array α
  deriving DecidableEq

namespace IdMap

variable {k : Kind} {α : Type}

/-- The map whose every value is the default. -/
def empty : IdMap k α := ⟨#[]⟩

instance : Inhabited (IdMap k α) := ⟨empty⟩

variable [Inhabited α]

def get (m : IdMap k α) (x : Id k) : α := m.entries[x.index]?.getD default

def set (m : IdMap k α) (x : Id k) (v : α) : IdMap k α :=
  if x.index < m.entries.size then ⟨m.entries.setIfInBounds x.index v⟩
  else ⟨(m.entries ++ Array.replicate (x.index - m.entries.size) default).push v⟩

def modify (m : IdMap k α) (x : Id k) (f : α → α) : IdMap k α := m.set x (f (m.get x))

/-- The values written so far, with the defaults that fill the gaps. -/
def values (m : IdMap k α) : List α := m.entries.toList

/-! ### Laws -/

@[simp] theorem get_empty (x : Id k) : (empty : IdMap k α).get x = default := rfl

theorem get_set (m : IdMap k α) (x y : Id k) (v : α) : (m.set x v).get y = if y = x then v else m.get y := by
  unfold set
  split
  · rename_i h
    by_cases hxy : y = x
    · subst hxy
      simp [get, h]
    · have : ¬ x.index = y.index := fun e => hxy (Id.ext e.symm)
      simp [get, hxy, this]
  · rename_i h
    have hsize : m.entries.size + (x.index - m.entries.size) = x.index := by omega
    by_cases hxy : y = x
    · subst hxy
      simp only [get, if_true, Array.getElem?_push, Array.size_append, Array.size_replicate, hsize, Option.getD_some]
    · have hne : ¬ y.index = x.index := fun e => hxy (Id.ext e)
      simp only [get, hxy, if_false, Array.getElem?_push, Array.size_append, Array.size_replicate, hsize, hne]
      by_cases hlt : y.index < m.entries.size
      · rw [Array.getElem?_append_left hlt]
      · rw [Array.getElem?_append_right (by omega), Array.getElem?_replicate]
        have : m.entries[y.index]? = none := Array.getElem?_eq_none (by omega)
        split <;> simp [this]

@[simp] theorem get_set_self (m : IdMap k α) (x : Id k) (v : α) : (m.set x v).get x = v := by simp [get_set]

theorem get_modify (m : IdMap k α) (x y : Id k) (f : α → α) :
    (m.modify x f).get y = if y = x then f (m.get x) else m.get y := by
  simp [modify, get_set]

theorem mem_values_or_default (m : IdMap k α) (x : Id k) : m.get x ∈ m.values ∨ m.get x = default := by
  unfold get
  cases h : m.entries[x.index]? with
  | none => simp
  | some v => exact .inl (Array.mem_toList_iff.2 (Array.mem_of_getElem? h))

theorem mem_values_set {m : IdMap k α} {x : Id k} {v a : α} (h : a ∈ (m.set x v).values) :
    a = v ∨ a ∈ m.values ∨ a = default := by
  unfold set at h
  split at h
  · have h := Array.mem_or_eq_of_mem_setIfInBounds (Array.mem_toList_iff.1 h)
    exact h.elim (fun h => .inr (.inl (Array.mem_toList_iff.2 h))) .inl
  · simp only [values, Array.toList_push, Array.toList_append, Array.toList_replicate, List.mem_append,
      List.mem_replicate, List.mem_singleton] at h
    rcases h with (h | h) | h
    · exact .inr (.inl h)
    · exact .inr (.inr h.2)
    · exact .inl h

end IdMap

end HeapSummary
