import HeapSummary.IdSet.Basic

/-!
# Sets of identifiers: laws

Membership is the view of an `IdSet`: `mem_insert`, `mem_erase`, `mem_union` and the rest say what each operation does
to it, `ext` says that it determines the set, and `mem_toList` with `toList_pairwise` says what is listed and in which
order.
-/

namespace HeapSummary.IdSet

variable {k : Kind} {s t u : IdSet k} {x y : Id k}

/-! ### Membership -/

theorem mem_iff : x ∈ s ↔ s.contains x = true := Iff.rfl

theorem contains_eq : s.contains x = decide (x ∈ s) := by
  by_cases h : x ∈ s
  · simpa [h] using mem_iff.1 h
  · simpa [h] using mt mem_iff.2 h

theorem ext (h : ∀ x, x ∈ s ↔ x ∈ t) : s = t := by
  have hw : s.words = t.words := Words.eq_of_bit_eq s.trimmed t.trimmed fun i => Bool.eq_iff_iff.2 (h ⟨i⟩)
  cases s
  cases t
  simp_all

theorem ext_iff : s = t ↔ ∀ x, x ∈ s ↔ x ∈ t := ⟨fun h _ => h ▸ Iff.rfl, ext⟩

@[simp] theorem not_mem_empty : x ∉ (∅ : IdSet k) := by
  simp [mem_iff, contains, EmptyCollection.emptyCollection, empty]

@[simp] theorem mem_insert : y ∈ s.insert x ↔ y = x ∨ y ∈ s := by
  simp [mem_iff, contains, insert, add, Words.bit_insert, Id.ext_iff]

@[simp] theorem mem_erase : y ∈ s.erase x ↔ y ≠ x ∧ y ∈ s := by
  simp [mem_iff, contains, erase, remove, Words.bit_remove, Id.ext_iff]

@[simp] theorem mem_union : x ∈ s ∪ t ↔ x ∈ s ∨ x ∈ t := by
  simp [mem_iff, contains, Union.union, unionWith, Words.bit_unionWith]

@[simp] theorem mem_diff : x ∈ s \ t ↔ x ∈ s ∧ x ∉ t := by
  simp [mem_iff, contains, SDiff.sdiff, diff, Words.bit_trim, Words.bit_diff]

theorem isSubset_iff : s.isSubset t = true ↔ ∀ x ∈ s, x ∈ t :=
  (Words.within_iff _ _).trans ⟨fun h x => h x.index, fun h i => h ⟨i⟩⟩

theorem intersects_iff : s.intersects t = true ↔ ∃ x, x ∈ s ∧ x ∈ t :=
  (Words.meets_iff _ _).trans ⟨fun ⟨i, h⟩ => ⟨⟨i⟩, h⟩, fun ⟨x, h⟩ => ⟨x.index, h⟩⟩

theorem isEmpty_iff : s.isEmpty = true ↔ s = ∅ := by
  constructor
  · intro h
    cases s
    simp_all [isEmpty, EmptyCollection.emptyCollection, empty]
  · rintro rfl
    rfl

theorem isEmpty_eq_false_iff : s.isEmpty = false ↔ ∃ x, x ∈ s := by
  rw [← Bool.not_eq_true, isEmpty_iff]
  constructor
  · intro h
    refine Classical.byContradiction fun hno => h (ext fun x => ?_)
    simpa using fun hx => hno ⟨x, hx⟩
  · rintro ⟨x, hx⟩ rfl
    exact not_mem_empty hx

/-! ### What updates tell -/

theorem add_isNew : (s.add x).2 = !s.contains x := Words.insert_isNew s.words x.index

theorem remove_wasMember : (s.remove x).2 = s.contains x := Words.remove_wasSet s.words x.index

theorem unionWith_grows : (s.unionWith t).2 = !t.isSubset s := Words.unionWith_grows s.words t.words

/-! ### Lists -/

@[simp] theorem mem_toList : x ∈ s.toList ↔ x ∈ s := by
  constructor
  · intro h
    obtain ⟨i, hi, rfl⟩ := List.mem_map.1 h
    exact (Words.mem_membersFrom.1 hi).2
  · intro h
    exact List.mem_map.2 ⟨x.index, Words.mem_membersFrom.2 ⟨Nat.zero_le _, h⟩, rfl⟩

theorem toList_pairwise (s : IdSet k) : s.toList.Pairwise (fun x y => x.index < y.index) :=
  List.pairwise_map.2 ((Words.membersFrom_pairwise 0 s.words).imp fun h => h)

theorem toList_nodup (s : IdSet k) : s.toList.Nodup :=
  (toList_pairwise s).imp fun {a b} h e => by
    subst e
    omega

@[simp] theorem toList_empty : (∅ : IdSet k).toList = [] := rfl

theorem toList_eq_nil_iff : s.toList = [] ↔ s = ∅ := by
  rw [List.eq_nil_iff_forall_not_mem, ext_iff]
  simp

@[simp] theorem mem_insertAll {xs : List (Id k)} : x ∈ s.insertAll xs ↔ x ∈ s ∨ x ∈ xs := by
  induction xs generalizing s with
  | nil => simp [insertAll]
  | cons a xs ih =>
    have : s.insertAll (a :: xs) = (s.insert a).insertAll xs := rfl
    simp only [this, ih, mem_insert, List.mem_cons]
    exact ⟨by rintro ((h | h) | h) <;> simp [h], by rintro (h | h | h) <;> simp [h]⟩

@[simp] theorem mem_ofList {xs : List (Id k)} : x ∈ ofList xs ↔ x ∈ xs := by
  simp [ofList]

@[simp] theorem ofList_toList (s : IdSet k) : ofList s.toList = s := ext fun x => by simp

@[simp] theorem mem_singleton : y ∈ singleton x ↔ y = x := by simp [singleton]

theorem singleton_inj : singleton x = singleton y ↔ x = y :=
  ⟨fun h => mem_singleton.1 (h ▸ mem_singleton.2 rfl), congrArg singleton⟩

@[simp] theorem mem_filter {p : Id k → Bool} : x ∈ s.filter p ↔ x ∈ s ∧ p x = true := by
  simp [filter]

theorem mem_foldl_union {α : Type} {xs : List α} {f : α → IdSet k} :
    x ∈ xs.foldl (fun s a => s ∪ f a) s ↔ x ∈ s ∨ ∃ a ∈ xs, x ∈ f a := by
  induction xs generalizing s with
  | nil => simp
  | cons a xs ih => simp [ih, or_assoc]

@[simp] theorem mem_unionMap {α : Type} {xs : List α} {f : α → IdSet k} :
    x ∈ unionMap xs f ↔ ∃ a ∈ xs, x ∈ f a := by
  simp [unionMap, mem_foldl_union]

/-! ### Sizes -/

theorem length_toList (s : IdSet k) : s.toList.length = s.size := by
  rw [toList, List.length_map]
  exact Words.length_membersFrom 0 s.words

theorem size_le_of_subset (h : ∀ x ∈ s, x ∈ t) : s.size ≤ t.size := by
  rw [← length_toList, ← length_toList]
  exact (toList_nodup s).length_le_of_subset fun x hx => mem_toList.2 (h x (mem_toList.1 hx))

theorem size_lt_of_ssubset (h : ∀ x ∈ s, x ∈ t) (hy : y ∈ t) (hns : y ∉ s) : s.size < t.size := by
  have hnd : (y :: s.toList).Nodup := List.nodup_cons.2 ⟨by simpa using hns, toList_nodup s⟩
  have hsub : ∀ x ∈ y :: s.toList, x ∈ t.toList := fun x hx => by
    rcases List.mem_cons.1 hx with rfl | hx
    · exact mem_toList.2 hy
    · exact mem_toList.2 (h x (mem_toList.1 hx))
  rw [← length_toList, ← length_toList]
  exact Nat.lt_of_lt_of_le (Nat.lt_succ_self _) (hnd.length_le_of_subset hsub)

theorem size_eq_add (h : ∀ x, x ∈ s ↔ x ∈ t ∨ x ∈ u) (hd : ∀ x ∈ t, x ∉ u) : s.size = t.size + u.size := by
  have hnd : (t.toList ++ u.toList).Nodup := by
    refine List.nodup_append.2 ⟨toList_nodup t, toList_nodup u, fun x hx y hy hxy => ?_⟩
    rw [mem_toList] at hx hy
    exact hd x hx (hxy ▸ hy)
  have hperm : s.toList.Perm (t.toList ++ u.toList) := by
    rw [List.perm_ext_iff_of_nodup (toList_nodup s) hnd]
    intro x
    simp [h x]
  rw [← length_toList, ← length_toList, ← length_toList, hperm.length_eq, List.length_append]

theorem toList_perm_cons_erase (h : x ∈ s) : s.toList.Perm (x :: (s.erase x).toList) := by
  have hnd : (x :: (s.erase x).toList).Nodup := List.nodup_cons.2 ⟨by simp, toList_nodup _⟩
  rw [List.perm_ext_iff_of_nodup (toList_nodup s) hnd]
  intro y
  by_cases hy : y = x <;> simp [hy, h]

theorem size_diff_union {f : IdSet k} (hs : ∀ x ∈ f, x ∈ s) (ht : ∀ x ∈ f, x ∉ t) :
    (s \ t).size = f.size + (s \ (t ∪ f)).size := by
  refine size_eq_add (fun x => ?_) (fun x hx hmem => ?_)
  · simp only [mem_diff, mem_union, not_or]
    by_cases hx : x ∈ f
    · simp [hx, hs x hx, ht x hx]
    · simp [hx]
  · rw [mem_diff, mem_union, not_or] at hmem
    exact hmem.2.2 hx

end HeapSummary.IdSet
