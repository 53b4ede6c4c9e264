import HeapSummary.Fault

/-!
# Arenas

A growing table whose rows are named by identifiers of one kind, in order of creation. Reading a row that is not there is
a fault.

Arenas are taken to stay smaller than the reserved number. Making a row does not check that; below the limit, and only
there, the number of the next row is one that may name an entity (`ofNat_size_eq_ok_iff`).
-/

namespace HeapSummary

structure Arena (k : Kind) (α : Type) where
  rows : Array α
  deriving DecidableEq

namespace Arena

variable {k : Kind} {α : Type}

def empty : Arena k α := ⟨#[]⟩

instance : Inhabited (Arena k α) := ⟨empty⟩

def size (a : Arena k α) : Nat := a.rows.size

def isEmpty (a : Arena k α) : Bool := a.rows.isEmpty

/-- The identifier of the next row. -/
def nextId (a : Arena k α) : Id k := ⟨a.size⟩

def push (a : Arena k α) (row : α) : Arena k α := ⟨a.rows.push row⟩

def ids (a : Arena k α) : List (Id k) := (List.range a.size).map Id.mk

def values (a : Arena k α) : List α := a.rows.toList

def entries (a : Arena k α) : List (Id k × α) := a.ids.zip a.values

def get? (a : Arena k α) (x : Id k) : Option α := a.rows[x.index]?

/-- The row of `x`. -/
def read (a : Arena k α) (x : Id k) : Except Fault α :=
  match a.get? x with
  | some row => .ok row
  | none => .error (.outOfBounds a.size x.index)

/-- Applies `f` to the row of `x`, if there is one. -/
def modify (a : Arena k α) (x : Id k) (f : α → α) : Arena k α := ⟨a.rows.modify x.index f⟩

/-- Overwrites the row of `x`. -/
def write (a : Arena k α) (x : Id k) (row : α) : Except Fault (Arena k α) := do
  let _ ← a.read x
  return a.modify x fun _ => row

/-! ### Laws -/

@[simp] theorem size_push (a : Arena k α) (row : α) : (a.push row).size = a.size + 1 := by simp [push, size]

@[simp] theorem size_modify (a : Arena k α) (x : Id k) (f : α → α) : (a.modify x f).size = a.size := by
  simp [modify, size]

theorem ofNat_size_eq_ok_iff {a : Arena k α} : Id.ofNat a.size = .ok a.nextId ↔ a.size < Id.reserved := by
  rw [Id.ofNat_eq_ok]
  exact and_iff_left rfl

theorem get?_push (a : Arena k α) (row : α) (x : Id k) :
    (a.push row).get? x = if x = a.nextId then some row else a.get? x := by
  simp [push, get?, nextId, size, Array.getElem?_push, Id.ext_iff]

theorem get?_modify (a : Arena k α) (x y : Id k) (f : α → α) :
    (a.modify x f).get? y = if x = y then (a.get? y).map f else a.get? y := by
  simp [modify, get?, Array.getElem?_modify, Id.ext_iff]

theorem get?_eq_none_iff {a : Arena k α} {x : Id k} : a.get? x = none ↔ a.size ≤ x.index := by
  simp [get?, size]

theorem ext_get? {a b : Arena k α} (h : ∀ x, a.get? x = b.get? x) : a = b := by
  obtain ⟨rows⟩ := a
  obtain ⟨rows'⟩ := b
  exact congrArg mk (Array.ext_getElem? fun i => h ⟨i⟩)

theorem lt_size_of_get? {a : Arena k α} {x : Id k} {row : α} (h : a.get? x = some row) : x.index < a.size := by
  refine Nat.lt_of_not_le fun hle => ?_
  simp [get?_eq_none_iff.2 hle] at h

theorem read_eq_ok_iff {a : Arena k α} {x : Id k} {row : α} : a.read x = .ok row ↔ a.get? x = some row := by
  unfold read
  split <;> simp_all

@[simp] theorem mem_ids {a : Arena k α} {x : Id k} : x ∈ a.ids ↔ x.index < a.size := by
  simp only [ids, List.mem_map, List.mem_range]
  exact ⟨by rintro ⟨i, hi, rfl⟩; exact hi, fun h => ⟨x.index, h, rfl⟩⟩

theorem nodup_ids (a : Arena k α) : a.ids.Nodup :=
  List.Pairwise.map Id.mk (fun _ _ hne heq => hne (congrArg Id.index heq)) List.nodup_range

theorem mem_entries {a : Arena k α} {x : Id k} {row : α} : (x, row) ∈ a.entries ↔ a.get? x = some row := by
  unfold entries ids values get? size
  rw [List.mem_iff_getElem?]
  simp only [List.getElem?_zip_eq_some, List.getElem?_map, Array.getElem?_toList, Option.map_eq_some_iff]
  constructor
  · rintro ⟨i, ⟨j, hj, rfl⟩, hrow⟩
    obtain ⟨hi, rfl⟩ := List.getElem?_eq_some_iff.1 hj
    simpa using hrow
  · intro h
    have hlt : x.index < a.rows.size := (Array.getElem?_eq_some_iff.1 h).1
    exact ⟨x.index, ⟨x.index, by simp [hlt], rfl⟩, h⟩

end Arena

end HeapSummary
