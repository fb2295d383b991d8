import Mathlib.Data.List.Dedup
import Mathlib.Data.List.Sort

/-!
# Sets of row ids

What a condition of a query resolves to. The source switches between a single
id, a bitmap and a sorted vector; all are read out in ascending order, so the
set is kept as its ascending list.
-/

namespace MongrelDB.Storage

/-- A set of row ids, as its ascending list. -/
structure RowIdSet where
  ids : List Nat
  sorted : ids.Pairwise fun a b => a < b

namespace RowIdSet

def empty : RowIdSet := ⟨[], List.Pairwise.nil⟩

def isEmpty (s : RowIdSet) : Bool := s.ids.isEmpty

def contains (s : RowIdSet) (id : Nat) : Bool := decide (id ∈ s.ids)

def retain (s : RowIdSet) (p : Nat → Bool) : RowIdSet := ⟨s.ids.filter p, s.sorted.filter p⟩

/-- The source starts from the smallest set and stops when nothing is left. -/
def intersectMany : List RowIdSet → RowIdSet
  | [] => empty
  | s :: sets => s.retain fun id => sets.all fun s => s.contains id

/-! ## Membership -/

variable {s : RowIdSet} {id : Nat} {ids : List Nat}

@[simp] theorem mem_retain {p : Nat → Bool} : id ∈ (s.retain p).ids ↔ id ∈ s.ids ∧ p id = true :=
  List.mem_filter

theorem mem_intersectMany {sets : List RowIdSet} (hne : sets ≠ []) :
    id ∈ (intersectMany sets).ids ↔ ∀ s ∈ sets, id ∈ s.ids := by
  cases sets with
  | nil => exact absurd rfl hne
  | cons s sets => simp [intersectMany, contains]

end RowIdSet

end MongrelDB.Storage
