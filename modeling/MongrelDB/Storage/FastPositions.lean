import MongrelDB.Storage.QueryFetch

/-!
# Positions without a lookup

In a clean run whose row ids have no gap, a row stands at its id minus the least id.
-/

namespace MongrelDB.Storage

open Lib Epoch List

variable {F : Type}

/-- The header has the ids of the first and the last row, and zeros for an empty run. -/
def Run.minRowId (run : Run F) : Nat := (run.slots.head?.map fun s => s.row.rowId).getD 0

def Run.maxRowId (run : Run F) : Nat := (run.slots.getLast?.map fun s => s.row.rowId).getD 0

namespace RunReader

variable (r : RunReader F)

def cleanContiguousRowIds : Bool :=
  decide (0 < r.run.slots.length) && r.run.clean && r.epochOverride.isNone &&
    decide (r.run.minRowId ≤ r.run.maxRowId) &&
    decide (r.run.maxRowId - r.run.minRowId + 1 = r.run.slots.length)

def positionForRowIdFast (rowId : Nat) : Option Nat :=
  if r.cleanContiguousRowIds = false ∨ rowId < r.run.minRowId ∨ r.run.maxRowId < rowId then none
  else some (rowId - r.run.minRowId)

def positionsForRowIdsFast (rowIds : List Nat) : Option (List Nat) :=
  if r.cleanContiguousRowIds then
    some ((rowIds.filterMap r.positionForRowIdFast).insertionSort (· ≤ ·))
  else none

variable {r} {snap : Snapshot} {rowId p : Nat}

/-- Between two places of an increasing list the values grow at least as fast as the places. -/
theorem add_le_getElem {l : List Nat} (h : l.Pairwise (· < ·)) (i : Nat) :
    ∀ d, (hd : i + d < l.length) → l[i] + d ≤ l[i + d]
  | 0, _ => Nat.le_refl _
  | d + 1, hd => by
    have ih := add_le_getElem h i d (by omega)
    have hlt := pairwise_iff_getElem.mp h (i + d) (i + (d + 1)) (by omega) hd (by omega)
    omega

theorem rowId_of_contiguous (h : r.cleanContiguousRowIds = true) {i : Nat}
    (hi : i < r.run.slots.length) : r.run.slots[i].row.rowId = r.run.minRowId + i := by
  simp only [cleanContiguousRowIds, Bool.and_eq_true, decide_eq_true_eq] at h
  obtain ⟨⟨⟨⟨hpos, hclean⟩, -⟩, hle⟩, hspan⟩ := h
  have hids : (r.run.slots.map fun s => s.row.rowId).Pairwise (· < ·) :=
    pairwise_map.mpr (Run.pairwise_slots (r.run.clean_rows hclean).1)
  have hlow := add_le_getElem hids 0 i (by rw [length_map]; omega)
  have hhigh := add_le_getElem hids i (r.run.slots.length - 1 - i) (by rw [length_map]; omega)
  have hmin : r.run.minRowId = r.run.slots[0].row.rowId := by
    rw [Run.minRowId, head?_eq_getElem?, getElem?_eq_getElem hpos]
    rfl
  have hmax : r.run.maxRowId = r.run.slots[r.run.slots.length - 1].row.rowId := by
    rw [Run.maxRowId, getLast?_eq_getElem?, getElem?_eq_getElem (by omega)]
    rfl
  simp only [getElem_map, Nat.zero_add,
    show i + (r.run.slots.length - 1 - i) = r.run.slots.length - 1 by omega] at hlow hhigh
  omega

theorem rowId_of_mem (h : r.cleanContiguousRowIds = true) {s : Slot F} (hs : s ∈ r.run.slots) :
    s.index < r.run.slots.length ∧ s.row.rowId = r.run.minRowId + s.index := by
  obtain ⟨hi, hget⟩ := List.getElem?_eq_some_iff.mp (Run.getElem?_index hs)
  have hid := rowId_of_contiguous h hi
  rw [hget] at hid
  exact ⟨hi, hid⟩

theorem positionForRowIdFast_eq_some (h : r.cleanContiguousRowIds = true) :
    r.positionForRowIdFast rowId = some p ↔
      ∃ s ∈ r.run.slots, s.row.rowId = rowId ∧ s.index = p := by
  have hspan : r.run.minRowId ≤ r.run.maxRowId ∧
      r.run.maxRowId - r.run.minRowId + 1 = r.run.slots.length := by
    simp only [cleanContiguousRowIds, Bool.and_eq_true, decide_eq_true_eq] at h
    exact ⟨h.1.2, h.2⟩
  constructor
  · intro hp
    unfold positionForRowIdFast at hp
    split at hp
    · cases hp
    next hcond =>
      obtain rfl := Option.some.inj hp
      have hi : rowId - r.run.minRowId < r.run.slots.length := by omega
      have hid := rowId_of_contiguous h hi
      have hplace := (rowId_of_mem h (getElem_mem hi)).2
      exact ⟨_, getElem_mem hi, by omega, by omega⟩
  · rintro ⟨s, hs, rfl, rfl⟩
    have hid := rowId_of_mem h hs
    have hinside : ¬ (s.row.rowId < r.run.minRowId ∨ r.run.maxRowId < s.row.rowId) := by omega
    rw [positionForRowIdFast, h, if_neg (by simpa using hinside), hid.2, Nat.add_sub_cancel_left]

/-- In a clean run the lookup finds the rows that the snapshot observes. -/
theorem positionOf_eq_some (hc : r.run.clean = true) :
    r.positionOf snap rowId = some p ↔
      ∃ s ∈ r.run.slots, s.row.rowId = rowId ∧ s.index = p ∧ r.visible snap s = true := by
  obtain ⟨l, hl, hpos⟩ := r.exists_positionOf snap rowId
  have hmem := fun s => (hl.mem_iff s).trans (winner_iff_of_clean hc)
  rw [hpos, Option.map_eq_some_iff]
  constructor
  · rintro ⟨s, hfind, rfl⟩
    obtain ⟨hs, hv⟩ := (hmem s).mp (mem_of_find?_eq_some hfind)
    exact ⟨s, hs, by simpa using find?_some hfind, rfl, hv⟩
  · rintro ⟨s, hs, rfl, rfl, hv⟩
    cases hfind : l.find? fun t => decide (t.row.rowId = s.row.rowId) with
    | none => exact absurd (decide_eq_true rfl) (find?_eq_none.mp hfind s ((hmem s).mpr ⟨hs, hv⟩))
    | some t =>
      have heq : t = s := Run.eq_of_rowId_eq hc ((hmem t).mp (mem_of_find?_eq_some hfind)).1 hs
        (by simpa using find?_some hfind)
      exact ⟨t, rfl, by rw [heq]⟩

/-- The fast positions are those of the lookup exactly when the snapshot observes every candidate
that the run holds. -/
theorem positions_fast_iff (h : r.cleanContiguousRowIds = true) (snap : Snapshot)
    (rowIds : List Nat) :
    r.positionsForRowIdsFast rowIds =
        some ((rowIds.filterMap (r.positionOf snap)).insertionSort (· ≤ ·)) ↔
      ∀ s ∈ r.run.slots, s.row.rowId ∈ rowIds → r.visible snap s = true := by
  have hc : r.run.clean = true := by
    simp only [cleanContiguousRowIds, Bool.and_eq_true] at h
    exact h.1.1.1.2
  rw [positionsForRowIdsFast, if_pos h]
  constructor
  · intro heq s hs hmem
    have hin : s.index ∈ rowIds.filterMap r.positionForRowIdFast :=
      mem_filterMap.mpr ⟨_, hmem, (positionForRowIdFast_eq_some h).mpr ⟨s, hs, rfl, rfl⟩⟩
    rw [← mem_insertionSort (· ≤ ·), Option.some.inj heq, mem_insertionSort, mem_filterMap] at hin
    obtain ⟨rid, -, hpos⟩ := hin
    obtain ⟨t, ht, -, hindex, hv⟩ := (positionOf_eq_some hc).mp hpos
    exact Run.eq_of_index_eq ht hs hindex ▸ hv
  · intro hvis
    have hsame : ∀ rid ∈ rowIds, r.positionForRowIdFast rid = r.positionOf snap rid := by
      intro rid hrid
      refine Option.ext fun p => ?_
      rw [positionForRowIdFast_eq_some h, positionOf_eq_some hc]
      refine exists_congr fun s => and_congr_right fun hs => ?_
      exact and_congr_right fun hid => (and_iff_left (hvis s hs (hid ▸ hrid))).symm
    rw [filterMap_congr hsame]

/-- A clean run of one row, committed at epoch 2. -/
def committedLater : RunReader Nat :=
  openFile
    { pages := [[⟨5, 2, [], false, none⟩]]
      storedColumns := [], hasCommitTs := false, clean := true, uniformEpoch := false
      epochCreated := 2, sorted := by decide, clean_rows := by decide, epoch_le := by decide
      uniform_zero := by decide } []

theorem positions_fast_after_commit :
    committedLater.positionsForRowIdsFast [4, 5] =
      some (([4, 5].filterMap (committedLater.positionOf (.atEpoch 2))).insertionSort (· ≤ ·)) :=
  (positions_fast_iff (by decide) (.atEpoch 2) [4, 5]).mpr (by decide)

/-- A snapshot from before the commit is given the row as well. -/
theorem positions_fast_before_commit : committedLater.cleanContiguousRowIds = true ∧
    committedLater.positionsForRowIdsFast [5] = some [0] ∧
      [5].filterMap (committedLater.positionOf (.atEpoch 1)) = [] := by
  decide

end RunReader

end MongrelDB.Storage
