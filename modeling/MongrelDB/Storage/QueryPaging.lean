import MongrelDB.Storage.QueryFetch
import MongrelDB.Storage.TableAgreement

/-!
# Does a query return the page it was asked for?

A query with conditions should return the page at `offset` of the rows that are
visible at the snapshot, satisfy all conditions, are permitted and lie behind the
cursor.
-/

namespace MongrelDB.Storage

open Epoch Lib List
open Option hiding all_eq_true any_eq_true mem_map forall_mem_map

variable {F C : Type}

/-! ## The candidates -/

namespace Table

variable {t : Table F} {resolve : C → RowIdSet} {allowed : Option (List Nat)}
  {afterRowId : Option Nat} {sets : List RowIdSet}

section

variable (sets : List RowIdSet) (allowed : Option (List Nat)) (afterRowId : Option Nat)

theorem candidateRids_eq_filter :
    candidateRids sets allowed afterRowId =
      ((RowIdSet.intersectMany sets).ids.filter (admits allowed)).filter (isAfter afterRowId) := by
  refine dropWhile_eq_filter (((RowIdSet.intersectMany sets).sorted.filter _).imp ?_)
  intro a b hab ha
  cases afterRowId with
  | none => rfl
  | some after =>
    simp only [isAfter, all_some, decide_eq_true_eq] at ha ⊢
    omega

theorem candidateRids_sorted :
    (candidateRids sets allowed afterRowId).Pairwise fun a b => a < b := by
  rw [candidateRids_eq_filter]
  exact ((RowIdSet.intersectMany sets).sorted.filter _).filter _

end

theorem mem_candidateRids (hne : sets ≠ []) {id : Nat} :
    id ∈ candidateRids sets allowed afterRowId ↔
      (∀ s ∈ sets, id ∈ s.ids) ∧ admits allowed id = true ∧ isAfter afterRowId id = true := by
  rw [candidateRids_eq_filter, mem_filter, mem_filter, RowIdSet.mem_intersectMany hne,
    and_assoc]

/-- Neither the order of the conditions nor the early stop matters. -/
theorem candidateRids_resolved (costRank : C → Nat) (resolve : C → RowIdSet)
    (allowed : Option (List Nat)) (afterRowId : Option Nat) {conditions : List C}
    (hne : conditions ≠ []) :
    ∃ sets, resolveInOrder (fun c => .ok (resolve c))
        (conditions.insertionSort fun a b => costRank a ≤ costRank b) = .ok sets ∧
      candidateRids sets allowed afterRowId =
        candidateRids (conditions.map resolve) allowed afterRowId := by
  have hperm := perm_insertionSort (fun a b => costRank a ≤ costRank b) conditions
  have hne' : conditions.insertionSort (fun a b => costRank a ≤ costRank b) ≠ [] := by
    rw [ne_eq, ← length_eq_zero_iff, hperm.length_eq, length_eq_zero_iff]
    exact hne
  obtain ⟨sets, hsets, hsets_ne, hmem⟩ := resolveInOrder_spec (fun _ => True)
    (fun c id => id ∈ (resolve c).ids) hne' fun c _ => ⟨resolve c, rfl, fun _ _ => Iff.rfl⟩
  refine ⟨sets, hsets, ?_⟩
  refine (candidateRids_sorted _ _ _).eq_of_mem_iff (candidateRids_sorted _ _ _) fun id => ?_
  rw [mem_candidateRids hsets_ne, mem_candidateRids (by simpa using hne), hmem id trivial,
    forall_mem_map]
  simp only [hperm.mem_iff]

/-! ## The rows a query is about -/

/-- The visible rows that satisfy every condition, are permitted and lie behind the cursor, by
ascending row id. -/
def matchingRows (t : Table F) (satisfies : C → Row F → Bool) (conditions : List C)
    (snap : Snapshot) (allowed : Option (List Nat)) (afterRowId : Option Nat) (nowNanos : Int) :
    List (Row F) :=
  (t.visibleRowsAtTime snap nowNanos).filter fun row =>
    conditions.all (fun c => satisfies c row) && admits allowed row.rowId &&
      isAfter afterRowId row.rowId

/-- The set of the condition is right about every permitted row that is visible. Of rows that are
not visible it may hold any. -/
def ResolvesVisible (t : Table F) (satisfies : C → Row F → Bool) (resolve : C → RowIdSet)
    (snap : Snapshot) (allowed : Option (List Nat)) (nowNanos : Int) (c : C) : Prop :=
  ∀ row ∈ t.visibleRowsAtTime snap nowNanos, admits allowed row.rowId = true →
    (row.rowId ∈ (resolve c).ids ↔ satisfies c row = true)
  deriving Decidable

/-- The snapshot has a visible row under this id. -/
def isVisible (t : Table F) (snap : Snapshot) (nowNanos : Int) (rid : Nat) : Bool :=
  (t.visibleRowsAtTime snap nowNanos).any fun row => decide (row.rowId = rid)

variable {satisfies : C → Row F → Bool} {conditions : List C} {snap : Snapshot} {nowNanos : Int}

theorem rowId_of_visibleRow {rid : Nat} {row : Row F}
    (h : t.visibleRow snap nowNanos rid = some row) :
    row.rowId = rid := by
  rw [visibleRow, filter_eq_some_iff] at h
  exact (mem_versionsOf.mp (mem_of_mem_filter (winner_mem h.1))).2

theorem mem_visibleRowsAtTime {row : Row F} :
    row ∈ t.visibleRowsAtTime snap nowNanos ↔ t.visibleRow snap nowNanos row.rowId = some row := by
  have hscan := t.versionsOf_scan row.rowId snap nowNanos
  rw [visibleRow, ← mem_toList, ← hscan, mem_versionsOf, and_iff_left rfl]

theorem visibleRowsAtTime_sorted (t : Table F) (snap : Snapshot) (nowNanos : Int) :
    (t.visibleRowsAtTime snap nowNanos).Pairwise fun a b => a.rowId < b.rowId := by
  unfold visibleRowsAtTime
  dsimp only
  refine ((pairwise_insertionSort _ _).and ?_).imp fun {a b} h => Nat.lt_of_le_of_ne h.1 h.2
  have hperm := perm_insertionSort (fun a b : Row F => a.rowId ≤ b.rowId)
  rw [← pairwise_map (f := Row.rowId) (R := fun i j => i ≠ j)]
  refine ((hperm _).map Row.rowId).nodup_iff.mpr ?_
  exact (nodup_keys_tally _).sublist (filter_sublist.map _)

theorem isVisible_eq (t : Table F) (snap : Snapshot) (nowNanos : Int) (rid : Nat) :
    t.isVisible snap nowNanos rid = (t.visibleRow snap nowNanos rid).isSome := by
  rw [Bool.eq_iff_iff, isVisible, any_eq_true, isSome_iff_exists]
  constructor
  · intro ⟨row, hrow, hid⟩
    rw [mem_visibleRowsAtTime, of_decide_eq_true hid] at hrow
    exact ⟨row, hrow⟩
  · intro ⟨row, hrow⟩
    have hid := rowId_of_visibleRow hrow
    exact ⟨row, mem_visibleRowsAtTime.mpr (hid.symm ▸ hrow), decide_eq_true hid⟩

theorem visibleRow_sorted {rids : List Nat} (hs : rids.Pairwise fun a b => a < b) :
    (rids.filterMap (t.visibleRow snap nowNanos)).Pairwise fun a b => a.rowId < b.rowId := by
  refine hs.filterMap _ fun x y hxy a ha b hb => ?_
  rw [rowId_of_visibleRow ha, rowId_of_visibleRow hb]
  exact hxy

theorem matchingRows_eq (hne : conditions ≠ [])
    (hres : ∀ c ∈ conditions, t.ResolvesVisible satisfies resolve snap allowed nowNanos c) :
    t.matchingRows satisfies conditions snap allowed afterRowId nowNanos =
      (candidateRids (conditions.map resolve) allowed afterRowId).filterMap
        (t.visibleRow snap nowNanos) := by
  have hne' : conditions.map resolve ≠ [] := by simpa using hne
  have hirrefl : Std.Irrefl fun a b : Row F => a.rowId < b.rowId := ⟨fun a => Nat.lt_irrefl _⟩
  have hantisymm : Std.Antisymm fun a b : Row F => a.rowId < b.rowId :=
    ⟨fun a b hab hba => absurd hab (Nat.lt_asymm hba)⟩
  refine ((visibleRowsAtTime_sorted t snap nowNanos).filter _).eq_of_mem_iff
    (visibleRow_sorted (candidateRids_sorted _ _ _)) fun row => ?_
  have hcand : row ∈ (candidateRids (conditions.map resolve) allowed afterRowId).filterMap
      (t.visibleRow snap nowNanos) ↔
      row.rowId ∈ candidateRids (conditions.map resolve) allowed afterRowId ∧
        t.visibleRow snap nowNanos row.rowId = some row := by
    rw [mem_filterMap]
    constructor
    · intro ⟨rid, hmem, hrow⟩
      obtain rfl := rowId_of_visibleRow hrow
      exact ⟨hmem, hrow⟩
    · intro ⟨hmem, hrow⟩
      exact ⟨row.rowId, hmem, hrow⟩
  rw [hcand, mem_candidateRids hne', mem_filter, mem_visibleRowsAtTime, Bool.and_eq_true,
    Bool.and_eq_true, all_eq_true, forall_mem_map]
  constructor
  · intro ⟨hvis, ⟨hsat, hadm⟩, hafter⟩
    refine ⟨⟨fun c hc => ?_, hadm, hafter⟩, hvis⟩
    exact (hres c hc row (mem_visibleRowsAtTime.mpr hvis) hadm).mpr (hsat c hc)
  · intro ⟨⟨hmem, hadm, hafter⟩, hvis⟩
    refine ⟨hvis, ⟨fun c hc => ?_, hadm⟩, hafter⟩
    exact (hres c hc row (mem_visibleRowsAtTime.mpr hvis) hadm).mp (hmem c hc)

/-- Rows 1 and 2 are put at epoch 1 and row 1 is deleted at epoch 2. -/
def firstRowDeleted : Table Nat :=
  (((new [] none).put ⟨1, 1, [], false, none⟩).put ⟨2, 1, [], false, none⟩).tombstoneRow 1 ⟨2, none⟩

/-- What an index still holds after the delete. -/
def bothRowIds : RowIdSet := ⟨[1, 2], by decide⟩

/-- Both ids have a version in memory, which a pass over the memtable finds. -/
theorem looksUp_firstRowDeleted (rid : Nat) (h : rid ∈ [1, 2]) :
    firstRowDeleted.LooksUp [1, 2] (Snapshot.atEpoch 2) rid where
  memory := rfl
  shadow _ _ _ hrow := absurd hrow not_mem_nil
  stored hnone := by
    have hsome : ∀ id ∈ [1, 2], firstRowDeleted.foldOverlay (Snapshot.atEpoch 2) id ≠ none := by
      decide
    exact absurd hnone (hsome rid h)

end Table

end MongrelDB.Storage
