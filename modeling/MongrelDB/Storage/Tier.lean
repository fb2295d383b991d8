import MongrelDB.Epoch.VersionOrder
import MongrelDB.Lib.Merge
import MongrelDB.Storage.Row

/-!
# The memtable and the mutable run

New versions are written to the memtable; a flush moves them to the mutable run, and
from there they spill to a sorted run.
-/

namespace MongrelDB.Storage

open Epoch Lib

variable {F : Type}

/-- The key a tier is ordered by: row id, then epoch. -/
def Row.versionKey (row : Row F) : Nat ×ₗ Nat := toLex (row.rowId, row.committedEpoch)

theorem versionKey_order {a b : Row F} (h : a.versionKey ≤ b.versionKey) :
    a.rowId < b.rowId ∨ a.rowId = b.rowId ∧ a.committedEpoch ≤ b.committedEpoch := by
  rw [Row.versionKey, Row.versionKey, Prod.Lex.toLex_le_toLex] at h
  exact h

def observed (snap : Snapshot) (row : Row F) : Bool := snap.observesVersion row.stamp

def versionsOf (rowId : Nat) (rows : List (Row F)) : List (Row F) :=
  rows.filter fun row => decide (row.rowId = rowId)

/-- Stable sort by version key. -/
def sortByKey (rows : List (Row F)) : List (Row F) :=
  rows.insertionSort fun a b => a.versionKey ≤ b.versionKey

theorem sortByKey_sorted (rows : List (Row F)) :
    (sortByKey rows).Pairwise fun a b => a.versionKey ≤ b.versionKey :=
  List.pairwise_insertionSort (fun a b : Row F => a.versionKey ≤ b.versionKey) rows

/-! ## Segments -/

structure Segment (F : Type) where
  rows : List (Row F)
  sorted : rows.Pairwise fun a b => a.versionKey ≤ b.versionKey

namespace Segment

def empty : Segment F := ⟨[], List.Pairwise.nil⟩

/-- A segment of the given versions, those of equal key in the given order. -/
def ofRows (rows : List (Row F)) : Segment F := ⟨sortByKey rows, sortByKey_sorted rows⟩

def insertRow (s : Segment F) (row : Row F) : Segment F where
  rows := insertAfter Row.versionKey row s.rows
  sorted := by
    rw [insertAfter_eq_insertionSort row s.sorted]
    exact sortByKey_sorted _

/-- One merge pass over the present versions and a sorted batch. -/
def extendSorted (s : Segment F) (batch : List (Row F))
    (hb : batch.Pairwise fun a b => a.versionKey ≤ b.versionKey) : Segment F where
  rows := mergeSources Row.versionKey [s.rows, batch]
  sorted := by
    exact pairwise_mergeSources
      (List.forall_mem_cons.mpr ⟨s.sorted, List.forall_mem_singleton.mpr hb⟩)

/-- The version of highest epoch at or below `epoch`. The walk goes backwards and a version of the
same epoch does not replace the one found first, so the later write wins. -/
def getVersion (s : Segment F) (rowId epoch : Nat) : Option (Row F) :=
  winner (fun a b => decide (b.committedEpoch < a.committedEpoch))
    ((versionsOf rowId s.rows).filter fun row => decide (row.committedEpoch ≤ epoch)).reverse

end Segment

/-! ## Tiers -/

structure Tier (F : Type) where
  frozen : List (Segment F)
  active : Segment F

/-- `MAX_READ_GENERATION_LAYERS` -/
def maxReadGenerationLayers : Nat := 8

namespace Tier

def empty : Tier F := ⟨[], .empty⟩

/-- Oldest segment first. -/
def segments (t : Tier F) : List (Segment F) := t.frozen ++ [t.active]

def rows (t : Tier F) : List (Row F) := t.segments.flatMap Segment.rows

/-- The number of stored versions. -/
def len (t : Tier F) : Nat := t.rows.length

def isEmpty (t : Tier F) : Bool := t.active.rows.isEmpty && t.frozen.isEmpty

def consolidate (t : Tier F) : Tier F :=
  { t with frozen := [.ofRows (t.frozen.flatMap Segment.rows)] }

/-- `seal` -/
def sealActive (t : Tier F) : Tier F :=
  if t.active.rows.isEmpty then t
  else
    let sealed : Tier F := ⟨t.frozen ++ [t.active], .empty⟩
    if maxReadGenerationLayers ≤ sealed.frozen.length then sealed.consolidate else sealed

/-- All versions in key order; the source leaves the tier empty. -/
def drainSorted (t : Tier F) : List (Row F) := sortByKey t.rows

theorem drainSorted_sorted (t : Tier F) :
    t.drainSorted.Pairwise fun a b => a.versionKey ≤ b.versionKey := sortByKey_sorted t.rows

/-- The newest observed version of every row, ascending by row id. -/
def newestVisibleMap (t : Tier F) (snap : Snapshot) : List (Row F) :=
  (tally (fun a b => versionSupersedes a.stamp b.stamp) Row.rowId
    (t.rows.filter (observed snap))).insertionSort fun a b => a.rowId ≤ b.rowId

def visibleVersionsAt (t : Tier F) (snap : Snapshot) : List (Row F) := t.newestVisibleMap snap

end Tier

/-! ## The memtable -/

structure Memtable (F : Type) extends Tier F

namespace Memtable

def empty : Memtable F := ⟨.empty⟩

def upsert (m : Memtable F) (row : Row F) : Memtable F :=
  ⟨{ m.toTier with active := m.active.insertRow row }⟩

def sealActive (m : Memtable F) : Memtable F := ⟨m.toTier.sealActive⟩

/-- An epoch-only snapshot asks each segment for its highest epoch, the newest segment first; a
timestamp-pinned one walks all versions of the row. -/
def getVersionAt (m : Memtable F) (rowId : Nat) (snap : Snapshot) : Option (Row F) :=
  if snap.usesHlcAuthority then
    lastWins Row.stamp ((m.segments.flatMap fun s => versionsOf rowId s.rows).filter
      (observed snap))
  else
    winner (fun a b => decide (b.committedEpoch < a.committedEpoch))
      ((m.active :: m.frozen.reverse).filterMap fun s => s.getVersion rowId snap.epoch)

/-- `advance_impl`: skip versions the snapshot does not observe, then keep the best of the row. -/
def advance (snap : Snapshot) : List (Row F) → Option (Row F) × List (Row F)
  | [] => (none, [])
  | row :: rest =>
    if observed snap row then
      gather (fun a b => versionSupersedes a.stamp b.stamp) Row.rowId (observed snap) row.rowId
        (some row) rest
    else advance snap rest

/-- Everything the merging cursor yields. The heap orders heads by row id, epoch and segment. -/
def newestVisibleIter (m : Memtable F) (snap : Snapshot) : List (Row F) :=
  let merged := mergeSources Row.versionKey (m.segments.map Segment.rows)
  drain (advance snap) merged.length merged

end Memtable

/-! ## The mutable run -/

structure MutableRun (F : Type) extends Tier F

namespace MutableRun

def empty : MutableRun F := ⟨.empty⟩

def insertMany (m : MutableRun F) (rows : List (Row F))
    (hr : rows.Pairwise fun a b => a.versionKey ≤ b.versionKey) : MutableRun F :=
  ⟨{ m.toTier with active := m.active.extendSorted rows hr }⟩

def sealActive (m : MutableRun F) : MutableRun F := ⟨m.toTier.sealActive⟩

/-- The versions of the row in one segment that the point lookup walks over: an epoch-only walk
stops at the first version past the snapshot. -/
def walked (snap : Snapshot) (rowId : Nat) (s : Segment F) : List (Row F) :=
  (versionsOf rowId s.rows).takeWhile fun row =>
    snap.usesHlcAuthority || decide (row.committedEpoch ≤ snap.epoch)

def getVersionAt (m : MutableRun F) (rowId : Nat) (snap : Snapshot) : Option (Row F) :=
  lastWins Row.stamp ((m.segments.flatMap (walked snap rowId)).filter (observed snap))

/-- `next`: the best observed version of the row at the front. A row without one is reported as
the end of the stream. -/
def next (snap : Snapshot) : List (Row F) → Option (Row F) × List (Row F)
  | [] => (none, [])
  | row :: rest =>
    gather (fun a b => versionSupersedes a.stamp b.stamp) Row.rowId (observed snap) row.rowId
      (if observed snap row then some row else none) rest

/-- Everything the merging cursor yields. The heap orders heads by row id and segment. -/
def newestVisibleIter (m : MutableRun F) (snap : Snapshot) : List (Row F) :=
  let merged := mergeSources Row.rowId (m.segments.map Segment.rows)
  drain (next snap) merged.length merged

end MutableRun

end MongrelDB.Storage
