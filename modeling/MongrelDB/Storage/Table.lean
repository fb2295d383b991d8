import MongrelDB.Storage.RunLookup
import MongrelDB.Storage.SortedRun
import MongrelDB.Storage.Tier

/-!
# A table and its three reads

A table keeps the versions of its rows in a memtable, a mutable run and any
number of sorted runs. Three reads merge the tiers: the point read `get`, the map of
`visibleRowsAtTime` and the cursors of `forEachVisibleRowControlled`.
-/

namespace MongrelDB.Storage

open Epoch Lib

variable {F : Type}

/-! ## State -/

structure RunRef (F : Type) where
  runId : Nat
  run : Run F

structure RunLookupState where
  directory : Option RunLookupDirectory
  /-- the runs the directory was built from; the source keeps a hash of their ids -/
  fingerprint : List Nat
  complete : Bool

structure Table (F : Type) where
  schema : List ColumnDef
  ttl : Option TtlPolicy
  memtable : Memtable F
  mutableRun : MutableRun F
  /-- oldest first -/
  runRefs : List (RunRef F)
  nextRunId : Nat
  runLookup : RunLookupState

/-- The row-id bounds in the header of the run include `rowId`. -/
def RunRef.mayContain (rr : RunRef F) (rowId : Nat) : Bool :=
  RunReader.pageMayContain rowId rr.run.slots

namespace Table

def new (schema : List ColumnDef) (ttl : Option TtlPolicy) : Table F :=
  ⟨schema, ttl, .empty, .empty, [], 0, ⟨none, [], false⟩⟩

def openRun (t : Table F) (rr : RunRef F) : RunReader F :=
  (RunReader.openFile rr.run t.schema).setUniformEpoch rr.run.epochCreated

def openReader (t : Table F) (runId : Nat) : Option (RunReader F) :=
  (t.runRefs.find? fun rr => decide (rr.runId = runId)).map t.openRun

/-! ## The run-lookup directory -/

/-- The stamps of all versions of a row in a run, as `for_each_system` delivers them. -/
def stampsIn (r : RunReader F) (rowId : Nat) : List Stamp :=
  (r.run.slots.filter fun s => decide (s.row.rowId = rowId)).map r.stampOf

/-- `rebuild_from_runs`: insert the posting of every run that has the row. -/
def rebuildFromRuns (t : Table F) (runs : List (RunRef F)) : RunLookupDirectory where
  postings rowId :=
    runs.foldl (fun locators rr =>
      match RunLocator.ofStamps rr.runId (stampsIn (t.openRun rr) rowId) with
      | none => locators
      | some l => RunLookupDirectory.insertLocator l locators) []

def lookupDecision (t : Table F) (rowId : Nat) : DirectoryLookupDecision :=
  if t.runLookup.complete && decide (t.runLookup.fingerprint = t.runRefs.map RunRef.runId) then
    match t.runLookup.directory with
    | some dir => dir.lookup rowId
    | none => .unavailableOrStale
  else .unavailableOrStale

/-! ## Point read -/

def consider (snap : Snapshot) (best : Option (Row F)) (row : Row F) : Option (Row F) :=
  if observed snap row then challenge (fun a b => versionIsNewer a.stamp b.stamp) best row
  else best

/-- Consult one run; a read error counts as a miss. -/
def considerRun (snap : Snapshot) (rowId : Nat) (best : Option (Row F)) (r : RunReader F) :
    Option (Row F) :=
  match r.getVersionAt rowId snap with
  | .ok (some (_, row)) => consider snap best row
  | _ => best

/-- The loop over the postings. `opened` are the runs already consulted. -/
def considerLocators (t : Table F) (snap : Snapshot) (rowId : Nat) :
    List RunLocator → List Nat → Option (Row F) → Option (Row F)
  | [], _, best => best
  | l :: ls, opened, best =>
    if best.any fun row => !l.canContainVersionNewerThan row.stamp snap then
      considerLocators t snap rowId ls opened best
    else if l.isImpossibleFor snap then considerLocators t snap rowId ls opened best
    else if l.runId ∈ opened then considerLocators t snap rowId ls opened best
    else
      match t.openReader l.runId with
      | none => considerLocators t snap rowId ls (l.runId :: opened) best
      | some r =>
        considerLocators t snap rowId ls (l.runId :: opened) (considerRun snap rowId best r)

def considerAllRuns (t : Table F) (snap : Snapshot) (rowId : Nat) (best : Option (Row F)) :
    Option (Row F) :=
  t.runRefs.foldl (fun best rr =>
    if rr.mayContain rowId then considerRun snap rowId best (t.openRun rr) else best) best

/-- Neither a tombstone nor expired. -/
def isLive (t : Table F) (nowNanos : Int) (row : Row F) : Bool :=
  !(row.deleted || rowExpiredAt t.ttl row nowNanos)

def get (t : Table F) (rowId : Nat) (snap : Snapshot) (nowNanos : Int) : Option (Row F) :=
  let best := ((t.memtable.getVersionAt rowId snap).toList ++
    (t.mutableRun.getVersionAt rowId snap).toList).foldl (consider snap) none
  let best :=
    match t.lookupDecision rowId with
    | .completeMiss => best
    | .candidates locators =>
      t.considerLocators snap rowId (sortLocators snap locators) [] best
    | .unavailableOrStale => t.considerAllRuns snap rowId best
  best.filter (t.isLive nowNanos)

/-! ## Full scan -/

def visibleRowsAtTime (t : Table F) (snap : Snapshot) (nowNanos : Int) : List (Row F) :=
  let versions := t.memtable.visibleVersionsAt snap ++ t.mutableRun.visibleVersionsAt snap ++
    t.runRefs.flatMap fun rr => (t.openRun rr).visibleVersionsAt snap
  let best := tally (fun a b => versionIsNewer a.stamp b.stamp) Row.rowId
    (versions.filter (observed snap))
  (best.filter (t.isLive nowNanos)).insertionSort fun a b => a.rowId ≤ b.rowId

end Table

/-! ## Streaming scan -/

/-- A version offered by one of the merged cursors. -/
inductive Candidate (F : Type) where
  | memory (row : Row F)
  | run (reader : RunReader F) (version : Slot F)

namespace Candidate

def rowId : Candidate F → Nat
  | memory row => row.rowId
  | run _ version => version.row.rowId

def stamp : Candidate F → Stamp
  | memory row => row.stamp
  | run reader version => reader.stampOf version

def deleted : Candidate F → Bool
  | memory row => row.deleted
  | run _ version => version.row.deleted

def materialize : Candidate F → Except RunError (Row F)
  | memory row => .ok row
  | run reader version => reader.materializeNative version

end Candidate

/-- The rows a scan has visited, and the error it ended with if it did not reach the end. -/
structure ScanOutcome (F : Type) where
  visited : List (Row F)
  error : Option RunError

/-- The tail of the merge loop, for the chosen version of every row: drop tombstones, materialise,
drop expired rows, visit. -/
def visitChosen (visits : Row F → Bool) : List (Candidate F) → ScanOutcome F
  | [] => ⟨[], none⟩
  | best :: rest =>
    if best.deleted then visitChosen visits rest
    else
      match best.materialize with
      | .error e => ⟨[], some e⟩
      | .ok row =>
        let outcome := visitChosen visits rest
        if visits row then { outcome with visited := row :: outcome.visited } else outcome

/-- Merge the sources by row id, the first source first, and keep a version unless a strictly newer
one of the same row follows. -/
def mergeControlledVisibleSources (visits : Row F → Bool) (sources : List (List (Candidate F))) :
    ScanOutcome F :=
  visitChosen visits
    (groupWinners (fun a b => versionIsNewer a.stamp b.stamp) Candidate.rowId (fun _ => true)
      (mergeSources Candidate.rowId sources))

namespace Table

/-- One cursor per non-empty in-memory tier and one per run. -/
def controlledSources (t : Table F) (snap : Snapshot) : List (List (Candidate F)) :=
  (if t.memtable.isEmpty then [] else [(t.memtable.newestVisibleIter snap).map .memory]) ++
    (if t.mutableRun.isEmpty then [] else [(t.mutableRun.newestVisibleIter snap).map .memory]) ++
    t.runRefs.map fun rr =>
      ((t.openRun rr).cursorVersionsAt snap).map (.run (t.openRun rr))

def forEachVisibleRowControlled (t : Table F) (snap : Snapshot) (nowNanos : Int) : ScanOutcome F :=
  mergeControlledVisibleSources
    (fun row => !rowExpiredAt t.ttl row nowNanos && observed snap row) (t.controlledSources snap)

/-! ## Steps -/

def put (t : Table F) (row : Row F) : Table F := { t with memtable := t.memtable.upsert row }

def tombstone (rowId : Nat) (stamp : Stamp) : Row F :=
  ⟨rowId, stamp.epoch, [], true, stamp.commitTs⟩

def tombstoneRow (t : Table F) (rowId : Nat) (stamp : Stamp) : Table F :=
  { t with memtable := t.memtable.upsert (tombstone rowId stamp) }

def sealGenerations (t : Table F) : Table F :=
  { t with memtable := t.memtable.sealActive, mutableRun := t.mutableRun.sealActive }

/-- The first half of `flush`: the memtable moves to the mutable run. -/
def flushMemtable (t : Table F) : Table F :=
  if t.memtable.drainSorted.isEmpty then { t with memtable := .empty }
  else
    { t with
      memtable := .empty
      mutableRun := t.mutableRun.insertMany t.memtable.drainSorted t.memtable.drainSorted_sorted }

end Table

/-- `PAGE_ROWS` -/
def pageRows : Nat := 65536

/-- Cut into pages of `n` entries. -/
def cutPages {α : Type} (n : Nat) : Nat → List α → List (List α)
  | 0, _ => []
  | _ + 1, [] => []
  | fuel + 1, a :: l => (a :: l).take n :: cutPages n fuel ((a :: l).drop n)

theorem flatten_cutPages {α : Type} {n : Nat} (hn : 0 < n) (fuel : Nat) (l : List α)
    (hfuel : l.length ≤ fuel) : (cutPages n fuel l).flatten = l := by
  induction fuel generalizing l with
  | zero =>
    rw [List.length_eq_zero_iff.mp (Nat.le_zero.mp hfuel)]
    rfl
  | succ fuel ih =>
    cases l with
    | nil => rfl
    | cons a l =>
      rw [cutPages, List.flatten_cons, ih, List.take_append_drop]
      rw [List.length_drop]
      omega

/-- The run `RunWriter` writes for a spill: all columns of the schema, a timestamp column if some
version has a timestamp, neither clean nor with a placeholder epoch. -/
def writeRun (schema : List ColumnDef) (epoch : Nat) (rows : List (Row F))
    (hs : rows.Pairwise fun a b => a.versionKey ≤ b.versionKey)
    (he : ∀ row ∈ rows, row.committedEpoch ≤ epoch) : Run F :=
  have hflat : (cutPages pageRows rows.length rows).flatten = rows :=
    flatten_cutPages (by decide) _ rows le_rfl
  { pages := cutPages pageRows rows.length rows
    storedColumns := schema.map ColumnDef.id
    hasCommitTs := rows.any fun row => row.commitTs.isSome
    clean := false
    uniformEpoch := false
    epochCreated := epoch
    sorted := by
      rw [hflat]
      exact hs.imp versionKey_order
    clean_rows := fun h => absurd h Bool.false_ne_true
    epoch_le := by
      rw [hflat]
      exact he
    uniform_zero := fun h => absurd h Bool.false_ne_true }

namespace Table

/-- The second half of `flush`, at the epoch of the last commit: the mutable run becomes the newest
sorted run. No version in it is younger than the commit. -/
def spillMutableRun (t : Table F) (epoch : Nat) : Option (Table F) :=
  if t.mutableRun.isEmpty || t.mutableRun.drainSorted.isEmpty then some t
  else if he : ∀ row ∈ t.mutableRun.drainSorted, row.committedEpoch ≤ epoch then
    some { t with
      mutableRun := .empty
      runRefs := t.runRefs ++ [⟨t.nextRunId,
        writeRun t.schema epoch t.mutableRun.drainSorted t.mutableRun.drainSorted_sorted he⟩]
      nextRunId := t.nextRunId + 1 }
  else none

def publishRunLookupDirectory (t : Table F) : Table F :=
  { t with
    runLookup := ⟨some (t.rebuildFromRuns t.runRefs), t.runRefs.map RunRef.runId, true⟩ }

/-- A failed rebuild or checkpoint leaves the directory incomplete. -/
def loseRunLookupDirectory (t : Table F) : Table F :=
  { t with runLookup := { t.runLookup with complete := false } }

inductive Label (F : Type) where
  | put (rowId : Nat) (stamp : Stamp) (columns : List (Nat × Value F))
  | delete (rowId : Nat) (stamp : Stamp)
  | sealGenerations
  | flushMemtable
  | spillMutableRun (epoch : Nat)
  | publishDirectory
  | loseDirectory

def step (t : Table F) : Label F → Option (Table F)
  | .put rowId stamp columns => some (t.put ⟨rowId, stamp.epoch, columns, false, stamp.commitTs⟩)
  | .delete rowId stamp => some (t.tombstoneRow rowId stamp)
  | .sealGenerations => some t.sealGenerations
  | .flushMemtable => some t.flushMemtable
  | .spillMutableRun epoch => t.spillMutableRun epoch
  | .publishDirectory => some t.publishRunLookupDirectory
  | .loseDirectory => some t.loseRunLookupDirectory

end Table

end MongrelDB.Storage
