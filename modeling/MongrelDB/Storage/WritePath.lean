import MongrelDB.Lib.Bytes
import MongrelDB.Storage.TableAgreement

/-!
# The write path of a table

What a commit does to the table in memory once it is durable: rows are put, deleted,
truncated or linked as a spilled run, and along with the versions the primary-key map
(HOT), the bitmap indexes and the counter of live rows are kept up.

The reverse map from row ids to keys, the reservoir, indexes of other kinds and the
checks before the commit are left out. The text of a partial index's predicate is taken
as what it is read as, the token of a column as a function. The layers of a bitmap
index are one set.
-/

namespace MongrelDB.Storage.WritePath

open Epoch Lib

variable {F : Type}

abbrev Key := List UInt8

/-! ## Schema -/

/-- What `eval_partial_predicate` understands. -/
inductive Predicate where
  | isNotNull (columnId : Nat)
  | isNull (columnId : Nat)
  /-- text it does not understand, which every row satisfies -/
  | unknown
  deriving DecidableEq, Repr

def isNull : Value F → Bool
  | .null => true
  | _ => false

def evalPartialPredicate (row : Row F) : Predicate → Bool
  | .isNotNull columnId => (row.get columnId).any fun v => !isNull v
  | .isNull columnId => (row.get columnId).all isNull
  | .unknown => true

structure IndexDef where
  columnId : Nat
  predicate : Option Predicate
  deriving DecidableEq, Repr

structure Schema (F : Type) where
  primaryKey : Option Nat
  clustered : Bool
  /-- the bitmap indexes -/
  indexes : List IndexDef
  /-- an index of another kind is partial -/
  otherPartial : Bool
  encodeKey : Value F → Key
  /-- the tokens of a column that is encrypted with `SCHEME_HMAC_EQ` -/
  hmacToken : Nat → Option (Key → Key)

namespace Schema

def hasPartial (c : Schema F) : Bool :=
  c.otherPartial || c.indexes.any fun idx => idx.predicate.isSome

def indexLookupKeyBytes (c : Schema F) (columnId : Nat) (encoded : Key) : Key :=
  match c.hmacToken columnId with
  | some token => token encoded
  | none => encoded

/-- `index_lookup_key`, which is also the key of what `tokenized_for_indexes` puts in the place of
the value. -/
def indexLookupKey (c : Schema F) (columnId : Nat) (v : Value F) : Key :=
  c.indexLookupKeyBytes columnId (c.encodeKey v)

/-- The key `index_row` enters a value under. -/
def indexKey (c : Schema F) (columnId : Nat) (v : Value F) : Key :=
  if c.hasPartial then c.encodeKey v else c.indexLookupKey columnId v

/-- The key of the row in HOT, if it has a primary-key value. -/
def pkKey (c : Schema F) (row : Row F) : Option Key :=
  c.primaryKey.bind fun columnId => (row.get columnId).map (c.indexLookupKey columnId)

/-- The key `index_row_non_bitmap` gives HOT: it looks up the key of a tokenized row. -/
def replacedPkKey (c : Schema F) (row : Row F) : Option Key :=
  c.primaryKey.bind fun columnId => (row.get columnId).map fun v =>
    c.indexLookupKeyBytes columnId (c.indexLookupKey columnId v)

end Schema

/-! ## Row ids -/

/-- The hash of a primary key. -/
def clusteredRowId (key : Key) : UInt64 :=
  max (key.foldl (fun hash byte => (hash ^^^ byte.toUInt64) * 0x100000001b3) 0xcbf29ce484222325) 1

inductive WriteError where
  | full (reason : String)
  | schema (reason : String)
  deriving DecidableEq, Repr

/-- `RowIdAllocator::alloc`; the id and the next one. -/
def alloc (next : Nat) : Except WriteError (Nat × Nat) :=
  if next + 1 < 2 ^ 64 - 1 then .ok (next, next + 1)
  else .error (.full "row-id namespace exhausted")

/-- `derive_clustered_row_id` -/
def deriveClusteredRowId (c : Schema F) (columns : List (Nat × Value F)) :
    Except WriteError Nat :=
  match c.primaryKey with
  | none => .error (.schema "clustered table requires a single-column primary key")
  | some columnId =>
    match columns.lookup columnId with
    | none => .error (.schema "clustered table missing primary key column")
    | some v => .ok (clusteredRowId (c.encodeKey v)).toNat

/-- The id of a row that is put, and the allocator afterwards. -/
def assignRowId (c : Schema F) (next : Nat) (columns : List (Nat × Value F)) :
    Except WriteError (Nat × Nat) :=
  if c.clustered then (deriveClusteredRowId c columns).map fun id => (id, next)
  else alloc next

/-! ## Bitmap indexes -/

/-- The entries: column, value and row id. -/
abbrev Bitmap := List (Nat × Key × Fin (2 ^ 32))

namespace Bitmap

section

variable (b : Bitmap) (columnId : Nat) (key : Key) (rowId : Nat)

/-- `BitmapIndex::insert` -/
def insert : Option Bitmap :=
  if h : rowId < 2 ^ 32 then some ((columnId, key, ⟨rowId, h⟩) :: b) else none

def remove : Bitmap :=
  b.filter fun e => ¬ (e.1 = columnId ∧ e.2.1 = key ∧ e.2.2.val = rowId)

/-- The id is in the set of the value. -/
def contains : Bool :=
  b.any fun e => decide (e.1 = columnId ∧ e.2.1 = key ∧ e.2.2.val = rowId)

end

def insertAll (b : Bitmap) (rowId : Nat) (keys : List (Nat × Key)) : Option Bitmap :=
  keys.foldlM (fun b k => b.insert k.1 k.2 rowId) b

end Bitmap

/-- `bitmap_key_for_column` -/
def bitmapKeyForColumn (c : Schema F) (row : Row F) (columnId : Nat) : Option Key :=
  (row.get columnId).map c.encodeKey

/-- The entries `index_row` makes. -/
def indexKeys (c : Schema F) (row : Row F) : List (Nat × Key) :=
  c.indexes.filterMap fun idx =>
    if idx.predicate.all (evalPartialPredicate row) then
      (row.get idx.columnId).map fun v => (idx.columnId, c.indexKey idx.columnId v)
    else none

inductive BitmapIndexDelta where
  | repoint (columnId : Nat) (key : Key)
  | move (columnId : Nat) (oldKey newKey : Option Key)
  deriving DecidableEq, Repr

def planBitmapSecondaryDeltas (c : Schema F) (old new : Row F) : List BitmapIndexDelta :=
  c.indexes.map fun idx =>
    match bitmapKeyForColumn c old idx.columnId, bitmapKeyForColumn c new idx.columnId with
    | some o, some n =>
      if o = n then .repoint idx.columnId o else .move idx.columnId (some o) (some n)
    | oldKey, newKey => .move idx.columnId oldKey newKey

def Bitmap.applyDelta (oldRowId newRowId : Nat) (b : Bitmap) : BitmapIndexDelta → Option Bitmap
  | .repoint columnId key =>
    if oldRowId ≠ newRowId then (b.remove columnId key oldRowId).insert columnId key newRowId
    else some b
  | .move columnId oldKey newKey =>
    let b := match oldKey with
      | some key => b.remove columnId key oldRowId
      | none => b
    match newKey with
    | some key => b.insert columnId key newRowId
    | none => some b

def Bitmap.applyBitmapSecondaryDelta (b : Bitmap) (deltas : List BitmapIndexDelta)
    (oldRowId newRowId : Nat) : Option Bitmap :=
  deltas.foldlM (fun b delta => b.applyDelta oldRowId newRowId delta) b

/-- `maintain_bitmap_secondary_on_replace` -/
def Bitmap.maintainOnReplace (c : Schema F) (b : Bitmap) (old new : Row F) : Option Bitmap :=
  b.applyBitmapSecondaryDelta (planBitmapSecondaryDeltas c old new) old.rowId new.rowId

/-- `unindex_bitmap_membership` -/
def Bitmap.unindexMembership (c : Schema F) (b : Bitmap) (row : Row F) : Bitmap :=
  if row.deleted then b
  else
    c.indexes.foldl (fun b idx =>
      match bitmapKeyForColumn c row idx.columnId with
      | some key => b.remove idx.columnId key row.rowId
      | none => b) b

/-! ## The table with what is kept beside it -/

structure Writer (F : Type) where
  table : Table F
  /-- the row of a primary key, the newest entry first -/
  hot : List (Key × Nat)
  recentDeletePreimages : List (Key × Row F)
  bitmap : Bitmap
  liveCount : Nat
  pendingPutCols : List Nat
  pendingDeleteRids : List Nat

namespace Writer

def new (schema : List ColumnDef) (ttl : Option TtlPolicy) : Writer F :=
  ⟨.new schema ttl, [], [], [], 0, [], []⟩

/-- The version of the row in the memtable, if it has one, tells whether the row was live. -/
def prevWasLive (s : Writer F) (rowId epoch : Nat) : Bool :=
  match s.table.memtable.getVersionAt rowId (Snapshot.atEpoch epoch) with
  | some prev => !prev.deleted
  | none => true

def tombstoneRow (s : Writer F) (rowId : Nat) (stamp : Stamp) (adjustLiveCount : Bool) :
    Writer F :=
  { s with
    table := s.table.tombstoneRow rowId stamp
    liveCount := if adjustLiveCount && s.prevWasLive rowId stamp.epoch then s.liveCount - 1
      else s.liveCount
    pendingDeleteRids := s.pendingDeleteRids ++ [rowId] }

/-- HOT for a row that is indexed. -/
def insertHot (s : Writer F) (row : Row F) : Option Key → Writer F
  | some key => { s with hot := (key, row.rowId) :: s.hot }
  | none => s

/-- A partial index keeps the row out of HOT. -/
def indexRow (c : Schema F) (s : Writer F) (row : Row F) : Option (Writer F) :=
  if row.deleted then some s
  else do
    let bitmap ← s.bitmap.insertAll row.rowId (indexKeys c row)
    let s := { s with bitmap := bitmap }
    return if c.hasPartial then s else s.insertHot row (c.pkKey row)

def maintainIndexesOnPkReplace (c : Schema F) (s : Writer F) (old new : Row F) :
    Option (Writer F) :=
  if c.hasPartial then { s with bitmap := s.bitmap.unindexMembership c old }.indexRow c new
  else do
    let bitmap ← s.bitmap.maintainOnReplace c old new
    let s := { s with bitmap := bitmap }
    return if new.deleted then s else s.insertHot new (c.replacedPkKey new)

/-- Whoever holds the key makes room. The image comes from the deletes of late, or else from a
read at the snapshot of the moment. -/
def displace (s : Writer F) (snap : Snapshot) (nowNanos : Int) (row : Row F) (key : Key) :
    Writer F × Option (Row F) :=
  let holder := (s.hot.lookup key).filter fun old => old ≠ row.rowId
  let displaced := match holder with
    | some old => s.tombstoneRow old row.stamp true
    | none => s
  match s.recentDeletePreimages.lookup key with
  | some old =>
    ({ displaced with
        recentDeletePreimages := s.recentDeletePreimages.filter fun e => e.1 ≠ key }, some old)
  | none => (displaced, holder.bind fun old => s.table.get old snap nowNanos)

/-- One row. `probe`: somebody may hold its key. -/
def applyPutRow (c : Schema F) (snap : Snapshot) (nowNanos : Int) (probe : Bool) (s : Writer F)
    (row : Row F) : Option (Writer F) := do
  let s := { s with pendingPutCols := s.pendingPutCols ++ row.columns.map Prod.fst }
  let (s, replacedImage) :=
    match c.primaryKey, c.pkKey row with
    | none, _ => ({ s with hot := (beBytes 8 row.rowId, row.rowId) :: s.hot }, none)
    | some _, some key => if probe then s.displace snap nowNanos row key else (s, none)
    | some _, none => (s, none)
  let s ← match replacedImage with
    | some old => s.maintainIndexesOnPkReplace c old row
    | none => s.indexRow c row
  return { s with table := s.table.put row, liveCount := s.liveCount + 1 }

/-- Every row has an integer key, and each is above the one before. -/
def rowsPkStrictlyIncreasing (pk : Nat) : Option Int → List (Row F) → Bool
  | _, [] => true
  | prev, row :: rest =>
    match row.get pk with
    | some (.int64 v) =>
      if prev.any (v ≤ ·) then false else rowsPkStrictlyIncreasing pk (some v) rest
    | _ => false

/-- `apply_put_rows_inner_prepared`, with `apply_put_row_single` for one row. -/
def applyPutRows (c : Schema F) (snap : Snapshot) (nowNanos : Int) (checkExistingPk : Bool)
    (s : Writer F) (rows : List (Row F)) : Option (Writer F) :=
  let probe := match rows with
    | [_] => checkExistingPk
    | _ => checkExistingPk && !(s.hot.isEmpty &&
        c.primaryKey.any fun pk => rowsPkStrictlyIncreasing pk none rows)
  rows.foldlM (fun s row => s.applyPutRow c snap nowNanos probe row) s

def applyDeleteAt (c : Schema F) (snap : Snapshot) (nowNanos : Int) (s : Writer F) (rowId : Nat)
    (stamp : Stamp) : Writer F :=
  let preimages :=
    match s.table.get rowId snap nowNanos with
    | none => s.recentDeletePreimages
    | some row =>
      match c.pkKey row with
      | none => s.recentDeletePreimages
      | some key => (key, row) :: s.recentDeletePreimages
  { s with recentDeletePreimages := preimages }.tombstoneRow rowId stamp true

/-- The images of deleted rows stay. -/
def applyTruncate (s : Writer F) : Writer F :=
  { s with
    table := { s.table with memtable := .empty, mutableRun := .empty, runRefs := [] }
    hot := []
    bitmap := []
    liveCount := 0
    pendingPutCols := []
    pendingDeleteRids := [] }

/-! ## Spilled runs -/

/-- The run of a large transaction, written before its epoch is known. -/
def spilledRun (schema : List ColumnDef) (epoch : Nat) (rows : List (Row F))
    (h : rows.Pairwise fun a b => a.rowId < b.rowId) : Run F :=
  let stored := rows.map fun row => { row with committedEpoch := 0, commitTs := none }
  have hflat : (cutPages pageRows stored.length stored).flatten = stored :=
    flatten_cutPages (by decide) _ stored le_rfl
  { pages := cutPages pageRows stored.length stored
    storedColumns := schema.map ColumnDef.id
    hasCommitTs := false
    clean := false
    uniformEpoch := true
    epochCreated := epoch
    sorted := by
      rw [hflat]
      exact List.pairwise_map.mpr (h.imp .inl)
    clean_rows := fun h => absurd h Bool.false_ne_true
    epoch_le := by
      rw [hflat]
      intro v hv
      obtain ⟨row, -, rfl⟩ := List.mem_map.mp hv
      exact Nat.zero_le epoch
    uniform_zero := by
      rw [hflat]
      intro _ v hv
      obtain ⟨row, -, rfl⟩ := List.mem_map.mp hv
      rfl }

/-- `link_run`; the rows were given their ids in order. -/
def linkRun (t : Table F) (epoch : Nat) (rows : List (Row F)) : Option (Table F) :=
  if h : rows.Pairwise fun a b => a.rowId < b.rowId then
    some { t with
      runRefs := t.runRefs ++ [⟨t.nextRunId, spilledRun t.schema epoch rows h⟩]
      nextRunId := t.nextRunId + 1 }
  else none

/-- The last row of a key wins. The winners by key, and the losers. -/
def partitionPkWinners (c : Schema F) (rows : List (Row F)) : List Nat × List (Key × Nat) :=
  rows.foldl (fun (losers, winners) row =>
    match c.pkKey row with
    | none => (losers, winners)
    | some key =>
      ((winners.lookup key).toList ++ losers,
        (key, row.rowId) :: winners.filter fun e => e.1 ≠ key)) ([], [])

/-- Whoever holds the key of a winner is tombstoned. -/
def tombstoneHolders (s : Writer F) (stamp : Stamp) (winners : List (Key × Nat)) : Writer F :=
  winners.foldl (fun s e =>
    match s.hot.lookup e.1 with
    | some old => if old ≠ e.2 then s.tombstoneRow old stamp true else s
    | none => s) s

/-- `apply_run_metadata_prepared`, after the run is linked. -/
def applyRunMetadata (c : Schema F) (s : Writer F) (stamp : Stamp) (rows : List (Row F)) :
    Option (Writer F) := do
  guard (rows.all fun row => decide (row.rowId < 2 ^ 64 - 2))
  let table ← linkRun s.table stamp.epoch rows
  let s := { s with
    table := table
    pendingPutCols := s.pendingPutCols ++ rows.flatMap fun row : Row F => row.columns.map Prod.fst }
  let (losers, winners) := partitionPkWinners c rows
  let s := s.tombstoneHolders stamp winners
  let s := losers.foldl (fun s rowId => s.tombstoneRow rowId stamp false) s
  let s := { s with hot := winners ++ s.hot }
  let s := if c.primaryKey.isNone then
      { s with hot := (rows.map fun row : Row F => (beBytes 8 row.rowId, row.rowId)) ++ s.hot }
    else s
  let s ← (rows.filter fun row => row.rowId ∉ losers).foldlM (fun s row => s.indexRow c row) s
  return { s with liveCount := s.liveCount + (rows.length - losers.length) }

/-- The end of a commit: `invalidate_pending_cache`. -/
def finishCommit (s : Writer F) : Writer F :=
  { s with pendingPutCols := [], pendingDeleteRids := [] }

/-! ## Reads -/

/-- `Table::count`, without a TTL. -/
def count (s : Writer F) (snap : Snapshot) (nowNanos : Int) : Nat :=
  if s.table.ttl.isNone && s.pendingPutCols.isEmpty && s.pendingDeleteRids.isEmpty then s.liveCount
  else (s.table.visibleRowsAtTime snap nowNanos).length

/-- `BitmapEq`: the id is in the set the condition resolves to. -/
def bitmapEq (c : Schema F) (s : Writer F) (columnId : Nat) (value : Key) (rowId : Nat) : Bool :=
  s.bitmap.contains columnId (c.indexLookupKeyBytes columnId value) rowId

def bitmapIn (c : Schema F) (s : Writer F) (columnId : Nat) (values : List Key) (rowId : Nat) :
    Bool :=
  values.any fun value => s.bitmapEq c columnId value rowId

end Writer

/-! ## Steps -/

/-- What happens to the table without a write. -/
inductive Upkeep where
  | sealGenerations
  | flushMemtable
  | spillMutableRun (epoch : Nat)
  | publishDirectory
  | loseDirectory
  deriving DecidableEq, Repr

def Upkeep.label : Upkeep → Table.Label F
  | sealGenerations => .sealGenerations
  | flushMemtable => .flushMemtable
  | spillMutableRun epoch => .spillMutableRun epoch
  | publishDirectory => .publishDirectory
  | loseDirectory => .loseDirectory

/-- `snap` and `nowNanos` are what the table's own reads use at that moment. -/
inductive Label (F : Type) where
  | put (snap : Snapshot) (nowNanos : Int) (checkExistingPk : Bool) (rows : List (Row F))
  | delete (snap : Snapshot) (nowNanos : Int) (rowId : Nat) (stamp : Stamp)
  | truncate
  | spilled (stamp : Stamp) (rows : List (Row F))
  | finishCommit
  | upkeep (u : Upkeep)

/-- A panic is not a step. -/
def step (c : Schema F) (s : Writer F) : Label F → Option (Writer F)
  | .put snap nowNanos checkExistingPk rows => s.applyPutRows c snap nowNanos checkExistingPk rows
  | .delete snap nowNanos rowId stamp => some (s.applyDeleteAt c snap nowNanos rowId stamp)
  | .truncate => some s.applyTruncate
  | .spilled stamp rows => s.applyRunMetadata c stamp rows
  | .finishCommit => some s.finishCommit
  | .upkeep u => (s.table.step u.label).map fun table => { s with table := table }

end MongrelDB.Storage.WritePath
