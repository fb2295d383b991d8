import MongrelDB.Epoch.VersionOrder
import MongrelDB.Storage.Row

/-!
# A sorted run and its readers

A sorted run is an immutable file of row versions, cut into pages, sorted by row id
and then by epoch, with versions of equal stamp in write order.
-/

namespace MongrelDB.Storage

open Epoch
open Lib (challenge tally groupWinners)

variable {F : Type}

/-! ## The file -/

structure Run (F : Type) where
  pages : List (List (Row F))
  /-- the user columns in the run's directory -/
  storedColumns : List Nat
  /-- whether the directory has the optional timestamp column -/
  hasCommitTs : Bool
  clean : Bool
  uniformEpoch : Bool
  epochCreated : Nat
  sorted : pages.flatten.Pairwise fun a b =>
    a.rowId < b.rowId ∨ a.rowId = b.rowId ∧ a.committedEpoch ≤ b.committedEpoch
  /-- a clean run holds one version per row and no tombstone -/
  clean_rows : clean = true →
    pages.flatten.Pairwise (fun a b => a.rowId < b.rowId) ∧ ∀ v ∈ pages.flatten, v.deleted = false
  epoch_le : ∀ v ∈ pages.flatten, v.committedEpoch ≤ epochCreated
  /-- the placeholder epoch of a uniform-epoch run is zero -/
  uniform_zero : uniformEpoch = true → ∀ v ∈ pages.flatten, v.committedEpoch = 0

/-- A version together with where it is stored: its position in the run, and its page and
position in the page. -/
structure Slot (F : Type) where
  index : Nat
  pageSeq : Nat
  withinPage : Nat
  row : Row F
  deriving DecidableEq, Repr

def slotPages : (seq start : Nat) → List (List (Row F)) → List (List (Slot F))
  | _, _, [] => []
  | seq, start, page :: pages =>
    page.mapIdx (fun k row => ⟨start + k, seq, k, row⟩) ::
      slotPages (seq + 1) (start + page.length) pages

namespace Run

def pageSlots (run : Run F) : List (List (Slot F)) := slotPages 0 0 run.pages

/-- All versions in physical order. -/
def slots (run : Run F) : List (Slot F) := run.pageSlots.flatten

end Run

/-! ## The reader -/

structure RunReader (F : Type) where
  run : Run F
  schema : List ColumnDef
  epochOverride : Option Nat
  override_uniform : epochOverride ≠ none → run.uniformEpoch = true

inductive RunError where
  | unsupportedType (ty : TypeId)
  /-- a slice whose start lies behind its end; the source panics -/
  | invertedSlice
  deriving DecidableEq, Repr

namespace RunReader

def openFile (run : Run F) (schema : List ColumnDef) : RunReader F :=
  ⟨run, schema, none, fun h => absurd rfl h⟩

section

variable (r : RunReader F)

/-- Overlay the real commit epoch. Does nothing unless the run carries the flag. -/
def setUniformEpoch (epoch : Nat) : RunReader F :=
  if h : r.run.uniformEpoch = true then
    { r with epochOverride := some epoch, override_uniform := fun _ => h }
  else r

def commitTsOf (s : Slot F) : Option HlcTimestamp :=
  if r.run.hasCommitTs then s.row.commitTs else none

/-- The stamp as read through `column`, `column_native`, `column_native_shared` and the cursor's
`load_system_page`, which all honour the overlay. -/
def stampOf (s : Slot F) : Stamp :=
  ⟨r.epochOverride.getD s.row.committedEpoch, r.commitTsOf s⟩

/-- The stamp as read through `decode_page_native_cached`, which decodes the stored page. -/
def storedStampOf (s : Slot F) : Stamp :=
  ⟨s.row.committedEpoch, r.commitTsOf s⟩

def visible (snap : Snapshot) (s : Slot F) : Bool :=
  snap.observesVersion (r.stampOf s)

def storedVisible (snap : Snapshot) (s : Slot F) : Bool :=
  snap.observesVersion (r.storedStampOf s)

/-- A column absent from the run (added to the schema later) reads as null. -/
def valueAt (s : Slot F) (id : Nat) : Value F :=
  if id ∈ r.run.storedColumns then (s.row.get id).getD .null else .null

def readColumns (s : Slot F) : List (Nat × Value F) :=
  r.schema.map fun c => (c.id, r.valueAt s c.id)

/-- The first schema column that is stored in the run and satisfies `bad`. -/
def firstStored (bad : TypeId → Bool) : Option ColumnDef :=
  r.schema.find? fun c => decide (c.id ∈ r.run.storedColumns) && bad c.ty

/-- `materialize`: whole-column decoding, which knows every type. -/
def materialize (s : Slot F) : Row F :=
  { rowId := s.row.rowId, committedEpoch := (r.stampOf s).epoch, columns := r.readColumns s
    deleted := s.row.deleted, commitTs := r.commitTsOf s }

/-- `materialize_in_page`: page decoding for scalar columns, whole-column decoding for the rest. -/
def materializeInPage (s : Slot F) : Except RunError (Row F) :=
  match r.firstStored fun ty => ty.pointScalar && !ty.decodePageNative with
  | some c => .error (.unsupportedType c.ty)
  | none =>
    .ok { rowId := s.row.rowId, committedEpoch := (r.storedStampOf s).epoch
          columns := r.readColumns s, deleted := s.row.deleted, commitTs := r.commitTsOf s }

/-- The cursor's `materialize`: typed page decoding of every stored column of the schema. -/
def materializeNative (s : Slot F) : Except RunError (Row F) :=
  match r.firstStored fun ty => !ty.decodePageNative with
  | some c => .error (.unsupportedType c.ty)
  | none =>
    .ok { rowId := s.row.rowId, committedEpoch := (r.stampOf s).epoch
          columns := r.schema.map fun c => (c.id, c.ty.nativeValue (r.valueAt s c.id))
          deleted := s.row.deleted, commitTs := r.commitTsOf s }

end

/-! ## Point lookup -/

/-- The row-id bounds in the statistics of the page include `rowId`. -/
def pageMayContain (rowId : Nat) (page : List (Slot F)) : Bool :=
  match page.head?, page.getLast? with
  | some first, some last => decide (first.row.rowId ≤ rowId ∧ rowId ≤ last.row.rowId)
  | _, _ => false

/-- The stretch of `rowId` in a page. The source finds some match by binary search and walks to
both ends of the stretch, so which match it found does not matter. -/
def pageGroup (rowId : Nat) (page : List (Slot F)) : List (Slot F) :=
  match page.findIdx? fun s => decide (s.row.rowId = rowId) with
  | none => []
  | some lo => (page.drop lo).takeWhile fun s => decide (s.row.rowId = rowId)

/-- The slot that wins the page-pruned search; its page and position in the page are what the
source returns, with the stored stamp. -/
def findVersionPageAt (r : RunReader F) (rowId : Nat) (snap : Snapshot) : Option (Slot F) :=
  let candidatePages := r.run.pageSlots.filter (pageMayContain rowId)
  lastWins r.storedStampOf ((candidatePages.flatMap (pageGroup rowId)).filter
    (r.storedVisible snap))

def getVersionAt (r : RunReader F) (rowId : Nat) (snap : Snapshot) :
    Except RunError (Option (Nat × Row F)) :=
  match r.findVersionPageAt rowId snap with
  | none => .ok none
  | some s => (r.materializeInPage s).map fun row => some ((r.storedStampOf s).epoch, row)

/-! ## Scans keyed by row id -/

def sortSlots (l : List (Slot F)) : List (Slot F) :=
  l.insertionSort fun a b => a.index ≤ b.index

/-- The version kept for each row id by a loop over the whole run that replaces the current best
when `replaces` says so. -/
def bestByRow (r : RunReader F) (replaces : Stamp → Stamp → Bool) (snap : Snapshot) :
    List (Slot F) :=
  tally (fun a b => replaces (r.stampOf a) (r.stampOf b)) (fun s => s.row.rowId)
    (r.run.slots.filter (r.visible snap))

variable (r : RunReader F) (snap : Snapshot)

/-- The positions `visible_versions_at` materialises. -/
def visiblePicksAt : List (Slot F) :=
  sortSlots (r.bestByRow versionSupersedes snap)

def visibleVersionsAt : List (Row F) :=
  (r.visiblePicksAt snap).map r.materialize

/-- `visible_indices_at` and `visible_indices_native_at` differ only in how the columns are
decoded. -/
def liveIndicesAt : List Nat :=
  (sortSlots ((r.bestByRow versionIsNewer snap).filter fun s => !s.row.deleted)).map Slot.index

def visibleIndicesAt : List Nat := r.liveIndicesAt snap

def visibleIndicesNativeAt : List Nat := r.liveIndicesAt snap

/-! ## Scans over groups -/

/-- The newest visible version of each group of equal row ids, the first one on a tie. -/
def groupBestAt : List (Slot F) :=
  groupWinners (fun a b => versionIsNewer (r.stampOf a) (r.stampOf b)) (fun s => s.row.rowId)
    (r.visible snap) r.run.slots

/-- The clean-run shortcut applies. -/
def cleanAt : Bool :=
  r.run.clean && r.epochOverride.isNone && decide (r.run.epochCreated ≤ snap.epoch)

def visiblePositionsWithRidsAt : List Nat × List Nat :=
  let picked :=
    if r.cleanAt snap then
      if !snap.usesHlcAuthority || !r.run.hasCommitTs then r.run.slots
      else r.run.slots.filter fun s =>
        snap.observesVersion ⟨r.run.epochCreated, r.commitTsOf s⟩
    else (r.groupBestAt snap).filter fun s => !s.row.deleted
  (picked.map Slot.index, picked.map fun s => s.row.rowId)

def tombstonedRowIdsAt : List Nat :=
  if r.cleanAt snap && (!snap.usesHlcAuthority || !r.run.hasCommitTs) then []
  else ((r.groupBestAt snap).filter fun s => s.row.deleted).map fun s => s.row.rowId

end RunReader

/-! ## The visible-version cursor -/

/-- `rest` is what `next_raw` has still to deliver, page after page. -/
structure RunCursor (F : Type) where
  lookahead : Option (Slot F)
  rest : List (Slot F)

/-- The versions the cursor has not consumed. -/
def RunCursor.pending (cur : RunCursor F) : List (Slot F) := cur.lookahead.toList ++ cur.rest

namespace RunReader

def visibleVersionCursorAt (r : RunReader F) : RunCursor F := ⟨none, r.run.slots⟩

/-- The inner loop of `next_visible_version`: keep the newest visible version of `rowId`, and put
the first version of another row back as lookahead. -/
def gatherGroup (r : RunReader F) (snap : Snapshot) (rowId : Nat) :
    Option (Slot F) → List (Slot F) → Option (Slot F) × RunCursor F
  | best, [] => (best, ⟨none, []⟩)
  | best, candidate :: rest =>
    if candidate.row.rowId ≠ rowId then (best, ⟨some candidate, rest⟩)
    else
      let best' :=
        if r.visible snap candidate then
          challenge (fun a b => versionIsNewer (r.stampOf a) (r.stampOf b)) best candidate
        else best
      gatherGroup r snap rowId best' rest

/-- `next_visible_version`: groups without a visible version are passed over. Every round consumes
a version, so the number of pending ones is enough fuel. -/
def nextVisibleVersion (r : RunReader F) (snap : Snapshot) :
    Nat → RunCursor F → Option (Slot F) × RunCursor F
  | 0, cur => (none, cur)
  | fuel + 1, cur =>
    match cur.pending with
    | [] => (none, cur)
    | first :: rest =>
      let best := if r.visible snap first then some first else none
      match gatherGroup r snap first.row.rowId best rest with
      | (some version, cur') => (some version, cur')
      | (none, cur') => nextVisibleVersion r snap fuel cur'

/-- Call the cursor until it reports the end. -/
def drainCursor (r : RunReader F) (snap : Snapshot) : Nat → RunCursor F → List (Slot F)
  | 0, _ => []
  | fuel + 1, cur =>
    match r.nextVisibleVersion snap cur.pending.length cur with
    | (none, _) => []
    | (some version, cur') => version :: drainCursor r snap fuel cur'

/-- Everything the cursor yields. -/
def cursorVersionsAt (r : RunReader F) (snap : Snapshot) : List (Slot F) :=
  r.drainCursor snap r.run.slots.length r.visibleVersionCursorAt

end RunReader

end MongrelDB.Storage
