import MongrelDB.Epoch.Snapshot
import MongrelDB.Tablets.Descriptor
import Std.Data.TreeMap.Lemmas

/-!
# The meta plane's tablet records

The replicated state machine that owns the tablet descriptors.

The checks of a publication only read the state, and its writes come after the
last of them, so each publication is a function that decides (`checkSplitPublish`,
`checkMergePublish`) and one that writes (`putAll`). The node, database,
placement, job and settings records are left out, and of a table only that it
exists is kept: no tablet command reads more.
-/

namespace MongrelDB.Tablets

open Lib
open Epoch (HlcTimestamp)

/-! ## Publications -/

/-- `SplitError`, as far as plans and publications raise it. -/
inductive SplitError where
  /-- "published source must be Retiring, is {}" -/
  | sourceNotRetiring (state : TabletState)
  /-- "published child {} must be Active, is {}" -/
  | childNotActive (child : TabletId) (state : TabletState)
  /-- "publication assigns one generation to all descriptors" -/
  | generationsDiffer
  /-- "children and source name different tables" -/
  | tablesDiffer
  /-- `InvalidSplitKey` -/
  | invalidSplitKey (key : Key)
  /-- "published child bounds are not the source bounds split at the split key" -/
  | childBounds
  /-- "publication tablet ids must be distinct" -/
  | idsNotDistinct
  /-- "child bounds are not the source bounds split at the split key" -/
  | planBounds
  /-- "child tablet and raft group ids must be distinct" -/
  | childIdsNotDistinct
  /-- "child tablet ids must differ from the source's" -/
  | childIsSource
  /-- "child raft group ids must differ from the source's" -/
  | childGroupIsSource
  /-- The panic "descriptor generation overflows u64". -/
  | generationOverflow
  | tablet (error : TabletError)
  deriving DecidableEq, Repr

structure SplitPublishCommand where
  source : TabletDescriptor
  /-- Lower half first. -/
  children : TabletDescriptor × TabletDescriptor
  splitKey : Key
  splitTs : HlcTimestamp
  deriving DecidableEq, Repr

namespace SplitPublishCommand

def publishGeneration (command : SplitPublishCommand) : Nat := command.source.generation

def validateChild (command : SplitPublishCommand) (child : TabletDescriptor) :
    Except SplitError Unit := do
  ensure (child.state = .active) (.childNotActive child.tabletId child.state)
  ensure (child.generation = command.source.generation) .generationsDiffer
  ensure (child.tableId = command.source.tableId) .tablesDiffer
  child.validate.mapError .tablet

def validate (command : SplitPublishCommand) : Except SplitError Unit := do
  ensure (command.source.state = .retiring) (.sourceNotRetiring command.source.state)
  command.validateChild command.children.1
  command.validateChild command.children.2
  command.source.validate.mapError .tablet
  let halves ← orElseFail (command.source.partition.splitAt command.splitKey)
    (.invalidSplitKey command.splitKey)
  ensure (command.children.1.partition = halves.1 ∧ command.children.2.partition = halves.2)
    .childBounds
  ensure (command.children.1.tabletId ≠ command.children.2.tabletId ∧
    command.children.1.tabletId ≠ command.source.tabletId ∧
    command.children.2.tabletId ≠ command.source.tabletId) .idsNotDistinct

end SplitPublishCommand

/-- `MergeError`, as far as plans and publications raise it. -/
inductive MergeError where
  /-- "published replacement must be Active, is {}" -/
  | replacementNotActive (state : TabletState)
  /-- "published source {} must be Retiring, is {}" -/
  | sourceNotRetiring (source : TabletId) (state : TabletState)
  /-- "publication assigns one generation to all descriptors" -/
  | generationsDiffer
  /-- "sources and replacement name different tables" -/
  | tablesDiffer
  /-- "source bounds are not adjacent" -/
  | notAdjacent
  /-- "published replacement bounds are not the union of the source bounds" -/
  | replacementBounds
  /-- "publication tablet ids must be distinct" -/
  | idsNotDistinct
  /-- "merge sources are not ordered adjacent halves" -/
  | notOrdered
  /-- "replacement bounds are not the union of the source bounds" -/
  | planBounds
  /-- "source and replacement tablet/raft-group ids must be distinct" -/
  | planIdsNotDistinct
  /-- The panic "descriptor generation overflows u64". -/
  | generationOverflow
  | tablet (error : TabletError)
  deriving DecidableEq, Repr

structure MergePublishCommand where
  /-- Lower half first. -/
  sources : TabletDescriptor × TabletDescriptor
  replacement : TabletDescriptor
  mergeTs : HlcTimestamp
  deriving DecidableEq, Repr

namespace MergePublishCommand

def publishGeneration (command : MergePublishCommand) : Nat := command.replacement.generation

def validateSource (command : MergePublishCommand) (source : TabletDescriptor) :
    Except MergeError Unit := do
  ensure (source.state = .retiring) (.sourceNotRetiring source.tabletId source.state)
  ensure (source.generation = command.replacement.generation) .generationsDiffer
  ensure (source.tableId = command.replacement.tableId) .tablesDiffer
  source.validate.mapError .tablet

def validate (command : MergePublishCommand) : Except MergeError Unit := do
  ensure (command.replacement.state = .active)
    (.replacementNotActive command.replacement.state)
  command.validateSource command.sources.1
  command.validateSource command.sources.2
  command.replacement.validate.mapError .tablet
  let union ← orElseFail
    (command.sources.1.partition.unionAdjacent command.sources.2.partition) .notAdjacent
  ensure (command.replacement.partition = union) .replacementBounds
  ensure (command.sources.1.tabletId ≠ command.sources.2.tabletId ∧
    command.sources.1.tabletId ≠ command.replacement.tabletId ∧
    command.sources.2.tabletId ≠ command.replacement.tabletId) .idsNotDistinct

end MergePublishCommand

/-! ## State -/

inductive Resource where
  | table (id : TableId)
  | tablet (id : TabletId)
  deriving DecidableEq, Repr

inductive InvalidReason where
  | tablet (error : TabletError)
  | split (error : SplitError)
  | merge (error : MergeError)
  /-- "publication generation is zero" -/
  | zeroGeneration
  deriving DecidableEq, Repr

inductive ConflictReason where
  /-- "generation already used for different content" -/
  | generationUsed
  /-- "stored descriptor (state {}, generation {}) is not the {} precursor of the publication
  (state {}, generation {})" -/
  | notPrecursor (state : TabletState) (generation : Nat) (precursor published : TabletState)
      (publish : Nat)
  /-- "stored descriptor (state {}, generation {}) is not the Merging precursor of the
  publication (generation {publish})" -/
  | notMergingPrecursor (state : TabletState) (generation publish : Nat)
  /-- "bounds overlap routable tablet {}" -/
  | overlaps (other : TabletId)
  deriving DecidableEq, Repr

/-- `MetaRejectionReason`, as far as tablet commands raise it. -/
inductive MetaRejectionReason where
  | staleWrite (resource : Resource) (current attempted : Nat)
  | conflict (resource : Resource) (reason : ConflictReason)
  | notFound (resource : Resource)
  | invalid (reason : InvalidReason)
  deriving DecidableEq, Repr

abbrev CommandId := Nat

structure MetaRejection where
  commandId : Option CommandId
  reason : MetaRejectionReason
  deriving DecidableEq, Repr

structure TabletRecord where
  descriptor : TabletDescriptor
  metadataVersion : Nat
  deriving DecidableEq, Repr

structure MetaState where
  metadataVersion : Nat
  /-- The tables that exist. -/
  tables : List TableId
  tablets : Std.TreeMap TabletId TabletRecord
  /-- Refused commands, oldest first. -/
  rejections : List MetaRejection

inductive MetaCommand where
  | setTabletDescriptor (descriptor : TabletDescriptor)
  | removeTabletDescriptor (tabletId : TabletId) (generation : Nat)
  | publishSplit (command : SplitPublishCommand)
  | publishMerge (command : MergePublishCommand)
  deriving DecidableEq, Repr

/-- What the checks of a publication find. -/
inductive Verdict where
  /-- The command has been applied already. -/
  | replay
  | fresh
  deriving DecidableEq, Repr

def metaRejectionLimit : Nat := 256

namespace MetaState

variable (st : MetaState)

def tablet (id : TabletId) : Option TabletDescriptor :=
  st.tablets[id]?.map (·.descriptor)

def put (version : Nat) (descriptor : TabletDescriptor) : MetaState :=
  { st with
    tablets := st.tablets.insert descriptor.tabletId { descriptor, metadataVersion := version } }

def putAll (version : Nat) (descriptors : List TabletDescriptor) : MetaState :=
  descriptors.foldl (fun st d => st.put version d) st

/-- The stored descriptor of a published one, verified as its precursor. -/
def requireStoredPrecursor (published : TabletDescriptor)
    (precursorState : TabletState) (precursorGeneration : Nat) (learnersPromoted : Bool) :
    Except MetaRejectionReason Unit := do
  let stored ← orElseFail (st.tablet published.tabletId)
    (.notFound (.tablet published.tabletId))
  let precursor :=
    { stored with state := published.state, generation := published.generation }
  let precursor := if learnersPromoted then precursor.promoted else precursor
  ensure (stored.state = precursorState ∧ stored.generation = precursorGeneration ∧
      precursor = published)
    (.conflict (.tablet published.tabletId)
      (.notPrecursor stored.state stored.generation precursorState published.state
        published.generation))

/-- No routable tablet of the table outside `participants` overlaps the published bounds. -/
def requireNoRoutableOverlap (published : TabletDescriptor)
    (participants : List TabletId) : Except MetaRejectionReason Unit :=
  let overlapping := (st.tablets.toList.map (·.2.descriptor)).find? fun d =>
    !participants.contains d.tabletId && d.tableId == published.tableId &&
      d.state.isRoutable && d.partition.overlaps published.partition
  match overlapping with
  | some other => .error (.conflict (.tablet published.tabletId) (.overlaps other.tabletId))
  | none => .ok ()

def checkSplitPublish (command : SplitPublishCommand) :
    Except MetaRejectionReason Verdict := do
  command.validate.mapError fun e => .invalid (.split e)
  ensure (command.source.tableId ∈ st.tables) (.notFound (.table command.source.tableId))
  let publish := command.publishGeneration
  -- a split resumed after a crash in the publication barrier publishes again
  if st.tablet command.source.tabletId = some command.source ∧
      st.tablet command.children.1.tabletId = some command.children.1 ∧
      st.tablet command.children.2.tabletId = some command.children.2 then
    return .replay
  else do
    ensure (publish ≠ 0) (.invalid .zeroGeneration)
    let participants :=
      [command.children.1.tabletId, command.children.2.tabletId, command.source.tabletId]
    st.requireStoredPrecursor command.source .splitting (publish - 1) false
    st.requireStoredPrecursor command.children.1 .creating (publish - 1) true
    st.requireStoredPrecursor command.children.2 .creating (publish - 1) true
    st.requireNoRoutableOverlap command.children.1 participants
    st.requireNoRoutableOverlap command.children.2 participants
    return .fresh

def applySplitPublish (command : SplitPublishCommand) (version : Nat) :
    MetaState × Except MetaRejectionReason Unit :=
  match st.checkSplitPublish command with
  | .error e => (st, .error e)
  | .ok .replay => (st, .ok ())
  | .ok .fresh =>
    (st.putAll version [command.children.1, command.children.2, command.source], .ok ())

/-- The check of one source of a merge: its generation may lag behind the publication's. -/
def requireMergingPrecursor (source : TabletDescriptor) (publish : Nat) :
    Except MetaRejectionReason Unit := do
  let stored ← orElseFail (st.tablet source.tabletId) (.notFound (.tablet source.tabletId))
  ensure (stored.state = .merging ∧ stored.generation < publish ∧
      { stored with state := .retiring, generation := publish } = source)
    (.conflict (.tablet source.tabletId)
      (.notMergingPrecursor stored.state stored.generation publish))

def checkMergePublish (command : MergePublishCommand) :
    Except MetaRejectionReason Verdict := do
  command.validate.mapError fun e => .invalid (.merge e)
  ensure (command.replacement.tableId ∈ st.tables)
    (.notFound (.table command.replacement.tableId))
  let publish := command.publishGeneration
  if st.tablet command.replacement.tabletId = some command.replacement ∧
      st.tablet command.sources.1.tabletId = some command.sources.1 ∧
      st.tablet command.sources.2.tabletId = some command.sources.2 then
    return .replay
  else do
    ensure (publish ≠ 0) (.invalid .zeroGeneration)
    let participants :=
      [command.sources.1.tabletId, command.sources.2.tabletId, command.replacement.tabletId]
    st.requireStoredPrecursor command.replacement .creating (publish - 1) true
    st.requireMergingPrecursor command.sources.1 publish
    st.requireMergingPrecursor command.sources.2 publish
    st.requireNoRoutableOverlap command.replacement participants
    return .fresh

def applyMergePublish (command : MergePublishCommand) (version : Nat) :
    MetaState × Except MetaRejectionReason Unit :=
  match st.checkMergePublish command with
  | .error e => (st, .error e)
  | .ok .replay => (st, .ok ())
  | .ok .fresh =>
    (st.putAll version [command.replacement, command.sources.1, command.sources.2], .ok ())

def setTabletDescriptor (descriptor : TabletDescriptor) (version : Nat) :
    MetaState × Except MetaRejectionReason Unit :=
  match descriptor.validate with
  | .error e => (st, .error (.invalid (.tablet e)))
  | .ok () =>
    if descriptor.tableId ∉ st.tables then
      (st, .error (.notFound (.table descriptor.tableId)))
    else
      match st.tablet descriptor.tabletId with
      | none => (st.put version descriptor, .ok ())
      | some existing =>
        if existing.generation < descriptor.generation then
          (st.put version descriptor, .ok ())
        else if descriptor.generation = existing.generation then
          if existing = descriptor then (st, .ok ())
          else (st, .error (.conflict (.tablet descriptor.tabletId) .generationUsed))
        else
          (st, .error (.staleWrite (.tablet descriptor.tabletId) existing.generation
            descriptor.generation))

def removeTabletDescriptor (id : TabletId) (generation : Nat) :
    MetaState × Except MetaRejectionReason Unit :=
  match st.tablet id with
  | none => (st, .ok ())
  | some existing =>
    if existing.generation ≤ generation then
      ({ st with tablets := st.tablets.erase id }, .ok ())
    else (st, .error (.staleWrite (.tablet id) existing.generation generation))

def dispatch (command : MetaCommand) (version : Nat) :
    MetaState × Except MetaRejectionReason Unit :=
  match command with
  | .setTabletDescriptor descriptor => st.setTabletDescriptor descriptor version
  | .removeTabletDescriptor id generation => st.removeTabletDescriptor id generation
  | .publishSplit command => st.applySplitPublish command version
  | .publishMerge command => st.applyMergePublish command version

/-- Journal a refusal; the oldest ones make room. -/
def reject (commandId : Option CommandId) (reason : MetaRejectionReason) :
    MetaState :=
  let rejections := st.rejections ++ [⟨commandId, reason⟩]
  { st with rejections := rejections.drop (rejections.length - metaRejectionLimit) }

theorem reject_tablets (commandId : Option CommandId)
    (reason : MetaRejectionReason) : (st.reject commandId reason).tablets = st.tablets := by
  simp only [reject]

/-- `apply`: the version ticks first, a refusal is journaled. -/
def apply (command : MetaCommand) (commandId : Option CommandId) :
    MetaState × Except MetaRejectionReason Unit :=
  let version := st.metadataVersion + 1
  let (st', result) := { st with metadataVersion := version }.dispatch command version
  match result with
  | .ok () => (st', .ok ())
  | .error reason => (st'.reject commandId reason, .error reason)

end MetaState

end MongrelDB.Tablets
