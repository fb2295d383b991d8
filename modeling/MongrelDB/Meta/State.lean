import MongrelDB.Meta.Records
import MongrelDB.Tablets.Publication

/-!
# The meta state machine

`MetaState::apply`: the version ticks, the command is dispatched, a refusal is
journaled.
-/

namespace MongrelDB.Meta

open Lib
open Epoch (HlcTimestamp)
open Tablets (NodeId DatabaseId TableId RaftGroupId TabletId CommandId
  ReplicaDescriptor TabletDescriptor TabletRecord)
open List

inductive Resource where
  | node (id : NodeId)
  | database (id : DatabaseId)
  | databaseName (name : String)
  | table (id : TableId)
  | schemaJob (id : Nat)
  | raftGroup (id : RaftGroupId)
  /-- "raft node id allocator" -/
  | raftIdAllocator
  deriving DecidableEq, Repr

inductive ConflictReason where
  /-- "raft id projection {} is already assigned to a tablet or placement replica; re-mint the
  node id" -/
  | projectionAssigned (projected : Nat)
  /-- "decommissioned is terminal" -/
  | decommissionedTerminal
  /-- "node still hosts a tablet or placement replica" -/
  | hostsReplica
  /-- "database id already exists with different content" -/
  | databaseDiffers
  /-- "database name already taken" -/
  | databaseNameTaken
  /-- "database still has tables" -/
  | databaseHasTables
  /-- "schema version already used for different content" -/
  | schemaVersionUsed
  /-- "node {} appears twice" -/
  | nodeTwice (node : NodeId)
  /-- "job id already exists with different content" -/
  | jobDiffers
  /-- "terminal state {:?}" -/
  | jobTerminal (state : SchemaJobState)
  /-- "illegal transition {:?} -> {:?}" -/
  | illegalTransition (current next : SchemaJobState)
  /-- "allocation overflows u64" -/
  | allocationOverflow
  /-- "collision skip scan exceeded {} allocated ids" -/
  | skipScanExceeded
  deriving DecidableEq, Repr

inductive InvalidReason where
  /-- "reserved all-zero node id" -/
  | zeroNodeId
  /-- "reserved all-zero database id" -/
  | zeroDatabaseId
  /-- "database name is empty" -/
  | emptyDatabaseName
  /-- "reserved zero schema version" -/
  | zeroSchemaVersion
  /-- "placement has no replicas" -/
  | noReplicas
  /-- "placement policy name is empty" -/
  | emptyPolicyName
  /-- "placement policy {} requests zero replicas" -/
  | zeroReplicas (policy : String)
  /-- "reserved zero job id" -/
  | zeroJobId
  /-- "submitted jobs start Pending" -/
  | notPending
  /-- "raft node id allocation count {} is outside 1..={}" -/
  | allocationCount (count : Nat)
  deriving DecidableEq, Repr

inductive MetaRejectionReason where
  | featureActivation (error : FeatureActivationError)
  | setting (error : SettingError)
  | staleWrite (resource : Resource) (current attempted : Nat)
  | conflict (resource : Resource) (reason : ConflictReason)
  | notFound (resource : Resource)
  | invalid (reason : InvalidReason)
  | tablet (reason : Tablets.MetaRejectionReason)
  deriving DecidableEq, Repr

structure MetaRejection where
  commandId : Option CommandId
  reason : MetaRejectionReason
  deriving DecidableEq, Repr

structure MetaState where
  metadataVersion : Nat := 0
  nodes : Std.TreeMap NodeId NodeRecord := ∅
  databases : Std.TreeMap DatabaseId DatabaseDescriptor := ∅
  tables : Std.TreeMap TableId TableSchemaRecord := ∅
  tablets : Std.TreeMap TabletId TabletRecord := ∅
  placements : Std.TreeMap RaftGroupId ReplicaPlacement := ∅
  placementPolicies : Std.TreeMap String PlacementPolicyRecord := ∅
  schemaJobs : Std.TreeMap Nat SchemaJobRecord := ∅
  txnStatusPartitions : Std.TreeMap Nat TxnStatusPartition := ∅
  settings : ClusterSettings := {}
  featureLevel : Nat := 0
  featureActivations : List FeatureActivation := []
  rejections : List MetaRejection := []
  nextRaftNodeId : Nat := 1
  raftIdAllocations : Std.TreeMap CommandId Nat := ∅
  /-- Oldest first. -/
  raftIdAllocationOrder : List CommandId := []

inductive MetaCommand where
  | registerNode (descriptor : NodeDescriptor)
  | updateNodeState (nodeId : NodeId) (state : NodeState) (expectedVersion : Option Nat)
  | removeNode (nodeId : NodeId)
  | createDatabase (descriptor : DatabaseDescriptor)
  | dropDatabase (databaseId : DatabaseId)
  | setTableSchema (record : TableSchemaRecord)
  /-- `SetTabletDescriptor`, `RemoveTabletDescriptor`, `PublishSplit`, `PublishMerge` -/
  | tablet (command : Tablets.MetaCommand)
  | setReplicaPlacement (placement : ReplicaPlacement)
  | setPlacementPolicy (name : String) (policy : PlacementPolicy)
  | submitSchemaJob (job : SchemaJobRecord)
  | updateSchemaJob (jobId : Nat) (state : SchemaJobState) (updatedAt : HlcTimestamp)
      (error : Option String) (expectedVersion : Option Nat)
  | setClusterSetting (key : String) (value : SettingValue)
  | activateFeature (activation : FeatureActivation)
  | setTxnStatusPartition (partition : TxnStatusPartition)
  | allocateRaftNodeIds (count : Nat)
  deriving DecidableEq, Repr

def metaRejectionLimit : Nat := 256

def firstRaftNodeId : Nat := 1

def maxRaftNodeIdAllocation : Nat := 4096

def raftIdAllocationRecordLimit : Nat := 1024

def raftIdAllocationScanLimit : Nat := 2 ^ 20

/-- `char::is_whitespace`: the Unicode property `White_Space`. -/
def isWhiteSpace (c : Char) : Bool :=
  (9 ≤ c.toNat && c.toNat ≤ 13) || (0x2000 ≤ c.toNat && c.toNat ≤ 0x200A) ||
    [0x20, 0x85, 0xA0, 0x1680, 0x2028, 0x2029, 0x202F, 0x205F, 0x3000].contains c.toNat

/-- `str::trim` leaves nothing. -/
def isBlank (name : String) : Bool := name.toList.all isWhiteSpace

namespace MetaState

def tablet (st : MetaState) (id : TabletId) : Option TabletDescriptor :=
  st.tablets[id]?.map (·.descriptor)

/-! ## Nodes -/

/-- The raft node ids of all placed replicas. -/
def replicaRaftIds (st : MetaState) : List Nat :=
  (st.tablets.toList.flatMap fun e => e.2.descriptor.replicas.map (·.raftNodeId)) ++
    st.placements.toList.flatMap fun e => e.2.replicas.map (·.raftNodeId)

def registerNode (st : MetaState) (d : NodeDescriptor) (version : Nat) :
    Except MetaRejectionReason MetaState :=
  if d.nodeId = 0 then .error (.invalid .zeroNodeId)
  else if (st.nodes[d.nodeId]?).any fun existing => existing.descriptor = d then .ok st
  else if raftNodeId d.nodeId ∈ st.replicaRaftIds then
    .error (.conflict (.node d.nodeId) (.projectionAssigned (raftNodeId d.nodeId)))
  else .ok { st with nodes := st.nodes.insert d.nodeId ⟨d, version⟩ }

/-- The optimistic guard of `UpdateNodeState` and `UpdateSchemaJob`. -/
def checkExpected (resource : Resource) (current : Nat) (expected : Option Nat) :
    Except MetaRejectionReason Unit :=
  match expected with
  | some version =>
    if version = current then .ok () else .error (.staleWrite resource current version)
  | none => .ok ()

def updateNodeState (st : MetaState) (id : NodeId) (state : NodeState)
    (expectedVersion : Option Nat) (version : Nat) : Except MetaRejectionReason MetaState := do
  let record ← orElseFail st.nodes[id]? (.notFound (.node id))
  checkExpected (.node id) record.metadataVersion expectedVersion
  ensure (record.descriptor.state ≠ .decommissioned)
    (.conflict (.node id) .decommissionedTerminal)
  if record.descriptor.state = state then return st
  else
    return { st with
      nodes := st.nodes.insert id ⟨{ record.descriptor with state }, version⟩ }

/-- A placement or a tablet names the node. -/
def References (st : MetaState) (id : NodeId) : Prop :=
  (∃ e ∈ st.placements.toList, ∃ r ∈ e.2.replicas, r.nodeId = id) ∨
    ∃ e ∈ st.tablets.toList,
      (∃ r ∈ e.2.descriptor.replicas, r.nodeId = id) ∨ e.2.descriptor.leaderHint = some id
  deriving Decidable

section

variable (st : MetaState)

def removeNode (id : NodeId) : Except MetaRejectionReason MetaState :=
  if id ∉ st.nodes then .ok st
  else if st.References id then .error (.conflict (.node id) .hostsReplica)
  else .ok { st with nodes := st.nodes.erase id }

/-! ## Databases and tables -/

def createDatabase (d : DatabaseDescriptor) (version : Nat) :
    Except MetaRejectionReason MetaState :=
  if d.databaseId = 0 then .error (.invalid .zeroDatabaseId)
  else if isBlank d.name then .error (.invalid .emptyDatabaseName)
  else
    match st.databases[d.databaseId]? with
    | some existing =>
      if existing.name = d.name ∧ existing.state = d.state ∧ existing.createdAt = d.createdAt then
        .ok st
      else .error (.conflict (.database d.databaseId) .databaseDiffers)
    | none =>
      if st.databases.toList.any fun e => e.2.name = d.name then
        .error (.conflict (.databaseName d.name) .databaseNameTaken)
      else
        .ok { st with
          databases := st.databases.insert d.databaseId { d with metadataVersion := version } }

def dropDatabase (id : DatabaseId) : Except MetaRejectionReason MetaState :=
  if id ∉ st.databases then .ok st
  else if st.tables.toList.any fun e => e.2.databaseId = id then
    .error (.conflict (.database id) .databaseHasTables)
  else .ok { st with databases := st.databases.erase id }

def putTable (record : TableSchemaRecord) (version : Nat) : MetaState :=
  { st with tables := st.tables.insert record.tableId { record with metadataVersion := version } }

def setTableSchema (record : TableSchemaRecord) (version : Nat) :
    Except MetaRejectionReason MetaState :=
  if record.databaseId ∉ st.databases then .error (.notFound (.database record.databaseId))
  else if record.schemaVersion = 0 then .error (.invalid .zeroSchemaVersion)
  else
    match st.tables[record.tableId]? with
    | none => .ok (st.putTable record version)
    | some existing =>
      if existing.schemaVersion < record.schemaVersion then .ok (st.putTable record version)
      else if record.schemaVersion = existing.schemaVersion then
        if existing.databaseId = record.databaseId ∧ existing.schema = record.schema then .ok st
        else .error (.conflict (.table record.tableId) .schemaVersionUsed)
      else
        .error (.staleWrite (.table record.tableId) existing.schemaVersion record.schemaVersion)

/-! ## Tablets -/

/-- The part of the state the tablet commands work on. -/
def tabletPlane : Tablets.MetaState :=
  ⟨st.metadataVersion, st.tables.keys, st.tablets, []⟩

def tabletCommand (command : Tablets.MetaCommand) (version : Nat) :
    Except MetaRejectionReason MetaState :=
  match st.tabletPlane.dispatch command version with
  | (plane, .ok ()) => .ok { st with tablets := plane.tablets }
  | (_, .error reason) => .error (.tablet reason)

end

/-! ## Placements -/

/-- Each replica names a registered node, and no other replica does. -/
def checkPlaced (st : MetaState) (group : RaftGroupId) (prior : List ReplicaDescriptor) :
    List ReplicaDescriptor → Except MetaRejectionReason Unit
  | [] => .ok ()
  | replica :: rest =>
    if replica.nodeId ∉ st.nodes then .error (.notFound (.node replica.nodeId))
    else if prior.any fun p => p.nodeId = replica.nodeId then
      .error (.conflict (.raftGroup group) (.nodeTwice replica.nodeId))
    else st.checkPlaced group (prior ++ [replica]) rest

section

variable (st : MetaState)

def setReplicaPlacement (placement : ReplicaPlacement) (version : Nat) :
    Except MetaRejectionReason MetaState := do
  ensure (placement.replicas ≠ []) (.invalid .noReplicas)
  st.checkPlaced placement.raftGroupId [] placement.replicas
  if (st.placements[placement.raftGroupId]?).any fun existing =>
      existing.replicas = placement.replicas then
    return st
  else
    return { st with
      placements := st.placements.insert placement.raftGroupId
        { placement with metadataVersion := version } }

def setPlacementPolicy (name : String) (policy : PlacementPolicy)
    (version : Nat) : Except MetaRejectionReason MetaState :=
  if isBlank name then .error (.invalid .emptyPolicyName)
  else if policy.replicas = 0 then .error (.invalid (.zeroReplicas name))
  else if (st.placementPolicies[name]?).any fun existing => existing.policy = policy then .ok st
  else .ok { st with placementPolicies := st.placementPolicies.insert name ⟨policy, version⟩ }

/-! ## Schema jobs -/

def submitSchemaJob (job : SchemaJobRecord) (version : Nat) :
    Except MetaRejectionReason MetaState := do
  ensure (job.jobId ≠ 0) (.invalid .zeroJobId)
  ensure (job.databaseId ∈ st.databases) (.notFound (.database job.databaseId))
  ensure (job.tableId ∈ st.tables) (.notFound (.table job.tableId))
  ensure (job.state = .pending) (.invalid .notPending)
  match st.schemaJobs[job.jobId]? with
  | some existing =>
    if { existing with metadataVersion := job.metadataVersion } = job then return st
    else .error (.conflict (.schemaJob job.jobId) .jobDiffers)
  | none =>
    return { st with
      schemaJobs := st.schemaJobs.insert job.jobId { job with metadataVersion := version } }

def updateSchemaJob (id : Nat) (state : SchemaJobState)
    (updatedAt : HlcTimestamp) (error : Option String) (expectedVersion : Option Nat)
    (version : Nat) : Except MetaRejectionReason MetaState := do
  let record ← orElseFail st.schemaJobs[id]? (.notFound (.schemaJob id))
  checkExpected (.schemaJob id) record.metadataVersion expectedVersion
  ensure (record.state.isTerminal = false) (.conflict (.schemaJob id) (.jobTerminal record.state))
  ensure (record.state = state ∨ record.state.canTransition state = true)
    (.conflict (.schemaJob id) (.illegalTransition record.state state))
  if record.state = state ∧ record.error = error then return st
  else
    return { st with
      schemaJobs := st.schemaJobs.insert id
        { record with
          state := state
          updatedAt := updatedAt
          error := error
          metadataVersion := version } }

/-! ## Settings, features, partitions -/

def setClusterSetting (key : String) (value : SettingValue) :
    Except MetaRejectionReason MetaState :=
  match st.settings.apply key value with
  | .ok settings => .ok { st with settings }
  | .error e => .error (.setting e)

/-- Every registered node that is not decommissioned. -/
def voters : List NodeDescriptor :=
  (st.nodes.toList.map (·.2.descriptor)).filter fun d => d.state ≠ .decommissioned

def activateFeature (activation : FeatureActivation) (registry : FeatureRegistry)
    (commitTs : HlcTimestamp) : Except MetaRejectionReason MetaState :=
  match activation.validate registry st.featureLevel st.voters with
  | .error e => .error (.featureActivation e)
  | .ok () =>
    if st.featureActivations.any fun applied =>
        applied.feature = activation.feature ∧ applied.level = activation.level then
      .ok st
    else
      let applied :=
        if activation.activatedAt = .zero then { activation with activatedAt := commitTs }
        else activation
      .ok { st with
        featureLevel := if st.featureLevel < activation.level then activation.level
          else st.featureLevel
        featureActivations := st.featureActivations ++ [applied] }

def setTxnStatusPartition (partition : TxnStatusPartition) : MetaState :=
  if st.txnStatusPartitions[partition.partitionId]? = some partition then st
  else
    { st with
      txnStatusPartitions := st.txnStatusPartitions.insert partition.partitionId partition }

/-! ## Raft node ids -/

/-- All raft node ids in use. -/
def usedRaftIds : List Nat :=
  st.nodes.toList.map (fun e => raftNodeId e.2.descriptor.nodeId) ++ st.replicaRaftIds

end

/-- The first range of `count` free ids from `base` on, within `fuel` skips. -/
def freeRange (used : List Nat) (count : Nat) : Nat → Nat → Except MetaRejectionReason Nat
  | fuel, base =>
    if 2 ^ 64 ≤ base + count then .error (.conflict .raftIdAllocator .allocationOverflow)
    else
      match (used.filter fun id => base ≤ id ∧ id < base + count).min? with
      | none => .ok base
      | some conflicting =>
        match fuel with
        | 0 => .error (.conflict .raftIdAllocator .skipScanExceeded)
        | fuel + 1 => freeRange used count fuel (conflicting + 1)

/-- The oldest allocation makes room. -/
def recordAllocation (st : MetaState) (id : CommandId) (base : Nat) : MetaState :=
  let order := st.raftIdAllocationOrder ++ [id]
  let evicted := order.take (order.length - raftIdAllocationRecordLimit)
  { st with
    raftIdAllocations := evicted.foldl (fun m id => m.erase id)
      (st.raftIdAllocations.insert id base)
    raftIdAllocationOrder := order.drop (order.length - raftIdAllocationRecordLimit) }

def allocateRaftNodeIds (st : MetaState) (count : Nat) (commandId : Option CommandId) :
    Except MetaRejectionReason MetaState :=
  if count = 0 ∨ maxRaftNodeIdAllocation < count then .error (.invalid (.allocationCount count))
  else if commandId.any fun id => id ∈ st.raftIdAllocations then .ok st
  else
    match freeRange st.usedRaftIds count raftIdAllocationScanLimit
        (max st.nextRaftNodeId firstRaftNodeId) with
    | .error e => .error e
    | .ok base =>
      let st := { st with nextRaftNodeId := base + count }
      match commandId with
      | some id => .ok (st.recordAllocation id base)
      | none => .ok st

/-! ## Apply -/

def dispatch (st : MetaState) (command : MetaCommand) (commandId : Option CommandId)
    (commitTs : HlcTimestamp) (registry : FeatureRegistry) (version : Nat) :
    Except MetaRejectionReason MetaState :=
  match command with
  | .registerNode d => st.registerNode d version
  | .updateNodeState id state expected => st.updateNodeState id state expected version
  | .removeNode id => st.removeNode id
  | .createDatabase d => st.createDatabase d version
  | .dropDatabase id => st.dropDatabase id
  | .setTableSchema record => st.setTableSchema record version
  | .tablet command => st.tabletCommand command version
  | .setReplicaPlacement placement => st.setReplicaPlacement placement version
  | .setPlacementPolicy name policy => st.setPlacementPolicy name policy version
  | .submitSchemaJob job => st.submitSchemaJob job version
  | .updateSchemaJob id state updatedAt error expected =>
    st.updateSchemaJob id state updatedAt error expected version
  | .setClusterSetting key value => st.setClusterSetting key value
  | .activateFeature activation => st.activateFeature activation registry commitTs
  | .setTxnStatusPartition partition => .ok (st.setTxnStatusPartition partition)
  | .allocateRaftNodeIds count => st.allocateRaftNodeIds count commandId

def reject (st : MetaState) (commandId : Option CommandId) (reason : MetaRejectionReason) :
    MetaState :=
  let rejections := st.rejections ++ [⟨commandId, reason⟩]
  { st with rejections := rejections.drop (rejections.length - metaRejectionLimit) }

/-- The version ticks first, a refusal is journaled. -/
def apply (st : MetaState) (command : MetaCommand) (commandId : Option CommandId)
    (commitTs : HlcTimestamp) (registry : FeatureRegistry) :
    MetaState × Except MetaRejectionReason Unit :=
  let version := st.metadataVersion + 1
  let ticked := { st with metadataVersion := version }
  match ticked.dispatch command commandId commitTs registry version with
  | .ok st' => (st', .ok ())
  | .error reason => (ticked.reject commandId reason, .error reason)

/-! ## What an accepted command has written -/

/-- A tablet record a command has written: its table exists, it is newer than what it
replaces, and unless it was set as such it has the nodes of what it replaces. -/
structure NewTablet (st : MetaState) (command : Tablets.MetaCommand) (id : TabletId)
    (d : TabletDescriptor) : Prop where
  table : d.tableId ∈ st.tables
  newer : ∀ old, st.tablet id = some old → old.generation < d.generation
  nodes : command = .setTabletDescriptor d ∨
    ∃ old, st.tablet id = some old ∧ d.replicas.map (·.nodeId) = old.replicas.map (·.nodeId)

/-- The records after an accepted command, with what its checks have found. -/
inductive Writes (st : MetaState) : MetaCommand → MetaState → Prop where
  | nothing {command} : Writes st command st
  | node {d : NodeDescriptor} {version} (hid : d.nodeId ≠ 0)
      (hfree : raftNodeId d.nodeId ∉ st.replicaRaftIds) :
      Writes st (.registerNode d) { st with nodes := st.nodes.insert d.nodeId ⟨d, version⟩ }
  | nodeState {id state expected record version} (hrecord : st.nodes[id]? = some record)
      (hlive : record.descriptor.state ≠ .decommissioned) :
      Writes st (.updateNodeState id state expected)
        { st with nodes := st.nodes.insert id ⟨{ record.descriptor with state }, version⟩ }
  | noNode {id} (hfree : ¬ st.References id) :
      Writes st (.removeNode id) { st with nodes := st.nodes.erase id }
  | database {d : DatabaseDescriptor} {version} :
      Writes st (.createDatabase d)
        { st with
          databases := st.databases.insert d.databaseId { d with metadataVersion := version } }
  | noDatabase {id} (hempty : ∀ (table : TableId) (record : TableSchemaRecord),
        st.tables[table]? = some record → record.databaseId ≠ id) :
      Writes st (.dropDatabase id) { st with databases := st.databases.erase id }
  | table {record : TableSchemaRecord} {version} (hdb : record.databaseId ∈ st.databases) :
      Writes st (.setTableSchema record) (st.putTable record version)
  | tablets {command} {tablets : Std.TreeMap TabletId TabletRecord}
      (hnew : ∀ (id : TabletId) (record : TabletRecord), tablets[id]? = some record →
        st.tablets[id]? = some record ∨ st.NewTablet command id record.descriptor) :
      Writes st (.tablet command) { st with tablets }
  | placement {placement : ReplicaPlacement} {version}
      (hnodes : ∀ r ∈ placement.replicas, r.nodeId ∈ st.nodes) :
      Writes st (.setReplicaPlacement placement)
        { st with
          placements := st.placements.insert placement.raftGroupId
            { placement with metadataVersion := version } }
  | policy {name policy record} :
      Writes st (.setPlacementPolicy name policy)
        { st with placementPolicies := st.placementPolicies.insert name record }
  | job {job : SchemaJobRecord} {version} (hdb : job.databaseId ∈ st.databases)
      (htable : job.tableId ∈ st.tables)
      (hfresh : st.schemaJobs[job.jobId]? = none) :
      Writes st (.submitSchemaJob job)
        { st with
          schemaJobs := st.schemaJobs.insert job.jobId { job with metadataVersion := version } }
  | jobState {id state updatedAt error expected record version}
      (hrecord : st.schemaJobs[id]? = some record) (hlive : record.state.isTerminal = false) :
      Writes st (.updateSchemaJob id state updatedAt error expected)
        { st with
          schemaJobs := st.schemaJobs.insert id
            { record with
              state := state
              updatedAt := updatedAt
              error := error
              metadataVersion := version } }
  | setting {key value settings} : Writes st (.setClusterSetting key value) { st with settings }
  | feature {activation featureLevel featureActivations} (hlevel : st.featureLevel ≤ featureLevel) :
      Writes st (.activateFeature activation) { st with featureLevel, featureActivations }
  | partition {partition} :
      Writes st (.setTxnStatusPartition partition)
        { st with
          txnStatusPartitions := st.txnStatusPartitions.insert partition.partitionId partition }
  | raftIds {count nextRaftNodeId raftIdAllocations raftIdAllocationOrder} :
      Writes st (.allocateRaftNodeIds count)
        { st with nextRaftNodeId, raftIdAllocations, raftIdAllocationOrder }

end MetaState

/-! ## Tablet commands -/

section Publication

open Tablets

theorem publication_nodes {st : Tablets.MetaState} {p : Publication}
    (h : p.check st = .ok .fresh) {d : TabletDescriptor} (hd : d ∈ p.news ++ p.olds) :
    ∃ stored, st.tablet d.tabletId = some stored ∧
      d.replicas.map (·.nodeId) = stored.replicas.map (·.nodeId) := by
  cases p with
  | split command =>
    simp only [Publication.check, MetaState.checkSplitPublish, bind_eq_ok] at h
    obtain ⟨_, -, _, -, h⟩ := h
    split at h
    · cases h
    simp only [bind_eq_ok] at h
    obtain ⟨_, -, _, hsource, _, hchild₁, _, hchild₂, -⟩ := h
    simp only [Publication.news, Publication.olds, cons_append, nil_append,
      mem_cons, not_mem_nil, or_false] at hd
    obtain rfl | rfl | rfl := hd
    · exact (requireStoredPrecursor_spec hchild₁).imp fun _ h => h.1
    · exact (requireStoredPrecursor_spec hchild₂).imp fun _ h => h.1
    · exact (requireStoredPrecursor_spec hsource).imp fun _ h => h.1
  | merge command =>
    simp only [Publication.check, MetaState.checkMergePublish, bind_eq_ok] at h
    obtain ⟨_, -, _, -, h⟩ := h
    split at h
    · cases h
    simp only [bind_eq_ok] at h
    obtain ⟨_, -, _, hreplacement, _, hsource₁, _, hsource₂, -⟩ := h
    simp only [Publication.news, Publication.olds, cons_append, nil_append,
      mem_cons, not_mem_nil, or_false] at hd
    obtain rfl | rfl | rfl := hd
    · exact (requireStoredPrecursor_spec hreplacement).imp fun _ h => h.1
    · exact (requireMergingPrecursor_spec hsource₁).imp fun _ h => h.1
    · exact (requireMergingPrecursor_spec hsource₂).imp fun _ h => h.1

end Publication

namespace MetaState

variable {version : Nat}

theorem mem_tabletPlane_tables {st : MetaState} {id : TableId} :
    id ∈ st.tabletPlane.tables ↔ id ∈ st.tables := by
  simp [tabletPlane]

theorem newTablet_set {st : MetaState} {d : TabletDescriptor} (htable : d.tableId ∈ st.tables)
    (hnewer : ∀ old, st.tablet d.tabletId = some old → old.generation < d.generation)
    {id : TabletId} {record : TabletRecord}
    (h : (st.tabletPlane.put version d).tablets[id]? = some record) :
    st.tablets[id]? = some record ∨ st.NewTablet (.setTabletDescriptor d) id record.descriptor := by
  rw [Tablets.MetaState.put_tablets] at h
  split at h
  · next hid =>
    cases h
    subst hid
    exact .inr ⟨htable, hnewer, .inl rfl⟩
  · exact .inl h

theorem newTablet_publication {st : MetaState} {p : Tablets.Publication}
    (h : p.check st.tabletPlane = .ok .fresh) {id : TabletId}
    {record : TabletRecord}
    (hrecord : (st.tabletPlane.putAll version (p.news ++ p.olds)).tablets[id]? = some record) :
    st.tablets[id]? = some record ∨ st.NewTablet p.command id record.descriptor := by
  have hswap := Tablets.Publication.check_fresh h
  by_cases hmem : id ∈ (p.news ++ p.olds).map (·.tabletId)
  · right
    obtain ⟨d, hd, rfl⟩ := mem_map.mp hmem
    have hput := (st.tabletPlane.putAll_tablets version hswap.distinct d.tabletId).1 d hd rfl
    obtain rfl : record = ⟨d, version⟩ := Option.some.inj (hrecord.symm.trans hput)
    have hd' : d.tableId = p.table ∧
        ∃ old, st.tablet d.tabletId = some old ∧ old.generation < d.generation := by
      rcases mem_append.mp hd with hd | hd
      · obtain ⟨htable, -, old, hold, -, -, hgen⟩ := hswap.new d hd
        exact ⟨htable, old, hold, hgen⟩
      · obtain ⟨htable, -, old, hold, -, -, -, hgen⟩ := hswap.old d hd
        exact ⟨htable, old, hold, hgen⟩
    obtain ⟨htable, old, hold, hgen⟩ := hd'
    refine ⟨?_, ?_, .inr (publication_nodes h hd)⟩
    · rw [htable]
      exact mem_tabletPlane_tables.mp (Tablets.Publication.check_ok h).2.1
    · intro old' hold'
      obtain rfl : old = old' := Option.some.inj (hold.symm.trans hold')
      exact hgen
  · exact .inl ((hswap.untouched version hmem).symm.trans hrecord)

/-! ## Commands -/

variable {st st' : MetaState}

theorem registerNode_writes {d : NodeDescriptor}
    (h : st.registerNode d version = .ok st') : st.Writes (.registerNode d) st' := by
  simp only [registerNode] at h
  split at h
  · cases h
  next hid =>
  split at h
  · cases h
    exact .nothing
  split at h
  · cases h
  next hfree =>
  cases h
  exact .node hid hfree

theorem updateNodeState_writes {id : NodeId} {state : NodeState} {expected : Option Nat}
    (h : st.updateNodeState id state expected version = .ok st') :
    st.Writes (.updateNodeState id state expected) st' := by
  simp only [updateNodeState, bind_eq_ok, orElseFail_eq_ok, ensure_eq_ok] at h
  obtain ⟨record, hrecord, _, -, _, hlive, h⟩ := h
  split at h
  · cases h
    exact .nothing
  · cases h
    exact .nodeState hrecord hlive

theorem removeNode_writes {id : NodeId} (h : st.removeNode id = .ok st') :
    st.Writes (.removeNode id) st' := by
  simp only [removeNode] at h
  split at h
  · cases h
    exact .nothing
  split at h
  · cases h
  next hfree =>
  cases h
  exact .noNode hfree

theorem createDatabase_writes {d : DatabaseDescriptor}
    (h : st.createDatabase d version = .ok st') : st.Writes (.createDatabase d) st' := by
  simp only [createDatabase] at h
  split at h
  · cases h
  split at h
  · cases h
  split at h
  · split at h
    · cases h
      exact .nothing
    · cases h
  · split at h
    · cases h
    · cases h
      exact .database

theorem dropDatabase_writes {id : DatabaseId} (h : st.dropDatabase id = .ok st') :
    st.Writes (.dropDatabase id) st' := by
  simp only [dropDatabase] at h
  split at h
  · cases h
    exact .nothing
  split at h
  · cases h
  next hempty =>
  cases h
  refine .noDatabase fun table record hrecord hid => hempty ?_
  rw [any_eq_true]
  exact ⟨(table, record), Std.TreeMap.mem_toList_iff_getElem?_eq_some.mpr hrecord,
    decide_eq_true hid⟩

theorem setTableSchema_writes {record : TableSchemaRecord}
    (h : st.setTableSchema record version = .ok st') :
    st.Writes (.setTableSchema record) st' := by
  simp only [setTableSchema] at h
  split at h
  · cases h
  next hdb =>
  have hput : st.Writes (.setTableSchema record) (st.putTable record version) :=
    .table (not_not.mp hdb)
  split at h
  · cases h
  split at h
  · cases h
    exact hput
  split at h
  · cases h
    exact hput
  split at h
  · split at h
    · cases h
      exact .nothing
    · cases h
  · cases h

theorem publication_writes {p : Tablets.Publication} {plane : Tablets.MetaState}
    (h : st.tabletPlane.dispatch p.command version = (plane, .ok ())) :
    st.Writes (.tablet p.command) { st with tablets := plane.tablets } := by
  rw [Tablets.MetaState.dispatch_publication] at h
  split at h
  · cases h
  · cases h
    exact .nothing
  next hfresh =>
  cases h
  exact .tablets fun id record => newTablet_publication hfresh

theorem tabletCommand_writes {command : Tablets.MetaCommand}
    (h : st.tabletCommand command version = .ok st') : st.Writes (.tablet command) st' := by
  simp only [tabletCommand] at h
  split at h
  next plane hplane =>
    cases h
    cases command with
    | setTabletDescriptor d =>
      simp only [Tablets.MetaState.dispatch, Tablets.MetaState.setTabletDescriptor] at hplane
      split at hplane
      · cases hplane
      split at hplane
      · cases hplane
      next htable =>
      have htable := mem_tabletPlane_tables.mp (not_not.mp htable)
      split at hplane
      next hnone =>
        cases hplane
        refine .tablets fun id record => newTablet_set htable fun old hold => ?_
        cases hnone.symm.trans hold
      next existing hsome =>
        split at hplane
        next hgen =>
          cases hplane
          refine .tablets fun id record => newTablet_set htable fun old hold => ?_
          obtain rfl : existing = old := Option.some.inj (hsome.symm.trans hold)
          exact hgen
        split at hplane
        · split at hplane
          · cases hplane
            exact .nothing
          · cases hplane
        · cases hplane
    | removeTabletDescriptor id generation =>
      simp only [Tablets.MetaState.dispatch, Tablets.MetaState.removeTabletDescriptor] at hplane
      split at hplane
      · cases hplane
        exact .nothing
      split at hplane
      · cases hplane
        refine .tablets fun id' record hrecord => .inl ?_
        rw [Std.TreeMap.getElem?_erase] at hrecord
        split at hrecord
        · cases hrecord
        · exact hrecord
      · cases hplane
    | publishSplit command =>
      exact publication_writes (p := .split command) hplane
    | publishMerge command =>
      exact publication_writes (p := .merge command) hplane
  next => cases h

theorem checkPlaced_nodes {group : RaftGroupId} {replicas prior : List ReplicaDescriptor}
    (h : st.checkPlaced group prior replicas = .ok ()) :
    ∀ r ∈ replicas, r.nodeId ∈ st.nodes := by
  induction replicas generalizing prior with
  | nil => exact fun r hr => (not_mem_nil hr).elim
  | cons replica rest ih =>
    simp only [checkPlaced] at h
    split at h
    · cases h
    next hnode =>
    split at h
    · cases h
    exact forall_mem_cons.mpr ⟨not_not.mp hnode, ih h⟩

theorem setReplicaPlacement_writes {placement : ReplicaPlacement}
    (h : st.setReplicaPlacement placement version = .ok st') :
    st.Writes (.setReplicaPlacement placement) st' := by
  simp only [setReplicaPlacement, bind_eq_ok] at h
  obtain ⟨_, -, _, hplaced, h⟩ := h
  split at h
  · cases h
    exact .nothing
  · cases h
    exact .placement (checkPlaced_nodes hplaced)

theorem setPlacementPolicy_writes {name : String} {policy : PlacementPolicy}
    (h : st.setPlacementPolicy name policy version = .ok st') :
    st.Writes (.setPlacementPolicy name policy) st' := by
  simp only [setPlacementPolicy] at h
  split at h
  · cases h
  split at h
  · cases h
  split at h
  · cases h
    exact .nothing
  · cases h
    exact .policy

theorem submitSchemaJob_writes {job : SchemaJobRecord}
    (h : st.submitSchemaJob job version = .ok st') : st.Writes (.submitSchemaJob job) st' := by
  simp only [submitSchemaJob, bind_eq_ok, ensure_eq_ok] at h
  obtain ⟨_, -, _, hdb, _, htable, _, -, h⟩ := h
  split at h
  · split at h
    · cases h
      exact .nothing
    · cases h
  next hfresh =>
  cases h
  exact .job hdb htable hfresh

theorem updateSchemaJob_writes {id : Nat} {state : SchemaJobState} {updatedAt : HlcTimestamp}
    {error : Option String} {expected : Option Nat}
    (h : st.updateSchemaJob id state updatedAt error expected version = .ok st') :
    st.Writes (.updateSchemaJob id state updatedAt error expected) st' := by
  simp only [updateSchemaJob, bind_eq_ok, orElseFail_eq_ok, ensure_eq_ok] at h
  obtain ⟨record, hrecord, _, -, _, hlive, _, -, h⟩ := h
  split at h
  · cases h
    exact .nothing
  · cases h
    exact .jobState hrecord hlive

theorem activateFeature_writes {activation : FeatureActivation} {registry : FeatureRegistry}
    {commitTs : HlcTimestamp} (h : st.activateFeature activation registry commitTs = .ok st') :
    st.Writes (.activateFeature activation) st' := by
  simp only [activateFeature] at h
  split at h
  · cases h
  split at h
  · cases h
    exact .nothing
  · cases h
    refine .feature ?_
    split <;> omega

theorem allocateRaftNodeIds_writes {count : Nat} {commandId : Option CommandId}
    (h : st.allocateRaftNodeIds count commandId = .ok st') :
    st.Writes (.allocateRaftNodeIds count) st' := by
  simp only [allocateRaftNodeIds] at h
  split at h
  · cases h
  split at h
  · cases h
    exact .nothing
  split at h
  · cases h
  split at h
  · cases h
    exact .raftIds
  · cases h
    exact .raftIds

theorem dispatch_writes {command : MetaCommand} {commandId : Option CommandId}
    {commitTs : HlcTimestamp} {registry : FeatureRegistry}
    (h : st.dispatch command commandId commitTs registry version = .ok st') :
    st.Writes command st' := by
  cases command with
  | registerNode d => exact registerNode_writes h
  | updateNodeState id state expected => exact updateNodeState_writes h
  | removeNode id => exact removeNode_writes h
  | createDatabase d => exact createDatabase_writes h
  | dropDatabase id => exact dropDatabase_writes h
  | setTableSchema record => exact setTableSchema_writes h
  | tablet command => exact tabletCommand_writes h
  | setReplicaPlacement placement => exact setReplicaPlacement_writes h
  | setPlacementPolicy name policy => exact setPlacementPolicy_writes h
  | submitSchemaJob job => exact submitSchemaJob_writes h
  | updateSchemaJob id state updatedAt error expected => exact updateSchemaJob_writes h
  | setClusterSetting key value =>
    simp only [dispatch, setClusterSetting] at h
    split at h
    · cases h
      exact .setting
    · cases h
  | activateFeature activation => exact activateFeature_writes h
  | setTxnStatusPartition partition =>
    simp only [dispatch, setTxnStatusPartition] at h
    split at h
    · cases h
      exact .nothing
    · cases h
      exact .partition
  | allocateRaftNodeIds count => exact allocateRaftNodeIds_writes h

/-- Whatever the answer, the records are those some accepted command would leave; besides
them only the version and the journal move. -/
theorem apply_writes (st : MetaState) (command : MetaCommand) (commandId : Option CommandId)
    (commitTs : HlcTimestamp) (registry : FeatureRegistry) :
    ∃ st' rejections, MetaState.Writes { st with metadataVersion := st.metadataVersion + 1 }
        command st' ∧
      (st.apply command commandId commitTs registry).1 = { st' with rejections } := by
  simp only [apply]
  split
  next st' hok => exact ⟨st', st'.rejections, dispatch_writes hok, rfl⟩
  next reason _ => exact ⟨_, _, .nothing, rfl⟩

end MetaState

end MongrelDB.Meta
