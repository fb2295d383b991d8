import Mathlib
import MongrelDB.Tablets.Meta

/-!
# Records of the meta plane

What the meta group keeps besides the tablet descriptors: nodes, databases, table
schemas, replica placements, placement policies, schema jobs, transaction status
partitions, cluster settings and the activated features.
-/

namespace MongrelDB.Meta

open Lib
open Epoch (HlcTimestamp)
open Tablets (NodeId DatabaseId TableId RaftGroupId TabletId CommandId
  ReplicaDescriptor TabletDescriptor TabletRecord)

/-! ## Nodes -/

inductive NodeState where
  | bootstrapping
  | up
  | draining
  | decommissioned
  | down
  deriving DecidableEq, Repr

structure NodeCapacity where
  cpu : Nat
  memoryBytes : Nat
  diskBytes : Nat
  deriving DecidableEq, Repr

structure BuildVersion where
  version : String
  gitSha : Option String
  deriving DecidableEq, Repr

structure VersionInfo where
  binaryVersion : String
  protocolMin : Nat
  protocolMax : Nat
  logFormatMin : Nat
  logFormatMax : Nat
  snapshotFormatMin : Nat
  snapshotFormatMax : Nat
  featureSet : List String
  deriving DecidableEq, Repr

structure NodeDescriptor where
  nodeId : NodeId
  rpcAddress : String
  /-- Coarsest tier first. -/
  locality : List (String × String)
  capacity : NodeCapacity
  state : NodeState
  version : BuildVersion
  versionInfo : VersionInfo
  deriving DecidableEq, Repr

structure NodeRecord where
  descriptor : NodeDescriptor
  metadataVersion : Nat
  deriving DecidableEq, Repr

/-- `raft_node_id`: the first eight bytes. -/
def raftNodeId (id : NodeId) : Nat := id % 2 ^ 64

/-! ## Databases, tables, placements -/

inductive DatabaseState where
  | online
  | dropping
  deriving DecidableEq, Repr

structure DatabaseDescriptor where
  databaseId : DatabaseId
  name : String
  createdAt : HlcTimestamp
  state : DatabaseState
  metadataVersion : Nat
  deriving DecidableEq, Repr

structure TableSchemaRecord where
  tableId : TableId
  databaseId : DatabaseId
  schemaVersion : Nat
  /-- The document, opaque here. -/
  schema : String
  metadataVersion : Nat
  deriving DecidableEq, Repr

structure ReplicaPlacement where
  raftGroupId : RaftGroupId
  replicas : List ReplicaDescriptor
  metadataVersion : Nat
  deriving DecidableEq, Repr

structure LocalityConstraint where
  key : String
  value : String
  required : Bool
  deriving DecidableEq, Repr

structure PlacementPolicy where
  replicas : Nat
  voterConstraints : List LocalityConstraint
  leaderPreferences : List LocalityConstraint
  prohibitedNodes : List NodeId
  deriving DecidableEq, Repr

structure PlacementPolicyRecord where
  policy : PlacementPolicy
  metadataVersion : Nat
  deriving DecidableEq, Repr

structure TxnStatusPartition where
  partitionId : Nat
  homeRaftGroup : RaftGroupId
  deriving DecidableEq, Repr

/-! ## Schema jobs -/

inductive SchemaJobKind where
  | indexBuild
  | columnBackfill
  | schemaValidation
  deriving DecidableEq, Repr

inductive SchemaJobState where
  | pending
  | running
  | paused
  | cancelling
  | succeeded
  | failed
  | rollingBack
  deriving DecidableEq, Repr

namespace SchemaJobState

def isTerminal : SchemaJobState → Bool
  | succeeded => true
  | failed => true
  | _ => false

def canTransition : SchemaJobState → SchemaJobState → Bool
  | pending, running => true
  | pending, cancelling => true
  | running, paused => true
  | running, cancelling => true
  | running, rollingBack => true
  | running, succeeded => true
  | paused, pending => true
  | paused, cancelling => true
  | cancelling, rollingBack => true
  | cancelling, failed => true
  | rollingBack, failed => true
  | _, _ => false

end SchemaJobState

structure SchemaJobRecord where
  jobId : Nat
  databaseId : DatabaseId
  tableId : TableId
  kind : SchemaJobKind
  state : SchemaJobState
  submittedAt : HlcTimestamp
  updatedAt : HlcTimestamp
  error : Option String
  metadataVersion : Nat
  deriving DecidableEq, Repr

/-! ## Features -/

/-- The least level of each declared feature. -/
abbrev FeatureRegistry := List (String × Nat)

structure FeatureActivation where
  feature : String
  level : Nat
  activatedAt : HlcTimestamp
  activatedBy : NodeId
  deriving DecidableEq, Repr

inductive FeatureActivationError where
  | unknownFeature (feature : String)
  | levelBelowRequirement (feature : String) (required attempted : Nat)
  | levelRegression (current attempted : Nat)
  | unsupportedByVoter (feature : String) (node : NodeId)
  | noVoters
  deriving DecidableEq, Repr

def FeatureActivation.checkVoters (a : FeatureActivation) :
    List NodeDescriptor → Except FeatureActivationError Unit
  | [] => .ok ()
  | voter :: voters =>
    if voter.versionInfo.featureSet.contains a.feature then a.checkVoters voters
    else .error (.unsupportedByVoter a.feature voter.nodeId)

def FeatureActivation.validate (a : FeatureActivation) (registry : FeatureRegistry)
    (currentLevel : Nat) (voters : List NodeDescriptor) :
    Except FeatureActivationError Unit := do
  let required ← orElseFail (registry.lookup a.feature) (.unknownFeature a.feature)
  ensure (required ≤ a.level) (.levelBelowRequirement a.feature required a.level)
  ensure (currentLevel ≤ a.level) (.levelRegression currentLevel a.level)
  ensure (voters ≠ []) .noVoters
  a.checkVoters voters

/-! ## Settings -/

structure ResourceGroupSetting where
  maxMemoryBytes : Nat
  maxConcurrentQueries : Nat
  tempDiskBudgetBytes : Nat
  deriving DecidableEq, Repr

structure BackupPolicy where
  enabled : Bool := false
  intervalSeconds : Nat := 86400
  retentionCount : Nat := 7
  deriving DecidableEq, Repr

structure AiLimits where
  maxConcurrentRequests : Nat := 16
  maxMemoryBytes : Nat := 512 * 1024 * 1024
  deriving DecidableEq, Repr

inductive DefaultConsistency where
  | linearizable
  | readYourWrites
  | snapshot
  | boundedStaleness (maxLagMs : Nat)
  | eventual
  deriving DecidableEq, Repr

/-- `ClusterSettings`; the job bound has the derived default of zero. -/
structure ClusterSettings where
  resourceGroups : List (String × ResourceGroupSetting) := []
  historyRetentionEpochs : Nat := 0
  backup : BackupPolicy := {}
  defaultConsistency : DefaultConsistency := .linearizable
  ai : AiLimits := {}
  maxConcurrentJobs : Nat := 0
  deriving DecidableEq, Repr

/-- A JSON value by what the settings' parsers make of it. -/
structure SettingValue where
  asU64 : Option Nat
  asBool : Option Bool
  asConsistency : Option DefaultConsistency
  asResourceGroup : Option ResourceGroupSetting
  isNull : Bool
  deriving DecidableEq, Repr

inductive SettingError where
  | secretSettingKey (key : String)
  | unknownSettingKey (key : String)
  | invalidSettingValue (key reason : String)
  deriving DecidableEq, Repr

def secretSettingKeyDenylist : List String :=
  ["secret", "password", "passwd", "private_key", "api_key", "token", "credential"]

def resourceGroupsKey : List Char := "resource_groups.".toList

namespace ClusterSettings

def expectU64 (key : String) (value : SettingValue) : Except SettingError Nat :=
  orElseFail value.asU64 (.invalidSettingValue key "expected an unsigned integer")

def expectBool (key : String) (value : SettingValue) : Except SettingError Bool :=
  orElseFail value.asBool (.invalidSettingValue key "expected a boolean")

/-- `u32::try_from` -/
def expectU32 (key reason : String) (n : Nat) : Except SettingError Nat := do
  ensure (n < 2 ^ 32) (.invalidSettingValue key reason)
  return n

def setResourceGroup (s : ClusterSettings) (name : String) (group : ResourceGroupSetting) :
    ClusterSettings :=
  { s with resourceGroups := (name, group) :: s.resourceGroups.filter fun e => e.1 != name }

/-- `resource_groups.<name>` -/
def applyResourceGroup (s : ClusterSettings) (key : String) (value : SettingValue) :
    Except SettingError ClusterSettings :=
  if resourceGroupsKey.isPrefixOf key.toList then
    let name := String.ofList (key.toList.drop resourceGroupsKey.length)
    if name = "" then .error (.unknownSettingKey key)
    else if value.isNull then
      .ok { s with resourceGroups := s.resourceGroups.filter fun e => e.1 != name }
    else
      (orElseFail value.asResourceGroup
        (.invalidSettingValue key "expected a resource-group object")).map (s.setResourceGroup name)
  else .error (.unknownSettingKey key)

def apply (s : ClusterSettings) (key : String) (value : SettingValue) :
    Except SettingError ClusterSettings :=
  let lowered := key.toList.map Char.toLower
  if secretSettingKeyDenylist.any fun needle => needle.toList <:+: lowered then
    .error (.secretSettingKey key)
  else
    match key with
    | "history_retention_epochs" => do
      let epochs ← expectU64 key value
      return { s with historyRetentionEpochs := epochs }
    | "backup.enabled" => do
      let enabled ← expectBool key value
      return { s with backup.enabled := enabled }
    | "backup.interval_seconds" => do
      let interval ← expectU64 key value
      ensure (interval ≠ 0) (.invalidSettingValue key "interval must be positive")
      return { s with backup.intervalSeconds := interval }
    | "backup.retention_count" => do
      let retention ← expectU64 key value
      let retention ← expectU32 key "retention count exceeds u32" retention
      return { s with backup.retentionCount := retention }
    | "default_consistency" => do
      let consistency ← orElseFail value.asConsistency
        (.invalidSettingValue key "expected one of the consistency levels")
      return { s with defaultConsistency := consistency }
    | "ai.max_concurrent_requests" => do
      let cap ← expectU64 key value
      let cap ← expectU32 key "cap exceeds u32" cap
      return { s with ai.maxConcurrentRequests := cap }
    | "ai.max_memory_bytes" => do
      let cap ← expectU64 key value
      return { s with ai.maxMemoryBytes := cap }
    | "jobs.max_concurrent" => do
      let cap ← expectU64 key value
      ensure (cap ≠ 0) (.invalidSettingValue key "job concurrency must be positive")
      let cap ← expectU32 key "cap exceeds u32" cap
      return { s with maxConcurrentJobs := cap }
    | _ => s.applyResourceGroup key value

end ClusterSettings

end MongrelDB.Meta
