import MongrelDB.Lib.Checks
import MongrelDB.Tablets.Bounds

/-!
# Tablet descriptors

What the meta plane keeps about a tablet: the range it serves, its replicas, its
lifecycle state and the generation of its last publication. Identifiers are
numbers, zero being the reserved one.
-/

namespace MongrelDB.Tablets

open Lib

abbrev TabletId := Nat
abbrev TableId := Nat
abbrev DatabaseId := Nat
abbrev RaftGroupId := Nat
abbrev NodeId := Nat

/-- Encoded key bytes. -/
structure Key where
  bytes : Bytes
  deriving DecidableEq, Repr

/-- Byte strings in lexicographic order. -/
abbrev bytesOrder : LinearOrder Bytes where
  le_refl := Std.le_refl
  le_trans _ _ _ := Std.le_trans
  lt_iff_le_not_ge _ _ := Std.lt_iff_le_and_not_ge
  le_antisymm _ _ := Std.le_antisymm
  le_total _ _ := Std.le_total
  toDecidableLE := inferInstance
  toDecidableLT := inferInstance
  toDecidableEq := inferInstance
  compare a b := compareOfLessAndEq a b

instance : LinearOrder Key :=
  @LinearOrder.lift' _ _ bytesOrder Key.bytes fun a b h => by
    cases a
    cases b
    cases h
    rfl

/-! ## Lifecycle -/

inductive TabletState where
  | creating
  | active
  | splitting
  | merging
  | retiring
  | retired
  deriving DecidableEq, Repr

namespace TabletState

def canTransitionTo : TabletState → TabletState → Bool
  | creating, active => true
  | creating, retired => true
  | active, splitting => true
  | active, merging => true
  | active, retiring => true
  | splitting, active => true
  | splitting, retiring => true
  | merging, active => true
  | merging, retiring => true
  | retiring, retired => true
  | _, _ => false

/-- Whether requests may be routed to the tablet: the serving owner, and the sources of a
split or merge in flight. -/
def isRoutable : TabletState → Bool
  | active => true
  | splitting => true
  | merging => true
  | _ => false

end TabletState

inductive ReplicaRole where
  | voter
  | learner
  | readReplica
  | aiReadReplica
  | analyticsReplica
  | backupReplica
  deriving DecidableEq, Repr

structure ReplicaDescriptor where
  nodeId : NodeId
  role : ReplicaRole
  raftNodeId : Nat
  deriving DecidableEq, Repr

structure TabletDescriptor where
  tabletId : TabletId
  tableId : TableId
  databaseId : DatabaseId
  raftGroupId : RaftGroupId
  partition : PartitionBounds Key
  replicas : List ReplicaDescriptor
  leaderHint : Option NodeId
  generation : Nat
  state : TabletState
  deriving DecidableEq, Repr

/-- `TabletError`, as far as descriptors raise it. -/
inductive TabletError where
  /-- "reserved all-zero tablet id" -/
  | reservedTabletId
  /-- "reserved all-zero raft group id" -/
  | reservedRaftGroupId
  /-- "invalid partition bounds: …" -/
  | invalidBounds (reason : InvalidBounds Key)
  /-- "tablet has no replicas" -/
  | noReplicas
  /-- "node {} holds more than one replica" -/
  | nodeHoldsTwo (node : NodeId)
  /-- "raft node id {} is used by more than one replica" -/
  | raftNodeIdUsedTwice (raftNodeId : Nat)
  /-- "leader hint {leader} is not a replica of the tablet" -/
  | leaderNotReplica (leader : NodeId)
  /-- "tablet in state {} has no voters" -/
  | noVoters (state : TabletState)
  /-- "invalid tablet state transition for tablet {tablet}: {from} -> {to}" -/
  | invalidStateTransition (tablet : TabletId) (current next : TabletState)
  /-- "descriptor generation overflows u64" -/
  | generationOverflow
  deriving DecidableEq, Repr

/-- `u64::checked_add` -/
def checkedAdd (n k : Nat) : Option Nat := if n + k < 2 ^ 64 then some (n + k) else none

theorem checkedAdd_eq {n k m : Nat} (h : checkedAdd n k = some m) : m = n + k := by
  unfold checkedAdd at h
  split at h
  · cases h
    rfl
  · cases h

namespace TabletDescriptor

def voterCount (d : TabletDescriptor) : Nat :=
  (d.replicas.filter fun replica => replica.role == .voter).length

/-- The duplicate checks of `validate`, over the replicas not yet seen. -/
def checkReplicas (prior : List ReplicaDescriptor) :
    List ReplicaDescriptor → Except TabletError Unit
  | [] => .ok ()
  | replica :: rest =>
    if prior.any fun p => p.nodeId == replica.nodeId then
      .error (.nodeHoldsTwo replica.nodeId)
    else if prior.any fun p => p.raftNodeId == replica.raftNodeId then
      .error (.raftNodeIdUsedTwice replica.raftNodeId)
    else checkReplicas (prior ++ [replica]) rest

def checkLeaderHint (d : TabletDescriptor) : Except TabletError Unit :=
  match d.leaderHint with
  | some leader =>
    if d.replicas.any fun replica => replica.nodeId == leader then .ok ()
    else .error (.leaderNotReplica leader)
  | none => .ok ()

def validate (d : TabletDescriptor) : Except TabletError Unit := do
  ensure (d.tabletId ≠ 0) .reservedTabletId
  ensure (d.raftGroupId ≠ 0) .reservedRaftGroupId
  d.partition.validate.mapError .invalidBounds
  ensure (d.replicas ≠ []) .noReplicas
  checkReplicas [] d.replicas
  d.checkLeaderHint
  ensure (d.state = .creating ∨ d.voterCount ≠ 0) (.noVoters d.state)

def tryTransition (d : TabletDescriptor) (next : TabletState) :
    Except TabletError TabletDescriptor :=
  if d.state.canTransitionTo next then .ok { d with state := next }
  else .error (.invalidStateTransition d.tabletId d.state next)

def publishedTransition (d : TabletDescriptor) (next : TabletState) :
    Except TabletError TabletDescriptor := do
  let published ← d.tryTransition next
  let generation ← orElseFail (checkedAdd published.generation 1) .generationOverflow
  return { published with generation }

/-- The replicas of a published child: the caught-up learners become voters. -/
def promoted (d : TabletDescriptor) : TabletDescriptor :=
  { d with replicas := d.replicas.map fun replica => { replica with role := .voter } }

theorem partition_valid {d : TabletDescriptor} (h : d.validate = .ok ()) :
    d.partition.validate = .ok () := by
  simp only [validate, bind_eq_ok, mapError_eq_ok] at h
  obtain ⟨_, -, _, -, _, hvalid, -⟩ := h
  exact hvalid

theorem publishedTransition_spec {d d' : TabletDescriptor} {next : TabletState}
    (h : d.publishedTransition next = .ok d') :
    d.state.canTransitionTo next = true ∧
      d' = { d with state := next, generation := d.generation + 1 } := by
  simp only [publishedTransition, bind_eq_ok, orElseFail_eq_ok] at h
  obtain ⟨published, htry, generation, hgen, hret⟩ := h
  unfold tryTransition at htry
  split at htry
  · next hcan =>
    cases htry
    cases hret
    exact ⟨hcan, by rw [checkedAdd_eq hgen]⟩
  · cases htry

end TabletDescriptor

end MongrelDB.Tablets
