import MongrelDB.Consensus.StateMachine
import MongrelDB.Lib.Bytes

/-!
# Coordinator records

A distributed transaction has one coordinator record, in the state of its
transaction-status group. The commands of the group create it, renew its heartbeat,
note prepares and decide it.
-/

namespace MongrelDB.DistTxn

open Epoch Lib Consensus

abbrev TransactionId := Nat
abbrev TabletId := Nat
abbrev RaftGroupId := Nat
abbrev IdempotencyKey := Nat
abbrev SchemaVersion := Nat

/-- `command_id_for`: the tag, the transaction and what else goes into the hash. -/
inductive CommandId where
  | begin (txnId : TransactionId)
  | heartbeat (txnId : TransactionId) (heartbeat : HlcTimestamp)
  | markPreparing (txnId : TransactionId) (tabletId : TabletId)
  | commit (txnId : TransactionId)
  | abort (txnId : TransactionId)
  | intents (txnId : TransactionId) (tabletId : TabletId)
  | resolve (txnId : TransactionId) (tabletId : TabletId)
  | sweepResolved (olderThanMicros limit : Nat)
  /-- chosen by an operator -/
  | other (n : Nat)
  deriving DecidableEq, Repr

inductive AbortReason where
  | rolledBack
  | conflict (detail : String)
  | validation (detail : String)
  | cancelled (detail : String)
  | error (detail : String)
  deriving DecidableEq, Repr

inductive DistributedTxnState where
  | pending
  | preparing
  | committed (commitTs : HlcTimestamp)
  | aborted (reason : AbortReason)
  deriving DecidableEq, Repr

def DistributedTxnState.isTerminal : DistributedTxnState → Bool
  | .pending | .preparing => false
  | .committed _ | .aborted _ => true

/-- A durable decision delivered to a participant. -/
inductive TxnDecision where
  | committed (commitTs : HlcTimestamp)
  | aborted (reason : AbortReason)
  deriving DecidableEq, Repr

/-- The decision a state holds. -/
def DistributedTxnState.decision : DistributedTxnState → Option TxnDecision
  | .pending | .preparing => none
  | .committed commitTs => some (.committed commitTs)
  | .aborted reason => some (.aborted reason)

theorem DistributedTxnState.isTerminal_eq_false {state : DistributedTxnState} :
    state.isTerminal = false ↔ state.decision = none := by
  cases state <;> simp [isTerminal, decision]

structure TxnParticipant where
  tabletId : TabletId
  raftGroupId : RaftGroupId
  deriving DecidableEq, Repr

structure TxnRecord where
  txnId : TransactionId
  state : DistributedTxnState
  participants : List TxnParticipant
  /-- the prepares noted by `MarkPreparing` -/
  prepareTs : Std.TreeMap TabletId HlcTimestamp
  coordinator : RaftGroupId
  createdAt : HlcTimestamp
  heartbeat : HlcTimestamp
  expiry : HlcTimestamp
  maxObserved : HlcTimestamp
  idempotencyKey : IdempotencyKey

inductive CoordinatorCommand where
  | begin (record : TxnRecord)
  | heartbeat (txnId : TransactionId) (heartbeat expiry : HlcTimestamp)
  | markPreparing (txnId : TransactionId) (tabletId : TabletId) (prepareTs observed : HlcTimestamp)
  | commit (txnId : TransactionId) (commitTs : HlcTimestamp)
  | abort (txnId : TransactionId) (reason : AbortReason)

def CoordinatorCommand.txnId : CoordinatorCommand → TransactionId
  | .begin record => record.txnId
  | .heartbeat txnId _ _ => txnId
  | .markPreparing txnId _ _ _ => txnId
  | .commit txnId _ => txnId
  | .abort txnId _ => txnId

inductive StatusRejectionReason where
  | idempotencyKeyConflict (existing : IdempotencyKey)
  | unknownTxn (txnId : TransactionId)
  | decisionFinal (existing : DistributedTxnState)
  | unknownParticipant (tabletId : TabletId)
  | invalidCommitTs (commitTs maxObserved : HlcTimestamp)
  deriving DecidableEq, Repr

structure StatusRejection where
  position : LogId
  commandId : Option CommandId
  txnId : TransactionId
  reason : StatusRejectionReason
  deriving DecidableEq, Repr

namespace TxnRecord

/-- The heartbeat expiry has passed. -/
def expired (record : TxnRecord) (now : HlcTimestamp) : Bool := record.expiry ≤ now

def participant (record : TxnRecord) (tabletId : TabletId) : Option TxnParticipant :=
  record.participants.find? (·.tabletId == tabletId)

def beat (record : TxnRecord) (heartbeat expiry : HlcTimestamp) : TxnRecord :=
  if record.heartbeat < heartbeat then { record with heartbeat := heartbeat, expiry := expiry }
  else record

/-- A command on a record that is not decided; a refusal says why. A second `Begin` is dealt
with before. -/
def transition (record : TxnRecord) :
    CoordinatorCommand → Except StatusRejectionReason TxnRecord
  | .begin new => .error (.idempotencyKeyConflict new.idempotencyKey)
  | .heartbeat _ heartbeat expiry => .ok (record.beat heartbeat expiry)
  | .markPreparing _ tabletId prepareTs observed =>
    match record.participant tabletId with
    | none => .error (.unknownParticipant tabletId)
    | some _ =>
      .ok { record with
        prepareTs := record.prepareTs.insert tabletId prepareTs
        maxObserved := max record.maxObserved observed
        state := .preparing }
  | .commit _ commitTs =>
    if record.prepareTs.toList.any (commitTs ≤ ·.2) ∨ commitTs ≤ record.maxObserved then
      .error (.invalidCommitTs commitTs record.maxObserved)
    else .ok { record with state := .committed commitTs }
  | .abort _ reason => .ok { record with state := .aborted reason }

end TxnRecord

/-- `DIST_TXN_REJECTION_LIMIT` -/
def rejectionLimit : Nat := 256

/-- A bounded journal, newest last. -/
def pushBounded {α : Type} (journal : List α) (entry : α) : List α :=
  (journal ++ [entry]).drop (journal.length + 1 - rejectionLimit)

structure TxnStatusState where
  records : Std.TreeMap TransactionId TxnRecord := ∅
  rejections : List StatusRejection := []

namespace TxnStatusState

section

variable (st : TxnStatusState) (command : AppliedCommand CommandId CoordinatorCommand)
  (reason : StatusRejectionReason)

def journal : TxnStatusState :=
  { st with
    rejections := pushBounded st.rejections
      { position := command.position
        commandId := command.command.commandId
        txnId := command.command.body.txnId
        reason := reason } }

@[simp] theorem journal_records :
    (st.journal command reason).records = st.records := by
  unfold journal
  rfl

end

section

variable (command : AppliedCommand CommandId CoordinatorCommand) (st : TxnStatusState)

/-- The commands on a record that exists. -/
def applyTransition : TxnStatusState :=
  let txnId := command.command.body.txnId
  match st.records[txnId]? with
  | none => st.journal command (.unknownTxn txnId)
  | some record =>
    if record.state.isTerminal then st.journal command (.decisionFinal record.state)
    else
      match record.transition command.command.body with
      | .error reason => st.journal command reason
      | .ok record => { st with records := st.records.insert txnId record }

/-- `TxnStatusApplySink::apply_command` -/
def applyCommand :
    Except StateMachineError TxnStatusState :=
  match command.command.body with
  | .begin record =>
    if record.state ≠ .pending then .error (.corrupt "Begin record must be Pending")
    else
      match st.records[record.txnId]? with
      | some existing =>
        if existing.idempotencyKey = record.idempotencyKey then .ok st
        else .ok (st.journal command (.idempotencyKeyConflict existing.idempotencyKey))
      | none => .ok { st with records := st.records.insert record.txnId record }
  | _ => .ok (applyTransition command st)

end

/-- The reason a command was refused for, as far as the journal still knows. -/
def rejectionOf (st : TxnStatusState) (id : CommandId) : Option StatusRejectionReason :=
  (st.rejections.reverse.find? (·.commandId == some id)).map (·.reason)

theorem applyTransition_cases (command : AppliedCommand CommandId CoordinatorCommand)
    (st : TxnStatusState) :
    (applyTransition command st).records = st.records ∨
    ∃ record record', st.records[command.command.body.txnId]? = some record ∧
      record.state.isTerminal = false ∧
      record.transition command.command.body = .ok record' ∧
      (applyTransition command st).records =
        st.records.insert command.command.body.txnId record' := by
  unfold applyTransition
  dsimp only
  split
  next => exact .inl (journal_records ..)
  next record hrecord =>
    split
    next => exact .inl (journal_records ..)
    next hlive =>
      split
      next => exact .inl (journal_records ..)
      next record' htransition =>
        exact .inr ⟨record, record', hrecord, by simpa using hlive, htransition, rfl⟩

theorem applyCommand_cases {command : AppliedCommand CommandId CoordinatorCommand}
    {st st' : TxnStatusState} (h : applyCommand command st = .ok st') :
    st'.records = st.records ∨
    (∃ record, command.command.body = .begin record ∧ record.state = .pending ∧
      st.records[record.txnId]? = none ∧
      st'.records = st.records.insert record.txnId record) ∨
    (∃ record record', st.records[command.command.body.txnId]? = some record ∧
      record.state.isTerminal = false ∧
      record.transition command.command.body = .ok record' ∧
      st'.records = st.records.insert command.command.body.txnId record') := by
  unfold applyCommand at h
  split at h
  next record hbody =>
    split at h
    · cases h
    next hpending =>
      split at h
      · split at h
        · cases h
          exact .inl rfl
        · cases h
          exact .inl (journal_records ..)
      next hnone =>
        cases h
        exact .inr (.inl ⟨record, hbody, not_not.mp hpending, hnone, rfl⟩)
  next =>
    cases h
    exact (applyTransition_cases command st).imp_right .inr

end TxnStatusState

end MongrelDB.DistTxn
