import MongrelDB.Epoch.Snapshot

/-!
# The apply state machine of a group

A group applies the entries of its replicated log in order. The state machine keeps a
record of what it has applied: the last log id, the last command id and a bounded
window of command ids before it.
-/

namespace MongrelDB.Consensus

open Epoch

inductive StateMachineError where
  | sink (reason : String)
  | corrupt (reason : String)
  deriving DecidableEq, Repr

/-- `RaftLogId`; also the position of an entry. -/
structure LogId where
  term : Nat
  index : Nat
  deriving DecidableEq, Repr

/-- `LogPosition::ZERO` -/
def LogId.zero : LogId := ⟨0, 0⟩

/-- What an envelope carries, stamped by the leader; a no-op carries none of the three. -/
structure ReplicatedCommand (ι γ : Type) where
  commandId : Option ι
  commitTs : Option HlcTimestamp
  body : γ
  deriving DecidableEq, Repr

inductive EntryPayload (ι γ μ : Type) where
  | blank
  | membership (members : μ)
  | normal (command : ReplicatedCommand ι γ)
  deriving DecidableEq, Repr

structure RaftLogEntry (ι γ μ : Type) where
  logId : LogId
  payload : EntryPayload ι γ μ
  deriving DecidableEq, Repr

structure AppliedCommand (ι γ : Type) where
  position : LogId
  command : ReplicatedCommand ι γ
  deriving DecidableEq, Repr

/-- The checkpoint. -/
structure AppliedRecord (ι : Type) where
  lastApplied : Option LogId := none
  lastAppliedCommandId : Option ι := none
  lastAppliedCommitTs : Option HlcTimestamp := none
  /-- oldest first -/
  recentCommandIds : List ι := []
  deriving DecidableEq, Repr

namespace AppliedRecord

variable {ι : Type}

def position (r : AppliedRecord ι) : LogId := r.lastApplied.getD .zero

variable [DecidableEq ι]

def recordCommandId (retention : Nat) (r : AppliedRecord ι) (id : ι) : AppliedRecord ι :=
  let r := { r with lastAppliedCommandId := some id }
  if id ∈ r.recentCommandIds then r
  else
    let ids := r.recentCommandIds ++ [id]
    { r with recentCommandIds := ids.drop (ids.length - retention) }

/-- The command is known. -/
def isDuplicate (r : AppliedRecord ι) (id : Option ι) : Bool :=
  id.any fun id => r.lastAppliedCommandId = some id ∨ id ∈ r.recentCommandIds

/-- The record after a command went to the sink. -/
def dispatched {γ : Type} (retention : Nat) (r : AppliedRecord ι)
    (command : ReplicatedCommand ι γ) : AppliedRecord ι :=
  let r := match command.commandId with
    | none => r
    | some id => r.recordCommandId retention id
  match command.commitTs with
  | none => r
  | some ts => { r with lastAppliedCommitTs := some ts }

end AppliedRecord

/-! ## Applying entries -/

/-- How a sink takes a command. -/
abbrev SinkApply (ι γ σ : Type) := AppliedCommand ι γ → σ → Except StateMachineError σ

structure StateMachine (ι μ σ : Type) where
  record : AppliedRecord ι
  members : Option μ
  sink : σ
  deriving DecidableEq, Repr

structure ApplyResponse (ι : Type) where
  position : LogId
  commandId : Option ι := none
  commitTs : Option HlcTimestamp := none
  duplicate : Bool := false
  deriving DecidableEq, Repr

section Apply

variable {ι γ μ σ : Type} [DecidableEq ι]

/-- The entry is at or below the record. -/
def AppliedRecord.covers (r : AppliedRecord ι) (entry : RaftLogEntry ι γ μ) : Prop :=
  ∃ last, r.lastApplied = some last ∧ entry.logId.index ≤ last.index

instance (r : AppliedRecord ι) (entry : RaftLogEntry ι γ μ) : Decidable (r.covers entry) :=
  decidable_of_iff (r.lastApplied.any (entry.logId.index ≤ ·.index) = true) (by
    cases h : r.lastApplied <;> simp [AppliedRecord.covers, h])

/-- `MongrelStateMachine::apply_one` -/
def applyOne (apply : SinkApply ι γ σ) (retention : Nat) (m : StateMachine ι μ σ)
    (entry : RaftLogEntry ι γ μ) :
    Except StateMachineError (StateMachine ι μ σ × ApplyResponse ι) :=
  if m.record.covers entry then .ok (m, { position := entry.logId, duplicate := true })
  else
    match entry.payload with
    | .blank =>
      .ok ({ m with record := { m.record with lastApplied := some entry.logId } },
        { position := entry.logId })
    | .membership members =>
      .ok ({ m with
          members := some members
          record := { m.record with lastApplied := some entry.logId } },
        { position := entry.logId })
    | .normal command =>
      if m.record.isDuplicate command.commandId then
        .ok ({ m with record := { m.record with lastApplied := some entry.logId } },
          { position := entry.logId, commandId := command.commandId, commitTs := command.commitTs,
            duplicate := true })
      else
        match apply ⟨entry.logId, command⟩ m.sink with
        | .error e => .error e
        | .ok sink =>
          .ok ({ m with
              sink := sink
              record := { m.record.dispatched retention command with
                lastApplied := some entry.logId } },
            { position := entry.logId, commandId := command.commandId,
              commitTs := command.commitTs })

/-- The entries of a batch, or of the whole log. -/
def applyEntries (apply : SinkApply ι γ σ) (retention : Nat) :
    StateMachine ι μ σ → List (RaftLogEntry ι γ μ) → Except StateMachineError (StateMachine ι μ σ)
  | m, [] => .ok m
  | m, entry :: entries =>
    match applyOne apply retention m entry with
    | .error e => .error e
    | .ok (m, _) => applyEntries apply retention m entries

end Apply

/-! ## Sinks that skip -/

/-- The state of a sink with the position it reflects. -/
structure Held (σ : Type) where
  position : LogId
  state : σ
  deriving DecidableEq, Repr

/-- A sink that passes over positions it already holds. -/
def skipping {ι γ σ : Type} (apply : SinkApply ι γ σ) : SinkApply ι γ (Held σ) := fun command h =>
  if command.position.index ≤ h.position.index then .ok h
  else
    match apply command h.state with
    | .error e => .error e
    | .ok state => .ok { position := command.position, state := state }

/-- An entry changes the state of such a sink as its command does, or not at all. -/
theorem applyOne_state {ι γ μ σ : Type} [DecidableEq ι] {apply : SinkApply ι γ σ}
    {retention : Nat} {m m' : StateMachine ι μ (Held σ)} {entry : RaftLogEntry ι γ μ}
    {response : ApplyResponse ι}
    (h : applyOne (skipping apply) retention m entry = .ok (m', response)) :
    m'.sink.state = m.sink.state ∨ ∃ command, entry.payload = .normal command ∧
      apply ⟨entry.logId, command⟩ m.sink.state = .ok m'.sink.state := by
  unfold applyOne at h
  split at h
  · cases h
    exact .inl rfl
  split at h
  · cases h
    exact .inl rfl
  · cases h
    exact .inl rfl
  next command hpayload =>
    split at h
    · cases h
      exact .inl rfl
    split at h
    · cases h
    next sink hsink =>
      cases h
      unfold skipping at hsink
      split at hsink
      · cases hsink
        exact .inl rfl
      split at hsink
      · cases hsink
      next state hstate =>
        cases hsink
        exact .inr ⟨command, hpayload, hstate⟩

/-! ## Snapshots -/

structure SmSnapshot (ι μ σ : Type) where
  record : AppliedRecord ι
  members : Option μ
  sinkPayload : σ
  deriving DecidableEq, Repr

/-- `build_snapshot_now`: record and sink are read together, under both locks. -/
def buildSnapshotNow {ι μ σ : Type} (m : StateMachine ι μ σ) : SmSnapshot ι μ σ :=
  { record := m.record, members := m.members, sinkPayload := m.sink }

/-- The freshness guard of `install_framed_snapshot`. -/
def isStale {ι : Type} (incoming current : AppliedRecord ι) : Bool :=
  incoming.position.index < current.position.index ∨
    (incoming.position.index = current.position.index ∧
      incoming.position.term < current.position.term)

end MongrelDB.Consensus
