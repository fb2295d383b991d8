import MongrelDB.DistTxn.Intents
import MongrelDB.Epoch.Clock
import MongrelDB.Lib.Transition

/-!
# Drivers, groups and the network

Any number of drivers run any number of calls, each one proposal or one read at a
time; what a call has got to is its `Pc`. A proposal is a message to a group.
-/

namespace MongrelDB.DistTxn

open Epoch Lib Consensus

abbrev DriverId := Nat

structure ParticipantWrites where
  participant : TxnParticipant
  expectedSchemaVersion : SchemaVersion
  expectedAuthzVersion : Nat
  /-- transaction id and prepare timestamp are stamped by the driver -/
  intents : List WriteIntent
  deriving DecidableEq, Repr

structure CommitRequest where
  writes : List ParticipantWrites
  /-- the timestamps the transaction read or wrote at -/
  observed : List HlcTimestamp
  deriving DecidableEq, Repr

namespace CommitRequest

def participants (request : CommitRequest) : List TxnParticipant :=
  request.writes.map (·.participant)

/-- `coordinator_for` accepts it: there are writes, and no participant comes twice. -/
def Valid (request : CommitRequest) : Prop :=
  request.writes ≠ [] ∧ request.participants.Nodup
  deriving Decidable

end CommitRequest

structure DistTxnConfig where
  /-- in microseconds -/
  pendingTimeout : Nat := 10 * 10 ^ 6
  resolvedRetention : Nat := 24 * 60 * 60 * 10 ^ 6
  sweepLimit : Nat := 1024
  nodeTiebreaker : Nat := 0

/-- What is fixed for a run. -/
structure Deployment where
  /-- `select_coordinator_group`, the same on every node -/
  coordinator : TransactionId → RaftGroupId
  request : TransactionId → IdempotencyKey → CommitRequest
  config : DriverId → DistTxnConfig
  /-- how many command ids a group remembers -/
  retention : Nat
  /-- each tablet has its own Raft group; the source does not refuse two tablets of one -/
  groups : ∀ txnId key,
    ((request txnId key).participants.Nodup →
      ((request txnId key).participants.map (·.raftGroupId)).Nodup)

/-- The greatest of some timestamps. -/
def maxOf (ts : List HlcTimestamp) : HlcTimestamp := ts.foldl max .zero

/-- `advance`: expiry arithmetic. -/
def advanceBy (base : HlcTimestamp) (micros : Nat) : HlcTimestamp :=
  { base with physicalMicros := min (base.physicalMicros + micros) maxMicros }

/-! ## Groups -/

/-- A replicated group. -/
structure Group (σ : Type) where
  machine : StateMachine CommandId Unit (Held σ)
  /-- the messages applied so far, each with the state after it -/
  trace : List (Nat × σ)

namespace Group

variable {γ σ : Type}

def init (s₀ : σ) : Group σ :=
  { machine :=
      { record := {}, members := none, sink := { position := .zero, state := s₀ } }
    trace := [] }

def state (g : Group σ) : σ := g.machine.sink.state

/-- The next entry of the log is message number `message`. -/
def deliver (apply : SinkApply CommandId γ σ) (retention : Nat) (g : Group σ) (message : Nat)
    (command : ReplicatedCommand CommandId γ) : Option (Group σ) :=
  match applyOne (skipping apply) retention g.machine
      { logId := ⟨0, g.trace.length + 1⟩, payload := .normal command } with
  | .error _ => none
  | .ok (machine, _) =>
    some { machine := machine, trace := g.trace ++ [(message, machine.sink.state)] }

/-- An entry changes the state as the sink says, or not at all. -/
theorem deliver_cases {apply : SinkApply CommandId γ σ} {retention : Nat} {g g' : Group σ}
    {message : Nat} {command : ReplicatedCommand CommandId γ}
    (h : g.deliver apply retention message command = some g') :
    g'.trace = g.trace ++ [(message, g'.state)] ∧
      (g'.state = g.state ∨ ∃ position, apply ⟨position, command⟩ g.state = .ok g'.state) := by
  unfold deliver at h
  split at h
  · cases h
  next machine response happly =>
    cases h
    refine ⟨rfl, (applyOne_state happly).imp_right ?_⟩
    rintro ⟨command', ⟨⟩, hstate⟩
    exact ⟨_, hstate⟩

/-- What a member sees that has applied entry `at?`. -/
def view (g : Group σ) (at? : Nat) : Option σ := (g.trace[at?]?).map (·.2)

/-- What a member sees that answers message number `message`. -/
def answer (g : Group σ) (message at? : Nat) : Option σ :=
  if message ∈ (g.trace.take (at? + 1)).map (·.1) then g.view at? else none

end Group

inductive Message where
  /-- `pushedAt` is the time a third party found the record expired at. -/
  | status (group : RaftGroupId) (id : CommandId) (command : CoordinatorCommand)
      (pushedAt : Option HlcTimestamp)
  | intent (group : RaftGroupId) (id : CommandId) (command : IntentCommand)

/-! ## Calls -/

structure PrepareToken where
  tabletId : TabletId
  raftGroupId : RaftGroupId
  prepareTs : HlcTimestamp
  deriving DecidableEq, Repr

/-- One of the prepares that run concurrently. -/
inductive Slot where
  | unsent
  | sent (message : Nat)
  | answered (answer : Except AbortReason PrepareToken)

inductive Outcome where
  | decided (decision : TxnDecision)
  | inFlight
  | notFound
  | failed
  deriving DecidableEq, Repr

/-- How far a call has got, with its local variables. `only` is the one group an orphan is
resolved at; otherwise it is all participants. -/
inductive Pc where
  | begin (txnId : TransactionId) (key : IdempotencyKey)
  | beginSent (txnId : TransactionId) (key : IdempotencyKey) (message : Nat)
  | prepare (txnId : TransactionId) (key : IdempotencyKey) (slots : List Slot)
  | mark (txnId : TransactionId) (todo : List PrepareToken) (observed minimum : HlcTimestamp)
  | markSent (txnId : TransactionId) (message : Nat) (tablet : TabletId)
      (todo : List PrepareToken) (observed minimum : HlcTimestamp)
  | commit (txnId : TransactionId) (minimum : HlcTimestamp)
  | commitSent (txnId : TransactionId) (message : Nat)
  | abort (txnId : TransactionId) (reason : AbortReason) (pushedAt : Option HlcTimestamp)
      (only : Option RaftGroupId)
  | abortSent (txnId : TransactionId) (message : Nat) (only : Option RaftGroupId)
  | readBack (txnId : TransactionId) (only : Option RaftGroupId)
  | broadcast (txnId : TransactionId) (decision : TxnDecision) (todo : List TxnParticipant)
  | recover (txnId : TransactionId) (now : HlcTimestamp)
  | probe (txnId : TransactionId) (now : HlcTimestamp) (record : TxnRecord)
      (todo : List TxnParticipant) (probed : List HlcTimestamp) (missing : Nat)
  | push (txnId : TransactionId) (now : HlcTimestamp)
  | orphan (group : RaftGroupId) (txnId : TransactionId) (now : HlcTimestamp)
  | heartbeat (txnId : TransactionId)
  | sweep (group : RaftGroupId) (now : HlcTimestamp)
  | finished (outcome : Outcome)

/-- The calls of the driver's interface. -/
inductive Request where
  | commit (txnId : TransactionId) (key : IdempotencyKey)
  | abort (txnId : TransactionId) (reason : AbortReason)
  | recover (txnId : TransactionId) (now : HlcTimestamp)
  | pushExpired (txnId : TransactionId) (now : HlcTimestamp)
  | resolveOrphan (group : RaftGroupId) (txnId : TransactionId) (now : HlcTimestamp)
  | heartbeat (txnId : TransactionId)
  | sweepResolved (group : RaftGroupId) (now : HlcTimestamp)
  deriving DecidableEq, Repr

def Request.pc : Request → Pc
  | .commit txnId key => .begin txnId key
  | .abort txnId reason => .abort txnId reason none none
  | .recover txnId now => .recover txnId now
  | .pushExpired txnId now => .push txnId now
  | .resolveOrphan group txnId now => .orphan group txnId now
  | .heartbeat txnId => .heartbeat txnId
  | .sweepResolved group now => .sweep group now

/-- What took effect at a group. -/
inductive Event where
  | began (txnId : TransactionId) (key : IdempotencyKey)
  | prepared (group : RaftGroupId) (txnId : TransactionId) (prepareTs : HlcTimestamp)
      (intents : List WriteIntent)
  /-- `expiry` is what the record held then -/
  | decided (txnId : TransactionId) (decision : TxnDecision) (expiry : HlcTimestamp)
      (pushedAt : Option HlcTimestamp)
  | resolved (group : RaftGroupId) (txnId : TransactionId) (decision : TxnDecision)
      (writes : List CommittedWrite)
  deriving DecidableEq, Repr

structure Cluster where
  status : RaftGroupId → Group TxnStatusState
  intents : RaftGroupId → Group IntentState
  network : List Message
  calls : List (DriverId × Pc)
  clocks : DriverId → ClockState
  events : List Event

namespace Cluster

def init : Cluster :=
  { status := fun _ => .init {}, intents := fun _ => .init {}, network := [], calls := []
    clocks := fun _ => .fresh, events := [] }

/-- A linearizable read of the coordinator record. -/
def record (d : Deployment) (s : Cluster) (txnId : TransactionId) : Option TxnRecord :=
  (s.status (d.coordinator txnId)).state.records[txnId]?

end Cluster

/-- `abort_reason_of` for a refused prepare; formatted values are left out of the texts. -/
def PrepareRejectionReason.abortReason : PrepareRejectionReason → AbortReason
  | .keyConflict _ _ => .conflict "write intent conflict with transaction"
  | .payloadMismatch =>
    .validation "the transaction already prepared with a different write set"
  | .alreadyResolved _ => .validation "the transaction is already resolved"
  | .staleSchemaVersion _ _ => .validation "stale schema version"
  | .staleAuthzVersion _ _ => .validation "stale authorization version"
  | .malformedStagedWrite detail => .validation ("staged write is not appliable: " ++ detail)

/-- Why a mark that was refused makes the driver abort. -/
def StatusRejectionReason.markReason : StatusRejectionReason → AbortReason
  | .decisionFinal (.aborted reason) => reason
  | .decisionFinal _ => .error "mark-preparing raced a final decision"
  | _ => .error "mark-preparing refused by the coordinator"

/-- The intents as they are proposed. -/
def staged (txnId : TransactionId) (prepareTs : HlcTimestamp) (intents : List WriteIntent) :
    List WriteIntent :=
  intents.map fun intent => { intent with txnId := txnId, prepareTs := prepareTs }

/-- All answers, or the first failure in request order; `none` while a prepare is out. -/
def collect : List Slot → Option (Except AbortReason (List PrepareToken))
  | [] => some (.ok [])
  | .answered (.error reason) :: rest => (collect rest).map fun _ => .error reason
  | .answered (.ok token) :: rest =>
    (collect rest).map fun
      | .ok tokens => .ok (token :: tokens)
      | .error reason => .error reason
  | _ :: _ => none

/-- What one step of a call does besides moving on. -/
structure Effect where
  pc : Pc
  send : Option Message := none
  clock : Option ClockState := none

namespace Pc

/-- The group an orphan is resolved at, with its tablet if the record names it. -/
def orphanTarget (record : TxnRecord) (group : RaftGroupId) : TxnParticipant :=
  ⟨((record.participants.find? (·.raftGroupId == group)).map (·.tabletId)).getD 0, group⟩

def targets (record : TxnRecord) : Option RaftGroupId → List TxnParticipant
  | none => record.participants
  | some group => [orphanTarget record group]

def expiredReason (pushedBy : String) : AbortReason :=
  .cancelled ("transaction heartbeat expired (pushed by " ++ pushedBy ++ ")")

/-- The record `begin` proposes. -/
def pendingRecord (d : Deployment) (driver : DriverId) (txnId : TransactionId)
    (key : IdempotencyKey) (now : HlcTimestamp) : TxnRecord :=
  { txnId := txnId
    state := .pending
    participants := (d.request txnId key).participants
    prepareTs := ∅
    coordinator := d.coordinator txnId
    createdAt := now
    heartbeat := now
    expiry := advanceBy now (d.config driver).pendingTimeout
    maxObserved := maxOf (d.request txnId key).observed
    idempotencyKey := key }

/-- `prepare_participant`, answered by a member that sees `st`. -/
def prepareAnswer (txnId : TransactionId) (participant : TxnParticipant) (st : IntentState) :
    Except AbortReason PrepareToken :=
  match st.rejectionOf (.intents txnId participant.tabletId) with
  | some reason => .error reason.abortReason
  | none =>
    match st.txns[txnId]? with
    | none => .error (.error "prepare committed but no intent record is visible")
    | some stored => .ok
      { tabletId := participant.tabletId, raftGroupId := participant.raftGroupId
        prepareTs := stored.prepareTs }

/-- `begin`, answered by a member that sees `st`. -/
def beginAnswer (d : Deployment) (txnId : TransactionId) (key : IdempotencyKey)
    (st : TxnStatusState) : Pc :=
  match st.rejectionOf (.begin txnId) with
  | some _ => .finished .failed
  | none =>
    match st.records[txnId]? with
    | none => .finished .failed
    | some record =>
      if record.idempotencyKey ≠ key then .finished .failed
      else
        match record.state.decision with
        -- a retry of a transaction that is already decided
        | some decision => .broadcast txnId decision record.participants
        | none => .prepare txnId key ((d.request txnId key).writes.map fun _ => .unsent)

/-- What a driver does with the record of a transaction it found: a decision is broadcast, and
`live` says what happens otherwise. -/
def onRecord (txnId : TransactionId) (record : Option TxnRecord) (only : Option RaftGroupId)
    (live : TxnRecord → Pc) : Pc :=
  match record with
  | none => .finished .notFound
  | some record =>
    match record.state.decision with
    | some decision => .broadcast txnId decision (targets record only)
    | none => live record

/-- The push rule. -/
def pushIfExpired (txnId : TransactionId) (now : HlcTimestamp) (pushedBy : String)
    (only : Option RaftGroupId) (record : TxnRecord) : Pc :=
  if record.expired now then .abort txnId (expiredReason pushedBy) (some now) only
  else .finished .inFlight

/-- The prepare timestamp of durable, unresolved intents, as a member sees them. -/
def probeParticipant (st : Option IntentState) (txnId : TransactionId) : Option HlcTimestamp :=
  match st.map (IntentState.phase · txnId) with
  | some (IntentPhase.prepared prepareTs _) => some prepareTs
  | _ => none

/-- The end of `recover`, when every participant has been probed. -/
def recovered (txnId : TransactionId) (now : HlcTimestamp) (record : TxnRecord)
    (probed : List HlcTimestamp) (missing : Nat) : Pc :=
  if missing = 0 then
    let marks := record.prepareTs.toList.map (·.2)
    .commit txnId (max record.maxObserved (maxOf (probed ++ marks)))
  else pushIfExpired txnId now "recovery" none record

/-- The next step of a call of `driver`, with a reading of the wall clock, a view of the group
that is asked, and a choice among concurrent prepares. -/
def next (d : Deployment) (s : Cluster) (driver : DriverId) (wall at? slot : Nat) :
    Pc → Option Effect
  | .begin txnId key =>
    if (d.request txnId key).Valid then
      let (clock, now) := (s.clocks driver).now (d.config driver).nodeTiebreaker wall
      some
        { pc := .beginSent txnId key s.network.length
          send := some (.status (d.coordinator txnId) (.begin txnId)
            (.begin (pendingRecord d driver txnId key now)) none)
          clock := some clock }
    else some { pc := .finished .failed }
  | .beginSent txnId key message =>
    ((s.status (d.coordinator txnId)).answer message at?).map fun st =>
      { pc := beginAnswer d txnId key st }
  | .prepare txnId key slots =>
    match (d.request txnId key).writes[slot]?, slots[slot]? with
    | some writes, some .unsent =>
      let (clock, now) := (s.clocks driver).now (d.config driver).nodeTiebreaker wall
      some
        { pc := .prepare txnId key (slots.set slot (.sent s.network.length))
          send := some (.intent writes.participant.raftGroupId
            (.intents txnId writes.participant.tabletId)
            (.persistIntents txnId writes.expectedSchemaVersion writes.expectedAuthzVersion now
              (staged txnId now writes.intents)))
          clock := some clock }
    | some writes, some (.sent message) =>
      ((s.intents writes.participant.raftGroupId).answer message at?).map fun st =>
        { pc := .prepare txnId key
            (slots.set slot (.answered (prepareAnswer txnId writes.participant st))) }
    | none, none =>
      (collect slots).map fun
        | .error reason => { pc := .abort txnId reason none none }
        | .ok tokens =>
          let prepares := tokens.map (·.prepareTs)
          -- the fast path of a single participant has no marks
          let general := (d.request txnId key).writes.length > 1
          let observed := (d.request txnId key).observed ++ if general then prepares else []
          { pc := .mark txnId (if general then tokens else []) (maxOf observed)
              (maxOf (prepares ++ observed)) }
    | _, _ => none
  | .mark txnId [] _ minimum => some { pc := .commit txnId minimum }
  | .mark txnId (token :: todo) observed minimum =>
    some
      { pc := .markSent txnId s.network.length token.tabletId todo observed minimum
        send := some (.status (d.coordinator txnId) (.markPreparing txnId token.tabletId)
          (.markPreparing txnId token.tabletId token.prepareTs observed) none) }
  | .markSent txnId message tablet todo observed minimum =>
    ((s.status (d.coordinator txnId)).answer message at?).map fun st =>
      match st.rejectionOf (.markPreparing txnId tablet) with
      | none => { pc := .mark txnId todo observed minimum }
      | some reason => { pc := .abort txnId reason.markReason none none }
  | .commit txnId minimum =>
    let (clock, commitTs) :=
      (s.clocks driver).nextAfter (d.config driver).nodeTiebreaker wall minimum
    some
      { pc := .commitSent txnId s.network.length
        send := some (.status (d.coordinator txnId) (.commit txnId) (.commit txnId commitTs) none)
        clock := some clock }
  | .commitSent txnId message =>
    ((s.status (d.coordinator txnId)).answer message at?).map fun _ =>
      { pc := .readBack txnId none }
  | .abort txnId reason pushedAt only =>
    some
      { pc := .abortSent txnId s.network.length only
        send := some (.status (d.coordinator txnId) (.abort txnId) (.abort txnId reason) pushedAt) }
  | .abortSent txnId message only =>
    ((s.status (d.coordinator txnId)).answer message at?).map fun _ =>
      { pc := .readBack txnId only }
  | .readBack txnId only =>
    some { pc := onRecord txnId (s.record d txnId) only fun _ => .finished .failed }
  | .broadcast _ decision [] => some { pc := .finished (.decided decision) }
  | .broadcast txnId decision (participant :: todo) =>
    some
      { pc := .broadcast txnId decision todo
        send := some (.intent participant.raftGroupId (.resolve txnId participant.tabletId)
          (.resolve txnId decision)) }
  | .recover txnId now =>
    some { pc := onRecord txnId (s.record d txnId) none fun record =>
      .probe txnId now record record.participants [] 0 }
  | .probe txnId now record [] probed missing =>
    some { pc := recovered txnId now record probed missing }
  | .probe txnId now record (participant :: todo) probed missing =>
    match probeParticipant ((s.intents participant.raftGroupId).view at?) txnId with
    | some prepareTs =>
      some { pc := .probe txnId now record todo (probed ++ [prepareTs]) missing }
    | none => some { pc := .probe txnId now record todo probed (missing + 1) }
  | .push txnId now =>
    some
      { pc := onRecord txnId (s.record d txnId) none
          (pushIfExpired txnId now "a third party" none) }
  | .orphan group txnId now =>
    some
      { pc := onRecord txnId (s.record d txnId) (some group)
          (pushIfExpired txnId now "orphan recovery" (some group)) }
  | .heartbeat txnId =>
    let (clock, now) := (s.clocks driver).now (d.config driver).nodeTiebreaker wall
    some
      { pc := .finished .inFlight
        send := some (.status (d.coordinator txnId) (.heartbeat txnId now)
          (.heartbeat txnId now (advanceBy now (d.config driver).pendingTimeout)) none)
        clock := some clock }
  | .sweep group now =>
    let micros := now.physicalMicros - (d.config driver).resolvedRetention
    some
      { pc := .finished .inFlight
        send := some (.intent group (.sweepResolved micros (d.config driver).sweepLimit)
          (.sweepResolved ⟨micros, 0, 0⟩ (d.config driver).sweepLimit)) }
  | .finished _ => none

/-- What a call does when a proposal is not answered in time, or not by a leader: a prepare that
fails aborts in the end, a mark at once, anything else ends the call. -/
def fail (slot : Nat) (reason : AbortReason) : Pc → Pc
  | .prepare txnId key slots => .prepare txnId key (slots.set slot (.answered (.error reason)))
  | .mark txnId _ _ _ | .markSent txnId _ _ _ _ _ => .abort txnId reason none none
  | .broadcast txnId decision todo => .broadcast txnId decision todo.tail
  | _ => .finished .failed

end Pc

/-! ## The cluster -/

/-- The events of one delivery at a coordinator group. -/
def statusEvents (before after : TxnStatusState) (command : CoordinatorCommand)
    (pushedAt : Option HlcTimestamp) : List Event :=
  match before.records[command.txnId]?, after.records[command.txnId]? with
  | none, some record => [.began command.txnId record.idempotencyKey]
  | some record, some record' =>
    match record.state.decision, record'.state.decision with
    | none, some decision => [.decided command.txnId decision record.expiry pushedAt]
    | _, _ => []
  | _, none => []

def IntentCommand.txnId? : IntentCommand → Option TransactionId
  | .persistIntents txnId _ _ _ _ => some txnId
  | .resolve txnId _ => some txnId
  | .setTabletVersions _ _ | .sweepResolved _ _ => none

/-- A participant goes from one phase to another, making `writes` visible. -/
def phaseEvents (group : RaftGroupId) (txnId : TransactionId) (writes : List CommittedWrite) :
    IntentPhase → IntentPhase → List Event
  | .absent, .prepared prepareTs intents => [.prepared group txnId prepareTs intents]
  | .resolved _, _ => []
  | _, .resolved decision => [.resolved group txnId decision writes]
  | _, _ => []

/-- The events of one delivery at a participant. -/
def intentEvents (group : RaftGroupId) (before after : IntentState) (command : IntentCommand) :
    List Event :=
  match command.txnId? with
  | none => []
  | some txnId =>
    phaseEvents group txnId (after.committedWrites.drop before.committedWrites.length)
      (before.phase txnId) (after.phase txnId)

inductive Label where
  | start (driver : DriverId) (request : Request)
  | advance (call wall at? slot : Nat)
  | fail (call slot : Nat) (reason : AbortReason)
  | setTabletVersions (group : RaftGroupId) (schemaVersion : SchemaVersion) (authzVersion n : Nat)
  /-- the node of the driver applies an entry stamped `remote` -/
  | observe (driver : DriverId) (wall : Nat) (remote : HlcTimestamp)
  /-- the leader stamps the entry; `verdict` is the engine's objection to a prepare -/
  | deliver (message : Nat) (stamp : HlcTimestamp) (verdict : Option String)
  deriving DecidableEq, Repr

namespace Cluster

/-- A step of call `call`. -/
def take (s : Cluster) (call : Nat) (driver : DriverId) (effect : Effect) : Cluster :=
  { s with
    calls := s.calls.set call (driver, effect.pc)
    network := s.network ++ effect.send.toList
    clocks := match effect.clock with
      | none => s.clocks
      | some clock => Function.update s.clocks driver clock }

/-- A message reaches its group and is applied. -/
def deliver (d : Deployment) (s : Cluster) (message : Nat) (stamp : HlcTimestamp)
    (verdict : Option String) : Message → Option Cluster
  | .status group id command pushedAt =>
    ((s.status group).deliver TxnStatusState.applyCommand d.retention message
      { commandId := some id, commitTs := some stamp, body := command }).map fun after =>
      { s with
        status := Function.update s.status group after
        events := statusEvents (s.status group).state after.state command pushedAt ++ s.events }
  | .intent group id command =>
    ((s.intents group).deliver (IntentState.applyIntent verdict) d.retention message
      { commandId := some id, commitTs := some stamp, body := command }).map fun after =>
      { s with
        intents := Function.update s.intents group after
        events := intentEvents group (s.intents group).state after.state command ++ s.events }

def step (d : Deployment) (s : Cluster) : Label → Option Cluster
  | .start driver request => some { s with calls := s.calls ++ [(driver, request.pc)] }
  | .advance call wall at? slot =>
    match s.calls[call]? with
    | none => none
    | some (driver, pc) =>
      (pc.next d s driver wall at? slot).map fun effect => s.take call driver effect
  | .fail call slot reason =>
    match s.calls[call]? with
    | none => none
    | some (driver, pc) => some (s.take call driver { pc := Pc.fail slot reason pc })
  | .setTabletVersions group schemaVersion authzVersion n =>
    some { s with
      network := s.network ++
        [.intent group (.other n) (.setTabletVersions schemaVersion authzVersion)] }
  | .observe driver wall remote =>
    some { s with
      clocks := Function.update s.clocks driver ((s.clocks driver).observe wall remote) }
  | .deliver message stamp verdict =>
    match s.network[message]? with
    | none => none
    | some m => s.deliver d message stamp verdict m

end Cluster

end MongrelDB.DistTxn
