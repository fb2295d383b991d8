import MongrelDB.DistTxn.Status

/-!
# Intents of a participant

A participant keeps an intent record per transaction.

With an engine bound to the participant a prepare also asks whether the staged
writes can be applied; its answer is a parameter of the command.
-/

namespace MongrelDB.DistTxn

open Epoch Lib Consensus List

structure WriteIntent where
  txnId : TransactionId
  key : Bytes
  valueRef : Bytes
  prepareTs : HlcTimestamp
  deriving DecidableEq, Repr

structure ParticipantTxn where
  txnId : TransactionId
  prepareTs : HlcTimestamp
  commandId : Option CommandId
  intents : List WriteIntent
  resolution : Option TxnDecision
  applied : Bool
  resolvedAt : Option HlcTimestamp
  deriving DecidableEq, Repr

structure CommittedWrite where
  key : Bytes
  valueRef : Bytes
  commitTs : HlcTimestamp
  txnId : TransactionId
  deriving DecidableEq, Repr

inductive IntentCommand where
  | setTabletVersions (schemaVersion : SchemaVersion) (authzVersion : Nat)
  | persistIntents (txnId : TransactionId) (expectedSchemaVersion : SchemaVersion)
      (expectedAuthzVersion : Nat) (prepareTs : HlcTimestamp) (intents : List WriteIntent)
  | resolve (txnId : TransactionId) (decision : TxnDecision)
  | sweepResolved (olderThan : HlcTimestamp) (limit : Nat)
  deriving DecidableEq, Repr

inductive PrepareRejectionReason where
  | keyConflict (key : Bytes) (holder : TransactionId)
  | payloadMismatch
  | alreadyResolved (decision : TxnDecision)
  | staleSchemaVersion (expected found : SchemaVersion)
  | staleAuthzVersion (expected found : Nat)
  | malformedStagedWrite (detail : String)
  deriving DecidableEq, Repr

structure PrepareRejection where
  position : LogId
  commandId : Option CommandId
  txnId : TransactionId
  reason : PrepareRejectionReason
  deriving DecidableEq, Repr

abbrev IntentTable := Std.TreeMap TransactionId ParticipantTxn

/-- Same keys and value references; the prepare timestamps may differ. -/
def sameWriteSet (a b : List WriteIntent) : Bool :=
  a.length == b.length &&
    (a.zip b).all fun (left, right) => left.key == right.key && left.valueRef == right.valueRef

namespace ParticipantTxn

/-- An unresolved intent of another transaction on the key. -/
def holds (txn : ParticipantTxn) (txnId : TransactionId) (key : Bytes) : Bool :=
  txn.txnId != txnId && txn.resolution.isNone && txn.intents.any (·.key == key)

/-- A tombstone resolved before `olderThan`. -/
def isOld (txn : ParticipantTxn) (olderThan : HlcTimestamp) : Bool :=
  txn.resolution.isSome && txn.resolvedAt.any (· < olderThan)

/-- The record after a resolution. -/
def resolved (txn : ParticipantTxn) (decision : TxnDecision) (at? : Option HlcTimestamp) :
    ParticipantTxn :=
  { txn with intents := [], resolution := some decision, applied := true, resolvedAt := at? }

/-- The tombstone of a transaction that never prepared here. -/
def tombstone (txnId : TransactionId) (decision : TxnDecision) (at? : Option HlcTimestamp) :
    ParticipantTxn :=
  { txnId := txnId, prepareTs := .zero, commandId := none, intents := []
    resolution := some decision, applied := true, resolvedAt := at? }

end ParticipantTxn

variable {txnId : TransactionId} {txn : ParticipantTxn}

namespace IntentTable

variable {txns : IntentTable}

/-- The first transaction, in the order of ids, with an unresolved intent on the key. -/
def conflictingHolder (txns : IntentTable) (txnId : TransactionId) (key : Bytes) :
    Option TransactionId :=
  (txns.toList.find? (·.2.holds txnId key)).map (·.2.txnId)

/-- The tombstones a sweep removes, in the order of ids. -/
def sweepable (txns : IntentTable) (olderThan : HlcTimestamp) (limit : Nat) :
    List TransactionId :=
  ((txns.toList.filter (·.2.isOld olderThan)).take limit).map (·.1)

def remove (txns : IntentTable) (swept : List TransactionId) : IntentTable :=
  swept.foldl (·.erase ·) txns

theorem conflictingHolder_eq_none {key : Bytes}
    (h : txns.conflictingHolder txnId key = none) {other : TransactionId}
    (htxn : txns[other]? = some txn) : txn.holds txnId key = false := by
  have hmem := Std.TreeMap.mem_toList_iff_getElem?_eq_some.mpr htxn
  rw [conflictingHolder, Option.map_eq_none_iff, find?_eq_none] at h
  simpa using h (other, txn) hmem

theorem getElem?_remove (swept : List TransactionId) (txns : IntentTable)
    (txnId : TransactionId) :
    (txns.remove swept)[txnId]? = if txnId ∈ swept then none else txns[txnId]? := by
  induction swept generalizing txns with
  | nil => rfl
  | cons first rest ih =>
    show (IntentTable.remove (txns.erase first) rest)[txnId]? = _
    rw [ih, Std.TreeMap.getElem?_erase]
    by_cases heq : first = txnId
    · simp [heq]
    · have hne : txnId ≠ first := Ne.symm heq
      simp [heq, hne]

theorem getElem?_of_mem_sweepable {olderThan : HlcTimestamp} {limit : Nat}
    (h : txnId ∈ txns.sweepable olderThan limit) :
    ∃ txn, txns[txnId]? = some txn ∧ txn.resolution.isSome := by
  obtain ⟨⟨id, txn⟩, hmem, rfl⟩ := mem_map.mp h
  obtain ⟨hlist, hold⟩ := mem_filter.mp (mem_of_mem_take hmem)
  refine ⟨txn, Std.TreeMap.mem_toList_iff_getElem?_eq_some.mp hlist, ?_⟩
  rw [ParticipantTxn.isOld, Bool.and_eq_true] at hold
  exact hold.1

theorem getElem?_insert_self :
    (txns.insert txnId txn)[txnId]? = some txn := by
  simp

theorem getElem?_insert_of_ne {txnId other : TransactionId}
    (h : other ≠ txnId) : (txns.insert txnId txn)[other]? = txns[other]? := by
  rw [Std.TreeMap.getElem?_insert, if_neg (by simpa using Ne.symm h)]

/-- A record is filed under its own id. -/
def Keyed (txns : IntentTable) : Prop :=
  ∀ (txnId : TransactionId) (txn : ParticipantTxn), txns[txnId]? = some txn → txn.txnId = txnId

theorem Keyed.insert (hkeyed : txns.Keyed)
    (hid : txn.txnId = txnId) : Keyed (txns.insert txnId txn) := by
  intro other found hfound
  by_cases heq : other = txnId
  · subst heq
    rw [getElem?_insert_self] at hfound
    cases hfound
    exact hid
  · rw [getElem?_insert_of_ne heq] at hfound
    exact hkeyed other found hfound

theorem Keyed.remove (hkeyed : txns.Keyed) (swept : List TransactionId) :
    (txns.remove swept).Keyed := by
  intro other found hfound
  rw [getElem?_remove] at hfound
  split at hfound
  · cases hfound
  · exact hkeyed other found hfound

end IntentTable

structure IntentState where
  schemaVersion : SchemaVersion := 0
  authzVersion : Nat := 0
  txns : IntentTable := ∅
  /-- in apply order -/
  committedWrites : List CommittedWrite := []
  rejections : List PrepareRejection := []

/-- The writes a committed decision makes visible. -/
def committedWritesOf (txnId : TransactionId) (commitTs : HlcTimestamp)
    (intents : List WriteIntent) : List CommittedWrite :=
  intents.map fun intent =>
    { key := intent.key, valueRef := intent.valueRef, commitTs := commitTs, txnId := txnId }

variable {intents : List WriteIntent}

namespace IntentState

section

variable (st : IntentState) (command : AppliedCommand CommandId IntentCommand)
  (txnId : TransactionId) (reason : PrepareRejectionReason)

def journal : IntentState :=
  { st with
    rejections := pushBounded st.rejections
      { position := command.position
        commandId := command.command.commandId
        txnId := txnId
        reason := reason } }

@[simp] theorem journal_txns : (st.journal command txnId reason).txns = st.txns := by
  unfold journal
  rfl

end

/-- The first key another transaction holds. -/
def firstConflict (st : IntentState) (txnId : TransactionId) :
    List WriteIntent → Option PrepareRejectionReason
  | [] => none
  | intent :: rest =>
    match st.txns.conflictingHolder txnId intent.key with
    | some holder => some (.keyConflict intent.key holder)
    | none => st.firstConflict txnId rest

/-- Why a prepare is refused: an existing record decides, then the versions, the conflicts and
the engine. A replay of the stored prepare is not refused. -/
def refusal (verdict : Option String) (st : IntentState) (txnId : TransactionId)
    (expectedSchemaVersion : SchemaVersion) (expectedAuthzVersion : Nat)
    (intents : List WriteIntent) : Option PrepareRejectionReason :=
  match st.txns[txnId]? with
  | some existing =>
    match existing.resolution with
    | some decision => some (.alreadyResolved decision)
    | none => if sameWriteSet existing.intents intents then none else some .payloadMismatch
  | none =>
    if expectedSchemaVersion ≠ st.schemaVersion then
      some (.staleSchemaVersion expectedSchemaVersion st.schemaVersion)
    else if expectedAuthzVersion ≠ st.authzVersion then
      some (.staleAuthzVersion expectedAuthzVersion st.authzVersion)
    else
      match st.firstConflict txnId intents with
      | some reason => some reason
      | none => verdict.map .malformedStagedWrite

/-- `IntentApplySink::apply_persist` -/
def applyPersist (verdict : Option String) (command : AppliedCommand CommandId IntentCommand)
    (st : IntentState) (txnId : TransactionId) (expectedSchemaVersion : SchemaVersion)
    (expectedAuthzVersion : Nat) (prepareTs : HlcTimestamp) (intents : List WriteIntent) :
    IntentState :=
  match st.refusal verdict txnId expectedSchemaVersion expectedAuthzVersion intents with
  | some reason => st.journal command txnId reason
  | none =>
    -- a replay: the stored record stands
    if (st.txns[txnId]?).isSome then st
    else
      { st with
        txns := st.txns.insert txnId
          { txnId := txnId, prepareTs := prepareTs, commandId := command.command.commandId
            intents := intents, resolution := none, applied := false, resolvedAt := none } }

/-- `IntentApplySink::apply_resolve` -/
def applyResolve (command : AppliedCommand CommandId IntentCommand) (st : IntentState)
    (txnId : TransactionId) (decision : TxnDecision) : Except StateMachineError IntentState :=
  let resolvedAt := command.command.commitTs
  match st.txns[txnId]? with
  | none =>
    .ok { st with txns := st.txns.insert txnId (.tombstone txnId decision resolvedAt) }
  | some existing =>
    match existing.resolution, decision with
    | some prior, new =>
      if prior = new then
        .ok (if existing.applied then st
          else { st with txns := st.txns.insert txnId { existing with applied := true } })
      else .error (.corrupt "conflicting resolve decisions for transaction")
    | none, .committed commitTs =>
      .ok { st with
        txns := st.txns.insert txnId (existing.resolved decision resolvedAt)
        committedWrites :=
          st.committedWrites ++ committedWritesOf txnId commitTs existing.intents }
    | none, .aborted _ =>
      .ok { st with txns := st.txns.insert txnId (existing.resolved decision resolvedAt) }

/-- `IntentApplySink::apply_sweep` -/
def applySweep (st : IntentState) (olderThan : HlcTimestamp) (limit : Nat) : IntentState :=
  let swept := st.txns.sweepable olderThan limit
  { st with
    txns := st.txns.remove swept
    committedWrites := st.committedWrites.filter (!swept.contains ·.txnId) }

/-- The intent commands of `IntentApplySink::apply`. -/
def applyIntent (verdict : Option String) (command : AppliedCommand CommandId IntentCommand)
    (st : IntentState) : Except StateMachineError IntentState :=
  match command.command.body with
  | .setTabletVersions schemaVersion authzVersion =>
    .ok { st with schemaVersion := schemaVersion, authzVersion := authzVersion }
  | .persistIntents txnId expectedSchemaVersion expectedAuthzVersion prepareTs intents =>
    .ok (st.applyPersist verdict command txnId expectedSchemaVersion expectedAuthzVersion
      prepareTs intents)
  | .resolve txnId decision => st.applyResolve command txnId decision
  | .sweepResolved olderThan limit => .ok (st.applySweep olderThan limit)

/-- The reason a prepare was refused for, as far as the journal still knows. -/
def rejectionOf (st : IntentState) (id : CommandId) : Option PrepareRejectionReason :=
  (st.rejections.reverse.find? (·.commandId == some id)).map (·.reason)

theorem firstConflict_eq_none {st : IntentState} :
    ∀ {intents : List WriteIntent}, st.firstConflict txnId intents = none →
      ∀ intent ∈ intents, st.txns.conflictingHolder txnId intent.key = none
  | [], _ => by simp
  | intent :: rest, h => by
    rw [firstConflict] at h
    split at h
    · cases h
    next hnone =>
      exact forall_mem_cons.mpr ⟨hnone, firstConflict_eq_none h⟩

/-! ## What a command does -/

def Keyed (st : IntentState) : Prop := st.txns.Keyed

end IntentState

/-- Where a participant stands with a transaction. -/
inductive IntentPhase where
  | absent
  | prepared (prepareTs : HlcTimestamp) (intents : List WriteIntent)
  | resolved (decision : TxnDecision)
  deriving DecidableEq, Repr

/-- What a decision makes visible. -/
def visibleWrites (txnId : TransactionId) : IntentPhase → TxnDecision → List CommittedWrite
  | .prepared _ intents, .committed commitTs => committedWritesOf txnId commitTs intents
  | _, _ => []

def ParticipantTxn.phase (txn : ParticipantTxn) : IntentPhase :=
  match txn.resolution with
  | none => .prepared txn.prepareTs txn.intents
  | some decision => .resolved decision

namespace IntentState

variable {decision : TxnDecision}

def phase (st : IntentState) (txnId : TransactionId) : IntentPhase :=
  match st.txns[txnId]? with
  | none => .absent
  | some txn => txn.phase

theorem phase_congr {st st' : IntentState}
    (h : st'.txns[txnId]? = st.txns[txnId]?) : st'.phase txnId = st.phase txnId := by
  rw [phase, h, phase]

@[simp] theorem phase_journal (st : IntentState)
    (command : AppliedCommand CommandId IntentCommand) (txnId other : TransactionId)
    (reason : PrepareRejectionReason) :
    (st.journal command txnId reason).phase other = st.phase other :=
  phase_congr (congrArg (fun txns : IntentTable => txns[other]?) (journal_txns ..))

theorem phase_eq_absent {st : IntentState} :
    st.phase txnId = .absent ↔ st.txns[txnId]? = none := by
  unfold phase
  split
  next h => simp [h]
  next txn h =>
    unfold ParticipantTxn.phase
    split <;> simp [h]

theorem phase_eq_prepared {st : IntentState} {prepareTs : HlcTimestamp}
    (h : st.phase txnId = .prepared prepareTs intents) :
    ∃ txn, st.txns[txnId]? = some txn ∧ txn.resolution = none ∧ txn.prepareTs = prepareTs ∧
      txn.intents = intents := by
  unfold phase at h
  split at h
  · cases h
  next txn htxn =>
    unfold ParticipantTxn.phase at h
    split at h
    next hnone =>
      cases h
      exact ⟨txn, htxn, hnone, rfl, rfl⟩
    next => cases h

theorem refusal_eq_none {verdict : Option String} {st : IntentState}
    {schemaVersion : SchemaVersion} {authzVersion : Nat}
    (h : st.refusal verdict txnId schemaVersion authzVersion intents = none)
    (habsent : st.txns[txnId]? = none) :
    ∀ intent ∈ intents, st.txns.conflictingHolder txnId intent.key = none := by
  rw [refusal, habsent] at h
  dsimp only at h
  split at h
  · cases h
  split at h
  · cases h
  split at h
  · cases h
  next hconflict => exact firstConflict_eq_none hconflict

/-- No other transaction holds one of the keys. -/
def Free (st : IntentState) (txnId : TransactionId) (intents : List WriteIntent) : Prop :=
  ∀ other prepareTs held, other ≠ txnId → st.phase other = .prepared prepareTs held →
    ∀ intent ∈ intents, ∀ intent' ∈ held, intent'.key ≠ intent.key

theorem free_of_conflictingHolder {st : IntentState} (hkeyed : st.Keyed)
    (h : ∀ intent ∈ intents, st.txns.conflictingHolder txnId intent.key = none) :
    st.Free txnId intents := by
  intro other prepareTs held hne hphase intent hintent intent' hintent' hkey
  obtain ⟨txn, htxn, hunresolved, -, rfl⟩ := phase_eq_prepared hphase
  have hfree := IntentTable.conflictingHolder_eq_none (h intent hintent) htxn
  have hid := hkeyed other txn htxn
  rw [ParticipantTxn.holds, hid, hunresolved] at hfree
  have hany : txn.intents.any (·.key == intent.key) = true :=
    any_eq_true.mpr ⟨intent', hintent', by simpa using hkey⟩
  simp [hne, hany] at hfree

/-- What one command does to one transaction. -/
inductive PhaseStep (st : IntentState) (body : IntentCommand) (txnId : TransactionId) :
    IntentPhase → IntentPhase → Prop where
  | same (phase : IntentPhase) : PhaseStep st body txnId phase phase
  | prepare (schemaVersion : SchemaVersion) (authzVersion : Nat) (prepareTs : HlcTimestamp)
      (intents : List WriteIntent)
      (hbody : body = .persistIntents txnId schemaVersion authzVersion prepareTs intents)
      (hfree : st.Free txnId intents) :
      PhaseStep st body txnId .absent (.prepared prepareTs intents)
  | resolve (phase : IntentPhase) (decision : TxnDecision) (hbody : body = .resolve txnId decision)
      (hlive : ∀ prior, phase ≠ .resolved prior) :
      PhaseStep st body txnId phase (.resolved decision)
  | sweep (decision : TxnDecision) : PhaseStep st body txnId (.resolved decision) .absent

section Apply

variable {verdict : Option String} {command : AppliedCommand CommandId IntentCommand}
variable {st st' : IntentState}

theorem phaseStep_insert {body : IntentCommand}
    (htxns : st'.txns = st.txns.insert txnId txn)
    (hself : PhaseStep st body txnId (st.phase txnId) txn.phase) (other : TransactionId) :
    PhaseStep st body other (st.phase other) (st'.phase other) := by
  by_cases heq : other = txnId
  · subst heq
    have hphase : st'.phase other = txn.phase := by
      rw [phase, htxns, IntentTable.getElem?_insert_self]
    rw [hphase]
    exact hself
  · rw [phase_congr (by rw [htxns, IntentTable.getElem?_insert_of_ne heq])]
    exact .same _

theorem applyPersist_phase (hkeyed : st.Keyed)
    {schemaVersion : SchemaVersion} {authzVersion : Nat} {prepareTs : HlcTimestamp}
    (hbody : command.command.body =
      .persistIntents txnId schemaVersion authzVersion prepareTs intents)
    (other : TransactionId) :
    PhaseStep st command.command.body other (st.phase other)
      ((st.applyPersist verdict command txnId schemaVersion authzVersion prepareTs
        intents).phase other) := by
  unfold applyPersist
  split
  · rw [phase_journal]
    exact .same _
  next haccepted =>
    split
    · exact .same _
    next habsent =>
      have hnone : st.txns[txnId]? = none := by simpa using habsent
      refine phaseStep_insert rfl ?_ other
      rw [phase_eq_absent.mpr hnone]
      exact .prepare schemaVersion authzVersion prepareTs intents hbody
        (free_of_conflictingHolder hkeyed (refusal_eq_none haccepted hnone))

theorem applyResolve_phase
    (hbody : command.command.body = .resolve txnId decision)
    (h : st.applyResolve command txnId decision = .ok st') (other : TransactionId) :
    PhaseStep st command.command.body other (st.phase other) (st'.phase other) := by
  unfold applyResolve at h
  dsimp only at h
  split at h
  next hnone =>
    cases h
    refine phaseStep_insert rfl (.resolve _ _ hbody ?_) other
    rw [phase_eq_absent.mpr hnone]
    intro prior hprior
    cases hprior
  next existing hexisting =>
    have hphase : st.phase txnId = existing.phase := by rw [phase, hexisting]
    -- the record is live in the two cases below
    have hresolve : existing.resolution = none →
        PhaseStep st command.command.body txnId (st.phase txnId) (.resolved decision) := by
      intro hlive
      refine .resolve _ _ hbody ?_
      rw [hphase, ParticipantTxn.phase, hlive]
      intro prior hprior
      cases hprior
    split at h
    next prior hresolution =>
      split at h
      · cases h
        split
        · exact .same _
        · refine phaseStep_insert rfl ?_ other
          rw [hphase]
          exact .same _
      · cases h
    next hlive =>
      cases h
      exact phaseStep_insert rfl (hresolve hlive) other
    next hlive =>
      cases h
      exact phaseStep_insert rfl (hresolve hlive) other

theorem applySweep_phase {body : IntentCommand} (olderThan : HlcTimestamp) (limit : Nat)
    (other : TransactionId) :
    PhaseStep st body other (st.phase other) ((st.applySweep olderThan limit).phase other) := by
  have hget : (st.applySweep olderThan limit).txns[other]? = _ :=
    IntentTable.getElem?_remove (st.txns.sweepable olderThan limit) st.txns other
  by_cases hmem : other ∈ st.txns.sweepable olderThan limit
  · rw [if_pos hmem] at hget
    obtain ⟨txn, htxn, hresolved⟩ := IntentTable.getElem?_of_mem_sweepable hmem
    obtain ⟨decision, hdecision⟩ := Option.isSome_iff_exists.mp hresolved
    have hbefore : st.phase other = .resolved decision := by
      rw [phase, htxn]
      dsimp only
      rw [ParticipantTxn.phase, hdecision]
    rw [phase_eq_absent.mpr hget, hbefore]
    exact .sweep decision
  · rw [if_neg hmem] at hget
    rw [phase_congr hget]
    exact .same _

theorem applyIntent_phase (hkeyed : st.Keyed) (h : applyIntent verdict command st = .ok st')
    (other : TransactionId) :
    PhaseStep st command.command.body other (st.phase other) (st'.phase other) := by
  unfold applyIntent at h
  split at h
  · cases h
    exact .same _
  next hbody =>
    cases h
    exact applyPersist_phase hkeyed hbody other
  next hbody => exact applyResolve_phase hbody h other
  next =>
    cases h
    exact applySweep_phase _ _ other

theorem Keyed.insert (hkeyed : st.Keyed)
    (htxns : st'.txns = st.txns.insert txnId txn) (hid : txn.txnId = txnId) : st'.Keyed := by
  unfold Keyed
  rw [htxns]
  exact IntentTable.Keyed.insert hkeyed hid

theorem Keyed.applyPersist (hkeyed : st.Keyed) (txnId : TransactionId)
    (schemaVersion : SchemaVersion) (authzVersion : Nat) (prepareTs : HlcTimestamp)
    (intents : List WriteIntent) :
    (st.applyPersist verdict command txnId schemaVersion authzVersion prepareTs
      intents).Keyed := by
  unfold IntentState.applyPersist
  split
  · intro other found hfound
    rw [journal_txns] at hfound
    exact hkeyed other found hfound
  · split
    · exact hkeyed
    · exact hkeyed.insert rfl rfl

theorem Keyed.applyResolve (hkeyed : st.Keyed)
    (h : st.applyResolve command txnId decision = .ok st') : st'.Keyed := by
  unfold IntentState.applyResolve at h
  dsimp only at h
  split at h
  · cases h
    exact hkeyed.insert rfl rfl
  next existing hexisting =>
    have hid := hkeyed txnId existing hexisting
    split at h
    · split at h
      · cases h
        split
        · exact hkeyed
        · exact hkeyed.insert rfl hid
      · cases h
    · cases h
      exact hkeyed.insert rfl hid
    · cases h
      exact hkeyed.insert rfl hid

theorem Keyed.applyIntent (hkeyed : st.Keyed) (h : applyIntent verdict command st = .ok st') :
    st'.Keyed := by
  unfold IntentState.applyIntent at h
  split at h
  · cases h
    exact hkeyed
  · cases h
    exact hkeyed.applyPersist _ _ _ _ _
  · exact hkeyed.applyResolve h
  · cases h
    exact IntentTable.Keyed.remove hkeyed _

/-- A committed decision makes exactly the held intents visible, any other nothing. -/
theorem applyResolve_committedWrites
    (h : st.applyResolve command txnId decision = .ok st') :
    st'.committedWrites =
      st.committedWrites ++ visibleWrites txnId (st.phase txnId) decision := by
  unfold IntentState.applyResolve at h
  dsimp only at h
  split at h
  next hnone =>
    cases h
    rw [phase_eq_absent.mpr hnone]
    simp [visibleWrites]
  next existing hexisting =>
    have hphase : st.phase txnId = existing.phase := by rw [phase, hexisting]
    rw [hphase, ParticipantTxn.phase]
    split at h
    next prior hresolution =>
      rw [hresolution]
      split at h
      · cases h
        split <;> simp [visibleWrites]
      · cases h
    next hlive =>
      cases h
      rw [hlive]
      rfl
    next hlive =>
      cases h
      rw [hlive]
      simp [visibleWrites]

end Apply

end IntentState

end MongrelDB.DistTxn
