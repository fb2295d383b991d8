import MongrelDB.Consensus.Replay
import MongrelDB.DistTxn.Intents

/-!
# The global unique index

A unique-index tablet maps claim keys to the row that holds the unique value, a table
and a primary key.

How a value reference encodes a row is a parameter.
-/

namespace MongrelDB.Constraints

open Epoch Lib Consensus DistTxn List

structure UniqueClaimValue where
  table : Nat
  pk : Bytes
  deriving DecidableEq, Repr

/-- `UniqueClaimValue::decode` -/
abbrev Decode := Bytes → Option UniqueClaimValue

structure CommittedClaim where
  key : Bytes
  value : UniqueClaimValue
  txnId : TransactionId
  commitTs : HlcTimestamp
  deriving DecidableEq, Repr

inductive UniqueRejectionReason where
  | keyConflict (key : Bytes) (holder : TransactionId)
  /-- `value` is what the detail text is made of -/
  | claimHeld (key : Bytes) (holder : TransactionId) (value : UniqueClaimValue)
  | malformedClaim (key : Bytes)
  | payloadMismatch
  | alreadyResolved (decision : TxnDecision)
  | staleSchemaVersion (expected found : SchemaVersion)
  | staleAuthzVersion (expected found : Nat)
  deriving DecidableEq, Repr

structure UniqueRejection where
  position : LogId
  commandId : Option CommandId
  txnId : TransactionId
  reason : UniqueRejectionReason
  deriving DecidableEq, Repr

abbrev ClaimTable := Std.TreeMap Bytes CommittedClaim

/-- The row a key is claimed for. -/
def ClaimTable.value? (claims : ClaimTable) (key : Bytes) : Option UniqueClaimValue :=
  (claims[key]?).map (·.value)

structure UniqueIndexState where
  schemaVersion : SchemaVersion := 0
  authzVersion : Nat := 0
  txns : IntentTable := ∅
  claims : ClaimTable := ∅
  /-- in apply order -/
  committedWrites : List CommittedWrite := []
  rejections : List UniqueRejection := []

/-- The claims of a committed transaction enter the table. -/
def materialize (decode : Decode) (txnId : TransactionId) (commitTs : HlcTimestamp) :
    ClaimTable → List WriteIntent → ClaimTable
  | claims, [] => claims
  | claims, intent :: rest =>
    match decode intent.valueRef with
    | none => materialize decode txnId commitTs claims rest
    | some value =>
      materialize decode txnId commitTs
        (claims.insert intent.key
          { key := intent.key, value := value, txnId := txnId, commitTs := commitTs })
        rest

variable {intents : List WriteIntent}

namespace UniqueIndexState

def journal (st : UniqueIndexState) (command : AppliedCommand CommandId IntentCommand)
    (txnId : TransactionId) (reason : UniqueRejectionReason) : UniqueIndexState :=
  { st with
    rejections := pushBounded st.rejections
      { position := command.position
        commandId := command.command.commandId
        txnId := txnId
        reason := reason } }

/-- The first claim that cannot be staged. -/
def firstRefusal (decode : Decode) (st : UniqueIndexState) (txnId : TransactionId) :
    List WriteIntent → Option UniqueRejectionReason
  | [] => none
  | intent :: rest =>
    match decode intent.valueRef with
    | none => some (.malformedClaim intent.key)
    | some value =>
      match st.txns.conflictingHolder txnId intent.key with
      | some holder => some (.keyConflict intent.key holder)
      | none =>
        match st.claims[intent.key]? with
        | some claim =>
          -- the same row written again keeps its claim
          if claim.value ≠ value then some (.claimHeld intent.key claim.txnId claim.value)
          else st.firstRefusal decode txnId rest
        | none => st.firstRefusal decode txnId rest

/-- Why a prepare is refused; a replay of the stored prepare is not. -/
def refusal (decode : Decode) (st : UniqueIndexState) (txnId : TransactionId)
    (expectedSchemaVersion : SchemaVersion) (expectedAuthzVersion : Nat)
    (intents : List WriteIntent) : Option UniqueRejectionReason :=
  match st.txns[txnId]? with
  | some existing =>
    match existing.resolution with
    | some decision => some (.alreadyResolved decision)
    | none => if sameWriteSet existing.intents intents then none else some .payloadMismatch
  | none =>
    if expectedSchemaVersion ≠ st.schemaVersion then
      some (.staleSchemaVersion expectedSchemaVersion st.schemaVersion)
    else if expectedAuthzVersion ≠ st.authzVersion then
      some (.staleAuthzVersion expectedAuthzVersion st.authzVersion)
    else st.firstRefusal decode txnId intents

section

variable (decode : Decode) (command : AppliedCommand CommandId IntentCommand)
  (st : UniqueIndexState) (txnId : TransactionId)

/-- `UniqueIndexApplySink::apply_persist` -/
def applyPersist (expectedSchemaVersion : SchemaVersion)
    (expectedAuthzVersion : Nat) (prepareTs : HlcTimestamp) (intents : List WriteIntent) :
    UniqueIndexState :=
  match st.refusal decode txnId expectedSchemaVersion expectedAuthzVersion intents with
  | some reason => st.journal command txnId reason
  | none =>
    if (st.txns[txnId]?).isSome then st
    else
      { st with
        txns := st.txns.insert txnId
          { txnId := txnId, prepareTs := prepareTs, commandId := command.command.commandId
            intents := intents, resolution := none, applied := false, resolvedAt := none } }

/-- `UniqueIndexApplySink::apply_resolve` -/
def applyResolve (decision : TxnDecision) :
    Except StateMachineError UniqueIndexState :=
  let resolvedAt := command.command.commitTs
  match st.txns[txnId]? with
  | none =>
    .ok { st with txns := st.txns.insert txnId (.tombstone txnId decision resolvedAt) }
  | some existing =>
    match existing.resolution, decision with
    | some prior, new =>
      if prior = new then .ok st
      else .error (.corrupt "conflicting resolve decisions for transaction")
    | none, .committed commitTs =>
      .ok { st with
        txns := st.txns.insert txnId (existing.resolved decision resolvedAt)
        claims := materialize decode txnId commitTs st.claims existing.intents
        committedWrites :=
          st.committedWrites ++ committedWritesOf txnId commitTs existing.intents }
    | none, .aborted _ =>
      .ok { st with txns := st.txns.insert txnId (existing.resolved decision resolvedAt) }

end

/-- `UniqueIndexApplySink::apply_sweep` -/
def applySweep (st : UniqueIndexState) (olderThan : HlcTimestamp) (limit : Nat) :
    UniqueIndexState :=
  let swept := st.txns.sweepable olderThan limit
  { st with
    txns := st.txns.remove swept
    committedWrites :=
      if swept.isEmpty then st.committedWrites
      else st.committedWrites.filter (!swept.contains ·.txnId) }

/-- The commands of `UniqueIndexApplySink::apply`. -/
def applyUnique (decode : Decode) : SinkApply CommandId IntentCommand UniqueIndexState :=
  fun command st =>
    match command.command.body with
    | .setTabletVersions schemaVersion authzVersion =>
      .ok { st with schemaVersion := schemaVersion, authzVersion := authzVersion }
    | .persistIntents txnId expectedSchemaVersion expectedAuthzVersion prepareTs intents =>
      .ok (st.applyPersist decode command txnId expectedSchemaVersion expectedAuthzVersion
        prepareTs intents)
    | .resolve txnId decision => st.applyResolve decode command txnId decision
    | .sweepResolved olderThan limit => .ok (st.applySweep olderThan limit)

/-- The transaction holds an unresolved intent. -/
def Holds (st : UniqueIndexState) (txnId : TransactionId) (intent : WriteIntent) : Prop :=
  ∃ txn, st.txns[txnId]? = some txn ∧ txn.resolution = none ∧ intent ∈ txn.intents

@[simp] theorem journal_txns (st : UniqueIndexState)
    (command : AppliedCommand CommandId IntentCommand) (txnId : TransactionId)
    (reason : UniqueRejectionReason) : (st.journal command txnId reason).txns = st.txns := by
  unfold journal
  rfl

theorem firstRefusal_eq_none {decode : Decode} {st : UniqueIndexState} {txnId : TransactionId} :
    ∀ {intents : List WriteIntent}, st.firstRefusal decode txnId intents = none →
      ∀ intent ∈ intents, st.txns.conflictingHolder txnId intent.key = none ∧
        ∃ value, decode intent.valueRef = some value ∧
          ∀ claimed, st.claims.value? intent.key = some claimed → claimed = value
  | [], _ => by simp
  | first :: rest, h => by
    unfold firstRefusal at h
    split at h
    · cases h
    next value hvalue =>
      split at h
      · cases h
      next hholder =>
        have hrest : st.firstRefusal decode txnId rest = none ∧
            ∀ claimed, st.claims.value? first.key = some claimed → claimed = value := by
          unfold ClaimTable.value?
          split at h
          next claim hclaim =>
            split at h
            · cases h
            next hvalue' =>
              refine ⟨h, ?_⟩
              rw [hclaim]
              rintro _ ⟨⟩
              exact not_not.mp hvalue'
          next hnone =>
            refine ⟨h, ?_⟩
            rw [hnone]
            rintro _ ⟨⟩
        exact forall_mem_cons.mpr
          ⟨⟨hholder, value, hvalue, hrest.2⟩, firstRefusal_eq_none hrest.1⟩

section Holds

variable {st st' : UniqueIndexState} {txnId other : TransactionId} {txn : ParticipantTxn}
  {intent : WriteIntent}

theorem holds_insert (htxns : st'.txns = st.txns.insert txnId txn) (h : st'.Holds other intent) :
    (other = txnId ∧ txn.resolution = none ∧ intent ∈ txn.intents) ∨
      (other ≠ txnId ∧ st.Holds other intent) := by
  obtain ⟨found, hfound, hlive, hmem⟩ := h
  rw [htxns] at hfound
  by_cases heq : other = txnId
  · subst heq
    rw [IntentTable.getElem?_insert_self] at hfound
    cases hfound
    exact .inl ⟨rfl, hlive, hmem⟩
  · rw [IntentTable.getElem?_insert_of_ne heq] at hfound
    exact .inr ⟨heq, found, hfound, hlive, hmem⟩

theorem holds_insert_resolved (htxns : st'.txns = st.txns.insert txnId txn)
    (hresolved : txn.resolution ≠ none) (h : st'.Holds other intent) :
    other ≠ txnId ∧ st.Holds other intent := by
  rcases holds_insert htxns h with ⟨-, hlive, -⟩ | hother
  · exact absurd hlive hresolved
  · exact hother

end Holds

end UniqueIndexState

/-! ## What is committed -/

/-- The tablet with all it has ever committed. -/
structure RecordedIndex where
  index : UniqueIndexState := {}
  committed : List CommittedWrite := []

/-- A command, and what it commits on record. -/
def recorded (decode : Decode) : SinkApply CommandId IntentCommand RecordedIndex :=
  fun command st =>
    match UniqueIndexState.applyUnique decode command st.index with
    | .error e => .error e
    | .ok index =>
      .ok
        { index := index
          committed :=
            st.committed ++ index.committedWrites.drop st.index.committedWrites.length }

/-- No two intents on one key are for different rows. -/
def Agree (decode : Decode) (intents : List WriteIntent) : Prop :=
  ∀ intent ∈ intents, ∀ intent' ∈ intents, intent.key = intent'.key →
    decode intent.valueRef = decode intent'.valueRef
  deriving Decidable

/-- What one command does to the held intents, the claims and what is committed. -/
inductive ClaimStep (decode : Decode) (body : IntentCommand) (st st' : RecordedIndex) : Prop where
  | release
      (holds : ∀ id intent, st'.index.Holds id intent → st.index.Holds id intent)
      (claims : st'.index.claims = st.index.claims) (committed : st'.committed = st.committed)
  | prepare (txnId : TransactionId) (schemaVersion : SchemaVersion) (authzVersion : Nat)
      (prepareTs : HlcTimestamp) (intents : List WriteIntent)
      (hbody : body = .persistIntents txnId schemaVersion authzVersion prepareTs intents)
      (free : ∀ intent ∈ intents, st.index.txns.conflictingHolder txnId intent.key = none ∧
        ∃ value, decode intent.valueRef = some value ∧
          ∀ claimed, st.index.claims.value? intent.key = some claimed → claimed = value)
      (holds : ∀ id intent, st'.index.Holds id intent →
        (id = txnId ∧ intent ∈ intents) ∨ (id ≠ txnId ∧ st.index.Holds id intent))
      (claims : st'.index.claims = st.index.claims) (committed : st'.committed = st.committed)
  | commit (txnId : TransactionId) (commitTs : HlcTimestamp) (intents : List WriteIntent)
      (held : ∀ intent ∈ intents, st.index.Holds txnId intent)
      (holds : ∀ id intent, st'.index.Holds id intent → id ≠ txnId ∧ st.index.Holds id intent)
      (claims : st'.index.claims = materialize decode txnId commitTs st.index.claims intents)
      (committed : st'.committed = st.committed ++ committedWritesOf txnId commitTs intents)

section Steps

variable {decode : Decode} {command : AppliedCommand CommandId IntentCommand}
  {st st' : RecordedIndex} {index : UniqueIndexState}

open UniqueIndexState

theorem claimStep_persist {txnId : TransactionId} {schemaVersion : SchemaVersion}
    {authzVersion : Nat} {prepareTs : HlcTimestamp}
    (hbody : command.command.body =
      .persistIntents txnId schemaVersion authzVersion prepareTs intents) :
    let index :=
      st.index.applyPersist decode command txnId schemaVersion authzVersion prepareTs intents
    ClaimStep decode command.command.body st { index := index, committed := st.committed } ∧
      (st.index.txns.Keyed → index.txns.Keyed) := by
  unfold applyPersist
  dsimp only
  split
  · refine ⟨.release ?_ ?_ rfl, by rw [journal_txns]; exact id⟩
    · rintro id intent ⟨txn, htxn, hlive⟩
      rw [journal_txns] at htxn
      exact ⟨txn, htxn, hlive⟩
    · dsimp only
      unfold journal
      rfl
  next haccepted =>
    split
    · exact ⟨.release (fun _ _ h => h) rfl rfl, id⟩
    next habsent =>
      have hnone : st.index.txns[txnId]? = none := by simpa using habsent
      unfold refusal at haccepted
      rw [hnone] at haccepted
      dsimp only at haccepted
      split at haccepted
      · cases haccepted
      split at haccepted
      · cases haccepted
      refine ⟨.prepare txnId schemaVersion authzVersion prepareTs intents hbody
        (firstRefusal_eq_none haccepted) ?_ rfl rfl, fun hkeyed => hkeyed.insert rfl⟩
      intro id intent h
      exact (holds_insert rfl h).imp_left fun ⟨hid, _, hmem⟩ => ⟨hid, hmem⟩

theorem claimStep_resolve {txnId : TransactionId} {decision : TxnDecision}
    (h : st.index.applyResolve decode command txnId decision = .ok index) :
    ClaimStep decode command.command.body st
      { index := index
        committed := st.committed ++
          index.committedWrites.drop st.index.committedWrites.length } ∧
      (st.index.txns.Keyed → index.txns.Keyed) := by
  unfold applyResolve at h
  dsimp only at h
  split at h
  · cases h
    refine ⟨.release (fun _ _ h => ?_) rfl (by simp), fun hkeyed => hkeyed.insert rfl⟩
    exact (holds_insert_resolved rfl (by simp [ParticipantTxn.tombstone]) h).2
  next existing hexisting =>
    split at h
    · split at h
      · cases h
        exact ⟨.release (fun _ _ h => h) rfl (by simp), id⟩
      · cases h
    next commitTs hlive =>
      cases h
      refine ⟨.commit txnId commitTs existing.intents ?_ (fun _ _ h => ?_) rfl (by simp),
        fun hkeyed => hkeyed.insert (hkeyed _ existing hexisting)⟩
      · intro intent hmem
        exact ⟨existing, hexisting, hlive, hmem⟩
      · exact holds_insert_resolved rfl (by simp [ParticipantTxn.resolved]) h
    next hlive =>
      cases h
      refine ⟨.release (fun _ _ h => ?_) rfl (by simp),
        fun hkeyed => hkeyed.insert (hkeyed _ existing hexisting)⟩
      exact (holds_insert_resolved rfl (by simp [ParticipantTxn.resolved]) h).2

theorem claimStep_sweep (olderThan : HlcTimestamp) (limit : Nat) :
    ClaimStep decode command.command.body st
      { index := st.index.applySweep olderThan limit
        committed := st.committed ++
          (st.index.applySweep olderThan limit).committedWrites.drop
            st.index.committedWrites.length } := by
  refine .release ?_ rfl ?_
  · rintro id intent ⟨txn, htxn, hlive⟩
    rw [show (st.index.applySweep olderThan limit).txns[id]? = _ from
      IntentTable.getElem?_remove _ _ _] at htxn
    split at htxn
    · cases htxn
    · exact ⟨txn, htxn, hlive⟩
  · -- a sweep leaves at most as many writes as there were
    have hlength : (st.index.applySweep olderThan limit).committedWrites.length ≤
        st.index.committedWrites.length := by
      simp only [applySweep]
      split
      · exact le_rfl
      · exact length_filter_le _ _
    rw [drop_of_length_le hlength, append_nil]

theorem claimStep_recorded (h : recorded decode command st = .ok st') :
    ClaimStep decode command.command.body st st' ∧
      (st.index.txns.Keyed → st'.index.txns.Keyed) := by
  unfold recorded at h
  split at h
  · cases h
  next index happly =>
    cases h
    unfold applyUnique at happly
    split at happly
    next =>
      cases happly
      exact ⟨.release (fun _ _ h => h) rfl (by simp), id⟩
    next hbody =>
      cases happly
      have hwrites : ∀ txnId schemaVersion authzVersion prepareTs intents,
          (st.index.applyPersist decode command txnId schemaVersion authzVersion prepareTs
            intents).committedWrites = st.index.committedWrites := by
        intro txnId schemaVersion authzVersion prepareTs intents
        unfold applyPersist
        split
        · unfold journal
          rfl
        · split <;> rfl
      rw [hwrites, drop_length, append_nil]
      exact claimStep_persist hbody
    next => exact claimStep_resolve happly
    next =>
      cases happly
      exact ⟨claimStep_sweep _ _, fun hkeyed => hkeyed.remove _⟩

end Steps

/-! ## Claims -/

/-- Intents on a key that are all for one row claim it for that row. -/
theorem value?_materialize {decode : Decode} {txnId : TransactionId} {commitTs : HlcTimestamp}
    {key : Bytes} {value : UniqueClaimValue} (claims : ClaimTable)
    (h : ∀ intent ∈ intents, intent.key = key → decode intent.valueRef = some value) :
    (materialize decode txnId commitTs claims intents).value? key =
      if key ∈ intents.map (·.key) then some value else claims.value? key := by
  induction intents generalizing claims with
  | nil => simp [materialize]
  | cons intent rest ih =>
    have ih := fun claims => ih claims fun intent' hmem => h intent' (mem_cons_of_mem _ hmem)
    have hfirst := h intent mem_cons_self
    unfold materialize
    split
    next hnone =>
      have hne : key ≠ intent.key := by
        rintro rfl
        cases hnone.symm.trans (hfirst rfl)
      rw [ih]
      simp [hne]
    next value' hvalue =>
      rw [ih]
      by_cases heq : intent.key = key
      · cases hvalue.symm.trans (hfirst heq)
        simp [ClaimTable.value?, heq]
      · have hne : key ≠ intent.key := Ne.symm heq
        have hlookup : ClaimTable.value? (claims.insert intent.key
            { key := intent.key, value := value', txnId := txnId, commitTs := commitTs }) key =
            claims.value? key := by
          unfold ClaimTable.value?
          rw [Std.TreeMap.getElem?_insert, if_neg (by simpa using heq)]
        rw [hlookup]
        simp [hne]

/-- What holds of the tablet after any log. -/
structure Sound (decode : Decode) (st : RecordedIndex) : Prop where
  keyed : st.index.txns.Keyed
  /-- a held intent is for the row its key is claimed for, if it is claimed -/
  valid : ∀ id intent, st.index.Holds id intent → ∃ value, decode intent.valueRef = some value ∧
    ∀ claimed, st.index.claims.value? intent.key = some claimed → claimed = value
  agree : ∀ id id' intent intent', st.index.Holds id intent → st.index.Holds id' intent' →
    intent.key = intent'.key → id = id' ∧ decode intent.valueRef = decode intent'.valueRef
  claimed : ∀ write ∈ st.committed, ∃ value, decode write.valueRef = some value ∧
    st.index.claims.value? write.key = some value

/-- What was committed is still committed and claimed for the same rows. -/
def Kept (st st' : RecordedIndex) : Prop :=
  (∀ write ∈ st.committed, write ∈ st'.committed) ∧
    ∀ key value, st.index.claims.value? key = some value →
      st'.index.claims.value? key = some value

theorem Kept.of_eq {st st' : RecordedIndex} (hclaims : st'.index.claims = st.index.claims)
    (hcommitted : st'.committed = st.committed) : Kept st st' := by
  unfold Kept
  rw [hclaims, hcommitted]
  exact ⟨fun _ hmem => hmem, fun _ _ hvalue => hvalue⟩

theorem Kept.trans {a b c : RecordedIndex} (hab : Kept a b) (hbc : Kept b c) : Kept a c :=
  ⟨fun write hmem => hbc.1 write (hab.1 write hmem),
    fun key value hvalue => hbc.2 key value (hab.2 key value hvalue)⟩

theorem Kept.claimed {decode : Decode} {st st' : RecordedIndex} (h : Kept st st')
    (hs : Sound decode st) {write : CommittedWrite} (hmem : write ∈ st.committed) :
    ∃ value, decode write.valueRef = some value ∧
      st'.index.claims.value? write.key = some value := by
  obtain ⟨value, hdecode, hvalue⟩ := hs.claimed write hmem
  exact ⟨value, hdecode, h.2 _ _ hvalue⟩

/-- A key of the intents that enter the table, or one that is not affected. -/
theorem Sound.claims {decode : Decode} {st : RecordedIndex} (h : Sound decode st)
    {txnId : TransactionId} (commitTs : HlcTimestamp)
    (hheld : ∀ intent ∈ intents, st.index.Holds txnId intent) (key : Bytes) :
    ((materialize decode txnId commitTs st.index.claims intents).value? key =
        st.index.claims.value? key ∧ ∀ intent ∈ intents, intent.key ≠ key) ∨
      ∃ intent ∈ intents, intent.key = key ∧ ∃ value, decode intent.valueRef = some value ∧
        (materialize decode txnId commitTs st.index.claims intents).value? key = some value ∧
        ∀ claimed, st.index.claims.value? key = some claimed → claimed = value := by
  by_cases hkey : key ∈ intents.map (·.key)
  · right
    obtain ⟨intent, hmem, rfl⟩ := mem_map.mp hkey
    obtain ⟨value, hvalue, hclaimed⟩ := h.valid txnId intent (hheld intent hmem)
    have hall : ∀ intent' ∈ intents, intent'.key = intent.key →
        decode intent'.valueRef = some value := by
      intro intent' hmem' heq
      rw [← hvalue]
      exact (h.agree _ _ _ _ (hheld intent' hmem') (hheld intent hmem) heq).2
    refine ⟨intent, hmem, rfl, value, hvalue, ?_, hclaimed⟩
    rw [value?_materialize _ hall, if_pos hkey]
  · left
    have hnone : ∀ intent ∈ intents, intent.key ≠ key := by
      rintro intent hmem rfl
      exact hkey (mem_map_of_mem hmem)
    have hall : ∀ intent ∈ intents, intent.key = key →
        decode intent.valueRef = some ⟨0, []⟩ :=
      fun intent hmem heq => absurd heq (hnone intent hmem)
    refine ⟨?_, hnone⟩
    rw [value?_materialize _ hall, if_neg hkey]

theorem Sound.step {decode : Decode} {command : AppliedCommand CommandId IntentCommand}
    {st st' : RecordedIndex} (h : Sound decode st)
    (hagree : ∀ txnId schemaVersion authzVersion prepareTs intents, command.command.body =
      .persistIntents txnId schemaVersion authzVersion prepareTs intents → Agree decode intents)
    (happly : recorded decode command st = .ok st') : Sound decode st' ∧ Kept st st' := by
  obtain ⟨hstep, hkeyed⟩ := claimStep_recorded happly
  replace hkeyed := hkeyed h.keyed
  cases hstep with
  | release holds claims committed =>
    have hkept : Kept st st' := .of_eq claims committed
    refine ⟨⟨hkeyed, ?_, ?_, fun write hmem => hkept.claimed h (committed ▸ hmem)⟩, hkept⟩
    · rw [claims]
      exact fun id intent hold => h.valid id intent (holds id intent hold)
    · exact fun id id' intent intent' hold hold' =>
        h.agree id id' intent intent' (holds id intent hold) (holds id' intent' hold')
  | prepare txnId schemaVersion authzVersion prepareTs intents hbody free holds claims committed =>
    have hown := hagree txnId schemaVersion authzVersion prepareTs intents hbody
    -- no one else holds a key of the new intents
    have hothers : ∀ id intent, id ≠ txnId → st.index.Holds id intent →
        ∀ intent' ∈ intents, intent.key ≠ intent'.key := by
      rintro id intent hne ⟨txn, htxn, hlive, hmem⟩ intent' hmem' hkey
      have hfree := IntentTable.conflictingHolder_eq_none (free intent' hmem').1 htxn
      have hany : txn.intents.any (·.key == intent'.key) = true :=
        any_eq_true.mpr ⟨intent, hmem, by simpa using hkey⟩
      rw [ParticipantTxn.holds, h.keyed id txn htxn, hlive] at hfree
      simp [hne, hany] at hfree
    have hkept : Kept st st' := .of_eq claims committed
    refine ⟨⟨hkeyed, ?_, ?_, fun write hmem => hkept.claimed h (committed ▸ hmem)⟩, hkept⟩
    · intro id intent hold
      rw [claims]
      rcases holds id intent hold with ⟨rfl, hmem⟩ | ⟨-, hold⟩
      · exact (free intent hmem).2
      · exact h.valid id intent hold
    · intro id id' intent intent' hold hold' hkey
      rcases holds id intent hold with ⟨rfl, hmem⟩ | ⟨hne, hold⟩ <;>
        rcases holds id' intent' hold' with ⟨rfl, hmem'⟩ | ⟨hne', hold'⟩
      · exact ⟨rfl, hown intent hmem intent' hmem' hkey⟩
      · exact absurd hkey.symm (hothers id' intent' hne' hold' intent hmem)
      · exact absurd hkey (hothers id intent hne hold intent' hmem')
      · exact h.agree id id' intent intent' hold hold' hkey
  | commit txnId commitTs intents held holds claims committed =>
    have hkept : Kept st st' := by
      refine ⟨fun write hmem => by rw [committed]; exact mem_append_left _ hmem, ?_⟩
      intro key value hvalue
      rw [claims]
      rcases h.claims commitTs held key with ⟨hsame, -⟩ | ⟨_, _, _, value', -, hnew, hclaimed⟩
      · rw [hsame, hvalue]
      · rw [hnew, hclaimed value hvalue]
    refine ⟨⟨hkeyed, ?_, ?_, ?_⟩, hkept⟩
    · intro id intent hold
      obtain ⟨hne, hold⟩ := holds id intent hold
      rcases h.claims commitTs held intent.key with ⟨hsame, -⟩ | ⟨intent', hmem, hkey, -⟩
      · rw [claims, hsame]
        exact h.valid id intent hold
      · -- a key of the committed transaction is held by no other
        exact absurd (h.agree id txnId intent intent' hold (held intent' hmem) hkey.symm).1 hne
    · exact fun id id' intent intent' hold hold' =>
        h.agree id id' intent intent' (holds id intent hold).2 (holds id' intent' hold').2
    · intro write hwrite
      rw [committed] at hwrite
      rcases mem_append.mp hwrite with hold | hnew
      · exact hkept.claimed h hold
      · obtain ⟨intent, hmem, rfl⟩ := mem_map.mp hnew
        dsimp only
        rw [claims]
        rcases h.claims commitTs held intent.key with
          ⟨-, hnone⟩ | ⟨intent', hmem', hkey, value, hvalue, hnew, -⟩
        · exact absurd rfl (hnone intent hmem)
        · refine ⟨value, ?_, hnew⟩
          rw [← hvalue]
          exact (h.agree _ _ _ _ (held intent hmem) (held intent' hmem') hkey.symm).2

/-! ## The result -/

theorem sound_init (decode : Decode) : Sound decode {} where
  keyed := by
    intro id txn htxn
    simp at htxn
  valid := by
    rintro id intent ⟨txn, htxn, -⟩
    simp at htxn
  agree := by
    rintro id id' intent intent' ⟨txn, htxn, -⟩
    simp at htxn
  claimed := by
    intro write hmem
    cases hmem

/-- Committed intents on one key are for one row, and the table says which. -/
def ClaimsUnique (decode : Decode) (st : RecordedIndex) : Prop :=
  (∀ write ∈ st.committed, ∀ write' ∈ st.committed, write.key = write'.key →
    decode write.valueRef = decode write'.valueRef) ∧
  ∀ write ∈ st.committed, ∃ value, decode write.valueRef = some value ∧
    st.index.claims.value? write.key = some value

theorem Sound.claimsUnique {decode : Decode} {st : RecordedIndex} (h : Sound decode st) :
    ClaimsUnique decode st := by
  refine ⟨?_, h.claimed⟩
  intro write hmem write' hmem' hkey
  obtain ⟨value, hdecode, hvalue⟩ := h.claimed write hmem
  obtain ⟨value', hdecode', hvalue'⟩ := h.claimed write' hmem'
  rw [hkey] at hvalue
  cases hvalue.symm.trans hvalue'
  rw [hdecode, hdecode']

variable {μ : Type}

/-- No prepare of the log has two intents on one key for different rows. -/
def PreparesAgree (decode : Decode) (log : List (RaftLogEntry CommandId IntentCommand μ)) : Prop :=
  ∀ entry ∈ log, ∀ command, entry.payload = .normal command →
    ∀ txnId schemaVersion authzVersion prepareTs intents,
      command.body = .persistIntents txnId schemaVersion authzVersion prepareTs intents →
      Agree decode intents

/-- A member holds what a part of the log gives, whatever crashes and replays it went through.
There claims are unique, and what a shorter part gave is kept. -/
theorem unique_claims (decode : Decode) (retention : Nat)
    (log : List (RaftLogEntry CommandId IntentCommand μ)) (hlog : WellNumbered log)
    (hagree : PreparesAgree decode log) (s : Consensus.Cluster CommandId μ RecordedIndex)
    (h : Reachable (Consensus.Cluster.step (recorded decode) retention log) anyStep (.fresh {}) s)
    (node : Nat) :
    ∃ k m, uninterrupted (recorded decode) retention {} log k = .ok m ∧
      (s.nodes node).machine.sink = m.sink ∧ ClaimsUnique decode m.sink.state ∧
      ∀ j ≤ k, ∀ m', uninterrupted (recorded decode) retention {} log j = .ok m' →
        Kept m'.sink.state m.sink.state := by
  have hstep : ∀ entry ∈ log, ∀ command, entry.payload = .normal command → ∀ st st',
      Sound decode st → recorded decode ⟨entry.logId, command⟩ st = .ok st' →
        Sound decode st' ∧ Kept st st' :=
    fun entry hentry command hpayload _ _ hst happly =>
      hst.step (hagree entry hentry command hpayload) happly
  obtain ⟨k, m, hm, hsink⟩ := reachable_sink hlog h node
  refine ⟨k, m, hm, hsink, ?_, ?_⟩
  · have hsound : Sound decode m.sink.state := uninterrupted_invariant (sound_init decode)
      (fun entry hentry command hpayload st st' hst happly =>
        (hstep entry hentry command hpayload st st' hst happly).1) hm
    exact hsound.claimsUnique
  · intro j hjk m' hm'
    exact uninterrupted_preserves (R := Kept) (fun _ => .of_eq rfl rfl) (fun _ _ _ => Kept.trans)
      (sound_init decode) hstep hjk hm' hm

/-- The value reference is the primary key, in table 1. -/
def pkOnly : Decode := fun bytes => some ⟨1, bytes⟩

/-- Transaction 1 claims and commits. -/
def claimLog (claims : List (Bytes × Bytes)) :
    List (RaftLogEntry CommandId IntentCommand Unit) :=
  [{ logId := ⟨1, 1⟩
     payload := .normal
      { commandId := some (.intents 1 9), commitTs := none
        body := .persistIntents 1 0 0 .zero
          (claims.map fun (key, pk) => ⟨1, key, pk, .zero⟩) } },
   { logId := ⟨1, 2⟩
     payload := .normal
      { commandId := some (.resolve 1 9), commitTs := none
        body := .resolve 1 (.committed ⟨5, 0, 0⟩) } }]

theorem wellNumbered_claimLog (claims : List (Bytes × Bytes)) :
    WellNumbered (claimLog claims) := by
  intro i entry h
  match i with
  | 0 => cases h; rfl
  | 1 => cases h; rfl
  | i + 2 => cases h

theorem two_keys_unique :
    ∃ s, Reachable (Consensus.Cluster.step (recorded pkOnly) 4
        (claimLog [([1], [10]), ([2], [20])])) anyStep (.fresh {}) s ∧
      (s.nodes 0).machine.sink.state.committed =
        [⟨[1], [10], ⟨5, 0, 0⟩, 1⟩, ⟨[2], [20], ⟨5, 0, 0⟩, 1⟩] ∧
      ∃ k m, uninterrupted (recorded pkOnly) 4 {} (claimLog [([1], [10]), ([2], [20])]) k = .ok m ∧
        (s.nodes 0).machine.sink = m.sink ∧ ClaimsUnique pkOnly m.sink.state ∧
        ∀ j ≤ k, ∀ m', uninterrupted (recorded pkOnly) 4 {}
            (claimLog [([1], [10]), ([2], [20])]) j = .ok m' →
          Kept m'.sink.state m.sink.state := by
  obtain ⟨s, hs, hcommitted⟩ := exists_reachable_of_execute
    (Consensus.Cluster.step (recorded pkOnly) 4 (claimLog [([1], [10]), ([2], [20])])) anyStep
    (.fresh {})
    (fun s => (s.nodes 0).machine.sink.state.committed =
      [⟨[1], [10], ⟨5, 0, 0⟩, 1⟩, ⟨[2], [20], ⟨5, 0, 0⟩, 1⟩])
    [.apply 0 0, .apply 0 1, .restart 0] (by decide +kernel)
  refine ⟨s, hs, hcommitted, unique_claims pkOnly 4 _ (wellNumbered_claimLog _) ?_ s hs 0⟩
  intro entry hentry command hpayload txnId schemaVersion authzVersion prepareTs intents hbody
  rcases mem_cons.mp hentry with rfl | hentry
  · cases hpayload
    cases hbody
    decide
  · obtain rfl := mem_singleton.mp hentry
    cases hpayload
    cases hbody

/-- One transaction claims a key for two rows. -/
theorem one_key_two_rows :
    ∃ s, Reachable (Consensus.Cluster.step (recorded pkOnly) 4
        (claimLog [([1], [10]), ([1], [20])])) anyStep (.fresh {}) s ∧
      ¬ ClaimsUnique pkOnly (s.nodes 0).machine.sink.state := by
  obtain ⟨s, hs, hcommitted⟩ := exists_reachable_of_execute
    (Consensus.Cluster.step (recorded pkOnly) 4 (claimLog [([1], [10]), ([1], [20])])) anyStep
    (.fresh {})
    (fun s => (s.nodes 0).machine.sink.state.committed =
      [⟨[1], [10], ⟨5, 0, 0⟩, 1⟩, ⟨[1], [20], ⟨5, 0, 0⟩, 1⟩])
    [.apply 0 0, .apply 0 1] (by decide +kernel)
  refine ⟨s, hs, fun hunique => ?_⟩
  have hagree := hunique.1
  rw [hcommitted] at hagree
  exact absurd (hagree _ mem_cons_self _ (mem_cons_of_mem _ mem_cons_self) rfl)
    (by decide)

end MongrelDB.Constraints
