import MongrelDB.DistTxn.Refinement

/-!
# Atomic commit

Whatever drivers, retries, recoveries, pushes and orphan sweeps do to a transaction,
and however their proposals are lost, repeated and reordered: it commits only when all
its participants have prepared, all participants resolve the same decision, and once
they have all resolved it, all its writes are visible or none is.
-/

namespace MongrelDB.DistTxn

open Epoch Lib Consensus List

section Atomicity

variable {d : Deployment} {s : Cluster} {txnId : TransactionId}

theorem ClusterOk.record_decided (hs : ClusterOk d s)
    {record : TxnRecord} (hrecord : s.record d txnId = some record) {decision : TxnDecision} :
    record.state.decision = some decision ↔ Decided s.events txnId decision := by
  constructor
  · exact (hs.recordOk hrecord).decided decision
  · intro hd
    cases hdecision : record.state.decision with
    | none =>
      exact absurd hd ((hs.status _).now.live txnId record hrecord hdecision decision)
    | some decision' =>
      rw [decided_unique hs.lawful ((hs.recordOk hrecord).decided decision' hdecision) hd]

theorem prepared_before_commit (hlawful : Lawful (Law d) s.events)
    {key : IdempotencyKey} (hb : Began s.events txnId key) {commitTs expiry : HlcTimestamp}
    {pushedAt : Option HlcTimestamp} {recent past : List Event}
    (hes : s.events = recent ++ .decided txnId (.committed commitTs) expiry pushedAt :: past)
    {writes : ParticipantWrites} (hw : writes ∈ (d.request txnId key).writes) :
    ∃ prepareTs, .prepared writes.participant.raftGroupId txnId prepareTs
      (staged txnId prepareTs writes.intents) ∈ past := by
  rw [hes] at hlawful hb
  have hpast := hlawful.before
  have hlaw := hlawful.law
  cases hlaw with
  | decided key' began _ commit =>
    obtain rfl : key' = key :=
      began_unique hlawful (mem_append_right _ (mem_cons_of_mem _ began)) hb
    obtain ⟨prepareTs, intents, hmem, -⟩ := (commit commitTs rfl).prepared writes hw
    refine ⟨prepareTs, ?_⟩
    obtain ⟨recent', past', rfl, -, hprepared, -⟩ := law_of_mem hpast hmem
    cases hprepared with
    | prepared key'' writes' began' mem at_group staged_eq _ _ =>
      obtain rfl : key'' = key' := began_unique hpast began'.mono began
      obtain rfl := writes_eq_of_group hpast began mem hw at_group
      rw [← staged_eq]
      exact hmem

theorem applyResolve_isOk (hs : ClusterOk d s) {decision : TxnDecision}
    (hd : Decided s.events txnId decision) (group : RaftGroupId) (verdict : Option String)
    (position : LogId) (command : ReplicatedCommand CommandId IntentCommand)
    (hbody : command.body = .resolve txnId decision) :
    ∃ after, IntentState.applyIntent verdict ⟨position, command⟩ (s.intents group).state =
      .ok after := by
  rw [IntentState.applyIntent, hbody]
  dsimp only
  rw [IntentState.applyResolve]
  dsimp only
  split
  · exact ⟨_, rfl⟩
  next existing hexisting =>
    split
    next prior hprior =>
      have hphase : (s.intents group).state.phase txnId = .resolved prior := by
        rw [IntentState.phase, hexisting]
        dsimp only
        rw [ParticipantTxn.phase, hprior]
      obtain rfl := decided_unique hs.lawful ((hs.intents group).state.resolved _ _ hphase) hd
      rw [if_pos rfl]
      exact ⟨_, rfl⟩
    next => exact ⟨_, rfl⟩
    next => exact ⟨_, rfl⟩

/-- An entry is refused only if the sink refuses it. -/
theorem Group.deliver_isSome {γ σ : Type} {apply : SinkApply CommandId γ σ} {g : Group σ}
    {command : ReplicatedCommand CommandId γ}
    (h : ∀ position, ∃ after, apply ⟨position, command⟩ g.state = .ok after)
    (retention message : Nat) :
    (g.deliver apply retention message command).isSome := by
  unfold Group.deliver
  split
  swap
  · rfl
  next e herror =>
    exfalso
    unfold applyOne at herror
    split at herror
    · cases herror
    dsimp only at herror
    split at herror
    · cases herror
    split at herror
    swap
    · cases herror
    next hsink =>
      unfold skipping at hsink
      split at hsink
      · cases hsink
      obtain ⟨after, hafter⟩ := h _
      rw [show g.machine.sink.state = g.state from rfl, hafter] at hsink
      cases hsink

end Atomicity

/-- Committed only when all have prepared; one decision for all participants, and no resolve is
refused; all writes or none. -/
theorem atomic_commit (d : Deployment) (s : Cluster)
    (h : Reachable (Cluster.step d) anyStep .init s) :
    (∀ txnId record commitTs, s.record d txnId = some record →
      record.state = .committed commitTs →
      ∃ recent expiry pushedAt past,
        s.events = recent ++ .decided txnId (.committed commitTs) expiry pushedAt :: past ∧
        record.participants = (d.request txnId record.idempotencyKey).participants ∧
        ∀ writes ∈ (d.request txnId record.idempotencyKey).writes, ∃ prepareTs,
          .prepared writes.participant.raftGroupId txnId prepareTs
            (staged txnId prepareTs writes.intents) ∈ past) ∧
    (∀ txnId group group' decision decision' visible visible',
      .resolved group txnId decision visible ∈ s.events →
      .resolved group' txnId decision' visible' ∈ s.events → decision = decision') ∧
    (∀ message stamp verdict group id txnId decision,
      s.network[message]? = some (.intent group id (.resolve txnId decision)) →
      (s.step d (.deliver message stamp verdict)).isSome) ∧
    (∀ txnId record, s.record d txnId = some record →
      (∀ participant ∈ record.participants, ResolvedAt s.events participant.raftGroupId txnId) →
      (∃ commitTs, ∀ writes ∈ (d.request txnId record.idempotencyKey).writes,
        .resolved writes.participant.raftGroupId txnId (.committed commitTs)
          (committedWritesOf txnId commitTs writes.intents) ∈ s.events) ∨
      (∀ group decision visible, .resolved group txnId decision visible ∈ s.events →
        visible = [])) := by
  have hs := reachable_clusterOk h
  refine ⟨?_, ?_, ?_, ?_⟩
  · intro txnId record commitTs hrecord hstate
    obtain ⟨expiry, pushedAt, hmem⟩ : Decided s.events txnId (.committed commitTs) :=
      (hs.record_decided hrecord).mp (by rw [hstate]; rfl)
    obtain ⟨recent, past, hes⟩ := append_of_mem hmem
    have hrecordOk := hs.recordOk hrecord
    refine ⟨recent, expiry, pushedAt, past, hes, hrecordOk.participants, ?_⟩
    intro writes hwrites
    exact prepared_before_commit hs.lawful hrecordOk.began hes hwrites
  · intro txnId group group' decision decision' visible visible' hr hr'
    exact resolved_unique hs.lawful hr hr'
  · intro message stamp verdict group id txnId decision hmessage
    have hd : Decided s.events txnId decision := hs.network _ (mem_of_getElem? hmessage)
    simp only [Cluster.step, hmessage, Cluster.deliver, Option.isSome_map]
    exact Group.deliver_isSome (fun position =>
      applyResolve_isOk hs hd group verdict position _ rfl) _ _
  · intro txnId record hrecord hall
    have hrecordOk := hs.recordOk hrecord
    have hresolved : ∀ writes ∈ (d.request txnId record.idempotencyKey).writes,
        ResolvedAt s.events writes.participant.raftGroupId txnId := by
      intro writes hwrites
      apply hall
      rw [hrecordOk.participants]
      exact mem_map.mpr ⟨writes, hwrites, rfl⟩
    by_cases hcommitted : ∃ commitTs, Decided s.events txnId (.committed commitTs)
    · obtain ⟨commitTs, hd⟩ := hcommitted
      refine .inl ⟨commitTs, fun writes hwrites => ?_⟩
      obtain ⟨visible, hmem, rfl⟩ := committed_writes_visible hs.lawful hrecordOk.began hd hwrites
        (hresolved writes hwrites)
      exact hmem
    · -- whatever was resolved was an abort
      refine .inr fun group decision visible hmem => ?_
      obtain ⟨recent, past, hes, -, hlaw, -⟩ := law_of_mem hs.lawful hmem
      cases hlaw with
      | resolved decided _ only =>
        refine eq_nil_iff_forall_not_mem.mpr fun write hwrite => ?_
        obtain ⟨-, rfl⟩ := only write hwrite
        exact hcommitted ⟨write.commitTs, hes ▸ decided.mono⟩

/-! ## A run -/

/-- Writes of a transaction at tablet `tabletId`, whose group bears the same number. -/
def writesAt (tabletId : TabletId) (entries : List (Bytes × Bytes)) : ParticipantWrites :=
  { participant := ⟨tabletId, tabletId⟩
    expectedSchemaVersion := 0
    expectedAuthzVersion := 0
    intents := entries.map fun (key, value) => ⟨0, key, value, .zero⟩ }

/-- Two tablets; every transaction writes one key at each. -/
def twoTablets : Deployment where
  coordinator := fun _ => 0
  request := fun _ _ =>
    { writes := [writesAt 1 [([1], [10])], writesAt 2 [([2], [20])]], observed := [] }
  config := fun _ => {}
  retention := 16
  groups := by
    intro _ _ _
    decide

/-- A commit from `begin` to the delivery of both resolves. -/
def commitRun : List Label :=
  let at100 : HlcTimestamp := ⟨100, 0, 0⟩
  [.start 0 (.commit 7 0),
    -- begin
    .advance 0 100 0 0, .deliver 0 at100 none, .advance 0 0 0 0,
    -- both prepares, then their answers
    .advance 0 0 0 0, .advance 0 0 0 1, .deliver 1 at100 none, .deliver 2 at100 none,
    .advance 0 0 0 0, .advance 0 0 0 1, .advance 0 0 0 2,
    -- both marks
    .advance 0 0 0 0, .deliver 3 at100 none, .advance 0 0 1 0,
    .advance 0 0 0 0, .deliver 4 at100 none, .advance 0 0 2 0, .advance 0 0 0 0,
    -- the decision, its read-back and the broadcast
    .advance 0 0 0 0, .deliver 5 at100 none, .advance 0 0 3 0, .advance 0 0 0 0,
    .advance 0 0 0 0, .advance 0 0 0 0, .deliver 6 at100 none, .deliver 7 at100 none]

theorem commitRun_atomic :
    ∃ s, Reachable (Cluster.step twoTablets) anyStep .init s ∧
      (.resolved 1 7 (.committed ⟨100, 3, 0⟩) [⟨[1], [10], ⟨100, 3, 0⟩, 7⟩] ∈ s.events ∧
        .resolved 2 7 (.committed ⟨100, 3, 0⟩) [⟨[2], [20], ⟨100, 3, 0⟩, 7⟩] ∈ s.events) ∧
      ∀ group decision visible, .resolved group 7 decision visible ∈ s.events →
        decision = .committed ⟨100, 3, 0⟩ := by
  obtain ⟨s, hs, hresolved⟩ := exists_reachable_of_execute (Cluster.step twoTablets) anyStep .init
    (fun s => .resolved 1 7 (.committed ⟨100, 3, 0⟩) [⟨[1], [10], ⟨100, 3, 0⟩, 7⟩] ∈ s.events ∧
      .resolved 2 7 (.committed ⟨100, 3, 0⟩) [⟨[2], [20], ⟨100, 3, 0⟩, 7⟩] ∈ s.events)
    commitRun (by decide +kernel)
  refine ⟨s, hs, hresolved, ?_⟩
  intro group decision visible hmem
  exact (atomic_commit twoTablets s hs).2.1 7 group 1 decision _ visible _ hmem hresolved.1

end MongrelDB.DistTxn
