import MongrelDB.DistTxn.Atomicity

/-!
# Commit timestamps

A decision is final, and all members show the same one (`shown_decisions_agree`).
-/

namespace MongrelDB.DistTxn

open Epoch Lib Consensus List

/-! ## Runs with a condition on prepares -/

/-- A condition on a prepare, given the history before it. -/
abbrev PrepareCondition :=
  List Event → RaftGroupId → TransactionId → HlcTimestamp → List WriteIntent → Prop

/-- The condition, for a message that is a prepare. -/
def Message.OnPrepare (P : PrepareCondition) (past : List Event) : Message → Prop
  | .intent group _ (.persistIntents txnId _ _ prepareTs intents) =>
    P past group txnId prepareTs intents
  | _ => True

instance {P : PrepareCondition}
    [∀ past group txnId ts intents, Decidable (P past group txnId ts intents)]
    (past : List Event) : (message : Message) → Decidable (message.OnPrepare P past)
  | .intent group _ (.persistIntents txnId _ _ prepareTs intents) =>
    inferInstanceAs (Decidable (P past group txnId prepareTs intents))
  | .intent _ _ (.resolve _ _) => isTrue trivial
  | .intent _ _ (.setTabletVersions _ _) => isTrue trivial
  | .intent _ _ (.sweepResolved _ _) => isTrue trivial
  | .status _ _ _ _ => isTrue trivial

/-- Every prepare that is delivered meets the condition. -/
def OnPrepare (P : PrepareCondition) (s : Cluster) : Label → Prop
  | .deliver message _ _ => ∀ m ∈ s.network[message]?, m.OnPrepare P s.events
  | _ => True

instance {P : PrepareCondition}
    [∀ past group txnId ts intents, Decidable (P past group txnId ts intents)]
    (s : Cluster) : (label : Label) → Decidable (OnPrepare P s label)
  | .deliver message _ _ =>
    inferInstanceAs (Decidable (∀ m ∈ s.network[message]?, m.OnPrepare P s.events))
  | .start _ _ => isTrue trivial
  | .advance _ _ _ _ => isTrue trivial
  | .fail _ _ _ => isTrue trivial
  | .setTabletVersions _ _ _ _ => isTrue trivial
  | .observe _ _ _ => isTrue trivial

section Steps

variable {d : Deployment} {s s' : Cluster}

/-- A step adds at most one event, and a prepared one only where a prepare is delivered. -/
theorem step_events (hs : ClusterOk d s) {label : Label} (h : s.step d label = some s') :
    s'.events = s.events ∨ ∃ e, s'.events = e :: s.events ∧
      ∀ P, OnPrepare P s label → ∀ group txnId ts intents, e = .prepared group txnId ts intents →
        P s.events group txnId ts intents := by
  cases label with
  | start | setTabletVersions | observe => cases h; exact .inl rfl
  | advance =>
    simp only [Cluster.step] at h
    split at h
    · cases h
    · obtain ⟨effect, -, rfl⟩ := Option.map_eq_some_iff.mp h
      exact .inl rfl
  | fail =>
    simp only [Cluster.step] at h
    split at h
    · cases h
    · cases h
      exact .inl rfl
  | deliver message stamp verdict =>
    simp only [Cluster.step] at h
    split at h
    · cases h
    next m hm =>
      cases m with
      | status group id command pushedAt =>
        obtain ⟨after, -, rfl⟩ := Option.map_eq_some_iff.mp h
        dsimp only
        unfold statusEvents
        split
        · refine .inr ⟨_, rfl, ?_⟩
          intro P _ group txnId ts intents heq
          cases heq
        · split
          · refine .inr ⟨_, rfl, ?_⟩
            intro P _ group txnId ts intents heq
            cases heq
          · exact .inl rfl
        · exact .inl rfl
      | intent group id command =>
        obtain ⟨after, hafter, rfl⟩ := Option.map_eq_some_iff.mp h
        obtain ⟨-, hstate⟩ := Group.deliver_cases hafter
        dsimp only
        rcases hstate with hsame | ⟨position, happly⟩
        · rw [hsame, intentEvents_self]
          exact .inl rfl
        have hphase := fun txnId =>
          IntentState.applyIntent_phase (hs.intents group).now.keyed happly txnId
        unfold intentEvents
        split
        · exact .inl rfl
        next txnId htxn =>
          have hstep := hphase txnId
          unfold phaseEvents
          split
          next ts intents hbefore hnew =>
            refine .inr ⟨_, rfl, ?_⟩
            intro P hok group' txnId' ts' intents' heq
            cases heq
            rw [hbefore, hnew] at hstep
            cases hstep with
            | prepare schemaVersion authzVersion _ _ hbody _ =>
              have hcondition := hok _ hm
              rw [show command = _ from hbody] at hcondition
              exact hcondition
          · exact .inl rfl
          · refine .inr ⟨_, rfl, ?_⟩
            intro P _ group txnId ts intents heq
            cases heq
          · exact .inl rfl

theorem reachable_onPrepare {P : PrepareCondition}
    (h : Reachable (Cluster.step d) (OnPrepare P) .init s) :
    Lawful (fun past e => ∀ group txnId ts intents, e = .prepared group txnId ts intents →
      P past group txnId ts intents) s.events := by
  refine (h.invariant (I := fun s => ClusterOk d s ∧ Lawful _ s.events)
    ⟨clusterOk_init d, .nil⟩ ?_).2
  rintro s label s' ⟨hs, hlawful⟩ hok hstep
  refine ⟨hs.step hstep, ?_⟩
  rcases step_events hs hstep with hsame | ⟨e, hevent, hP⟩
  · rw [hsame]
    exact hlawful
  · rw [hevent]
    exact .cons (hP P hok) hlawful

variable {ok : Cluster → Label → Prop} (hs : ClusterOk d s) (h : Reachable (Cluster.step d) ok s s')
include hs h

/-- The history only grows. -/
theorem reachable_events : ClusterOk d s' ∧ ∃ recent, s'.events = recent ++ s.events := by
  refine h.invariant (I := fun s' => ClusterOk d s' ∧ ∃ recent, s'.events = recent ++ s.events)
    ⟨hs, [], rfl⟩ ?_
  rintro s₁ label s₂ ⟨hs₁, recent, hrecent⟩ _ hstep
  refine ⟨hs₁.step hstep, ?_⟩
  rcases step_events hs₁ hstep with hsame | ⟨e, hevent, -⟩
  · exact ⟨recent, hsame.trans hrecent⟩
  · exact ⟨e :: recent, by rw [hevent, hrecent]; rfl⟩

theorem decision_final {txnId : TransactionId} {record : TxnRecord}
    (hrecord : s.record d txnId = some record) {decision : TxnDecision}
    (hdecision : record.state.decision = some decision) :
    ∃ record', s'.record d txnId = some record' ∧ record'.state.decision = some decision := by
  obtain ⟨hs', recent, hrecent⟩ := reachable_events hs h
  have hdecided : Decided s'.events txnId decision := by
    rw [hrecent]
    exact ((hs.record_decided hrecord).mp hdecision).mono
  have hbegan : Began s'.events txnId record.idempotencyKey := by
    rw [hrecent]
    exact (hs.recordOk hrecord).began.mono
  cases hrecord' : s'.record d txnId with
  | none =>
    exact absurd hbegan ((hs'.status _).now.fresh txnId rfl hrecord' record.idempotencyKey)
  | some record' => exact ⟨record', rfl, (hs'.record_decided hrecord').mpr hdecided⟩

end Steps

/-! ## What the members show -/

/-- Some member, however far behind, shows the decision: a coordinator in the record, a participant
in the phase. -/
def Cluster.Shows (s : Cluster) (txnId : TransactionId) (decision : TxnDecision) : Prop :=
  (∃ group at? st record, (s.status group).view at? = some st ∧ st.records[txnId]? = some record ∧
    record.state.decision = some decision) ∨
  ∃ group at? st, (s.intents group).view at? = some st ∧ st.phase txnId = .resolved decision

theorem ClusterOk.decided_of_shows {d : Deployment} {s : Cluster} (hs : ClusterOk d s)
    {txnId : TransactionId} {decision : TxnDecision} (h : s.Shows txnId decision) :
    Decided s.events txnId decision := by
  rcases h with ⟨group, at?, st, record, hview, hrecord, hdecision⟩ |
    ⟨group, at?, st, hview, hphase⟩
  · exact ((hs.status group).view hview txnId record hrecord).2.decided decision hdecision
  · exact ((hs.intents group).view hview).resolved txnId decision hphase

/-- No member ever shows another decision than any member of any group has shown before. -/
theorem shown_decisions_agree (d : Deployment) (s s' : Cluster)
    (h : Reachable (Cluster.step d) anyStep .init s) (h' : Reachable (Cluster.step d) anyStep s s')
    (txnId : TransactionId) (decision decision' : TxnDecision) (hshown : s.Shows txnId decision)
    (hshown' : s'.Shows txnId decision') : decision = decision' := by
  have hs := reachable_clusterOk h
  obtain ⟨hs', recent, hrecent⟩ := reachable_events hs h'
  have hdecided : Decided s'.events txnId decision := by
    rw [hrecent]
    exact (hs.decided_of_shows hshown).mono
  exact decided_unique hs'.lawful hdecided (hs'.decided_of_shows hshown')

theorem commitRun_shown :
    ∃ s, Reachable (Cluster.step twoTablets) anyStep .init s ∧
      s.Shows 7 (.committed ⟨100, 3, 0⟩) ∧
      ∀ decision, s.Shows 7 decision → decision = .committed ⟨100, 3, 0⟩ := by
  obtain ⟨s, hs, hphase⟩ := exists_reachable_of_execute (Cluster.step twoTablets) anyStep .init
    (fun s => ((s.intents 1).view 1).map (·.phase 7) = some (.resolved (.committed ⟨100, 3, 0⟩)))
    commitRun (by decide +kernel)
  obtain ⟨st, hst, hphase⟩ := Option.map_eq_some_iff.mp hphase
  have hshown : s.Shows 7 (.committed ⟨100, 3, 0⟩) := .inr ⟨1, 1, st, hst, hphase⟩
  exact ⟨s, hs, hshown, fun decision h =>
    shown_decisions_agree twoTablets s s hs .refl 7 decision _ h hshown⟩

/-! ## Above every prepare -/

/-- Every commit timestamp is above the prepares before the decision and above what the client
observed. -/
def CommitsAbove (d : Deployment) (es : List Event) : Prop :=
  ∀ recent txnId commitTs expiry pushedAt past,
    es = recent ++ .decided txnId (.committed commitTs) expiry pushedAt :: past →
    (∀ group prepareTs intents, .prepared group txnId prepareTs intents ∈ past →
      prepareTs < commitTs) ∧
    ∀ key, Began past txnId key → ∀ ts ∈ (d.request txnId key).observed, ts < commitTs

/-- The prepare is not stamped with the last value of the clock. -/
def BeforeEnd : PrepareCondition := fun _ _ _ prepareTs _ => ¬ prepareTs.AtEnd

instance (past group txnId ts intents) : Decidable (BeforeEnd past group txnId ts intents) :=
  inferInstanceAs (Decidable (¬ ts.AtEnd))

theorem not_atEnd_of_prepared {es : List Event}
    (h : Lawful (fun past e => ∀ group txnId ts intents, e = .prepared group txnId ts intents →
      BeforeEnd past group txnId ts intents) es) {group : RaftGroupId} {txnId : TransactionId}
    {ts : HlcTimestamp} {intents : List WriteIntent}
    (hmem : .prepared group txnId ts intents ∈ es) : ¬ ts.AtEnd := by
  obtain ⟨recent, past, rfl⟩ := append_of_mem hmem
  exact h.law group txnId ts intents rfl

theorem commitsAbove_of_lawful {d : Deployment} {es : List Event} (h : Lawful (Law d) es)
    (hstamps : ∀ group txnId ts intents, .prepared group txnId ts intents ∈ es → ¬ ts.AtEnd) :
    CommitsAbove d es := by
  rintro recent txnId commitTs expiry pushedAt past rfl
  have hpast := h.before
  have hlaw := h.law
  cases hlaw with
  | decided key began first commit =>
    have hcommit := commit commitTs rfl
    refine ⟨?_, ?_⟩
    · intro group prepareTs intents hmem
      obtain ⟨recent', past', rfl, -, hprepared, -⟩ := law_of_mem hpast hmem
      cases hprepared with
      | prepared key' writes began' mem at_group _ _ _ =>
        obtain rfl : key' = key := began_unique hpast began'.mono began
        obtain ⟨ts, intents', hmem', hlt⟩ := hcommit.prepared writes mem
        rw [at_group] at hmem'
        -- the participant prepared once, since the decision was still open
        have hopen : ¬ ResolvedAt (recent' ++ past') group txnId := by
          intro hr
          obtain ⟨decision, hd⟩ := hr.decided hpast
          exact first decision hd
        obtain ⟨rfl, -⟩ := prepared_unique hpast hopen hmem hmem'
        refine hlt.resolve_right ?_
        rintro ⟨group', last, held, hlast, hend⟩
        exact hstamps group' txnId last held
          (mem_append_right _ (mem_cons_of_mem _ hlast)) hend
    · intro key' hb ts hts
      obtain rfl : key' = key := began_unique hpast hb began
      exact hcommit.observed ts hts

/-- Decisions are final, and commit timestamps above what they have to be above. -/
theorem commit_above_prepares (d : Deployment) (s : Cluster)
    (h : Reachable (Cluster.step d) (OnPrepare BeforeEnd) .init s) :
    CommitsAbove d s.events ∧
    ∀ s', Reachable (Cluster.step d) (OnPrepare BeforeEnd) s s' → ∀ txnId record decision,
      s.record d txnId = some record → record.state.decision = some decision →
      ∃ record', s'.record d txnId = some record' ∧ record'.state.decision = some decision := by
  have hs := reachable_clusterOk h
  have hstamps := reachable_onPrepare h
  refine ⟨commitsAbove_of_lawful hs.lawful fun _ _ _ _ => not_atEnd_of_prepared hstamps, ?_⟩
  intro s' hs' txnId record decision hrecord hdecision
  exact decision_final hs hs' hrecord hdecision

theorem commitRun_above :
    ∃ s, Reachable (Cluster.step twoTablets) (OnPrepare BeforeEnd) .init s ∧
      Decided s.events 7 (.committed ⟨100, 3, 0⟩) ∧ CommitsAbove twoTablets s.events := by
  obtain ⟨s, hs, hdecided⟩ := exists_reachable_of_execute (Cluster.step twoTablets)
    (OnPrepare BeforeEnd) .init
    (fun s => .decided 7 (.committed ⟨100, 3, 0⟩) ⟨10000100, 0, 0⟩ none ∈ s.events)
    commitRun (by decide +kernel)
  exact ⟨s, hs, ⟨_, _, hdecided⟩, (commit_above_prepares twoTablets s hs).1⟩

/-- One tablet. Transaction 1 has observed the last value but one of the clock. -/
def oneTablet : Deployment where
  coordinator := fun _ => 0
  request := fun txnId _ =>
    { writes := [writesAt 1 [([txnId.toUInt8], [10])]]
      observed := if txnId = 1 then [⟨maxMicros, maxLogical - 1, 0⟩] else [] }
  config := fun _ => {}
  retention := 16
  groups := by
    intro _ _ _
    simp [CommitRequest.participants]

/-- A commit at a single participant up to the delivery of the decision, as call number `call`
with the messages from `message` on. The two groups have taken `entries` and `entries'` entries
before. -/
def fastPath (call message entries entries' : Nat) (driver : DriverId) (txnId : TransactionId)
    (wall : Nat) : List Label :=
  [.start driver (.commit txnId 0),
    .advance call wall 0 0, .deliver message .zero none, .advance call 0 entries 0,
    .advance call wall 0 0, .deliver (message + 1) .zero none, .advance call 0 entries' 0,
    .advance call 0 0 1, .advance call 0 0 0,
    .advance call wall 0 0, .deliver (message + 2) .zero none]

/-- The first transaction takes the driver's clock to its end; the second is prepared and
committed at the same timestamp. -/
theorem commit_at_prepare_ts :
    ∃ s, Reachable (Cluster.step oneTablet) anyStep .init s ∧
      ¬ CommitsAbove oneTablet s.events := by
  let last : HlcTimestamp := ⟨maxMicros, maxLogical, 0⟩
  obtain ⟨s, hs, hevents⟩ := exists_reachable_of_execute (Cluster.step oneTablet) anyStep .init
    (fun s => s.events.take 2 =
      [.decided 2 (.committed last) last none, .prepared 1 2 last [⟨2, [2], [10], last⟩]])
    (fastPath 0 0 0 0 0 1 0 ++ fastPath 1 3 2 1 0 2 0) (by decide +kernel)
  refine ⟨s, hs, fun habove => ?_⟩
  have hsplit : s.events = [] ++ .decided 2 (.committed last) last none ::
      (.prepared 1 2 last [⟨2, [2], [10], last⟩] :: s.events.drop 2) := by
    rw [nil_append, ← take_append_drop 2 s.events, hevents]
    rfl
  exact lt_irrefl _ ((habove [] 2 last last none _ hsplit).1 1 last _ mem_cons_self)

/-! ## Newest by timestamp -/

/-- Some write and some intent are on the same key. -/
def Follows (visible : List CommittedWrite) (intents : List WriteIntent) : Prop :=
  ∃ write ∈ visible, ∃ intent ∈ intents, write.key = intent.key
  deriving Decidable

/-- A transaction that prepares after a committed write of another was resolved there, on the
same key, commits above it. -/
def VersionsInOrder (es : List Event) : Prop :=
  ∀ recent group txnId prepareTs intents past other commitTs visible commitTs',
    es = recent ++ .prepared group txnId prepareTs intents :: past → other ≠ txnId →
    .resolved group other (.committed commitTs) visible ∈ past → Follows visible intents →
    Decided es txnId (.committed commitTs') → commitTs < commitTs'

/-- What an earlier event asks of a prepare: not to come after the decision, and not to be below
a committed write it follows. -/
def Event.Allows (group : RaftGroupId) (txnId : TransactionId) (prepareTs : HlcTimestamp)
    (intents : List WriteIntent) : Event → Prop
  | .decided id _ _ _ => id ≠ txnId
  | .resolved g _ (.committed commitTs) visible =>
    g = group → Follows visible intents → commitTs ≤ prepareTs
  | _ => True

instance (group : RaftGroupId) (txnId : TransactionId) (prepareTs : HlcTimestamp)
    (intents : List WriteIntent) :
    (e : Event) → Decidable (e.Allows group txnId prepareTs intents)
  | .decided id _ _ _ => inferInstanceAs (Decidable (id ≠ txnId))
  | .resolved g _ (.committed commitTs) visible =>
    inferInstanceAs (Decidable (g = group → Follows visible intents → commitTs ≤ prepareTs))
  | .resolved _ _ (.aborted _) _ => isTrue trivial
  | .began _ _ => isTrue trivial
  | .prepared _ _ _ _ => isTrue trivial

/-- The prepare is at or above the committed writes it follows, comes before the decision of its
transaction, and is not stamped with the last value of the clock. -/
def AboveWrites : PrepareCondition := fun past group txnId prepareTs intents =>
  ¬ prepareTs.AtEnd ∧ ∀ e ∈ past, e.Allows group txnId prepareTs intents

instance (past group txnId ts intents) : Decidable (AboveWrites past group txnId ts intents) :=
  inferInstanceAs (Decidable (¬ ts.AtEnd ∧ ∀ e ∈ past, e.Allows group txnId ts intents))

/-- The write resolved last on a key is the newest one. -/
theorem versions_in_order (d : Deployment) (s : Cluster)
    (h : Reachable (Cluster.step d) (OnPrepare AboveWrites) .init s) :
    VersionsInOrder s.events := by
  have hs := reachable_clusterOk h
  have hprepares := reachable_onPrepare h
  intro recent group txnId prepareTs intents past other commitTs visible commitTs' hes hne
    hresolved hfollows hdecided
  have hcondition : AboveWrites past group txnId prepareTs intents := by
    rw [hes] at hprepares
    exact hprepares.law group txnId prepareTs intents rfl
  have hle : commitTs ≤ prepareTs := hcondition.2 _ hresolved rfl hfollows
  -- the decision came after this prepare
  obtain ⟨expiry, pushedAt, hmem⟩ := hdecided
  rw [hes] at hmem
  rcases mem_append.mp hmem with hmem | hmem
  swap
  · rcases mem_cons.mp hmem with heq | hmem
    · cases heq
    · exact absurd rfl (hcondition.2 _ hmem)
  obtain ⟨newer, older, rfl⟩ := append_of_mem hmem
  have hstamps : ∀ group txnId ts intents, .prepared group txnId ts intents ∈ s.events →
      ¬ ts.AtEnd := by
    intro group txnId ts intents hmem
    obtain ⟨_, _, hsplit⟩ := append_of_mem hmem
    rw [hsplit] at hprepares
    exact (hprepares.law group txnId ts intents rfl).1
  have habove := commitsAbove_of_lawful hs.lawful hstamps newer txnId commitTs' expiry pushedAt
    (older ++ .prepared group txnId prepareTs intents :: past) (by rw [hes]; simp)
  exact lt_of_le_of_lt hle (habove.1 group prepareTs intents (by simp))

/-- Every transaction writes the same key of one tablet. -/
def sameKey : Deployment where
  coordinator := fun _ => 0
  request := fun _ _ => { writes := [writesAt 1 [([1], [10])]], observed := [] }
  config := fun _ => {}
  retention := 16
  groups := by
    intro _ _ _
    simp [CommitRequest.participants]

/-- What follows `fastPath`: the decision is read and resolved. -/
def resolveRun (call message entries : Nat) : List Label :=
  [.advance call 0 (entries + 1) 0, .advance call 0 0 0, .advance call 0 0 0,
    .deliver (message + 3) .zero none]

theorem sameKey_in_order :
    ∃ s, Reachable (Cluster.step sameKey) (OnPrepare AboveWrites) .init s ∧
      Decided s.events 2 (.committed ⟨200, 2, 0⟩) ∧
      .resolved 1 1 (.committed ⟨100, 2, 0⟩) [⟨[1], [10], ⟨100, 2, 0⟩, 1⟩] ∈ s.events ∧
      VersionsInOrder s.events := by
  obtain ⟨s, hs, hdecided, hresolved⟩ := exists_reachable_of_execute (Cluster.step sameKey)
    (OnPrepare AboveWrites) .init
    (fun s => .decided 2 (.committed ⟨200, 2, 0⟩) ⟨10000200, 0, 0⟩ none ∈ s.events ∧
      .resolved 1 1 (.committed ⟨100, 2, 0⟩) [⟨[1], [10], ⟨100, 2, 0⟩, 1⟩] ∈ s.events)
    (fastPath 0 0 0 0 0 1 100 ++ resolveRun 0 0 0 ++ fastPath 1 4 2 2 0 2 200)
    (by decide +kernel)
  exact ⟨s, hs, ⟨_, _, hdecided⟩, hresolved, versions_in_order sameKey s hs⟩

/-- The driver of the second transaction has a clock that is behind. -/
theorem older_version_resolved_last :
    ∃ s, Reachable (Cluster.step sameKey) anyStep .init s ∧ ¬ VersionsInOrder s.events := by
  let intent : WriteIntent := ⟨2, [1], [10], ⟨1, 1, 0⟩⟩
  let visible : CommittedWrite := ⟨[1], [10], ⟨100, 2, 0⟩, 1⟩
  obtain ⟨s, hs, hevents, hresolved⟩ := exists_reachable_of_execute (Cluster.step sameKey) anyStep
    .init
    (fun s => s.events.take 2 =
        [.decided 2 (.committed ⟨1, 2, 0⟩) ⟨10000001, 0, 0⟩ none,
          .prepared 1 2 ⟨1, 1, 0⟩ [intent]] ∧
      .resolved 1 1 (.committed ⟨100, 2, 0⟩) [visible] ∈ s.events.drop 2)
    (fastPath 0 0 0 0 0 1 100 ++ resolveRun 0 0 0 ++ fastPath 1 4 2 2 1 2 1) (by decide +kernel)
  refine ⟨s, hs, fun horder => ?_⟩
  have hsplit : s.events = [.decided 2 (.committed ⟨1, 2, 0⟩) ⟨10000001, 0, 0⟩ none] ++
      .prepared 1 2 ⟨1, 1, 0⟩ [intent] :: s.events.drop 2 := by
    rw [← take_append_drop 2 s.events, hevents]
    rfl
  have hlt := horder _ 1 2 _ _ _ 1 _ _ ⟨1, 2, 0⟩ hsplit (by decide) hresolved
    ⟨visible, mem_cons_self, intent, mem_cons_self, rfl⟩
    ⟨_, _, by rw [hsplit]; exact mem_cons_self⟩
  exact absurd hlt (by decide)

end MongrelDB.DistTxn
