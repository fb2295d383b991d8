import MongrelDB.DistTxn.Timestamps

/-!
# First committer wins

A participant refuses a prepare whose key is in the unresolved intents of another
transaction.
-/

namespace MongrelDB.DistTxn

open Epoch Lib List

/-- Two requests write one key at one group. -/
def CommonKey (request request' : CommitRequest) : Prop :=
  ∃ writes ∈ request.writes, ∃ writes' ∈ request'.writes,
    writes.participant.raftGroupId = writes'.participant.raftGroupId ∧
      Overlap writes.intents writes'.intents

/-- No transaction commits over a write of another that was decided between its own begin and its
own decision and that is above all it observed. -/
def FirstCommitterWins (d : Deployment) (es : List Event) : Prop :=
  ∀ e₃ e₂ e₁ e₀ txnId key commitTs expiry pushedAt other key' commitTs' expiry' pushedAt',
    es = e₃ ++ .decided txnId (.committed commitTs) expiry pushedAt ::
      (e₂ ++ .decided other (.committed commitTs') expiry' pushedAt' ::
        (e₁ ++ .began txnId key :: e₀)) →
    other ≠ txnId → Began es other key' →
    CommonKey (d.request txnId key) (d.request other key') →
    ¬ ∀ ts ∈ (d.request txnId key).observed, ts < commitTs'

/-! ## The condition -/

def Event.begins (txnId : TransactionId) : Event → Bool
  | .began id _ => id == txnId
  | _ => false

def Event.decides (txnId : TransactionId) : Event → Bool
  | .decided id _ _ _ => id == txnId
  | _ => false

/-- What has happened since the transaction began. -/
def sinceBegin (txnId : TransactionId) (past : List Event) : List Event :=
  past.takeWhile fun e => !e.begins txnId

/-- The begin of a transaction that has observed `commitTs`. -/
def Event.Saw (d : Deployment) (txnId : TransactionId) (commitTs : HlcTimestamp) : Event → Prop
  | .began id key => id = txnId ∧ ∃ ts ∈ (d.request id key).observed, commitTs ≤ ts
  | _ => False

instance (d : Deployment) (txnId : TransactionId) (commitTs : HlcTimestamp) :
    (e : Event) → Decidable (e.Saw d txnId commitTs)
  | .began id key =>
    inferInstanceAs (Decidable (id = txnId ∧ ∃ ts ∈ (d.request id key).observed, commitTs ≤ ts))
  | .prepared _ _ _ _ => isFalse id
  | .decided _ _ _ _ => isFalse id
  | .resolved _ _ _ _ => isFalse id

/-- What an earlier event asks of a prepare: a committed write that the prepare follows and that
was decided since its transaction began has been observed. -/
def Event.SeenBy (d : Deployment) (past : List Event) (group : RaftGroupId)
    (txnId : TransactionId) (intents : List WriteIntent) : Event → Prop
  | .resolved g other (.committed commitTs) visible =>
    g = group → other ≠ txnId → Follows visible intents →
      (∃ e ∈ sinceBegin txnId past, e.decides other = true) → ∃ e ∈ past, e.Saw d txnId commitTs
  | _ => True

instance (d : Deployment) (past : List Event) (group : RaftGroupId) (txnId : TransactionId)
    (intents : List WriteIntent) : (e : Event) → Decidable (e.SeenBy d past group txnId intents)
  | .resolved g other (.committed commitTs) visible =>
    inferInstanceAs (Decidable (g = group → other ≠ txnId → Follows visible intents →
      (∃ e ∈ sinceBegin txnId past, e.decides other = true) → ∃ e ∈ past, e.Saw d txnId commitTs))
  | .resolved _ _ (.aborted _) _ => isTrue trivial
  | .began _ _ => isTrue trivial
  | .prepared _ _ _ _ => isTrue trivial
  | .decided _ _ _ _ => isTrue trivial

def SawWrites (d : Deployment) : PrepareCondition := fun past group txnId _ intents =>
  ∀ e ∈ past, e.SeenBy d past group txnId intents

instance (d past group txnId ts intents) : Decidable (SawWrites d past group txnId ts intents) :=
  inferInstanceAs (Decidable (∀ e ∈ past, e.SeenBy d past group txnId intents))

/-! ## Order in a history -/

variable {d : Deployment} {es recent past : List Event} {group : RaftGroupId}
  {txnId other : TransactionId} {key key' : IdempotencyKey} {ts ts' commitTs : HlcTimestamp}

/-- What is newer than the events that hold the begin has happened since. -/
theorem mem_sinceBegin (h : Lawful (Law d) (recent ++ past)) (hb : Began past txnId key)
    {e : Event} (he : e ∈ recent) : e ∈ sinceBegin txnId (recent ++ past) := by
  have hnone : ∀ x ∈ recent, (!x.begins txnId) = true := by
    intro x hx
    cases x with
    | began id key' =>
      have hne : id ≠ txnId := by
        rintro rfl
        obtain ⟨newer, older, rfl⟩ := append_of_mem hx
        rw [append_assoc] at h
        cases h.law with
        | began _ first => exact first key (mem_append_right _ hb)
      simpa [Event.begins] using hne
    | _ => rfl
  unfold sinceBegin
  rw [takeWhile_append_of_pos hnone]
  exact mem_append_left _ he

/-- The participant of a committed transaction had prepared the writes of its request. -/
theorem CommitLaw.intents (h : Lawful (Law d) es) (hcommit : CommitLaw d es txnId key commitTs)
    (hb : Began es txnId key) {writes : ParticipantWrites}
    (hw : writes ∈ (d.request txnId key).writes) :
    ∃ prepareTs, Event.prepared writes.participant.raftGroupId txnId prepareTs
      (staged txnId prepareTs writes.intents) ∈ es := by
  obtain ⟨prepareTs, intents, hprepared, -⟩ := hcommit.prepared writes hw
  obtain ⟨recent, past, rfl, -, hlaw, -⟩ := law_of_mem h hprepared
  cases hlaw with
  | prepared key' writes' began mem at_group staged_eq _ _ =>
    obtain rfl : key' = key := began_unique h began.mono hb
    obtain rfl := writes_eq_of_group h hb mem hw at_group
    rw [staged_eq] at hprepared
    exact ⟨prepareTs, hprepared⟩

section Overlap

variable {intents intents' : List WriteIntent}

theorem Overlap.symm (h : Overlap intents intents') : Overlap intents' intents := by
  obtain ⟨intent, hmem, intent', hmem', hkey⟩ := h
  exact ⟨intent', hmem', intent, hmem, hkey.symm⟩

theorem Overlap.staged (h : Overlap intents intents') :
    Overlap (staged txnId ts intents) (staged other ts' intents') := by
  obtain ⟨intent, hmem, intent', hmem', hkey⟩ := h
  exact ⟨_, mem_map_of_mem hmem, _, mem_map_of_mem hmem', hkey⟩

theorem Overlap.follows (h : Overlap intents intents') :
    Follows (committedWritesOf other commitTs intents') (DistTxn.staged txnId ts intents) := by
  obtain ⟨intent, hmem, intent', hmem', hkey⟩ := h
  exact ⟨_, mem_map_of_mem hmem', _, mem_map_of_mem hmem, hkey.symm⟩

/-- A transaction that prepares after another one on the same key has waited for its decision. -/
theorem resolved_of_overlap
    (h : Lawful (Law d) (recent ++ .prepared group txnId ts intents :: past)) (hne : other ≠ txnId)
    (hp : Event.prepared group other ts' intents' ∈ past) (hoverlap : Overlap intents intents') :
    ResolvedAt past group other ∧ ∃ decision, Decided past other decision := by
  have hresolved : ResolvedAt past group other := by
    cases h.law with
    | prepared _ _ _ _ _ _ free _ => exact free other ts' intents' hne hp hoverlap
  exact ⟨hresolved, hresolved.decided h.before⟩

end Overlap

/-- A write resolved before the prepare and decided since the begin has been observed. -/
theorem observed_of_resolved (h : Lawful (Law d) past) (hb : Began past txnId key)
    (hb' : Began past other key') {writes writes' : ParticipantWrites}
    (hw' : writes' ∈ (d.request other key').writes)
    (hgroup : writes.participant.raftGroupId = writes'.participant.raftGroupId)
    (hoverlap : Overlap writes.intents writes'.intents) (hne : other ≠ txnId)
    (hresolved : ResolvedAt past writes'.participant.raftGroupId other)
    {expiry : HlcTimestamp} {pushedAt : Option HlcTimestamp}
    (hsince : Event.decided other (.committed commitTs) expiry pushedAt ∈ sinceBegin txnId past)
    (hsaw : SawWrites d past writes.participant.raftGroupId txnId ts
      (staged txnId ts writes.intents)) :
    ∃ ts ∈ (d.request txnId key).observed, commitTs ≤ ts := by
  have hdecided : Decided past other (.committed commitTs) :=
    ⟨expiry, pushedAt, (takeWhile_sublist _).subset hsince⟩
  obtain ⟨visible, hvisible, rfl⟩ := committed_writes_visible h hb' hdecided hw' hresolved
  obtain ⟨e, he, hsaw⟩ := hsaw _ hvisible hgroup.symm hne hoverlap.follows
    ⟨_, hsince, by simp [Event.decides]⟩
  cases e with
  | began id key₀ =>
    obtain ⟨rfl, hobserved⟩ := hsaw
    obtain rfl := began_unique h he hb
    exact hobserved
  | _ => exact hsaw.elim

/-! ## The result -/

/-- No transaction commits over a write it has not seen. -/
theorem first_committer_wins (d : Deployment) (s : Cluster)
    (h : Reachable (Cluster.step d) (OnPrepare (SawWrites d)) .init s) :
    FirstCommitterWins d s.events := by
  have hlawful := (reachable_clusterOk h).lawful
  have hprepares := reachable_onPrepare h
  intro e₃ e₂ e₁ e₀ txnId key commitTs expiry pushedAt other key' commitTs' expiry' pushedAt' hes
    hne hbegan' hcommon hobserved
  obtain ⟨writes, hwrites, writes', hwrites', hgroup, hoverlap⟩ := hcommon
  rw [hes] at hlawful hprepares hbegan'
  have hbefore := hlawful.before
  have hbefore' := hbefore.before
  have hbegan : Began (e₁ ++ .began txnId key :: e₀) txnId key := by simp [Began]
  -- both had prepared when they were decided
  cases hbefore.law with
  | decided k' began' first' commit' =>
  obtain rfl : k' = key' := began_unique hlawful
    (mem_append_right _ (mem_cons_of_mem _ (mem_append_right _
      (mem_cons_of_mem _ began')))) hbegan'
  obtain ⟨ts', hprepared'⟩ := (commit' commitTs' rfl).intents hbefore' began' hwrites'
  cases hlawful.law with
  | decided k began first commit =>
  obtain rfl : k = key := began_unique hbefore began
    (mem_append_right _ (mem_cons_of_mem _ hbegan))
  obtain ⟨ts, hprepared⟩ := (commit commitTs rfl).intents hbefore began hwrites
  have hprepared' := mem_append_right e₂ (mem_cons_of_mem
    (Event.decided other (.committed commitTs') expiry' pushedAt') hprepared')
  have hcondition := hprepares.before
  obtain ⟨recent, past, hsplit⟩ := append_of_mem hprepared
  rw [hsplit, ← hgroup] at hprepared'
  rcases mem_append.mp hprepared' with hmem | hmem
  · -- the other one prepared later, so this one had been decided
    obtain ⟨newer, older, rfl⟩ := append_of_mem hmem
    rw [hsplit, append_assoc] at hbefore first
    obtain ⟨-, decision, _, _, hdecided⟩ := resolved_of_overlap hbefore hne.symm
      (mem_append_right _ mem_cons_self) hoverlap.symm.staged
    exact first decision ⟨_, _, mem_append_right _ (mem_cons_of_mem _ hdecided)⟩
  · rcases mem_cons.mp hmem with heq | hmem
    · exact hne (Event.prepared.inj heq).2.1
    rw [hsplit] at hbefore hcondition
    obtain ⟨hresolved, decision, expiry₀, pushedAt₀, hdecided⟩ :=
      resolved_of_overlap hbefore hne hmem hoverlap.staged
    -- the other one had been decided, after the begin of this one
    rcases append_eq_append_iff.mp hsplit with ⟨mid, -, hmid⟩ | ⟨mid, -, hmid⟩
    · cases mid with
      | nil => cases hmid
      | cons _ mid =>
        refine first' decision ⟨expiry₀, pushedAt₀, ?_⟩
        rw [(List.cons.inj hmid).2]
        exact mem_append_right _ (mem_cons_of_mem _ hdecided)
    · cases mid with
      | nil => cases hmid
      | cons _ mid =>
        have hpast := (List.cons.inj hmid).2
        have hlawful := hbefore.before
        have hsaw := hcondition.law _ _ _ _ rfl
        rw [append_eq, append_cons] at hpast
        rw [hpast] at hlawful hsaw hresolved
        obtain ⟨ts₀, hts₀, hle⟩ := observed_of_resolved hlawful hbegan.mono began'.mono hwrites'
          hgroup hoverlap hne (hgroup ▸ hresolved)
          (mem_sinceBegin hlawful hbegan (mem_append_right _ mem_cons_self)) hsaw
        exact absurd (hobserved ts₀ hts₀) (not_lt.mpr hle)

theorem sameKey_first_committer :
    ∃ s, Reachable (Cluster.step sameKey) (OnPrepare (SawWrites sameKey)) .init s ∧
      Decided s.events 1 (.committed ⟨100, 2, 0⟩) ∧ Decided s.events 2 (.committed ⟨200, 2, 0⟩) ∧
      FirstCommitterWins sameKey s.events := by
  obtain ⟨s, hs, hdecided, hdecided'⟩ := exists_reachable_of_execute (Cluster.step sameKey)
    (OnPrepare (SawWrites sameKey)) .init
    (fun s => .decided 1 (.committed ⟨100, 2, 0⟩) ⟨10000100, 0, 0⟩ none ∈ s.events ∧
      .decided 2 (.committed ⟨200, 2, 0⟩) ⟨10000200, 0, 0⟩ none ∈ s.events)
    (fastPath 0 0 0 0 0 1 100 ++ resolveRun 0 0 0 ++ fastPath 1 4 2 2 0 2 200)
    (by decide +kernel)
  exact ⟨s, hs, ⟨_, _, hdecided⟩, ⟨_, _, hdecided'⟩, first_committer_wins sameKey s hs⟩

/-- Transaction 2 begins, transaction 1 runs and is resolved, transaction 2 goes on. -/
def overtaken : List Label :=
  [.start 0 (.commit 2 0), .advance 0 100 0 0, .deliver 0 .zero none, .advance 0 0 0 0] ++
    fastPath 1 1 1 0 0 1 100 ++ resolveRun 1 1 1 ++
    [.advance 0 200 0 0, .deliver 5 .zero none, .advance 0 0 2 0, .advance 0 0 0 1,
      .advance 0 0 0 0, .advance 0 200 0 0, .deliver 6 .zero none]

/-- Both commit, and the second has not seen the first. -/
theorem overtaken_commits :
    ∃ s, Reachable (Cluster.step sameKey) anyStep .init s ∧
      ¬ FirstCommitterWins sameKey s.events := by
  let intents : TransactionId → HlcTimestamp → List WriteIntent :=
    fun txnId ts => [⟨txnId, [1], [10], ts⟩]
  obtain ⟨s, hs, hevents⟩ := exists_reachable_of_execute (Cluster.step sameKey) anyStep .init
    (fun s => s.events =
      [] ++ .decided 2 (.committed ⟨200, 1, 0⟩) ⟨10000100, 0, 0⟩ none ::
      ([.prepared 1 2 ⟨200, 0, 0⟩ (intents 2 ⟨200, 0, 0⟩),
        .resolved 1 1 (.committed ⟨100, 3, 0⟩) [⟨[1], [10], ⟨100, 3, 0⟩, 1⟩]] ++
      .decided 1 (.committed ⟨100, 3, 0⟩) ⟨10000100, 1, 0⟩ none ::
      ([.prepared 1 1 ⟨100, 2, 0⟩ (intents 1 ⟨100, 2, 0⟩), .began 1 0] ++ .began 2 0 :: [])))
    overtaken (by decide +kernel)
  refine ⟨s, hs, fun hwins => ?_⟩
  have hbegan : Began s.events 1 0 := by
    rw [hevents]
    simp [Began]
  refine hwins _ _ _ _ 2 0 _ _ _ 1 0 _ _ _ hevents (by decide) hbegan ?_ ?_
  · exact ⟨_, mem_cons_self, _, mem_cons_self, rfl,
      _, mem_cons_self, _, mem_cons_self, rfl⟩
  · intro ts hts
    cases hts

end MongrelDB.DistTxn
