import MongrelDB.DistTxn.Timestamps

/-!
# Pushing expired transactions

A third party may force an abort when the heartbeat expiry of a record has passed.
-/

namespace MongrelDB.DistTxn

open Epoch Lib Consensus List Option

/-! ## Pushes under way -/

/-- The time a call has found the transaction expired at and may still abort it for. Recovery
keeps the record it read while it probes the participants. -/
def Pc.pushedAt (txnId : TransactionId) : Pc → Option HlcTimestamp
  | .abort id _ pushedAt _ => if id = txnId then pushedAt else none
  | .probe id now record _ _ _ => if id = txnId ∧ record.expired now then some now else none
  | _ => none

def Message.pushedAt (txnId : TransactionId) : Message → Option HlcTimestamp
  | .status _ _ (.abort id _) pushedAt => if id = txnId then pushedAt else none
  | _ => none

/-- The pushes under way. One that is lost stays in the network, so it counts for ever. -/
def Cluster.pushes (s : Cluster) (txnId : TransactionId) : List HlcTimestamp :=
  s.calls.filterMap (·.2.pushedAt txnId) ++ s.network.filterMap (·.pushedAt txnId)

variable {now : HlcTimestamp} {txnId : TransactionId}

theorem Cluster.mem_pushes {s : Cluster} :
    now ∈ s.pushes txnId ↔ (∃ call ∈ s.calls, call.2.pushedAt txnId = some now) ∨
      ∃ message ∈ s.network, message.pushedAt txnId = some now := by
  simp only [pushes, mem_append, mem_filterMap]

/-- Wherever a third party's abort would now take effect, the expiry of the record has passed by
the time of the push or by the leader's stamp. -/
def ExpiredWherePushed (d : Deployment) (s : Cluster) : Prop :=
  ∀ message group id txnId reason now stamp verdict s' record record',
    s.network[message]? = some (.status group id (.abort txnId reason) (some now)) →
    s.step d (.deliver message stamp verdict) = some s' →
    s.record d txnId = some record → record.state.decision = none →
    s'.record d txnId = some record' → record'.state.decision ≠ none →
    record.expiry ≤ now ∨ record.expiry ≤ stamp

/-- The message does not extend an expiry past the time of a push under way. -/
def Message.InTime (d : Deployment) (s : Cluster) : Message → Prop
  | .status _ _ (.heartbeat txnId heartbeat expiry) _ =>
    ∀ record ∈ s.record d txnId, record.state.decision = none →
      ∀ now ∈ s.pushes txnId, (record.beat heartbeat expiry).expiry ≤ now
  | _ => True

instance (d : Deployment) (s : Cluster) (message : Message) : Decidable (message.InTime d s) := by
  unfold Message.InTime
  split <;> infer_instance

def HeartbeatsInTime (d : Deployment) (s : Cluster) : Label → Prop
  | .deliver message _ _ => ∀ m ∈ s.network[message]?, m.InTime d s
  | _ => True

instance (d : Deployment) (s : Cluster) : (label : Label) → Decidable (HeartbeatsInTime d s label)
  | .deliver message _ _ =>
    inferInstanceAs (Decidable (∀ m ∈ s.network[message]?, m.InTime d s))
  | .start _ _ => isTrue trivial
  | .advance _ _ _ _ => isTrue trivial
  | .fail _ _ _ => isTrue trivial
  | .setTabletVersions _ _ _ _ => isTrue trivial
  | .observe _ _ _ => isTrue trivial

/-! ## One step -/

section Steps

variable {d : Deployment} {s s' : Cluster} {command : CoordinatorCommand}

/-- The record has expired by the time of every push under way. -/
def PushesDue (d : Deployment) (s : Cluster) : Prop :=
  ∀ txnId, ∀ now ∈ s.pushes txnId, ∃ record, s.record d txnId = some record ∧
    (record.state.decision = none → record.expiry ≤ now)

theorem pushedAt_onRecord {txnId id : TransactionId} {record : Option TxnRecord}
    {only : Option RaftGroupId} {live : TxnRecord → Pc}
    (h : (Pc.onRecord id record only live).pushedAt txnId = some now) :
    ∃ r, record = some r ∧ (live r).pushedAt txnId = some now := by
  unfold Pc.onRecord at h
  split at h
  · cases h
  next r =>
    split at h
    · cases h
    · exact ⟨r, rfl, h⟩

theorem pushedAt_pushIfExpired {txnId id : TransactionId} {time now : HlcTimestamp}
    {pushedBy : String} {only : Option RaftGroupId} {record : TxnRecord}
    (h : (Pc.pushIfExpired id time pushedBy only record).pushedAt txnId = some now) :
    id = txnId ∧ record.expired time ∧ time = now := by
  unfold Pc.pushIfExpired at h
  split at h
  next hexpired =>
    simp only [Pc.pushedAt] at h
    split at h
    next hid => exact ⟨hid, hexpired, some.inj h⟩
    · cases h
  · cases h

/-- The effect carries a push, in the call or in the message it sends. -/
def Effect.Pushes (txnId : TransactionId) (now : HlcTimestamp) (effect : Effect) : Prop :=
  effect.pc.pushedAt txnId = some now ∨ ∃ message ∈ effect.send, message.pushedAt txnId = some now

/-- A call that has found the record expired keeps that, and no other call comes to it but by
reading the record. -/
theorem pushes_next {driver : DriverId} {wall at? slot : Nat} {pc : Pc} {effect : Effect}
    (h : pc.next d s driver wall at? slot = some effect) (hpush : effect.Pushes txnId now) :
    pc.pushedAt txnId = some now ∨
      ∃ record, s.record d txnId = some record ∧ record.expiry ≤ now := by
  cases pc with
  | «begin» id key =>
    simp only [Pc.next] at h
    split at h <;> cases h <;> simp [Effect.Pushes, Pc.pushedAt, Message.pushedAt] at hpush
  | beginSent id key message =>
    obtain ⟨st, -, rfl⟩ := map_eq_some_iff.mp h
    simp only [Effect.Pushes, Pc.beginAnswer] at hpush
    repeat' split at hpush
    all_goals simp [Pc.pushedAt] at hpush
  | prepare id key slots =>
    simp only [Pc.next] at h
    split at h
    · cases h
      simp [Effect.Pushes, Pc.pushedAt, Message.pushedAt] at hpush
    · obtain ⟨st, -, rfl⟩ := map_eq_some_iff.mp h
      simp [Effect.Pushes, Pc.pushedAt] at hpush
    · obtain ⟨answer, -, rfl⟩ := map_eq_some_iff.mp h
      cases answer <;> simp [Effect.Pushes, Pc.pushedAt] at hpush
    · cases h
  | mark id todo | broadcast id decision todo =>
    cases todo <;> cases h <;> simp [Effect.Pushes, Pc.pushedAt, Message.pushedAt] at hpush
  | markSent id number tablet todo observed minimum =>
    obtain ⟨st, -, rfl⟩ := map_eq_some_iff.mp h
    split at hpush <;> simp [Effect.Pushes, Pc.pushedAt] at hpush
  | commitSent | abortSent =>
    obtain ⟨st, -, rfl⟩ := map_eq_some_iff.mp h
    simp [Effect.Pushes, Pc.pushedAt] at hpush
  | commit | heartbeat | sweep =>
    cases h
    simp [Effect.Pushes, Pc.pushedAt, Message.pushedAt] at hpush
  | abort id reason pushedAt only =>
    cases h
    obtain hpush | ⟨message, hsend, hpush⟩ := hpush
    · cases hpush
    · cases hsend
      exact .inl hpush
  | readBack id only =>
    cases h
    obtain hpush | ⟨message, hsend, -⟩ := hpush
    · obtain ⟨record, -, hpush⟩ := pushedAt_onRecord hpush
      cases hpush
    · cases hsend
  | recover id time =>
    cases h
    obtain hpush | ⟨message, hsend, -⟩ := hpush
    · obtain ⟨record, hrecord, hpush⟩ := pushedAt_onRecord hpush
      simp only [Pc.pushedAt] at hpush
      split at hpush
      next hdue =>
        cases hpush
        obtain ⟨rfl, hexpired⟩ := hdue
        exact .inr ⟨record, hrecord, by simpa [TxnRecord.expired] using hexpired⟩
      · cases hpush
    · cases hsend
  | probe id time record todo probed missing =>
    cases todo with
    | nil =>
      cases h
      obtain hpush | ⟨message, hsend, -⟩ := hpush
      · simp only [Pc.recovered] at hpush
        split at hpush
        · cases hpush
        · obtain ⟨rfl, hexpired, rfl⟩ := pushedAt_pushIfExpired hpush
          exact .inl (if_pos ⟨rfl, hexpired⟩)
      · cases hsend
    | cons participant todo =>
      simp only [Pc.next] at h
      split at h <;> cases h <;> exact .inl (by simpa [Effect.Pushes, Pc.pushedAt] using hpush)
  | push id time | orphan group id time =>
    cases h
    obtain hpush | ⟨message, hsend, -⟩ := hpush
    · obtain ⟨record, hrecord, hpush⟩ := pushedAt_onRecord hpush
      obtain ⟨rfl, hexpired, rfl⟩ := pushedAt_pushIfExpired hpush
      exact .inr ⟨record, hrecord, by simpa [TxnRecord.expired] using hexpired⟩
    · cases hsend
  | finished => cases h

theorem pushedAt_fail {pc : Pc} {slot : Nat} {reason : AbortReason} :
    (pc.fail slot reason).pushedAt txnId = none := by
  cases pc <;> simp [Pc.fail, Pc.pushedAt]

theorem pushedAt_start (request : Request) (txnId : TransactionId) :
    request.pc.pushedAt txnId = none := by
  cases request <;> simp [Request.pc, Pc.pushedAt]

theorem record_deliver {message : Nat} {group : RaftGroupId} {id : CommandId}
    {pushedAt : Option HlcTimestamp} {stamp : HlcTimestamp}
    {verdict : Option String} (hgroup : group = d.coordinator command.txnId)
    (h : s.deliver d message stamp verdict (.status group id command pushedAt) = some s')
    (txnId : TransactionId) :
    s'.record d txnId = s.record d txnId ∨ (txnId = command.txnId ∧ s.record d txnId = none) ∨
      (txnId = command.txnId ∧ ∃ record record', s.record d txnId = some record ∧
        record.state.decision = none ∧ record.transition command = .ok record' ∧
        s'.record d txnId = some record') := by
  obtain ⟨after, hdeliver, rfl⟩ := map_eq_some_iff.mp h
  by_cases hsame : d.coordinator txnId = group
  swap
  · left
    simp only [Cluster.record]
    rw [Function.update_of_ne hsame]
  have hrecord : Cluster.record d
      { s with
        status := Function.update s.status group after
        events := statusEvents (s.status group).state after.state command pushedAt ++ s.events }
      txnId = after.state.records[txnId]? := by
    simp only [Cluster.record, hsame]
    rw [Function.update_self]
  have hbefore : s.record d txnId = (s.status group).state.records[txnId]? := by
    rw [Cluster.record, hsame]
  rw [hrecord, hbefore]
  obtain ⟨-, heq | ⟨position, happly⟩⟩ := Group.deliver_cases hdeliver
  · exact .inl (by rw [heq])
  rcases TxnStatusState.applyCommand_cases happly with
    heq | ⟨record, hbody, -, hnone, heq⟩ | ⟨record, record', hold, hlive, htransition, heq⟩
  · exact .inl (by rw [heq])
  · dsimp only at hbody
    subst hbody
    by_cases hid : txnId = record.txnId
    · subst hid
      exact .inr (.inl ⟨rfl, hnone⟩)
    · exact .inl (by rw [heq, records_insert_of_ne hid])
  · dsimp only at hold htransition heq
    by_cases hid : txnId = command.txnId
    · subst hid
      refine .inr (.inr ⟨rfl, record, record', hold, ?_, htransition, ?_⟩)
      · exact DistributedTxnState.isTerminal_eq_false.mp hlive
      · rw [heq, records_insert_self]
    · exact .inl (by rw [heq, records_insert_of_ne hid])

/-- Only a heartbeat changes the expiry of a record that stays undecided. -/
theorem expiry_of_transition {record record' : TxnRecord}
    (h : record.transition command = .ok record') (hlive : record'.state.decision = none) :
    record'.expiry = record.expiry ∨ ∃ txnId heartbeat expiry,
      command = .heartbeat txnId heartbeat expiry ∧ record' = record.beat heartbeat expiry := by
  cases command with
  | «begin» => cases h
  | heartbeat txnId heartbeat expiry =>
    cases h
    exact .inr ⟨txnId, heartbeat, expiry, rfl, rfl⟩
  | markPreparing =>
    simp only [TxnRecord.transition] at h
    split at h
    · cases h
    · cases h
      exact .inl rfl
  | commit =>
    simp only [TxnRecord.transition] at h
    split at h
    · cases h
    · cases h
      cases hlive
  | abort =>
    cases h
    cases hlive

theorem PushesDue.of_pushes (h : PushesDue d s)
    (hrecord : ∀ txnId, s'.record d txnId = s.record d txnId)
    (hpushes : ∀ txnId, ∀ now ∈ s'.pushes txnId, now ∈ s.pushes txnId ∨
      ∃ record, s.record d txnId = some record ∧ record.expiry ≤ now) : PushesDue d s' := by
  intro txnId now hnow
  rw [hrecord]
  rcases hpushes txnId now hnow with hold | ⟨record, hread, hle⟩
  · exact h txnId now hold
  · exact ⟨record, hread, fun _ => hle⟩

theorem PushesDue.take (h : PushesDue d s) {call : Nat} {driver : DriverId} {pc : Pc}
    {effect : Effect} (hcall : s.calls[call]? = some (driver, pc))
    (heffect : ∀ txnId now, effect.Pushes txnId now → pc.pushedAt txnId = some now ∨
      ∃ record, s.record d txnId = some record ∧ record.expiry ≤ now) :
    PushesDue d (s.take call driver effect) := by
  refine h.of_pushes (fun _ => rfl) ?_
  intro txnId now hnow
  have hold : pc.pushedAt txnId = some now → now ∈ s.pushes txnId := fun hpush =>
    Cluster.mem_pushes.mpr (.inl ⟨_, mem_of_getElem? hcall, hpush⟩)
  rcases Cluster.mem_pushes.mp hnow with ⟨entry, hentry, hpush⟩ | ⟨message, hmessage, hpush⟩
  · rcases mem_or_eq_of_mem_set hentry with hentry | rfl
    · exact .inl (Cluster.mem_pushes.mpr (.inl ⟨entry, hentry, hpush⟩))
    · exact (heffect txnId now (.inl hpush)).imp_left hold
  · rcases mem_append.mp hmessage with hmessage | hmessage
    · exact .inl (Cluster.mem_pushes.mpr (.inr ⟨message, hmessage, hpush⟩))
    · exact (heffect txnId now (.inr ⟨message, mem_toList.mp hmessage, hpush⟩)).imp_left hold

theorem PushesDue.deliver_status (h : PushesDue d s) {message : Nat} {group : RaftGroupId}
    {id : CommandId} {pushedAt : Option HlcTimestamp}
    {stamp : HlcTimestamp} {verdict : Option String} (hgroup : group = d.coordinator command.txnId)
    (hintime : (Message.status group id command pushedAt).InTime d s)
    (hdeliver : s.deliver d message stamp verdict (.status group id command pushedAt) = some s') :
    PushesDue d s' := by
  intro txnId now hnow
  have hnow : now ∈ s.pushes txnId := by
    obtain ⟨after, -, rfl⟩ := map_eq_some_iff.mp hdeliver
    exact hnow
  obtain ⟨record, hrecord, hle⟩ := h txnId now hnow
  rcases record_deliver hgroup hdeliver txnId with
    heq | ⟨-, hnone⟩ | ⟨rfl, record₀, record', hold, hlive, htransition, hnew⟩
  · exact ⟨record, heq.trans hrecord, hle⟩
  · cases hnone.symm.trans hrecord
  · cases hold.symm.trans hrecord
    refine ⟨record', hnew, fun hlive' => ?_⟩
    rcases expiry_of_transition htransition hlive' with heq | ⟨_, heartbeat, expiry, rfl, rfl⟩
    · rw [heq]
      exact hle hlive
    · exact hintime _ hrecord hlive now hnow

theorem PushesDue.step (hs : ClusterOk d s) (h : PushesDue d s) {label : Label}
    (hok : HeartbeatsInTime d s label) (hstep : s.step d label = some s') : PushesDue d s' := by
  cases label with
  | start driver request =>
    cases hstep
    refine h.of_pushes (fun _ => rfl) ?_
    intro txnId now hnow
    rcases Cluster.mem_pushes.mp hnow with ⟨entry, hentry, hpush⟩ | hmessage
    · rcases mem_append.mp hentry with hentry | hentry
      · exact .inl (Cluster.mem_pushes.mpr (.inl ⟨entry, hentry, hpush⟩))
      · obtain rfl := mem_singleton.mp hentry
        cases (pushedAt_start request txnId).symm.trans hpush
    · exact .inl (Cluster.mem_pushes.mpr (.inr hmessage))
  | advance call wall at? slot =>
    simp only [Cluster.step] at hstep
    split at hstep
    · cases hstep
    next driver pc hcall =>
      obtain ⟨effect, heffect, rfl⟩ := map_eq_some_iff.mp hstep
      exact h.take hcall fun _ _ hpush => pushes_next heffect hpush
  | fail call slot reason =>
    simp only [Cluster.step] at hstep
    split at hstep
    · cases hstep
    next driver pc hcall =>
      cases hstep
      refine h.take hcall fun _ _ hpush => ?_
      obtain hpush | ⟨message, hsend, -⟩ := hpush
      · cases pushedAt_fail.symm.trans hpush
      · cases hsend
  | setTabletVersions group schemaVersion authzVersion n =>
    cases hstep
    refine h.of_pushes (fun _ => rfl) ?_
    intro txnId now hnow
    rcases Cluster.mem_pushes.mp hnow with hcall | ⟨message, hmessage, hpush⟩
    · exact .inl (Cluster.mem_pushes.mpr (.inl hcall))
    · rcases mem_append.mp hmessage with hmessage | hmessage
      · exact .inl (Cluster.mem_pushes.mpr (.inr ⟨message, hmessage, hpush⟩))
      · obtain rfl := mem_singleton.mp hmessage
        cases hpush
  | observe driver wall remote =>
    cases hstep
    exact h
  | deliver message stamp verdict =>
    simp only [Cluster.step] at hstep
    split at hstep
    · cases hstep
    next m hm =>
      cases m with
      | status group id command pushedAt =>
        exact h.deliver_status (hs.network _ (mem_of_getElem? hm)).1 (hok _ hm) hstep
      | intent group id command =>
        obtain ⟨after, -, rfl⟩ := map_eq_some_iff.mp hstep
        exact h

theorem reachable_pushesDue (h : Reachable (Cluster.step d) (HeartbeatsInTime d) .init s) :
    PushesDue d s := by
  have hboth := h.invariant (I := fun s => ClusterOk d s ∧ PushesDue d s)
    ⟨clusterOk_init d, by intro txnId now hnow; cases hnow⟩
    (fun _ _ _ hs hok hstep => ⟨hs.1.step hstep, hs.2.step hs.1 hok hstep⟩)
  exact hboth.2

end Steps

/-! ## The result -/

/-- A third party's abort takes effect only on a record that has expired. -/
theorem pushed_when_expired (d : Deployment) (s : Cluster)
    (h : Reachable (Cluster.step d) (HeartbeatsInTime d) .init s) : ExpiredWherePushed d s := by
  intro message group id txnId reason now stamp verdict s' record record' hmessage _ hrecord hlive
    _ _
  have hnow : now ∈ s.pushes txnId :=
    Cluster.mem_pushes.mpr (.inr ⟨_, mem_of_getElem? hmessage, if_pos rfl⟩)
  obtain ⟨record₀, hrecord₀, hle⟩ := reachable_pushesDue h txnId now hnow
  cases hrecord₀.symm.trans hrecord
  exact .inl (hle hlive)

/-- Transaction 1 begins, and its coordinator sends a heartbeat. -/
def heartbeatRun : List Label :=
  [.start 0 (.commit 1 0), .advance 0 100 0 0, .deliver 0 .zero none,
    .start 0 (.heartbeat 1), .advance 1 10000000 0 0]

theorem heartbeatRun_pushed :
    ∃ s, Reachable (Cluster.step sameKey) (HeartbeatsInTime sameKey) .init s ∧
      (s.network[2]?).bind (Message.pushedAt 1) = some ⟨20000000, 0, 0⟩ ∧
      ExpiredWherePushed sameKey s := by
  obtain ⟨s, hs, hpush⟩ := exists_reachable_of_execute (Cluster.step sameKey)
    (HeartbeatsInTime sameKey) .init
    (fun s => (s.network[2]?).bind (Message.pushedAt 1) = some ⟨20000000, 0, 0⟩)
    (heartbeatRun ++ [.deliver 1 .zero none, .start 1 (.pushExpired 1 ⟨20000000, 0, 0⟩),
      .advance 2 0 0 0, .advance 2 0 0 0])
    (by decide +kernel)
  exact ⟨s, hs, hpush, pushed_when_expired sameKey s hs⟩

/-- The heartbeat is applied between the read of the third party and its abort. -/
theorem pushed_after_heartbeat :
    ∃ s, Reachable (Cluster.step sameKey) anyStep .init s ∧ ¬ ExpiredWherePushed sameKey s := by
  let now : HlcTimestamp := ⟨10000100, 0, 0⟩
  let stamp : HlcTimestamp := ⟨10000200, 0, 0⟩
  obtain ⟨s, hs, hpush, hrecord, hafter⟩ := exists_reachable_of_execute (Cluster.step sameKey)
    anyStep .init
    (fun s => (s.network[2]?).bind (Message.pushedAt 1) = some now ∧
      (s.record sameKey 1).map (fun record => (record.expiry, record.state.decision)) =
        some (⟨20000000, 0, 0⟩, none) ∧
      ((s.step sameKey (.deliver 2 stamp none)).bind (Cluster.record sameKey · 1)).map
        (·.state.decision.isSome) = some true)
    (heartbeatRun ++ [.start 1 (.pushExpired 1 now), .advance 2 0 0 0, .deliver 1 .zero none,
      .advance 2 0 0 0])
    (by decide +kernel)
  refine ⟨s, hs, fun hexpired => ?_⟩
  obtain ⟨record, hbefore, hfields⟩ := map_eq_some_iff.mp hrecord
  obtain ⟨hexpiry, hlive⟩ := Prod.mk.inj hfields
  obtain ⟨record', hbind, hdecided⟩ := map_eq_some_iff.mp hafter
  obtain ⟨s', hstep, hrecord'⟩ := bind_eq_some_iff.mp hbind
  obtain ⟨message, hmessage, hpush⟩ := bind_eq_some_iff.mp hpush
  -- the message is the abort
  cases message with
  | intent => cases hpush
  | status group id command pushedAt =>
    cases command with
    | abort txnId reason =>
      simp only [Message.pushedAt] at hpush
      split at hpush
      next hid =>
        subst hid
        subst hpush
        have hle := hexpired 2 group id 1 reason now stamp none s' record record' hmessage hstep
          hbefore hlive hrecord' (by intro hnone; simp [hnone] at hdecided)
        rw [hexpiry] at hle
        exact absurd hle (by decide)
      · cases hpush
    | _ => cases hpush

end MongrelDB.DistTxn
