import MongrelDB.Consensus.Replay

/-!
# Installing a snapshot while entries are applied

`install_framed_snapshot` compares the snapshot with the record, lets go of the lock,
replaces the sink, writes membership and checkpoint, and only then takes the lock
again to replace the record.
-/

namespace MongrelDB.Consensus

open Lib

/-- How far an install has got. -/
inductive InstallStage where
  | checked
  | sinkInstalled
  | persisted
  deriving DecidableEq, Repr

section Installing

variable {ι γ μ σ : Type} [DecidableEq ι]

structure Installing (ι μ σ : Type) where
  machine : StateMachine ι μ (Held σ)
  /-- the checkpoint file -/
  checkpoint : AppliedRecord ι
  inFlight : List (SmSnapshot ι μ (Held σ) × InstallStage)

inductive InstallAction where
  | apply (i : Nat)
  | checkpoint
  /-- the freshness check of a snapshot of the first `prefixLen` entries -/
  | begin (prefixLen : Nat)
  | installSink (slot : Nat)
  | persist (slot : Nat)
  | swap (slot : Nat)
  deriving DecidableEq, Repr

namespace Installing

def fresh (s₀ : σ) : Installing ι μ σ :=
  { machine := freshMachine s₀, checkpoint := {}, inFlight := [] }

def step (core : SinkApply ι γ σ) (retention : Nat) (s₀ : σ) (log : List (RaftLogEntry ι γ μ))
    (s : Installing ι μ σ) : InstallAction → Option (Installing ι μ σ)
  | .apply i =>
    if s.machine.record.position.index < i then none
    else
      match log[i]? with
      | none => none
      | some entry =>
        match applyOne (skipping core) retention s.machine entry with
        | .error _ => none
        | .ok (machine, _) => some { s with machine := machine }
  | .checkpoint => some { s with checkpoint := s.machine.record }
  | .begin prefixLen =>
    match uninterrupted core retention s₀ log (min prefixLen log.length) with
    | .error _ => none
    | .ok m =>
      if isStale m.record s.machine.record then none
      else some { s with inFlight := s.inFlight ++ [(buildSnapshotNow m, .checked)] }
  | .installSink slot =>
    match s.inFlight[slot]? with
    | some (snapshot, .checked) =>
      some { s with
        machine := { s.machine with sink := snapshot.sinkPayload }
        inFlight := s.inFlight.set slot (snapshot, .sinkInstalled) }
    | _ => none
  | .persist slot =>
    match s.inFlight[slot]? with
    | some (snapshot, .sinkInstalled) =>
      some { s with
        checkpoint := snapshot.record
        inFlight := s.inFlight.set slot (snapshot, .persisted) }
    | _ => none
  | .swap slot =>
    match s.inFlight[slot]? with
    | some (snapshot, .persisted) =>
      some { s with
        machine := { s.machine with record := snapshot.record, members := snapshot.members }
        inFlight := s.inFlight.eraseIdx slot }
    | _ => none

end Installing

/-- While a snapshot is being installed no entry is applied and no other install begins. -/
def ExclusiveInstall (s : Installing ι μ σ) : InstallAction → Prop
  | .apply _ => s.inFlight = []
  | .begin _ => s.inFlight = []
  | _ => True

instance [DecidableEq μ] [DecidableEq σ] (s : Installing ι μ σ) (action : InstallAction) :
    Decidable (ExclusiveInstall s action) :=
  match action with
  | .apply _ | .begin _ => inferInstanceAs (Decidable (s.inFlight = []))
  | .checkpoint | .installSink _ | .persist _ | .swap _ => isTrue trivial

variable {core : SinkApply ι γ σ} {retention : Nat} {s₀ : σ} {log : List (RaftLogEntry ι γ μ)}

/-- Record and sink describe the same prefix of the log. -/
def DescribesPrefix (core : SinkApply ι γ σ) (retention : Nat) (s₀ : σ)
    (log : List (RaftLogEntry ι γ μ)) (m : StateMachine ι μ (Held σ)) : Prop :=
  ∃ k a, k ≤ log.length ∧ uninterrupted core retention s₀ log k = .ok a ∧
    m.record = a.record ∧ m.sink = a.sink

/-- The one install in flight is of a prefix `b` at least as long as that of the record; the
sink is that of the record until it is replaced. -/
structure Underway (m a b : StateMachine ι μ (Held σ)) (stage : InstallStage) : Prop where
  le : a.record.position.index ≤ b.record.position.index
  record : m.record = a.record
  sink : m.sink = if stage = .checked then a.sink else b.sink

/-- The invariant of runs in which an install has the machine to itself. -/
def InstallOk (core : SinkApply ι γ σ) (retention : Nat) (s₀ : σ)
    (log : List (RaftLogEntry ι γ μ)) (s : Installing ι μ σ) : Prop :=
  (s.inFlight = [] ∧ DescribesPrefix core retention s₀ log s.machine) ∨
  ∃ k a l b stage, k ≤ log.length ∧ uninterrupted core retention s₀ log k = .ok a ∧
    l ≤ log.length ∧ uninterrupted core retention s₀ log l = .ok b ∧
    s.inFlight = [(buildSnapshotNow b, stage)] ∧ Underway s.machine a b stage

theorem installOk_fresh : InstallOk core retention s₀ log (.fresh s₀) :=
  .inl ⟨rfl, 0, freshMachine s₀, Nat.zero_le _, rfl, rfl, rfl⟩

/-- An entry takes record and sink to the next prefix together. -/
theorem DescribesPrefix.apply (hlog : WellNumbered log) {m m' : StateMachine ι μ (Held σ)}
    (h : DescribesPrefix core retention s₀ log m) {i : Nat} {entry : RaftLogEntry ι γ μ}
    (hentry : log[i]? = some entry) (hi : i ≤ m.record.position.index)
    {response : ApplyResponse ι}
    (happly : applyOne (skipping core) retention m entry = .ok (m', response)) :
    m.record.position.index ≤ m'.record.position.index ∧
      DescribesPrefix core retention s₀ log m' := by
  obtain ⟨k, a, hk, ha, hrecord, hsink⟩ := h
  have hbefore := uninterrupted_atPrefix hlog hk ha
  have hindex : m.record.position.index = k := by rw [hrecord, hbefore.index]
  by_cases hcovers : m.record.covers entry
  · rw [applyOne, if_pos hcovers] at happly
    cases happly
    exact ⟨le_rfl, k, a, hk, ha, hrecord, hsink⟩
  obtain rfl := index_of_not_covers hlog hindex hentry (hindex ▸ hi) hcovers
  have hnext := uninterrupted_succ_eq hlog hentry ha hbefore
  have heq := @applyOne_eq ι γ μ (Held σ) _ (skipping core) retention m entry hcovers
  rw [happly, hrecord, hsink] at heq
  rw [hindex]
  cases hs : sinkAfter (skipping core) a.record entry a.sink with
  | error e => rw [hs] at heq; cases heq
  | ok sink =>
    rw [hs] at heq hnext
    obtain rfl : m' = _ := Except.ok.inj heq
    have hlogIndex := hlog i entry hentry
    refine ⟨?_, i + 1, _, (List.getElem?_eq_some_iff.mp hentry).1, hnext, rfl, rfl⟩
    show i ≤ entry.logId.index
    omega

theorem InstallOk.of_getElem? {s : Installing ι μ σ} (h : InstallOk core retention s₀ log s)
    {slot : Nat} {snapshot : SmSnapshot ι μ (Held σ)} {stage : InstallStage}
    (hget : s.inFlight[slot]? = some (snapshot, stage)) :
    slot = 0 ∧ ∃ k a l b, k ≤ log.length ∧ uninterrupted core retention s₀ log k = .ok a ∧
      l ≤ log.length ∧ uninterrupted core retention s₀ log l = .ok b ∧
      s.inFlight = [(buildSnapshotNow b, stage)] ∧ snapshot = buildSnapshotNow b ∧
      Underway s.machine a b stage := by
  obtain ⟨hnone, -⟩ | ⟨k, a, l, b, stage', hk, ha, hl, hb, hone, hu⟩ := h
  · rw [hnone] at hget
    cases hget
  rw [hone] at hget
  obtain rfl : slot = 0 := by
    have := (List.getElem?_eq_some_iff.mp hget).1
    simpa using this
  cases hget
  exact ⟨rfl, k, a, l, b, hk, ha, hl, hb, hone, rfl, hu⟩

theorem InstallOk.step (hlog : WellNumbered log) {s s' : Installing ι μ σ}
    {action : InstallAction} (h : InstallOk core retention s₀ log s)
    (hok : ExclusiveInstall s action)
    (hstep : s.step core retention s₀ log action = some s') :
    s.machine.record.position.index ≤ s'.machine.record.position.index ∧
      InstallOk core retention s₀ log s' := by
  cases action with
  | apply i =>
    -- nothing is in flight
    obtain ⟨hnone, hd⟩ | ⟨_, _, _, _, _, _, _, _, _, hone, _⟩ := h
    swap
    · rw [show s.inFlight = [] from hok] at hone
      cases hone
    simp only [Installing.step] at hstep
    split at hstep
    · cases hstep
    next hi =>
      split at hstep
      · cases hstep
      next entry hentry =>
        split at hstep
        · cases hstep
        next machine response happly =>
          cases hstep
          obtain ⟨hle, hd'⟩ := hd.apply hlog hentry (Nat.le_of_not_lt hi) happly
          exact ⟨hle, .inl ⟨hnone, hd'⟩⟩
  | checkpoint =>
    cases hstep
    exact ⟨le_rfl, h⟩
  | begin prefixLen =>
    have hempty : s.inFlight = [] := hok
    obtain ⟨-, k, a, hk, ha, hrecord, hsink⟩ | ⟨_, _, _, _, _, _, _, _, _, hone, _⟩ := h
    swap
    · rw [hempty] at hone
      cases hone
    simp only [Installing.step] at hstep
    split at hstep
    · cases hstep
    next b hb =>
      split at hstep
      · cases hstep
      next hfresh =>
        cases hstep
        have hle := not_isStale hfresh
        rw [hrecord] at hle
        refine ⟨le_rfl, .inr ⟨k, a, _, b, .checked, hk, ha, Nat.min_le_right _ _, hb,
          by simp [hempty], ?_⟩⟩
        exact ⟨hle, hrecord, hsink⟩
  | installSink slot | persist slot =>
    simp only [Installing.step] at hstep
    split at hstep
    next snapshot hget =>
      obtain ⟨rfl, k, a, l, b, hk, ha, hl, hb, hone, rfl, hu⟩ := h.of_getElem? hget
      rw [hone] at hstep
      cases hstep
      refine ⟨le_rfl, .inr ⟨k, a, l, b, _, hk, ha, hl, hb, rfl, hu.le, hu.record, ?_⟩⟩
      first | rfl | exact hu.sink
    · cases hstep
  | swap slot =>
    simp only [Installing.step] at hstep
    split at hstep
    next snapshot hget =>
      obtain ⟨rfl, k, a, l, b, hk, ha, hl, hb, hone, rfl, hu⟩ := h.of_getElem? hget
      rw [hone] at hstep
      cases hstep
      refine ⟨?_, .inl ⟨rfl, l, b, hl, hb, rfl, hu.sink⟩⟩
      rw [hu.record]
      exact hu.le
    · cases hstep

/-- In every run in which an install has the machine to itself, no step takes the applied
position back, and with no install in flight sink and record describe the same prefix. -/
theorem no_regression_of_exclusive (hlog : WellNumbered log) {s : Installing ι μ σ}
    (h : Reachable (Installing.step core retention s₀ log) ExclusiveInstall (.fresh s₀) s) :
    (∀ action s', ExclusiveInstall s action →
      s.step core retention s₀ log action = some s' →
      s.machine.record.position.index ≤ s'.machine.record.position.index) ∧
    (s.inFlight = [] → DescribesPrefix core retention s₀ log s.machine) := by
  have hinv : InstallOk core retention s₀ log s :=
    h.invariant installOk_fresh fun _ _ _ hs hok hstep => (hs.step hlog hok hstep).2
  refine ⟨fun action s' hok hstep => (hinv.step hlog hok hstep).1, fun hnone => ?_⟩
  obtain ⟨-, hd⟩ | ⟨_, _, _, _, _, _, _, _, _, hone, _⟩ := hinv
  · exact hd
  · rw [hnone] at hone
    cases hone

/-- An install alone on a machine that has applied one entry. -/
theorem exclusive_install_keeps_position :
    ∃ s, Reachable (Installing.step keepBodies 4 [] retriedLog) ExclusiveInstall (.fresh []) s ∧
      (s.inFlight = [] ∧ s.machine.record.position.index = 2) ∧
      DescribesPrefix keepBodies 4 [] retriedLog s.machine := by
  obtain ⟨s, hs, hp⟩ := exists_reachable_of_execute (Installing.step keepBodies 4 [] retriedLog)
    ExclusiveInstall (.fresh [])
    (fun s => s.inFlight = [] ∧ s.machine.record.position.index = 2)
    [.apply 0, .begin 2, .installSink 0, .persist 0, .swap 0] (by decide)
  exact ⟨s, hs, hp, (no_regression_of_exclusive wellNumbered_retriedLog hs).2 hp.1⟩

/-- The check lets a snapshot of the first entry through, the second entry is applied, and the
swap takes the record back to the first. -/
theorem apply_during_install_is_lost :
    ∃ s s', Reachable (Installing.step keepBodies 4 [] retriedLog) anyStep (.fresh []) s ∧
      s.step keepBodies 4 [] retriedLog (.swap 0) = some s' ∧
      s'.machine.record.position.index < s.machine.record.position.index := by
  obtain ⟨s, hs, hp⟩ := exists_reachable_of_execute (Installing.step keepBodies 4 [] retriedLog)
    anyStep (.fresh [])
    (fun s => ((s.step keepBodies 4 [] retriedLog (.swap 0)).any fun s' =>
      s'.machine.record.position.index < s.machine.record.position.index) = true)
    [.apply 0, .begin 1, .apply 1, .installSink 0, .persist 0] (by decide)
  cases hs' : s.step keepBodies 4 [] retriedLog (.swap 0) with
  | none => rw [hs'] at hp; cases hp
  | some s' => exact ⟨s, s', hs, hs', by simpa [hs'] using hp⟩

end Installing

end MongrelDB.Consensus
