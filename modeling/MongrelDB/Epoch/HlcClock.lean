import MongrelDB.Epoch.Clock
import MongrelDB.Lib.Transition

/-!
# Timestamps handed out by one clock

`HlcClock` wraps the ticking state of `Epoch.Clock` with the monitoring of skew.

The counter saturates, so a clock that sits at the end of it and whose wall
clock does not move hands out the same stamp again. Where no call meets that
edge, the state itself is what the stamps are compared with.
-/

namespace MongrelDB.Epoch

open Lib List

/-! ## One tick -/

namespace ClockState

/-- The wall clock has moved on or the counter has room. -/
def CanTick (state : ClockState) (wall : Nat) : Prop :=
  state.physicalMicros < wall ∨ state.logical < maxLogical
  deriving Decidable

/-- The clock and the remote stamp each leave room: a later time takes over, or the counter can
still move. -/
def CanObserve (state : ClockState) (wall : Nat) (remote : HlcTimestamp) : Prop :=
  (state.physicalMicros < wall ∨ state.physicalMicros < remote.physicalMicros ∨
    state.logical < maxLogical) ∧
  (remote.physicalMicros < wall ∨ remote.physicalMicros < state.physicalMicros ∨
    remote.logical < maxLogical)
  deriving Decidable

variable {state : ClockState} {wall : Nat} {remote minimum : HlcTimestamp} (tiebreaker : Nat)

theorem stamp_lt_advance (h : state.CanTick wall) :
    state.stamp tiebreaker < (state.advance wall).stamp tiebreaker := by
  unfold CanTick at h
  rw [HlcTimestamp.lt_iff]
  unfold advance stamp
  split
  · dsimp only
    omega
  · dsimp only
    omega

theorem lt_observe (h : state.CanObserve wall remote) :
    state.stamp tiebreaker < (state.observe wall remote).stamp tiebreaker ∧
      remote < (state.observe wall remote).stamp tiebreaker := by
  unfold CanObserve at h
  rw [HlcTimestamp.lt_iff, HlcTimestamp.lt_iff]
  unfold observe stamp
  dsimp only
  -- which of the three times is the latest decides where the counter comes from
  split
  · omega
  · split
    · omega
    · split <;> omega

theorem nextAfter_snd (wall : Nat) (state : ClockState) (minimum : HlcTimestamp) :
    (state.nextAfter tiebreaker wall minimum).2 =
      (state.nextAfter tiebreaker wall minimum).1.stamp tiebreaker := by
  unfold nextAfter
  dsimp only
  split <;> rfl

theorem advance_le_nextAfter (h : ¬ minimum.AtEnd) :
    (state.advance wall).stamp tiebreaker ≤ (state.nextAfter tiebreaker wall minimum).2 := by
  by_cases hle : (state.advance wall).stamp tiebreaker ≤ minimum
  · exact hle.trans (lt_nextAfter tiebreaker wall state h).le
  · unfold nextAfter
    dsimp only
    rw [if_neg hle]

theorem stamp_lt_nextAfter (hc : state.CanTick wall) (h : ¬ minimum.AtEnd) :
    state.stamp tiebreaker < (state.nextAfter tiebreaker wall minimum).2 :=
  (stamp_lt_advance tiebreaker hc).trans_le (advance_le_nextAfter tiebreaker h)

end ClockState

/-! ## The clock -/

structure HlcClock where
  state : ClockState
  /-- high-water mark of the skew of received stamps -/
  maxObservedSkewMicros : Nat
  nodeTiebreaker : Nat
  /-- in nanoseconds, as a `Duration` counts -/
  maxSkew : Nat
  deriving DecidableEq, Repr

structure ClockSkewError where
  observed : Nat
  maximum : Nat
  deriving DecidableEq, Repr

namespace HlcClock

def withTimeSource (nodeTiebreaker maxSkew : Nat) : HlcClock := ⟨.fresh, 0, nodeTiebreaker, maxSkew⟩

def rejectExcessiveSkew (clock : HlcClock) : Except ClockSkewError Unit :=
  let observed := clock.maxObservedSkewMicros * 1000
  if observed > clock.maxSkew then .error ⟨observed, clock.maxSkew⟩ else .ok ()

def now (clock : HlcClock) (wall : Nat) : HlcClock × Except ClockSkewError HlcTimestamp :=
  match clock.rejectExcessiveSkew with
  | .error e => (clock, .error e)
  | .ok () =>
    let state := clock.state.advance wall
    ({ clock with state }, .ok (state.stamp clock.nodeTiebreaker))

/-- `remote.physical_micros.abs_diff(wall)` -/
def skewMicros (wall : Nat) (remote : HlcTimestamp) : Nat :=
  (remote.physicalMicros - wall) + (wall - remote.physicalMicros)

/-- The mark is raised before the check, also when the check then refuses. -/
def observe (clock : HlcClock) (wall : Nat) (remote : HlcTimestamp) :
    HlcClock × Except ClockSkewError HlcTimestamp :=
  let clock := { clock with
    maxObservedSkewMicros := max clock.maxObservedSkewMicros (skewMicros wall remote) }
  match clock.rejectExcessiveSkew with
  | .error e => (clock, .error e)
  | .ok () =>
    let state := clock.state.observe wall remote
    ({ clock with state }, .ok (state.stamp clock.nodeTiebreaker))

def nextAfter (clock : HlcClock) (wall : Nat) (minimum : HlcTimestamp) : HlcClock × HlcTimestamp :=
  let (state, candidate) := clock.state.nextAfter clock.nodeTiebreaker wall minimum
  ({ clock with state }, candidate)

/-- Above the greatest participant, or above zero when there is none. -/
def commitTimestamp (clock : HlcClock) (wall : Nat) (participants : List HlcTimestamp) :
    HlcClock × HlcTimestamp :=
  clock.nextAfter wall (participants.foldr max .zero)

/-- A call, with the wall-clock reading it happens to make. -/
inductive Call where
  | now (wall : Nat)
  | observe (wall : Nat) (remote : HlcTimestamp)
  | nextAfter (wall : Nat) (minimum : HlcTimestamp)
  | commitTimestamp (wall : Nat) (participants : List HlcTimestamp)

/-- The stamps a call is given. -/
def Call.given : Call → List HlcTimestamp
  | now _ => []
  | observe _ remote => [remote]
  | nextAfter _ minimum => [minimum]
  | commitTimestamp _ participants => participants

def perform (clock : HlcClock) : Call → HlcClock × Except ClockSkewError HlcTimestamp
  | .now wall => clock.now wall
  | .observe wall remote => clock.observe wall remote
  | .nextAfter wall minimum => ((clock.nextAfter wall minimum).1,
      .ok (clock.nextAfter wall minimum).2)
  | .commitTimestamp wall participants =>
    ((clock.commitTimestamp wall participants).1, .ok (clock.commitTimestamp wall participants).2)

/-- The call stays away from the ends of the counter and of time, and a stamp that is too far off
is no further off than one seen before. -/
def HasRoom (clock : HlcClock) : Call → Prop
  | .now wall => clock.state.CanTick wall
  | .observe wall remote => clock.state.CanObserve wall remote ∧
      (skewMicros wall remote * 1000 ≤ clock.maxSkew ∨
        skewMicros wall remote ≤ clock.maxObservedSkewMicros)
  | .nextAfter wall minimum => clock.state.CanTick wall ∧ ¬ minimum.AtEnd
  | .commitTimestamp wall participants => clock.state.CanTick wall ∧ ∀ p ∈ participants, ¬ p.AtEnd

instance (clock : HlcClock) : (call : Call) → Decidable (clock.HasRoom call)
  | .now _ => inferInstanceAs (Decidable (ClockState.CanTick _ _))
  | .observe _ _ => inferInstanceAs (Decidable (_ ∧ _))
  | .nextAfter _ _ => inferInstanceAs (Decidable (_ ∧ _))
  | .commitTimestamp _ _ => inferInstanceAs (Decidable (_ ∧ _))

variable {clock : HlcClock} {call : Call}

theorem le_foldr_max {t : HlcTimestamp} {ts : List HlcTimestamp} (h : t ∈ ts) :
    t ≤ ts.foldr max .zero := by
  induction ts with
  | nil => exact absurd h not_mem_nil
  | cons a ts ih =>
    rw [foldr_cons]
    rcases mem_cons.mp h with rfl | h
    · exact le_max_left _ _
    · exact (ih h).trans (le_max_right _ _)

theorem not_atEnd_foldr_max {ts : List HlcTimestamp} (h : ∀ t ∈ ts, ¬ t.AtEnd) :
    ¬ (ts.foldr max .zero).AtEnd := by
  induction ts with
  | nil => decide
  | cons a ts ih =>
    rw [forall_mem_cons] at h
    rw [foldr_cons]
    rcases le_total a (ts.foldr max .zero) with hle | hle
    · rw [max_eq_right hle]
      exact ih h.2
    · rw [max_eq_left hle]
      exact h.1

/-- What every call does: it refuses and leaves the clock as it was, or it moves the clock to the
stamp it returns, which is above where the clock stood and above what it was given. -/
theorem perform_spec (h : clock.HasRoom call) :
    (∃ e, clock.perform call = (clock, .error e)) ∨
      ∃ state, clock.perform call = ((clock.perform call).1,
        .ok (state.stamp clock.nodeTiebreaker)) ∧
        (clock.perform call).1.state = state ∧
        (clock.perform call).1.nodeTiebreaker = clock.nodeTiebreaker ∧
        clock.state.stamp clock.nodeTiebreaker < state.stamp clock.nodeTiebreaker ∧
        ∀ t ∈ call.given, t < state.stamp clock.nodeTiebreaker := by
  have hnext : ∀ wall minimum, clock.state.CanTick wall → ¬ minimum.AtEnd →
      clock.state.stamp clock.nodeTiebreaker <
          (clock.nextAfter wall minimum).1.state.stamp clock.nodeTiebreaker ∧
        minimum < (clock.nextAfter wall minimum).1.state.stamp clock.nodeTiebreaker ∧
        (clock.nextAfter wall minimum).2 =
          (clock.nextAfter wall minimum).1.state.stamp clock.nodeTiebreaker := by
    intro wall minimum hc hend
    have hsnd := ClockState.nextAfter_snd clock.nodeTiebreaker wall clock.state minimum
    have hlt := ClockState.stamp_lt_nextAfter clock.nodeTiebreaker hc hend
    have hmin := ClockState.lt_nextAfter clock.nodeTiebreaker wall clock.state hend
    rw [hsnd] at hlt hmin
    exact ⟨hlt, hmin, hsnd⟩
  cases call with
  | now wall =>
    unfold perform now
    cases clock.rejectExcessiveSkew with
    | error e => exact .inl ⟨e, rfl⟩
    | ok u => exact .inr ⟨_, rfl, rfl, rfl, ClockState.stamp_lt_advance _ h, nofun⟩
  | observe wall remote =>
    obtain ⟨hroom, hskew⟩ := h
    unfold perform observe
    dsimp only
    cases hrej : rejectExcessiveSkew { clock with
        maxObservedSkewMicros := max clock.maxObservedSkewMicros (skewMicros wall remote) } with
    | error e =>
      -- a refusal needs a mark above the maximum, so the new skew did not raise it
      have hmark : max clock.maxObservedSkewMicros (skewMicros wall remote) =
          clock.maxObservedSkewMicros := by
        unfold rejectExcessiveSkew at hrej
        dsimp only at hrej
        split at hrej
        · omega
        · cases hrej
      refine .inl ⟨e, ?_⟩
      simp only [hmark]
    | ok u =>
      obtain ⟨hstate, hremote⟩ := ClockState.lt_observe clock.nodeTiebreaker hroom
      refine .inr ⟨_, rfl, rfl, rfl, hstate, fun t ht => ?_⟩
      rw [mem_singleton.mp ht]
      exact hremote
  | nextAfter wall minimum =>
    obtain ⟨hlt, hmin, hsnd⟩ := hnext wall minimum h.1 h.2
    refine .inr ⟨_, Prod.ext rfl (congrArg Except.ok hsnd), rfl, rfl, hlt, fun t ht => ?_⟩
    rw [mem_singleton.mp ht]
    exact hmin
  | commitTimestamp wall participants =>
    obtain ⟨hlt, hmin, hsnd⟩ := hnext wall _ h.1 (not_atEnd_foldr_max h.2)
    exact .inr ⟨_, Prod.ext rfl (congrArg Except.ok hsnd), rfl, rfl, hlt,
      fun t ht => (le_foldr_max ht).trans_lt hmin⟩

end HlcClock

/-! ## A sequence of calls -/

/-- A clock and everything it has handed out. -/
structure Session where
  clock : HlcClock
  returned : List HlcTimestamp

namespace Session

def start (nodeTiebreaker maxSkew : Nat) : Session := ⟨.withTimeSource nodeTiebreaker maxSkew, []⟩

def step (s : Session) (call : HlcClock.Call) : Option Session :=
  match s.clock.perform call with
  | (clock, .ok ts) => some ⟨clock, ts :: s.returned⟩
  | (clock, .error _) => some ⟨clock, s.returned⟩

def HasRoom (s : Session) (call : HlcClock.Call) : Prop := s.clock.HasRoom call
  deriving Decidable

theorem returned_le {nodeTiebreaker maxSkew : Nat} {s : Session}
    (h : Reachable step HasRoom (start nodeTiebreaker maxSkew) s) :
    ∀ t ∈ s.returned, t ≤ s.clock.state.stamp s.clock.nodeTiebreaker := by
  refine Reachable.invariant
    (I := fun s => ∀ t ∈ s.returned, t ≤ s.clock.state.stamp s.clock.nodeTiebreaker) nofun ?_ h
  intro s call s' hs hroom hstep
  unfold step at hstep
  rcases HlcClock.perform_spec hroom with ⟨e, he⟩ | ⟨state, heq, hstate, htie, hlt, -⟩
  · rw [he] at hstep
    rw [← Option.some.inj hstep]
    exact hs
  · rw [heq] at hstep
    rw [← Option.some.inj hstep, forall_mem_cons]
    dsimp only
    rw [hstate, htie]
    exact ⟨le_rfl, fun t ht => (hs t ht).trans hlt.le⟩

/-- As long as no call meets the end of the counter or of time, and no stamp is refused that is
further off than those before it: a successful call returns a stamp above everything returned
before and above everything it was given, and a refused call leaves the clock as it was. -/
theorem stamps_increase {nodeTiebreaker maxSkew : Nat} {s : Session}
    (h : Reachable step HasRoom (start nodeTiebreaker maxSkew) s) {call : HlcClock.Call}
    (hroom : s.HasRoom call) :
    (∀ ts, (s.clock.perform call).2 = .ok ts →
      (∀ t ∈ s.returned, t < ts) ∧ ∀ t ∈ call.given, t < ts) ∧
    ∀ e, (s.clock.perform call).2 = .error e → (s.clock.perform call).1 = s.clock := by
  have hle := returned_le h
  rcases HlcClock.perform_spec hroom with ⟨e, he⟩ | ⟨state, heq, -, -, hlt, hgiven⟩
  · rw [he]
    exact ⟨nofun, fun _ _ => rfl⟩
  · rw [heq]
    refine ⟨fun ts hts => ?_, nofun⟩
    obtain rfl := Except.ok.inj hts
    exact ⟨fun t ht => (hle t ht).trans_lt hlt, hgiven⟩

/-- After a received stamp the wall clock falls back, and the next stamps still go up. -/
theorem stamps_increase_after_regression :
    ∃ s, Reachable step HasRoom (start 1 1000000) s ∧
      ∀ ts, (s.clock.perform (.now 3)).2 = .ok ts →
        (∀ t ∈ s.returned, t < ts) ∧ ∀ t ∈ HlcClock.Call.given (.now 3), t < ts := by
  obtain ⟨s, hs, hroom⟩ := exists_reachable_of_execute step HasRoom (start 1 1000000)
    (fun s => s.HasRoom (.now 3)) [.now 10, .observe 12 ⟨20, 4, 2⟩] (by decide +kernel)
  exact ⟨s, hs, (stamps_increase hs hroom).1⟩

/-- A received stamp takes the counter to its end, and with the wall clock standing still `now`
returns the stamp it returned before. And a refused stamp changes the clock: it raises the mark. -/
theorem stamp_repeats_at_counter_end :
    (∃ s, Reachable step anyStep (start 1 0) s ∧
      (s.clock.perform (.now 0)).2 = .ok ⟨0, maxLogical, 1⟩ ∧ ⟨0, maxLogical, 1⟩ ∈ s.returned) ∧
    (∃ e, ((start 1 0).clock.perform (.observe 0 ⟨5, 0, 2⟩)).2 = .error e) ∧
      ((start 1 0).clock.perform (.observe 0 ⟨5, 0, 2⟩)).1 ≠ (start 1 0).clock :=
  ⟨exists_reachable_of_execute step anyStep (start 1 0)
    (fun s => (s.clock.perform (.now 0)).2 = .ok ⟨0, maxLogical, 1⟩ ∧
      ⟨0, maxLogical, 1⟩ ∈ s.returned)
    [.observe 0 ⟨0, maxLogical - 1, 0⟩] (by decide +kernel), ⟨_, rfl⟩, by decide⟩

end Session

end MongrelDB.Epoch
