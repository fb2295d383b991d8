import MongrelDB.Epoch.Snapshot

/-!
# The hybrid logical clock

A clock keeps the physical time of its last stamp and a logical counter, and ticks
from a reading of the wall clock, which may be anything.
-/

namespace MongrelDB.Epoch

/-- `u64::MAX` -/
def maxMicros : Nat := 2 ^ 64 - 1

/-- `u32::MAX` -/
def maxLogical : Nat := 2 ^ 32 - 1

namespace HlcTimestamp

theorem lt_iff {a b : HlcTimestamp} :
    a < b ↔ a.physicalMicros < b.physicalMicros ∨
      (a.physicalMicros = b.physicalMicros ∧
        (a.logical < b.logical ∨
          (a.logical = b.logical ∧ a.nodeTiebreaker < b.nodeTiebreaker))) := by
  show a.toTriple < b.toTriple ↔ _
  simp [toTriple, Prod.Lex.toLex_lt_toLex]

theorem zero_le (a : HlcTimestamp) : zero ≤ a := by
  rw [← not_lt, lt_iff]
  show ¬ (a.physicalMicros < 0 ∨ a.physicalMicros = 0 ∧
    (a.logical < 0 ∨ a.logical = 0 ∧ a.nodeTiebreaker < 0))
  omega

/-- The last value of a clock, on whatever node. -/
def AtEnd (t : HlcTimestamp) : Prop := ⟨maxMicros, maxLogical, 0⟩ ≤ t
  deriving Decidable

theorem AtEnd.mono {a b : HlcTimestamp} (h : a.AtEnd) (hle : a ≤ b) : b.AtEnd :=
  le_trans (show (⟨maxMicros, maxLogical, 0⟩ : HlcTimestamp) ≤ a from h) hle

theorem not_atEnd {t : HlcTimestamp} (h : ¬ t.AtEnd) :
    t.physicalMicros < maxMicros ∨ (t.physicalMicros = maxMicros ∧ t.logical < maxLogical) := by
  have hlt := lt_iff.mp (not_le.mp h)
  dsimp only at hlt
  omega

end HlcTimestamp

structure ClockState where
  physicalMicros : Nat
  logical : Nat
  deriving DecidableEq, Repr

namespace ClockState

/-- A clock that has not ticked yet. -/
def fresh : ClockState := ⟨0, 0⟩

/-- The standard tick: adopt the wall clock when it is ahead, otherwise bump the counter. -/
def advance (state : ClockState) (wall : Nat) : ClockState :=
  if wall > state.physicalMicros then { physicalMicros := wall, logical := 0 }
  else { state with logical := min (state.logical + 1) maxLogical }

def stamp (tiebreaker : Nat) (state : ClockState) : HlcTimestamp :=
  ⟨state.physicalMicros, state.logical, tiebreaker⟩

/-- `HlcClock::now`, where the skew is not excessive -/
def now (tiebreaker wall : Nat) (state : ClockState) : ClockState × HlcTimestamp :=
  let state := state.advance wall
  (state, state.stamp tiebreaker)

/-- `HlcClock::observe`, where the skew is not excessive -/
def observe (wall : Nat) (state : ClockState) (remote : HlcTimestamp) : ClockState :=
  let physical := max (max wall state.physicalMicros) remote.physicalMicros
  { physicalMicros := physical
    logical :=
      if physical = state.physicalMicros ∧ physical = remote.physicalMicros then
        min (max state.logical remote.logical + 1) maxLogical
      else if physical = state.physicalMicros then min (state.logical + 1) maxLogical
      else if physical = remote.physicalMicros then min (remote.logical + 1) maxLogical
      else 0 }

/-- `HlcClock::next_after` -/
def nextAfter (tiebreaker wall : Nat) (state : ClockState) (minimum : HlcTimestamp) :
    ClockState × HlcTimestamp :=
  let state := state.advance wall
  if state.stamp tiebreaker ≤ minimum then
    let physical := if minimum.logical < maxLogical then minimum.physicalMicros
      else min (minimum.physicalMicros + 1) maxMicros
    let logical := if minimum.logical < maxLogical then minimum.logical + 1 else 0
    let state := if physical > state.physicalMicros then ⟨physical, logical⟩
      else { state with logical := max state.logical logical }
    (state, state.stamp tiebreaker)
  else (state, state.stamp tiebreaker)

/-- The stamp is above the minimum, unless the minimum leaves nothing above it. -/
theorem lt_nextAfter (tiebreaker wall : Nat) (state : ClockState) {minimum : HlcTimestamp}
    (h : ¬ minimum.AtEnd) : minimum < (state.nextAfter tiebreaker wall minimum).2 := by
  unfold nextAfter
  generalize state.advance wall = st
  dsimp only
  split
  swap
  next hle => exact not_le.mp hle
  next hle =>
    rw [← not_lt, HlcTimestamp.lt_iff] at hle
    simp only [stamp] at hle
    have hroom := HlcTimestamp.not_atEnd h
    rw [HlcTimestamp.lt_iff]
    by_cases hl : minimum.logical < maxLogical
    · -- one more tick at the same physical time
      simp only [if_pos hl]
      split <;> dsimp only [stamp] <;> omega
    · -- the counter is used up, the next microsecond is not
      simp only [if_neg hl]
      split <;> dsimp only [stamp] <;> omega

end ClockState

end MongrelDB.Epoch
