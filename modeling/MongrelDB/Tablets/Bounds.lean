import MongrelDB.Lib.Bytes
import MongrelDB.Lib.Checks
import Mathlib.Order.Defs.LinearOrder
import Mathlib.Order.Basic
import Mathlib.Tactic.Order
import Mathlib.Tactic.Tauto

/-!
# Partition bounds

A tablet serves a range of keys, given by two endpoints of which each may be
missing, included or excluded. A split cuts a range at a key, a merge joins two
ranges that touch.
-/

namespace MongrelDB.Tablets

open Lib

universe u

/-- One endpoint of a partition range. -/
inductive Bound (α : Type u) where
  | unbounded
  | included (key : α)
  | excluded (key : α)
  deriving DecidableEq, Repr

/-- `bound_key` -/
def boundKey {α : Type u} : Bound α → Option α
  | .unbounded => none
  | .included key => some key
  | .excluded key => some key

def Bound.isIncluded {α : Type u} : Bound α → Bool
  | .included _ => true
  | _ => false

/-- Why `PartitionBounds::validate` refuses. -/
inductive InvalidBounds (α : Type u) where
  /-- "low endpoint {low} is above high endpoint {high}" -/
  | lowAboveHigh (low high : α)
  /-- "empty range at endpoint {low}" -/
  | emptyRange (low : α)
  deriving DecidableEq, Repr

structure PartitionBounds (α : Type u) where
  low : Bound α
  high : Bound α
  deriving DecidableEq, Repr

variable {α : Type u} [LinearOrder α]

/-- `ends_before`: the range ending at `high` ends before the one starting at `low` begins.
Touching endpoints count when at least one side excludes the shared key. -/
def endsBefore (high low : Bound α) : Bool :=
  match boundKey high, boundKey low with
  | some highKey, some lowKey =>
    if highKey ≠ lowKey then decide (highKey < lowKey)
    else !(high.isIncluded && low.isIncluded)
  | _, _ => false

/-- `meets`: same key, exactly one side included. -/
def meets : Bound α → Bound α → Bool
  | .included high, .excluded low => decide (high = low)
  | .excluded high, .included low => decide (high = low)
  | _, _ => false

namespace PartitionBounds

variable {bounds : PartitionBounds α} {a b union : PartitionBounds α}

def validate (bounds : PartitionBounds α) : Except (InvalidBounds α) Unit :=
  match boundKey bounds.low, boundKey bounds.high with
  | some low, some high =>
    if high < low then .error (.lowAboveHigh low high)
    else if low = high ∧ ¬ (bounds.low.isIncluded && bounds.high.isIncluded) then
      .error (.emptyRange low)
    else .ok ()
  | _, _ => .ok ()

/-- `new` -/
def build (low high : Bound α) : Except (InvalidBounds α) (PartitionBounds α) :=
  let bounds : PartitionBounds α := { low, high }
  match bounds.validate with
  | .error e => .error e
  | .ok () => .ok bounds

/-- The whole key space. -/
def unbounded : PartitionBounds α := { low := .unbounded, high := .unbounded }

def contains (bounds : PartitionBounds α) (key : α) : Bool :=
  let aboveLow := match bounds.low with
    | .unbounded => true
    | .included low => decide (low ≤ key)
    | .excluded low => decide (low < key)
  let belowHigh := match bounds.high with
    | .unbounded => true
    | .included high => decide (key ≤ high)
    | .excluded high => decide (key < high)
  aboveLow && belowHigh

def overlaps (a b : PartitionBounds α) : Bool :=
  !endsBefore a.high b.low && !endsBefore b.high a.low

def meetsStartOf (a b : PartitionBounds α) : Bool := meets a.high b.low

/-- `split_at`: the halves below and from `key`, unless one of them would be empty. -/
def splitAt (bounds : PartitionBounds α) (key : α) :
    Option (PartitionBounds α × PartitionBounds α) :=
  if !bounds.contains key then none
  else
    match build bounds.low (.excluded key), build (.included key) bounds.high with
    | .ok lower, .ok upper => some (lower, upper)
    | _, _ => none

/-- `union_adjacent` -/
def unionAdjacent (a b : PartitionBounds α) : Option (PartitionBounds α) :=
  if a.meetsStartOf b then (build a.low b.high).toOption
  else if b.meetsStartOf a then (build b.low a.high).toOption
  else none

/-! ## What the endpoints say about a key -/

/-- The key is on the right side of a low endpoint. -/
def AboveLow (key : α) : Bound α → Prop
  | .unbounded => True
  | .included low => low ≤ key
  | .excluded low => low < key

/-- The key is on the right side of a high endpoint. -/
def BelowHigh (key : α) : Bound α → Prop
  | .unbounded => True
  | .included high => key ≤ high
  | .excluded high => key < high

theorem contains_iff {key : α} :
    bounds.contains key = true ↔ AboveLow key bounds.low ∧ BelowHigh key bounds.high := by
  obtain ⟨low, high⟩ := bounds
  cases low <;> cases high <;> simp [contains, AboveLow, BelowHigh]

theorem AboveLow.mono {key key' : α} {low : Bound α} (h : AboveLow key low) (hle : key ≤ key') :
    AboveLow key' low := by
  cases low with
  | unbounded => trivial
  | included low => exact le_trans h hle
  | excluded low => exact lt_of_lt_of_le h hle

theorem BelowHigh.mono {key key' : α} {high : Bound α} (h : BelowHigh key' high)
    (hle : key ≤ key') : BelowHigh key high := by
  cases high with
  | unbounded => trivial
  | included high => exact le_trans hle h
  | excluded high => exact lt_of_le_of_lt hle h

/-- Where two endpoints meet, each key is on the right side of exactly one of them. -/
theorem belowHigh_iff_of_meets {high low : Bound α} (h : meets high low = true) (key : α) :
    BelowHigh key high ↔ ¬ AboveLow key low := by
  cases high <;> cases low <;> simp only [meets, Bool.false_eq_true, decide_eq_true_eq] at h
  · subst h
    exact not_lt.symm
  · subst h
    exact not_le.symm

theorem build_eq_ok {low high : Bound α} :
    build low high = .ok bounds ↔ bounds = { low, high } ∧ bounds.validate = .ok () := by
  unfold build
  dsimp only
  split <;> grind

/-- A range is valid unless it has ended before it begins. -/
theorem validate_iff : bounds.validate = .ok () ↔ endsBefore bounds.high bounds.low = false := by
  obtain ⟨low, high⟩ := bounds
  cases low <;> cases high <;>
    simp only [validate, endsBefore, boundKey, Bound.isIncluded] <;> grind

/-- No key is in a range that has ended and in one that begins there. -/
theorem not_aboveLow_of_endsBefore {high low : Bound α} (h : endsBefore high low = true) {key : α}
    (hkey : BelowHigh key high) : ¬ AboveLow key low := by
  cases high <;> cases low <;>
    simp [endsBefore, boundKey, Bound.isIncluded, BelowHigh, AboveLow] at h hkey ⊢ <;> grind

/-- No key is outside a valid range on both sides. -/
theorem aboveLow_or_belowHigh (h : bounds.validate = .ok ())
    (key : α) : AboveLow key bounds.low ∨ BelowHigh key bounds.high := by
  rw [validate_iff] at h
  obtain ⟨low, high⟩ := bounds
  cases low with
  | unbounded => exact .inl trivial
  | included low | excluded low =>
    cases high with
    | unbounded => exact .inr trivial
    | included high | excluded high =>
      simp [endsBefore, boundKey, Bound.isIncluded, AboveLow, BelowHigh] at h ⊢
      grind

theorem overlaps_of_contains {key : α} (ha : a.contains key = true) (hb : b.contains key = true) :
    a.overlaps b = true := by
  obtain ⟨haLow, haHigh⟩ := contains_iff.mp ha
  obtain ⟨hbLow, hbHigh⟩ := contains_iff.mp hb
  simp only [overlaps, Bool.and_eq_true, Bool.not_eq_true', ← Bool.not_eq_true]
  exact ⟨fun h => not_aboveLow_of_endsBefore h haHigh hbLow,
    fun h => not_aboveLow_of_endsBefore h hbHigh haLow⟩

/-- Of two things that no key is in both, it is in one. -/
theorem eq_of_apart {β : Type*} {P : β → Prop} {x y : β} (h : ¬ (P x ∧ P y)) :
    ∀ d ∈ [x, y], ∀ d' ∈ [x, y], P d → P d' → d = d' := by
  grind

/-! ## Split and merge -/

theorem splitAt_eq_some {lower upper : PartitionBounds α} {key : α} :
    bounds.splitAt key = some (lower, upper) ↔ bounds.contains key = true ∧
      build bounds.low (.excluded key) = .ok lower ∧
      build (.included key) bounds.high = .ok upper := by
  unfold splitAt
  cases bounds.contains key <;> cases build bounds.low (.excluded key) <;>
    cases build (.included key) bounds.high <;> simp

section

variable {bounds lower upper : PartitionBounds α} {key : α}
  (h : bounds.splitAt key = some (lower, upper))
include h

theorem splitAt_eq :
    bounds.contains key = true ∧ lower = { low := bounds.low, high := .excluded key } ∧
      upper = { low := .included key, high := bounds.high } := by
  obtain ⟨hkey, hlower, hupper⟩ := splitAt_eq_some.mp h
  exact ⟨hkey, (build_eq_ok.mp hlower).1, (build_eq_ok.mp hupper).1⟩

theorem splitAt_contains (a : α) :
    bounds.contains a = true ↔ lower.contains a = true ∨ upper.contains a = true := by
  obtain ⟨hkey, rfl, rfl⟩ := splitAt_eq h
  obtain ⟨hlow, hhigh⟩ := contains_iff.mp hkey
  simp only [contains_iff]
  constructor
  · rintro ⟨ha, hb⟩
    exact (lt_or_ge a key).imp (fun hlt => ⟨ha, hlt⟩) fun hle => ⟨hle, hb⟩
  · rintro (⟨ha, hlt⟩ | ⟨hle, hb⟩)
    · exact ⟨ha, hhigh.mono (le_of_lt hlt)⟩
    · exact ⟨hlow.mono hle, hb⟩

theorem splitAt_disjoint (a : α) :
    ¬ (lower.contains a = true ∧ upper.contains a = true) := by
  obtain ⟨-, rfl, rfl⟩ := splitAt_eq h
  simp only [contains_iff]
  rintro ⟨⟨-, hlt⟩, hle, -⟩
  exact absurd hle (not_le.mpr hlt)

end

theorem unionAdjacent_eq (h : a.unionAdjacent b = some union) :
    (meets a.high b.low = true ∧ union = { low := a.low, high := b.high }) ∨
      (meets b.high a.low = true ∧ union = { low := b.low, high := a.high }) := by
  unfold unionAdjacent at h
  split at h
  · next hmeet => exact .inl ⟨hmeet, (build_eq_ok.mp (toOption_eq_some.mp h)).1⟩
  · split at h
    · next hmeet => exact .inr ⟨hmeet, (build_eq_ok.mp (toOption_eq_some.mp h)).1⟩
    · cases h

theorem contains_of_meets {a b : PartitionBounds α} (ha : a.validate = .ok ())
    (hb : b.validate = .ok ()) (h : meets a.high b.low = true) (key : α) :
    (({ low := a.low, high := b.high } : PartitionBounds α).contains key = true ↔
        a.contains key = true ∨ b.contains key = true) ∧
      ¬ (a.contains key = true ∧ b.contains key = true) := by
  have hcut := belowHigh_iff_of_meets h key
  have hleft := aboveLow_or_belowHigh ha key
  have hright := aboveLow_or_belowHigh hb key
  simp only [contains_iff]
  tauto

variable (ha : a.validate = .ok ()) (hb : b.validate = .ok ()) (h : a.unionAdjacent b = some union)
  (key : α)
include ha hb h

theorem unionAdjacent_contains :
    union.contains key = true ↔ a.contains key = true ∨ b.contains key = true := by
  rcases unionAdjacent_eq h with ⟨hmeet, rfl⟩ | ⟨hmeet, rfl⟩
  · exact (contains_of_meets ha hb hmeet key).1
  · rw [(contains_of_meets hb ha hmeet key).1, or_comm]

theorem unionAdjacent_disjoint :
    ¬ (a.contains key = true ∧ b.contains key = true) := by
  rcases unionAdjacent_eq h with ⟨hmeet, rfl⟩ | ⟨hmeet, rfl⟩
  · exact (contains_of_meets ha hb hmeet key).2
  · rw [and_comm]
    exact (contains_of_meets hb ha hmeet key).2

end PartitionBounds

end MongrelDB.Tablets
