import Mathlib.Algebra.Group.Nat.Defs
import Mathlib.Algebra.Ring.Int.Defs
import Mathlib.Data.Prod.Lex

/-!
# Snapshots, visibility and version order

A row version carries the local epoch it was committed at and an optional commit
timestamp. A snapshot pins an epoch and, unless it is a legacy one, a timestamp.
-/

namespace MongrelDB.Epoch

/-- A hybrid logical clock timestamp, ordered by its fields from the first to the last. -/
structure HlcTimestamp where
  physicalMicros : Nat
  logical : Nat
  nodeTiebreaker : Nat
  deriving DecidableEq, Repr

namespace HlcTimestamp

def zero : HlcTimestamp := ⟨0, 0, 0⟩

/-- The fields as a lexicographic triple. -/
def toTriple (t : HlcTimestamp) : Nat ×ₗ (Nat ×ₗ Nat) :=
  toLex (t.physicalMicros, toLex (t.logical, t.nodeTiebreaker))

theorem toTriple_injective : Function.Injective toTriple := by
  rintro ⟨a, b, c⟩ ⟨a', b', c'⟩ h
  simp only [toTriple, EmbeddingLike.apply_eq_iff_eq, Prod.mk.injEq] at h
  obtain ⟨rfl, rfl, rfl⟩ := h
  rfl

instance : LinearOrder HlcTimestamp := LinearOrder.lift' toTriple toTriple_injective

end HlcTimestamp

/-- The commit stamp of a version. -/
structure Stamp where
  epoch : Nat
  /-- `none` for versions written before timestamps existed -/
  commitTs : Option HlcTimestamp
  deriving DecidableEq, Repr

structure Snapshot where
  epoch : Nat
  /-- `zero` for a legacy epoch-only snapshot -/
  commitTs : HlcTimestamp
  deriving DecidableEq, Repr

namespace Snapshot

/-- `Snapshot::at` -/
def atEpoch (epoch : Nat) : Snapshot := ⟨epoch, .zero⟩

def atHlc (epoch : Nat) (commitTs : HlcTimestamp) : Snapshot := ⟨epoch, commitTs⟩

def usesHlcAuthority (s : Snapshot) : Bool := decide (s.commitTs ≠ .zero)

def observesVersion (s : Snapshot) (v : Stamp) : Bool :=
  match s.usesHlcAuthority, v.commitTs with
  | true, some ts => decide (ts ≤ s.commitTs)
  | false, some _ => decide (v.epoch ≤ s.epoch)
  | _, none => decide (v.epoch ≤ s.epoch)

/-- The epoch decides unless both the snapshot and the version carry a timestamp. -/
theorem observesVersion_of_epoch {s : Snapshot} {v : Stamp}
    (h : s.usesHlcAuthority = false ∨ v.commitTs = none) :
    s.observesVersion v = decide (v.epoch ≤ s.epoch) := by
  unfold observesVersion
  rcases h with h | h
  · rw [h]
    cases v.commitTs <;> rfl
  · rw [h]
    cases s.usesHlcAuthority <;> rfl

/-- Where both carry a timestamp, the epoch does not matter. -/
theorem observesVersion_of_hlc {s : Snapshot} {e e' : Nat} {ts : HlcTimestamp}
    (h : s.usesHlcAuthority = true) :
    s.observesVersion ⟨e, some ts⟩ = s.observesVersion ⟨e', some ts⟩ := by
  unfold observesVersion
  rw [h]

/-- Epochs that do not exceed the snapshot's are all the same to it. -/
theorem observesVersion_congr {s : Snapshot} {e e' : Nat} {ts : Option HlcTimestamp}
    (he : e ≤ s.epoch) (he' : e' ≤ s.epoch) :
    s.observesVersion ⟨e, ts⟩ = s.observesVersion ⟨e', ts⟩ := by
  by_cases h : s.usesHlcAuthority = false ∨ ts = none
  · rw [observesVersion_of_epoch h, observesVersion_of_epoch h]
    simp [he, he']
  · rw [not_or, Bool.not_eq_false] at h
    obtain ⟨t, rfl⟩ := Option.ne_none_iff_exists'.mp h.2
    exact observesVersion_of_hlc h.1

end Snapshot

def versionIsNewer (a b : Stamp) : Bool :=
  match a.commitTs, b.commitTs with
  | some x, some y => decide (y < x)
  | _, _ => decide (b.epoch < a.epoch)

/-- A candidate that comes later in write order replaces the current version unless the current
one is newer. -/
def versionSupersedes (candidate current : Stamp) : Bool := !versionIsNewer current candidate

theorem versionIsNewer_irrefl (a : Stamp) : versionIsNewer a a = false := by
  cases h : a.commitTs <;> simp [versionIsNewer, h]

theorem versionIsNewer_asymm {a b : Stamp} (h : versionIsNewer a b = true) :
    versionIsNewer b a = false := by
  unfold versionIsNewer at h ⊢
  cases ha : a.commitTs <;> cases hb : b.commitTs <;>
    simp only [ha, hb, decide_eq_true_eq, decide_eq_false_iff_not, not_lt] at h ⊢ <;>
    exact h.le

end MongrelDB.Epoch
