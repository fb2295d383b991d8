import Mathlib.Data.Set.Basic

/-!
# Handing keys over

A map from servers to the keys they serve, as a relation `serves i a`. A key may
be served by several servers or by none; the two notions below rule that out.
-/

namespace MongrelDB.Lib

universe u v

variable {ι : Type u} {α : Type v}

/-- No key has two servers. -/
def Exclusive (serves : ι → α → Prop) : Prop :=
  ∀ a i j, serves i a → serves j a → i = j

/-- The keys that have a server. -/
def covered (serves : ι → α → Prop) : Set α := { a | ∃ i, serves i a }

structure Handover (P : ι → Prop) (before after : ι → α → Prop) : Prop where
  outside : ∀ i, ¬ P i → ∀ a, after i a ↔ before i a
  inside : ∀ a, (∃ i, P i ∧ after i a) ↔ ∃ i, P i ∧ before i a
  apart : ∀ a i j, P i → P j → after i a → after j a → i = j

namespace Handover

variable {P : ι → Prop} {before after : ι → α → Prop}

variable (h : Handover P before after)
include h

theorem exists_iff (a : α) :
    (∃ i, after i a) ↔ ∃ i, before i a := by
  constructor
  · rintro ⟨i, hi⟩
    by_cases hP : P i
    · obtain ⟨j, -, hj⟩ := (h.inside a).mp ⟨i, hP, hi⟩
      exact ⟨j, hj⟩
    · exact ⟨i, (h.outside i hP a).mp hi⟩
  · rintro ⟨i, hi⟩
    by_cases hP : P i
    · obtain ⟨j, -, hj⟩ := (h.inside a).mpr ⟨i, hP, hi⟩
      exact ⟨j, hj⟩
    · exact ⟨i, (h.outside i hP a).mpr hi⟩

theorem covered_eq : covered after = covered before := by
  ext a
  exact h.exists_iff a

/-- A participant and an outsider cannot meet on a key: a participant had the key before, and
the outsider has it still. -/
theorem unique_at {a : α}
    (hu : ∀ i j, before i a → before j a → i = j) {i j : ι} (hi : after i a)
    (hj : after j a) : i = j := by
  have hmixed : ∀ {i j}, P i → ¬ P j → after i a → after j a → False := by
    intro i j hPi hPj hi hj
    obtain ⟨k, hPk, hk⟩ := (h.inside a).mp ⟨i, hPi, hi⟩
    have hkj : k = j := hu k j hk ((h.outside j hPj a).mp hj)
    exact hPj (hkj ▸ hPk)
  by_cases hPi : P i <;> by_cases hPj : P j
  · exact h.apart a i j hPi hPj hi hj
  · exact (hmixed hPi hPj hi hj).elim
  · exact (hmixed hPj hPi hj hi).elim
  · exact hu i j ((h.outside i hPi a).mp hi) ((h.outside j hPj a).mp hj)

theorem exclusive (hex : Exclusive before) : Exclusive after :=
  fun a _ _ hi hj => h.unique_at (hex a) hi hj

theorem existsUnique {a : α} (hu : ∃! i, before i a) :
    ∃! i, after i a := by
  obtain ⟨i, hi⟩ := (h.exists_iff a).mpr hu.exists
  exact ⟨i, hi, fun j hj => h.unique_at (fun _ _ hx hy => hu.unique hx hy) hj hi⟩

end Handover

end MongrelDB.Lib
