import Mathlib.Logic.Basic

/-!
# Histories with laws

A history is a list of events, the newest first. A law says which event may
follow which events before it, and a history is lawful if every event in it obeys
the law in view of what came before.
-/

namespace MongrelDB.Lib

universe u

variable {ε : Type u}

/-- Every event obeys the law in view of the events before it. -/
inductive Lawful (law : List ε → ε → Prop) : List ε → Prop where
  | nil : Lawful law []
  | cons {e : ε} {past : List ε} : law past e → Lawful law past → Lawful law (e :: past)

theorem Lawful.past {law : List ε → ε → Prop} {past : List ε} :
    ∀ {recent : List ε}, Lawful law (recent ++ past) → Lawful law past
  | [], h => h
  | _ :: _, .cons _ h => h.past

theorem Lawful.law {law : List ε → ε → Prop} {recent past : List ε} {e : ε}
    (h : Lawful law (recent ++ e :: past)) : law past e := by
  cases h.past with
  | cons hlaw _ => exact hlaw

theorem Lawful.before {law : List ε → ε → Prop} {recent past : List ε} {e : ε}
    (h : Lawful law (recent ++ e :: past)) : Lawful law past := by
  cases h.past with
  | cons _ hpast => exact hpast

/-- What may not follow its like happens at most once. -/
theorem Lawful.unique {law : List ε → ε → Prop} {P : ε → Prop}
    (honce : ∀ past e, law past e → P e → ∀ x ∈ past, ¬ P x) {es : List ε}
    (h : Lawful law es) {x y : ε} (hx : x ∈ es) (hy : y ∈ es) (hPx : P x) (hPy : P y) : x = y := by
  induction h with
  | nil => cases hx
  | cons hlaw _ ih =>
    rcases List.mem_cons.mp hx with rfl | hx' <;> rcases List.mem_cons.mp hy with rfl | hy'
    · rfl
    · exact absurd hPy (honce _ _ hlaw hPx y hy')
    · exact absurd hPx (honce _ _ hlaw hPy x hx')
    · exact ih hx' hy'

theorem exists_oldest {P : ε → Prop} {es : List ε} (h : ∃ e ∈ es, P e) :
    ∃ recent e past, es = recent ++ e :: past ∧ P e ∧ ∀ x ∈ past, ¬ P x := by
  induction es with
  | nil => obtain ⟨_, he, _⟩ := h; cases he
  | cons x past ih =>
    by_cases hpast : ∃ e ∈ past, P e
    · obtain ⟨recent, e, older, rfl, hPe, holdest⟩ := ih hpast
      exact ⟨x :: recent, e, older, rfl, hPe, holdest⟩
    · obtain ⟨e, he, hPe⟩ := h
      rcases List.mem_cons.mp he with rfl | he
      · exact ⟨[], e, past, rfl, hPe, fun y hy hPy => hpast ⟨y, hy, hPy⟩⟩
      · exact absurd ⟨e, he, hPe⟩ hpast

end MongrelDB.Lib
