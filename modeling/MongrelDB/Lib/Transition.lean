import Mathlib.Logic.Function.Basic

/-!
# Runs of a labelled transition system

A concurrent component is modelled as a state type `σ`, a type of labels `α` (which
thread does which of its atomic steps), and an executable step function `step : σ → α
→ Option σ` that answers `none` when the step is not enabled.
-/

namespace MongrelDB.Lib

universe u v

variable {σ : Type u} {α : Type v}

/-- Execute labels in order; `none` as soon as one of them is not enabled. -/
def execute (step : σ → α → Option σ) : σ → List α → Option σ
  | s, [] => some s
  | s, a :: as => (step s a).bind fun s' => execute step s' as

/-- The states of all runs from `s₀` whose steps all meet `ok`. -/
inductive Reachable (step : σ → α → Option σ) (ok : σ → α → Prop) (s₀ : σ) : σ → Prop where
  | refl : Reachable step ok s₀ s₀
  | tail {s s' : σ} {a : α} : Reachable step ok s₀ s → ok s a → step s a = some s' →
      Reachable step ok s₀ s'

/-- No condition on the schedule. -/
def anyStep : σ → α → Prop := fun _ _ => True

variable {step : σ → α → Option σ} {ok : σ → α → Prop}

theorem Reachable.invariant {s₀ s : σ}
    {I : σ → Prop} (h₀ : I s₀)
    (hstep : ∀ s a s', I s → ok s a → step s a = some s' → I s')
    (h : Reachable step ok s₀ s) : I s := by
  induction h with
  | refl => exact h₀
  | tail _ hok hs ih => exact hstep _ _ _ ih hok hs

theorem Reachable.mono {ok ok' : σ → α → Prop} {s₀ s : σ}
    (hok : ∀ s a, ok s a → ok' s a) (h : Reachable step ok s₀ s) :
    Reachable step ok' s₀ s := by
  induction h with
  | refl => exact .refl
  | tail _ hs hstep ih => exact .tail ih (hok _ _ hs) hstep

theorem Reachable.any {s₀ s : σ}
    (h : Reachable step ok s₀ s) : Reachable step anyStep s₀ s :=
  h.mono fun _ _ _ => trivial

/-- A step that is refused when it does not meet `ok`. -/
def guarded (step : σ → α → Option σ) (ok : σ → α → Prop) [∀ s a, Decidable (ok s a)] :
    σ → α → Option σ :=
  fun s a => if ok s a then step s a else none

theorem reachable_of_execute_guarded
    [∀ s a, Decidable (ok s a)] {s₀ : σ} :
    ∀ {as : List α} {s s' : σ}, Reachable step ok s₀ s →
      execute (guarded step ok) s as = some s' → Reachable step ok s₀ s'
  | [], s, s', hs, h => by
    obtain rfl : s = s' := by simpa [execute] using h
    exact hs
  | a :: as, s, s', hs, h => by
    simp only [execute, guarded] at h
    split at h
    next hok =>
      obtain ⟨s₁, hs₁, h₁⟩ := Option.bind_eq_some_iff.mp h
      exact reachable_of_execute_guarded (.tail hs hok hs₁) h₁
    next => simp at h

/-- A schedule that executes under the guard, ending where the decidable `p` holds, is a run
that reaches `p`. -/
theorem exists_reachable_of_execute (step : σ → α → Option σ) (ok : σ → α → Prop)
    [∀ s a, Decidable (ok s a)] (s₀ : σ) (p : σ → Prop) [DecidablePred p] (as : List α)
    (h : (execute (guarded step ok) s₀ as).any (fun s => decide (p s)) = true) :
    ∃ s, Reachable step ok s₀ s ∧ p s := by
  cases hs : execute (guarded step ok) s₀ as with
  | none => simp [hs] at h
  | some s =>
    exact ⟨s, reachable_of_execute_guarded .refl hs, by simpa [hs] using h⟩

instance (s : σ) (a : α) : Decidable (anyStep s a) := isTrue trivial

/-! ## A step made of a list of steps -/

/-- Each step of the list meets `ok` in the state it starts from. -/
def EachStep (step : σ → α → Option σ) (ok : σ → α → Prop) : σ → List α → Prop
  | _, [] => True
  | s, a :: as => ok s a ∧ ∀ s' ∈ step s a, EachStep step ok s' as

theorem EachStep.invariant {I : σ → Prop}
    (hstep : ∀ s a s', I s → ok s a → step s a = some s' → I s') {as : List α} {s s' : σ}
    (hok : EachStep step ok s as) (hrun : as.foldlM step s = some s') (h : I s) : I s' := by
  induction as generalizing s with
  | nil =>
    obtain rfl := Option.some.inj hrun
    exact h
  | cons a as ih =>
    rw [List.foldlM_cons] at hrun
    obtain ⟨s₁, hs₁, hrun⟩ := Option.bind_eq_some_iff.mp hrun
    exact ih (hok.2 s₁ hs₁) hrun (hstep s a s₁ h hok.1 hs₁)

instance EachStep.decidable {step : σ → α → Option σ} {ok : σ → α → Prop}
    [∀ s a, Decidable (ok s a)] : (s : σ) → (as : List α) → Decidable (EachStep step ok s as)
  | _, [] => isTrue trivial
  | s, a :: as =>
    have : ∀ s', Decidable (EachStep step ok s' as) := fun s' => decidable s' as
    inferInstanceAs (Decidable (ok s a ∧ ∀ s' ∈ step s a, EachStep step ok s' as))

/-! ## Between two times of one run -/

/-- Of the states at the times up to `n`: `R` relates any two between which `q` holds all
the time. -/
def Along (at_ : Nat → σ) (n : Nat) (q : σ → Prop) (R : σ → σ → Prop) : Prop :=
  ∀ i j, i ≤ j → j ≤ n → (∀ k, i ≤ k → k ≤ j → q (at_ k)) → R (at_ i) (at_ j)

theorem along_iff {at_ : Nat → σ} {n : Nat} {q : σ → Prop} {R : σ → σ → Prop}
    (hrefl : ∀ s, R s s) (htrans : ∀ a b c, q b → R a b → R b c → R a c) :
    Along at_ n q R ↔ ∀ i < n, q (at_ i) → q (at_ (i + 1)) → R (at_ i) (at_ (i + 1)) := by
  constructor
  · intro h i hi hq hq'
    refine h i (i + 1) (Nat.le_succ i) hi fun k hik hk => ?_
    obtain rfl | rfl : k = i ∨ k = i + 1 := by omega
    · exact hq
    · exact hq'
  · intro h i j hij
    induction hij with
    | refl => exact fun _ _ => hrefl _
    | @step j hij ih =>
      intro hj hq
      have hqj := hq j hij (Nat.le_succ j)
      exact htrans _ _ _ hqj (ih (by omega) fun k hik hk => hq k hik (by omega))
        (h j (by omega) hqj (hq (j + 1) (Nat.le_succ_of_le hij) (Nat.le_refl _)))

end MongrelDB.Lib
