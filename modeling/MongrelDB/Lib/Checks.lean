import Mathlib.Logic.Basic

/-!
# Sequences of checks

Code that validates its input runs checks in order and stops at the first that
fails, with that check's error. Here such code is a `do` block of `ensure`s in
`Except`.
-/

namespace MongrelDB.Lib

open List

universe u

variable {ε ε' α β : Type u}

/-- Pass when `p` holds, fail with `e` otherwise. -/
def ensure (p : Prop) [Decidable p] (e : ε) : Except ε PUnit := if p then .ok ⟨⟩ else .error e

@[simp] theorem ensure_eq_ok {p : Prop} [Decidable p] {e : ε} {u : PUnit} :
    ensure p e = .ok u ↔ p := by
  unfold ensure
  split
  · next h => exact iff_of_true rfl h
  · next h => exact iff_of_false (fun hok => by cases hok) h

@[simp] theorem bind_eq_ok {x : Except ε α} {f : α → Except ε β} {b : β} :
    (x >>= f) = .ok b ↔ ∃ a, x = .ok a ∧ f a = .ok b := by
  cases x with
  | error e => exact iff_of_false (fun h => by cases h) (fun ⟨_, h, _⟩ => by cases h)
  | ok a =>
    constructor
    · exact fun h => ⟨a, rfl, h⟩
    · rintro ⟨_, ⟨⟩, h⟩
      exact h

@[simp] theorem mapError_eq_ok {x : Except ε α} {f : ε → ε'} {a : α} :
    x.mapError f = .ok a ↔ x = .ok a := by
  cases x with
  | error e => exact iff_of_false (fun h => by cases h) (fun h => by cases h)
  | ok b =>
    constructor <;>
    · rintro ⟨⟩
      rfl

@[simp] theorem toOption_eq_some {x : Except ε α} {a : α} : x.toOption = some a ↔ x = .ok a := by
  cases x with
  | error e => exact iff_of_false (fun h => by cases h) (fun h => by cases h)
  | ok b =>
    constructor <;>
    · rintro ⟨⟩
      rfl

/-- The value an optional one is required to have. -/
def orElseFail (o : Option α) (e : ε) : Except ε α :=
  match o with
  | some a => .ok a
  | none => .error e

@[simp] theorem orElseFail_eq_ok {o : Option α} {e : ε} {a : α} :
    orElseFail o e = .ok a ↔ o = some a := by
  cases o with
  | none => exact iff_of_false (fun h => by cases h) (fun h => by cases h)
  | some b =>
    constructor <;>
    · rintro ⟨⟩
      rfl

/-! ## Checks along a list -/

theorem forM_ok {f : α → Except ε PUnit.{u + 1}} {xs : List α} (h : xs.forM f = .ok ⟨⟩) :
    ∀ a ∈ xs, f a = .ok ⟨⟩ := by
  induction xs with
  | nil => exact fun a ha => (not_mem_nil ha).elim
  | cons x xs ih =>
    rw [forM_eq_forM, forM_cons, bind_eq_ok] at h
    obtain ⟨_, hx, h⟩ := h
    exact forall_mem_cons.mpr ⟨hx, ih (by rwa [forM_eq_forM])⟩

/-- A check that runs along a list and collects something: each element has passed at some
point between the start and the end, in the order `R` of what is collected. -/
theorem foldlM_ok {f : β → α → Except ε β} {R : β → β → Prop} (hrefl : ∀ b, R b b)
    (htrans : ∀ {a b c}, R a b → R b c → R a c)
    (hstep : ∀ {b a b'}, f b a = .ok b' → R b b') {xs : List α} {b b' : β}
    (h : xs.foldlM f b = .ok b') :
    R b b' ∧ ∀ a ∈ xs, ∃ b₁ b₂, R b b₁ ∧ f b₁ a = .ok b₂ ∧ R b₂ b' := by
  induction xs generalizing b with
  | nil =>
    obtain rfl : b = b' := by simpa [foldlM_nil, pure, Except.pure] using h
    exact ⟨hrefl b, fun a ha => (not_mem_nil ha).elim⟩
  | cons x xs ih =>
    rw [foldlM_cons, bind_eq_ok] at h
    obtain ⟨c, hc, h⟩ := h
    obtain ⟨hrest, hmem⟩ := ih h
    refine ⟨htrans (hstep hc) hrest, fun a ha => ?_⟩
    rcases mem_cons.mp ha with rfl | ha
    · exact ⟨b, c, hrefl b, hc, hrest⟩
    · obtain ⟨b₁, b₂, hb, hf, hb'⟩ := hmem a ha
      exact ⟨b₁, b₂, htrans (hstep hc) hb, hf, hb'⟩

/-- When a check passes only for an element none of whose marks has been seen, and marks it
as seen, no two elements of the list share a mark. -/
theorem foldlM_pairwise {μ : Type u} {f : β → α → Except ε β} {marks : α → μ → Prop}
    (seen : β → μ → Prop) (hkeep : ∀ {b a b'}, f b a = .ok b' → ∀ m, seen b m → seen b' m)
    (hmark : ∀ {b a b'}, f b a = .ok b' → ∀ m, marks a m → ¬ seen b m ∧ seen b' m)
    {xs : List α} {b b' : β} (h : xs.foldlM f b = .ok b') :
    xs.Pairwise (fun x y => ∀ m, marks x m → ¬ marks y m) := by
  induction xs generalizing b with
  | nil => exact .nil
  | cons x xs ih =>
    rw [foldlM_cons, bind_eq_ok] at h
    obtain ⟨c, hc, h⟩ := h
    refine .cons (fun y hy m hx hm => ?_) (ih h)
    obtain ⟨-, hmem⟩ := foldlM_ok (R := fun b b' => ∀ m, seen b m → seen b' m)
      (fun _ _ h => h) (fun h h' m hm => h' m (h m hm)) hkeep h
    obtain ⟨b₁, b₂, hb, hf, -⟩ := hmem y hy
    exact (hmark hf m hm).1 (hb m (hmark hc m hx).2)

end MongrelDB.Lib
