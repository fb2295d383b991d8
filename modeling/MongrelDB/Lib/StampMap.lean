import Mathlib.Logic.Function.Basic

/-!
# Maps from keys to stamps, and lower bounds on them

A concurrency-control index remembers, per key, the stamp of the last write. What its
users rely on is never the exact stamp but a lower bound.
-/

namespace MongrelDB.Lib

open Option

universe u v

/-- A partial map from keys to stamps. -/
def StampMap (κ : Type u) : Type u := κ → Option Nat

namespace StampMap

variable {κ : Type u} {m : StampMap κ} {k k' : κ} {c e f r : Nat}

def empty : StampMap κ := fun _ => none

/-- Keep only the stamps at or above the floor. -/
def retainFrom (m : StampMap κ) (f : Nat) : StampMap κ := fun k => (m k).filter (f ≤ ·)

/-- `k` has a stamp strictly above `r`. -/
def exceeds (m : StampMap κ) (k : κ) (r : Nat) : Bool := (m k).any (r < ·)

/-- `k` has a stamp of at least `c`. -/
def AtLeast (m : StampMap κ) (k : κ) (c : Nat) : Prop := ∃ e, m k = some e ∧ c ≤ e

theorem AtLeast.exceeds (h : m.AtLeast k c) (hr : r < c) : m.exceeds k r = true := by
  obtain ⟨e, he, hce⟩ := h
  simp only [StampMap.exceeds, he, any_some, decide_eq_true_eq]
  omega

theorem AtLeast.retainFrom (h : m.AtLeast k c) (hf : f ≤ c) : (m.retainFrom f).AtLeast k c := by
  obtain ⟨e, he, hc⟩ := h
  refine ⟨e, ?_, hc⟩
  simp only [StampMap.retainFrom, he, Option.filter_some, ite_eq_left_iff, decide_eq_true_eq]
  omega

theorem AtLeast.foldl {β : Type v} {upd : StampMap κ → β → StampMap κ}
    (hupd : ∀ m b, AtLeast m k c → AtLeast (upd m b) k c) (bs : List β) :
    ∀ {m : StampMap κ}, m.AtLeast k c → (bs.foldl upd m).AtLeast k c := by
  induction bs with
  | nil => exact fun h => h
  | cons b bs ih => exact fun h => ih (hupd _ b h)

/-- A bound that some update of a batch sets and each keeps holds after the batch. -/
theorem atLeast_foldl_of_mem {β : Type v} {upd : StampMap κ → β → StampMap κ} {b : β}
    (hset : ∀ m, AtLeast (upd m b) k c)
    (hupd : ∀ m b, AtLeast m k c → AtLeast (upd m b) k c) {bs : List β} (hb : b ∈ bs) :
    ∀ {m : StampMap κ}, (bs.foldl upd m).AtLeast k c := by
  induction bs with
  | nil => simp at hb
  | cons b' bs ih =>
    intro m
    rcases List.mem_cons.mp hb with rfl | hb
    · exact AtLeast.foldl hupd bs (hset m)
    · exact ih hb

/-- Every stamp held satisfies `P` at its key. -/
def Every (m : StampMap κ) (P : κ → Nat → Prop) : Prop := ∀ k e, m k = some e → P k e

variable {P Q : κ → Nat → Prop}

theorem every_empty : (empty : StampMap κ).Every P := fun _ _ h => nomatch h

theorem Every.mono (h : m.Every P) (hPQ : ∀ k e, P k e → Q k e) : m.Every Q :=
  fun k e hk => hPQ k e (h k e hk)

theorem Every.retainFrom (h : m.Every P) (f : Nat) : (m.retainFrom f).Every P := by
  intro k e hk
  exact h k e (filter_eq_some_iff.mp hk).1

theorem Every.foldl {β : Type v} {upd : StampMap κ → β → StampMap κ} {bs : List β}
    (hupd : ∀ m, ∀ b ∈ bs, Every m P → Every (upd m b) P) (h : m.Every P) :
    (bs.foldl upd m).Every P := by
  induction bs generalizing m with
  | nil => exact h
  | cons b bs ih =>
    exact ih (fun m b' hb' => hupd m b' (List.mem_cons_of_mem b hb'))
      (hupd m b List.mem_cons_self h)

theorem exists_of_exceeds (h : m.exceeds k r = true) : ∃ e, m k = some e ∧ r < e := by
  unfold exceeds at h
  cases hm : m k with
  | none =>
    rw [hm] at h
    cases h
  | some e =>
    rw [hm] at h
    exact ⟨e, rfl, of_decide_eq_true h⟩

variable [DecidableEq κ]

/-- Overwrite the stamp of `k`. -/
def put (m : StampMap κ) (k : κ) (e : Nat) : StampMap κ :=
  fun k' => if k' = k then some e else m k'

/-- Raise the stamp of `k` to at least `e`. -/
def raise (m : StampMap κ) (k : κ) (e : Nat) : StampMap κ :=
  fun k' => if k' = k then some (match m k with | some e' => max e' e | none => e) else m k'

theorem AtLeast.put (h : m.AtLeast k c) (hc : c ≤ e) : (m.put k' e).AtLeast k c := by
  unfold AtLeast StampMap.put
  split
  next => exact ⟨e, rfl, hc⟩
  next => exact h

theorem atLeast_put_self : (m.put k e).AtLeast k e :=
  ⟨e, by simp [StampMap.put], Nat.le_refl e⟩

theorem AtLeast.raise (h : m.AtLeast k c) : (m.raise k' e).AtLeast k c := by
  obtain ⟨e', he', hc⟩ := h
  unfold AtLeast StampMap.raise
  split
  next heq =>
    rw [← heq, he']
    exact ⟨_, rfl, Nat.le_trans hc (Nat.le_max_left _ _)⟩
  next => exact ⟨e', he', hc⟩

theorem atLeast_raise_self : (m.raise k e).AtLeast k e := by
  unfold AtLeast StampMap.raise
  rw [if_pos rfl]
  refine ⟨_, rfl, ?_⟩
  split
  next => exact Nat.le_max_right _ _
  next => exact Nat.le_refl e

theorem Every.put (h : m.Every P) (hk : P k e) : (m.put k e).Every P := by
  intro k' e' hput
  unfold StampMap.put at hput
  split at hput
  next heq =>
    rw [← some.inj hput, heq]
    exact hk
  next => exact h k' e' hput

theorem Every.raise (h : m.Every P) (hk : P k e) : (m.raise k e).Every P := by
  intro k' e' hraise
  unfold StampMap.raise at hraise
  split at hraise
  next heq =>
    rw [heq, ← some.inj hraise]
    cases hm : m k with
    | none => exact hk
    | some old =>
      rcases Nat.le_total old e with hle | hle
      · simpa only [Nat.max_eq_right hle] using hk
      · simpa only [Nat.max_eq_left hle] using h k old hm
  next => exact h k' e' hraise

end StampMap

end MongrelDB.Lib
