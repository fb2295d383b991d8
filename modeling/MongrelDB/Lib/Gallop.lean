import Mathlib.Data.List.TakeWhile

/-!
# Searching from a guess

In a list whose first elements meet `p` and whose later ones do not, the place where
they part (`partitionPoint`) is found from any window that was guessed for it: search
the window, and if the place lies outside, double the step away from the window until
it is passed, and search again (`gallopFrom`).
-/

namespace MongrelDB.Lib

open List Option

universe u

variable {α : Type u} (p : α → Bool) (l : List α)

/-- No element that meets `p` comes after one that does not. -/
def Partitioned : Prop := l.Pairwise fun a b => p b = true → p a = true

/-- The number of elements at the front that meet `p`. -/
def partitionPoint : Nat := (l.takeWhile p).length

/-- The element at the position is there and meets `p`. -/
def meetsAt (i : Nat) : Bool := l[i]?.any p

/-- The elements from position `lo` up to `hi`. -/
def window (lo hi : Nat) : List α := (l.drop lo).take (hi - lo)

/-- Double the step until the test says to stop. -/
def double (stop : Nat → Bool) : Nat → Nat → Nat
  | 0, step => step
  | fuel + 1, step => if stop step then step else double stop fuel (2 * step)

/-- Go left from `idx` if the elements before it do not meet `p`. -/
def gallopLeft (idx : Nat) : Nat :=
  if 0 < idx ∧ meetsAt p l (idx - 1) = false then
    let step := double (fun step => !(decide (step ≤ idx) && !meetsAt p l (idx - step))) (idx + 1) 1
    let start := idx - min step idx
    start + partitionPoint p (window l start idx)
  else idx

/-- Go right from `idx` if the element there meets `p`. -/
def gallopRight (idx : Nat) : Nat :=
  if idx < l.length ∧ meetsAt p l idx = true then
    let step := double (fun step => !(decide (idx + step ≤ l.length) &&
      meetsAt p l (min (idx + step) l.length - 1))) (l.length + 1) 1
    idx + partitionPoint p (window l idx (min (idx + step) l.length))
  else idx

def gallopFrom (guess : Nat × Nat) : Nat :=
  let lo := min guess.1 l.length
  let hi := max (min guess.2 l.length) lo
  gallopRight p l (gallopLeft p l (lo + partitionPoint p (window l lo hi)))

/-! ## The place is found -/

variable {p l}

theorem Partitioned.split (h : Partitioned p l) :
    l.takeWhile p = l.filter p ∧ l.dropWhile p = l.filter fun a => !p a := by
  induction l with
  | nil => exact ⟨rfl, rfl⟩
  | cons a l ih =>
    obtain ⟨ha, hl⟩ := pairwise_cons.mp h
    cases hp : p a with
    | true => simp [hp, ih hl]
    | false =>
      have hnone : ∀ b ∈ l, p b = false := fun b hb => by
        have := ha b hb
        rwa [hp, Bool.false_eq_true, imp_false, Bool.not_eq_true] at this
      have hself : l.filter (fun a => !p a) = l :=
        filter_eq_self.mpr fun b hb => by simp [hnone b hb]
      simpa [hp, hself] using hnone

theorem partitionPoint_le : partitionPoint p l ≤ l.length := (takeWhile_sublist p).length_le

theorem meetsAt_iff (h : Partitioned p l) {i : Nat} :
    meetsAt p l i = true ↔ i < partitionPoint p l := by
  induction l generalizing i with
  | nil => simp [meetsAt, partitionPoint]
  | cons a l ih =>
    rw [Partitioned, pairwise_cons] at h
    cases i with
    | zero => cases hp : p a <;> simp [meetsAt, partitionPoint, hp]
    | succ i =>
      cases hp : p a with
      | true =>
        have hrest := ih h.2 (i := i)
        simpa [meetsAt, partitionPoint, hp] using hrest
      | false =>
        -- nothing after `a` meets `p` either
        have hnone : meetsAt p l i = false := by
          rw [meetsAt, any_eq_false_iff_get]
          intro hsome
          by_contra hmeets
          have := h.1 _ (mem_of_getElem? (some_get hsome).symm) (by simpa using hmeets)
          rw [hp] at this
          cases this
        simpa [meetsAt, partitionPoint, hp] using hnone

theorem meetsAt_eq_false (h : Partitioned p l) {i : Nat} :
    meetsAt p l i = false ↔ partitionPoint p l ≤ i := by
  rw [← Bool.not_eq_true, meetsAt_iff h, not_lt]

theorem double_stops {q : Nat → Bool} {b : Nat} (h : ∀ step, b < step → q step = true) :
    ∀ fuel step, 0 < step → b < step + fuel → q (double q fuel step) = true
  | 0, step, _, hlt => h step hlt
  | fuel + 1, step, hpos, hlt => by
    unfold double
    split
    next hstop => exact hstop
    next => exact double_stops h fuel (2 * step) (by omega) (by omega)

section

variable (h : Partitioned p l)
include h

theorem add_partitionPoint_window {lo hi : Nat} (hle : lo ≤ hi)
    (hlen : hi ≤ l.length) :
    lo + partitionPoint p (window l lo hi) = max lo (min (partitionPoint p l) hi) := by
  have hw : Partitioned p (window l lo hi) :=
    Pairwise.sublist ((take_sublist _ _).trans (drop_sublist _ _)) h
  have hlength : (window l lo hi).length = hi - lo := by
    rw [window, length_take, length_drop]
    omega
  have hmeets : ∀ i, i < hi - lo → (i < partitionPoint p (window l lo hi) ↔
      lo + i < partitionPoint p l) := by
    intro i hi'
    rw [← meetsAt_iff hw, ← meetsAt_iff h, meetsAt, meetsAt, window, getElem?_take_of_lt hi',
      getElem?_drop]
  have hle' : partitionPoint p (window l lo hi) ≤ hi - lo := hlength ▸ partitionPoint_le
  by_contra hne
  rcases Nat.lt_or_gt_of_ne hne with hlt | hgt
  · have := (hmeets (partitionPoint p (window l lo hi)) (by omega)).mpr (by omega)
    omega
  · have := (hmeets (partitionPoint p (window l lo hi) - 1) (by omega)).mp (by omega)
    omega

theorem gallopLeft_eq {idx : Nat} (hidx : idx ≤ l.length) :
    gallopLeft p l idx = min (partitionPoint p l) idx := by
  unfold gallopLeft
  split
  next hcond =>
    rw [meetsAt_eq_false h] at hcond
    have hstop := double_stops (b := idx)
      (q := fun step => !(decide (step ≤ idx) && !meetsAt p l (idx - step)))
      (fun step hstep => by simp [Nat.not_le.mpr hstep]) (idx + 1) 1 (by omega) (by omega)
    simp only
    generalize double _ _ _ = step at hstop
    rw [add_partitionPoint_window h (by omega) hidx]
    simp only [Bool.not_eq_true', Bool.and_eq_false_iff, decide_eq_false_iff_not,
      Bool.not_eq_false', meetsAt_iff h] at hstop
    omega
  next hcond =>
    rw [meetsAt_eq_false h] at hcond
    omega

theorem gallopRight_eq {idx : Nat} (hidx : idx ≤ partitionPoint p l) :
    gallopRight p l idx = partitionPoint p l := by
  have hpoint := @partitionPoint_le _ p l
  unfold gallopRight
  split
  next hcond =>
    rw [meetsAt_iff h] at hcond
    have hstop := double_stops (b := l.length) (q := fun step => !(decide (idx + step ≤ l.length) &&
      meetsAt p l (min (idx + step) l.length - 1)))
      (fun step hstep => by simp [show ¬ idx + step ≤ l.length by omega]) (l.length + 1) 1
      (by omega) (by omega)
    simp only
    generalize double _ _ _ = step at hstop
    rw [add_partitionPoint_window h (by omega) (by omega)]
    simp only [Bool.not_eq_true', Bool.and_eq_false_iff, decide_eq_false_iff_not,
      meetsAt_eq_false h] at hstop
    omega
  next hcond =>
    rw [meetsAt_iff h] at hcond
    omega

theorem gallopFrom_eq (guess : Nat × Nat) :
    gallopFrom p l guess = partitionPoint p l := by
  have hpoint := @partitionPoint_le _ p l
  unfold gallopFrom
  simp only
  rw [add_partitionPoint_window h (by omega) (by omega), gallopLeft_eq h (by omega)]
  -- the window may end before the place: then the search goes right
  exact gallopRight_eq h (by omega)

theorem meets_iff {i : Nat} {a : α} (ha : l[i]? = some a) :
    p a = true ↔ i < partitionPoint p l := by
  rw [← meetsAt_iff h, meetsAt, ha, any_some]

end

/-- Between the places of two tests stand the elements that only the second meets. -/
theorem mem_window_iff {q : α → Bool} {a : α} (hp : Partitioned p l) (hq : Partitioned q l) :
    a ∈ window l (partitionPoint p l) (partitionPoint q l) ↔
      a ∈ l ∧ p a = false ∧ q a = true := by
  constructor
  · intro hmem
    obtain ⟨i, hi⟩ := mem_iff_getElem?.mp hmem
    rw [window, getElem?_take, getElem?_drop, ite_none_right_eq_some] at hi
    have hmeets := (meets_iff hp hi.2).not
    rw [Bool.not_eq_true] at hmeets
    exact ⟨mem_of_getElem? hi.2, hmeets.mpr (by omega), (meets_iff hq hi.2).mpr (by omega)⟩
  · intro hmem
    obtain ⟨i, hi⟩ := mem_iff_getElem?.mp hmem.1
    have hbefore := (meets_iff hq hi).mp hmem.2.2
    have hafter := (meets_iff hp hi).not.mp (by rw [hmem.2.1]; exact Bool.false_ne_true)
    refine mem_iff_getElem?.mpr ⟨i - partitionPoint p l, ?_⟩
    rw [window, getElem?_take_of_lt (by omega), getElem?_drop,
      Nat.add_sub_cancel' (Nat.not_lt.mp hafter), hi]

theorem partitionPoint_le_iff {q : α → Bool} (hp : Partitioned p l) (hq : Partitioned q l) :
    partitionPoint p l ≤ partitionPoint q l ↔ ∀ a ∈ l, p a = true → q a = true := by
  constructor
  · intro hle a ha hpa
    obtain ⟨i, hi⟩ := mem_iff_getElem?.mp ha
    exact (meets_iff hq hi).mpr (Nat.lt_of_lt_of_le ((meets_iff hp hi).mp hpa) hle)
  · intro hall
    by_contra hlt
    rw [Nat.not_le] at hlt
    -- the element at the place of `q` meets `p` only
    have hi := getElem?_eq_getElem (Nat.lt_of_lt_of_le hlt partitionPoint_le)
    have hqa := hall _ (mem_of_getElem? hi) ((meets_iff hp hi).mpr hlt)
    exact absurd ((meets_iff hq hi).mp hqa) (Nat.lt_irrefl _)

end MongrelDB.Lib
