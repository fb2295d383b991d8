import Mathlib
import MongrelDB.Lib.Gallop

/-!
# The learned range index

`ColumnLearnedRange` keeps the values of a column as order-preserving keys in
ascending order, with the row ids beside them.
-/

namespace MongrelDB.Storage

open Lib List
open Option hiding mem_map mem_map_of_mem forall_mem_map

/-- Order-preserving key of an integer: the sign bit is flipped. -/
def i64Key (v : BitVec 64) : Nat := (v ^^^ BitVec.intMin 64).toNat

/-- Order-preserving key of a float, by its bits: all of them are flipped in a negative
float, the sign bit in the others. -/
def f64Key (bits : BitVec 64) : Nat :=
  if bits &&& BitVec.intMin 64 ≠ 0 then (~~~bits).toNat else (bits ^^^ BitVec.intMin 64).toNat

/-- `<` of two floats: none with a NaN, and the two zeros are equal. -/
def f64Lt (a b : BitVec 64) : Bool :=
  let magnitude := fun x : BitVec 64 => x.toNat % 2 ^ 63
  let isNan := fun x => decide (0x7FF0000000000000 < magnitude x)
  !isNan a && !isNan b && decide (0 < magnitude a + magnitude b) && decide (f64Key a < f64Key b)

theorem not_f64Lt {a b : BitVec 64} (h : f64Key b ≤ f64Key a) : ¬ f64Lt a b = true := by
  rw [f64Lt, Bool.and_eq_true]
  exact fun hlt => Nat.not_lt.mpr h (of_decide_eq_true hlt.2)

structure ColumnLearnedRange where
  /-- The keys, with the row ids in parallel. -/
  entries : List (Nat × Nat)
  /-- The window the learned model predicts for a key. -/
  predict : Nat → Nat × Nat
  sorted : entries.Pairwise fun a b => a.1 ≤ b.1

namespace ColumnLearnedRange

/-- What `build_i64_with_epsilon` and `build_f64_with_epsilon` do with the keys. -/
def build (predict : Nat → Nat × Nat) (pairs : List (Nat × Nat)) : ColumnLearnedRange where
  entries := pairs.insertionSort fun a b => a.1 ≤ b.1
  predict := predict
  sorted := pairwise_insertionSort _ pairs

def buildI64 (predict : Nat → Nat × Nat) (pairs : List (BitVec 64 × Nat)) : ColumnLearnedRange :=
  build predict (pairs.map fun e => (i64Key e.1, e.2))

def buildF64 (predict : Nat → Nat × Nat) (pairs : List (BitVec 64 × Nat)) : ColumnLearnedRange :=
  build predict (pairs.map fun e => (f64Key e.1, e.2))

variable (r : ColumnLearnedRange) (key lo hi : Nat)

def keys : List Nat := r.entries.map Prod.fst

def rowIds : List Nat := r.entries.map Prod.snd

def bound (before : Nat → Bool) : Nat :=
  if r.keys.isEmpty then 0 else gallopFrom before r.keys (r.predict key)

/-- First position whose key is not below `key`. -/
def lowerBound : Nat := r.bound key fun k => decide (k < key)

/-- First position whose key is above `key`. -/
def upperBound : Nat := r.bound key fun k => decide (k ≤ key)

/-- `&row_ids[start..end]`, which panics when it starts after its end. -/
def sliceIds (start stop : Nat) : Option (List Nat) :=
  if start ≤ stop ∧ stop ≤ r.rowIds.length then some (window r.rowIds start stop) else none

def linearRange : List Nat :=
  (r.entries.filter fun e => decide (lo ≤ e.1) && decide (e.1 ≤ hi)).map Prod.snd

def range (lo hi : BitVec 64) : Option (List Nat) :=
  if hi.toInt < lo.toInt ∨ r.keys.isEmpty then some []
  else
    let start := r.lowerBound (i64Key lo)
    let stop := r.upperBound (i64Key hi)
    if stop < start then some (r.linearRange (i64Key lo) (i64Key hi))
    else (r.sliceIds start stop).map fun hits =>
      if hits.isEmpty then
        let fallback := r.linearRange (i64Key lo) (i64Key hi)
        if fallback.isEmpty then hits else fallback
      else hits

/-- The float range query. A NaN or two zeros may have a slice that starts after its end. -/
def rangeF64 (lo : BitVec 64) (loInclusive : Bool) (hi : BitVec 64) (hiInclusive : Bool) :
    Option (List Nat) :=
  if r.keys.isEmpty then some []
  else if f64Lt hi lo then some []
  else r.sliceIds (if loInclusive then r.lowerBound (f64Key lo) else r.upperBound (f64Key lo))
    (if hiInclusive then r.upperBound (f64Key hi) else r.lowerBound (f64Key hi))

/-! ## The bounds are exact -/

/-- A set of keys that goes down with each of its keys. -/
def Downward (before : Nat → Bool) : Prop := ∀ a b, a ≤ b → before b = true → before a = true

theorem downward_lt : Downward fun k => decide (k < key) := by
  intro a b hab hb
  simp only [decide_eq_true_eq] at hb ⊢
  omega

theorem downward_le : Downward fun k => decide (k ≤ key) := by
  intro a b hab hb
  simp only [decide_eq_true_eq] at hb ⊢
  omega

variable {r key lo hi}
variable {before after : Nat → Bool} {id : Nat}

theorem partitioned_entries (h : Downward before) :
    Partitioned (before ∘ Prod.fst) r.entries :=
  r.sorted.imp fun hle => h _ _ hle

theorem partitionPoint_keys :
    partitionPoint before r.keys = partitionPoint (before ∘ Prod.fst) r.entries := by
  rw [partitionPoint, partitionPoint, keys, takeWhile_map, length_map]

theorem bound_eq (h : Downward before) :
    r.bound key before = partitionPoint (before ∘ Prod.fst) r.entries := by
  rw [← partitionPoint_keys, bound]
  split
  next hnil => rw [isEmpty_iff.mp hnil, partitionPoint, takeWhile_nil, length_nil]
  next => exact gallopFrom_eq (l := r.keys) (pairwise_map.mpr (partitioned_entries h)) _

theorem lowerBound_eq : r.lowerBound key =
    partitionPoint ((fun k => decide (k < key)) ∘ Prod.fst) r.entries :=
  bound_eq (downward_lt key)

theorem upperBound_eq : r.upperBound key =
    partitionPoint ((fun k => decide (k ≤ key)) ∘ Prod.fst) r.entries :=
  bound_eq (downward_le key)

section

variable (hb : Downward before) (ha : Downward after)
include hb ha

/-- A slice between two bounds has the rows whose key only the second bound takes in. -/
theorem mem_sliceIds_iff {ids : List Nat}
    (h : r.sliceIds (partitionPoint (before ∘ Prod.fst) r.entries)
      (partitionPoint (after ∘ Prod.fst) r.entries) = some ids) :
    id ∈ ids ↔ ∃ k, (k, id) ∈ r.entries ∧ before k = false ∧ after k = true := by
  rw [sliceIds, ite_none_right_eq_some, some.injEq, rowIds, window, ← map_drop,
    ← map_take] at h
  have hmem := fun e => @mem_window_iff _ _ _ _ e (partitioned_entries (r := r) hb)
    (partitioned_entries ha)
  rw [← h.2, mem_map]
  constructor
  · rintro ⟨e, he, rfl⟩
    exact ⟨e.1, (hmem e).mp he⟩
  · rintro ⟨k, hk⟩
    exact ⟨(k, id), (hmem (k, id)).mpr hk, rfl⟩

/-- The slice starts before its end when every key before its start is before its end. -/
theorem sliceIds_isSome_iff :
    (r.sliceIds (partitionPoint (before ∘ Prod.fst) r.entries)
      (partitionPoint (after ∘ Prod.fst) r.entries)).isSome = true ↔
      ∀ k ∈ r.keys, before k = true → after k = true := by
  have hle := @partitionPoint_le _ (after ∘ Prod.fst) r.entries
  rw [sliceIds, isSome_ite, rowIds, length_map, and_iff_left hle,
    partitionPoint_le_iff (partitioned_entries hb) (partitioned_entries ha), keys, forall_mem_map]
  rfl

theorem sliceIds_exact_iff :
    (∃ ids, r.sliceIds (partitionPoint (before ∘ Prod.fst) r.entries)
        (partitionPoint (after ∘ Prod.fst) r.entries) = some ids ∧ ∀ id, id ∈ ids ↔
          ∃ k, (k, id) ∈ r.entries ∧ before k = false ∧ after k = true) ↔
      ∀ k ∈ r.keys, before k = true → after k = true := by
  rw [← sliceIds_isSome_iff hb ha, isSome_iff_exists]
  exact exists_congr fun ids => and_iff_left_of_imp fun h id => mem_sliceIds_iff hb ha h

end

theorem mem_linearRange_iff :
    id ∈ r.linearRange lo hi ↔ ∃ k, (k, id) ∈ r.entries ∧ lo ≤ k ∧ k ≤ hi := by
  simp [linearRange]

theorem mem_build {predict : Nat → Nat × Nat} {pairs : List (Nat × Nat)} {e : Nat × Nat} :
    e ∈ (build predict pairs).entries ↔ e ∈ pairs :=
  mem_insertionSort _

theorem range_keys {lo hi : BitVec 64} (hle : lo.toInt ≤ hi.toInt) :
    ∃ ids, r.range lo hi = some ids ∧
      ∀ id, id ∈ ids ↔ ∃ k, (k, id) ∈ r.entries ∧ i64Key lo ≤ k ∧ k ≤ i64Key hi := by
  unfold range
  split
  next hcond =>
    have hnil : r.entries = [] := by simpa [keys, Int.not_lt.mpr hle] using hcond
    exact ⟨[], rfl, fun id => by simp [hnil]⟩
  next =>
    simp only
    split
    next => exact ⟨_, rfl, fun id => mem_linearRange_iff⟩
    next hstart =>
      rw [Nat.not_lt, lowerBound_eq, upperBound_eq] at hstart
      have hsome := (sliceIds_isSome_iff (downward_lt _) (downward_le _)).mpr
        ((partitionPoint_le_iff (partitioned_entries (downward_lt _))
          (partitioned_entries (downward_le _))).mp hstart |> forall_mem_map.mpr)
      obtain ⟨hits, hhits⟩ := isSome_iff_exists.mp hsome
      rw [lowerBound_eq, upperBound_eq, hhits, map_some]
      refine ⟨_, rfl, fun id => ?_⟩
      have hmem := @mem_sliceIds_iff r _ _ id (downward_lt _) (downward_le _) _ hhits
      simp only [decide_eq_false_iff_not, decide_eq_true_eq, not_lt] at hmem
      -- the scan that backs up an empty slice finds the same rows
      split
      next =>
        split
        next => exact hmem
        next => exact mem_linearRange_iff
      next => exact hmem

end ColumnLearnedRange

theorem i64Key_eq (v : BitVec 64) : (i64Key v : Int) = v.toInt + 2 ^ 63 := by
  have hdiv := @Nat.xor_div_two_pow v.toNat (2 ^ 63) 63
  have hmod := @Nat.xor_mod_two_pow v.toNat (2 ^ 63) 63
  have hlt := v.isLt
  have hkey : i64Key v = v.toNat ^^^ 2 ^ 63 := by
    rw [i64Key, BitVec.toNat_xor]
    rfl
  rw [Nat.div_self (by decide)] at hdiv
  rw [Nat.mod_self, Nat.xor_zero] at hmod
  rw [hkey, BitVec.toInt_eq_toNat_cond]
  generalize v.toNat ^^^ 2 ^ 63 = k at hdiv hmod
  have hbit : v.toNat / 2 ^ 63 = 0 ∨ v.toNat / 2 ^ 63 = 1 := by omega
  rcases hbit with hbit | hbit
  · rw [hbit, show 0 ^^^ 1 = 1 from rfl] at hdiv
    split <;> omega
  · rw [hbit, show 1 ^^^ 1 = 0 from rfl] at hdiv
    split <;> omega

namespace ColumnLearnedRange

/-- Whatever window the model predicts, the query returns the rows within the bounds. -/
theorem mem_range_iff (predict : Nat → Nat × Nat) (pairs : List (BitVec 64 × Nat))
    (lo hi : BitVec 64) :
    ∃ ids, (buildI64 predict pairs).range lo hi = some ids ∧ ∀ id, id ∈ ids ↔
      ∃ v, (v, id) ∈ pairs ∧ lo.toInt ≤ v.toInt ∧ v.toInt ≤ hi.toInt := by
  by_cases hle : lo.toInt ≤ hi.toInt
  · obtain ⟨ids, hids, hmem⟩ := range_keys (r := buildI64 predict pairs) hle
    refine ⟨ids, hids, fun id => ?_⟩
    have hlo := i64Key_eq lo
    have hhi := i64Key_eq hi
    rw [hmem]
    constructor
    · rintro ⟨k, hk, hk'⟩
      obtain ⟨e, he, hek⟩ := mem_map.mp (mem_build.mp hk)
      obtain ⟨rfl, rfl⟩ := Prod.mk.inj hek
      have hv := i64Key_eq e.1
      exact ⟨e.1, he, by omega⟩
    · rintro ⟨v, hv, hv'⟩
      have hkey := i64Key_eq v
      exact ⟨i64Key v, mem_build.mpr (mem_map_of_mem hv), by omega⟩
  · refine ⟨[], if_pos (Or.inl (by omega)), fun id => iff_of_false not_mem_nil ?_⟩
    rintro ⟨v, -, hv⟩
    omega

/-- Both bounds of a float query hold of the key. -/
def WithinF64 (lo : BitVec 64) (loInclusive : Bool) (hi : BitVec 64) (hiInclusive : Bool)
    (k : Nat) : Prop :=
  (if loInclusive then f64Key lo ≤ k else f64Key lo < k) ∧
    (if hiInclusive then k ≤ f64Key hi else k < f64Key hi)

/-- The float query returns the rows within its bounds, and its slice does not start
after its end, unless both bounds are exclusive and equal to a stored key. -/
theorem rangeF64_exact_iff (r : ColumnLearnedRange) (lo hi : BitVec 64)
    (loInclusive hiInclusive : Bool) (hle : f64Key lo ≤ f64Key hi) :
    (∃ ids, r.rangeF64 lo loInclusive hi hiInclusive = some ids ∧ ∀ id, id ∈ ids ↔
        ∃ k, (k, id) ∈ r.entries ∧ WithinF64 lo loInclusive hi hiInclusive k) ↔
      ¬ (loInclusive = false ∧ hiInclusive = false ∧ f64Key lo = f64Key hi ∧
        f64Key lo ∈ r.keys) := by
  by_cases hnil : r.entries = []
  · simp [rangeF64, keys, hnil]
  · have hkeys : r.keys.isEmpty = false := by simp [keys, hnil]
    rw [rangeF64, hkeys, if_neg Bool.false_ne_true, if_neg (not_f64Lt hle)]
    -- only two exclusive bounds can leave a key before the start and not before the end
    cases loInclusive <;> cases hiInclusive <;>
      simp only [WithinF64, lowerBound_eq, upperBound_eq, if_true, Bool.false_eq_true, if_false]
    case false.false =>
      have h := @sliceIds_exact_iff r _ _ (downward_le (f64Key lo)) (downward_lt (f64Key hi))
      simp only [decide_eq_false_iff_not, decide_eq_true_eq, not_le] at h
      rw [h]
      constructor
      · rintro hall ⟨-, -, heq, hmem⟩
        have hlt := hall _ hmem le_rfl
        omega
      · intro hnot k hk hkle
        by_contra hge
        have hkey : k = f64Key lo := by omega
        exact hnot ⟨trivial, trivial, by omega, hkey ▸ hk⟩
    case false.true =>
      have h := @sliceIds_exact_iff r _ _ (downward_le (f64Key lo)) (downward_le (f64Key hi))
      simp only [decide_eq_false_iff_not, decide_eq_true_eq, not_le] at h
      exact h.trans (iff_of_true (fun k _ hk => by omega) (fun hboth => by cases hboth.2.1))
    case true.false =>
      have h := @sliceIds_exact_iff r _ _ (downward_lt (f64Key lo)) (downward_lt (f64Key hi))
      simp only [decide_eq_false_iff_not, decide_eq_true_eq, not_lt] at h
      exact h.trans (iff_of_true (fun k _ hk => by omega) (fun hboth => by cases hboth.1))
    case true.true =>
      have h := @sliceIds_exact_iff r _ _ (downward_lt (f64Key lo)) (downward_le (f64Key hi))
      simp only [decide_eq_false_iff_not, decide_eq_true_eq, not_lt] at h
      exact h.trans (iff_of_true (fun k _ hk => by omega) (fun hboth => by cases hboth.1))

/-- A column with the single float `1.0`, in row 7. -/
def single : ColumnLearnedRange := buildF64 (fun _ => (0, 0)) [(0x3FF0000000000000, 7)]

theorem rangeF64_exact_single :
    ∃ ids, single.rangeF64 0x3FF0000000000000 true 0x3FF0000000000000 false = some ids ∧
      ∀ id, id ∈ ids ↔ ∃ k, (k, id) ∈ single.entries ∧
        WithinF64 0x3FF0000000000000 true 0x3FF0000000000000 false k :=
  (rangeF64_exact_iff single 0x3FF0000000000000 0x3FF0000000000000 true false (by decide)).mpr
    (by decide)

theorem rangeF64_panics_open_interval : f64Key 0x3FF0000000000000 ≤ f64Key 0x3FF0000000000000 ∧
    single.rangeF64 0x3FF0000000000000 false 0x3FF0000000000000 false = none := by
  decide

end ColumnLearnedRange

end MongrelDB.Storage
