import Mathlib
import MongrelDB.Columnar.SharedPages

/-!
# Delta pages

The writer of a run looks at each typed column and picks an encoding. Integers in
ascending order are written as differences to the value before, the first one to zero.
-/

namespace MongrelDB.Columnar

open Lib List

variable {M : Type}

/-- The exact differences to the value before. -/
def differences : BitVec 64 → List (BitVec 64) → List Int
  | _, [] => []
  | prev, v :: vs => (v.toInt - prev.toInt) :: differences v vs

def isAscending (data : List (BitVec 64)) : Bool := (data.zip data.tail).all fun w => w.1.sle w.2

/-- Fewer than half of the parts are distinct. -/
def fewDistinct (entries : List Bytes) : Bool :=
  decide (0 < entries.length ∧ 2 * entries.dedup.length < entries.length)

/-- A bytes column whose offsets do not fit its values makes the writer panic. -/
def chooseEncodingNative (ty : TypeId) (col : NativeColumn) : Except (MongrelError M) Encoding :=
  match ty, col with
  | .int64, .int64 data _ | .timestampNanos, .int64 data _ =>
    .ok (if isAscending data then .delta else .zstd)
  | .bytes, .bytes offsets values _ =>
    match nativeSlices values offsets with
    | .error e => .error e
    | .ok entries => .ok (if fewDistinct entries then .dictionary else .zstd)
  | _, _ => .ok .zstd

theorem isAscending_of_delta {ty : TypeId} {data : List (BitVec 64)} {validity : Bytes}
    (h : chooseEncodingNative ty (.int64 data validity) =
      (.ok .delta : Except (MongrelError M) _)) :
    isAscending data = true := by
  by_contra hnot
  unfold chooseEncodingNative at h
  split at h
  · rename_i hcol
    cases hcol
    rw [if_neg hnot] at h
    cases h
  · rename_i hcol
    cases hcol
    rw [if_neg hnot] at h
    cases h
  · rename_i hcol
    cases hcol
  · cases h

theorem isChain_of_isAscending {data : List (BitVec 64)} (h : isAscending data = true) :
    data.IsChain fun a b => a.toInt ≤ b.toInt := by
  induction data with
  | nil => exact IsChain.nil
  | cons a data ih =>
    cases data with
    | nil => exact isChain_singleton a
    | cons b data =>
      simp only [isAscending, tail_cons, zip_cons_cons, all_cons, Bool.and_eq_true] at h
      exact IsChain.cons_cons (BitVec.sle_iff_toInt_le.mp h.1) (ih h.2)

/-- Two's complement: what was subtracted is added again. -/
theorem deltaPrefixSum_deltasOf (prev : BitVec 64) (data : List (BitVec 64)) :
    deltaPrefixSum prev (deltasOf prev data) = data := by
  induction data generalizing prev with
  | nil => rfl
  | cons v vs ih =>
    have hv : prev + (v - prev) = v := by rw [BitVec.add_comm, BitVec.sub_add_cancel]
    rw [deltasOf, deltaPrefixSum, hv, ih]

theorem wordsOf_appendWords (le : Bool) (data : List (BitVec 64)) :
    wordsOf le (appendWords le data) data.length = data := by
  refine ext_getElem (by simp [wordsOf]) fun k h1 h2 => ?_
  have hword : wordAt le (appendWords le data ++ []) k = data[k].toNat :=
    wordAt_appendWords (getElem?_eq_getElem h2) []
  rw [append_nil] at hword
  simp only [wordsOf, getElem_map, getElem_range]
  exact BitVec.eq_of_toNat_eq hword

theorem forall_differences_iff {P : Int → Prop} (prev : BitVec 64) (data : List (BitVec 64)) :
    (∀ d ∈ differences prev data, P d) ↔
      (prev :: data).IsChain fun a b => P (b.toInt - a.toInt) := by
  induction data generalizing prev with
  | nil => simp [differences]
  | cons v vs ih => rw [differences, forall_mem_cons, ih, isChain_cons_cons]

/-- The differences that the encoder writes are 64-bit integers and the values come back, exactly
when no step of the column is `2 ^ 63` or wider. -/
theorem differences_fit_iff {ty : TypeId} {data : List (BitVec 64)} {validity : Bytes}
    (h : chooseEncodingNative ty (.int64 data validity) = (.ok .delta : Except (MongrelError M) _))
    (le : Bool) :
    ((∀ d ∈ differences 0 data, -2 ^ 63 ≤ d ∧ d < 2 ^ 63) ∧
      (takeI64 le (appendWords le (deltasOf 0 data)) data.length : Except (MongrelError M) _).map
        (deltaPrefixSum 0) = .ok data) ↔
      data.IsChain fun a b => b.toInt - a.toInt < 2 ^ 63 := by
  have hdecode : (takeI64 le (appendWords le (deltasOf 0 data)) data.length :
      Except (MongrelError M) _).map (deltaPrefixSum 0) = .ok data := by
    have hwords := wordsOf_appendWords le (deltasOf 0 data)
    rw [length_deltasOf] at hwords
    rw [takeI64, takeWords_ok (by rw [length_appendWords, length_deltasOf]), hwords]
    exact congrArg Except.ok (deltaPrefixSum_deltasOf 0 data)
  have hsorted := isChain_of_isAscending (isAscending_of_delta h)
  rw [and_iff_left hdecode, forall_differences_iff]
  constructor
  · intro hfit
    exact hfit.tail.imp fun a b hab => hab.2
  · intro hstep
    -- the first difference is the value itself
    cases data with
    | nil => exact isChain_singleton 0
    | cons v vs =>
      refine IsChain.cons_cons ?_ (isChain_iff_getElem.mpr fun i hi => ?_)
      · have hlt := v.toInt_lt
        have hle := v.le_toInt
        have hzero : (0 : BitVec 64).toInt = 0 := rfl
        omega
      · have hle := hsorted.getElem i hi
        have hlt := hstep.getElem i hi
        omega

/-- A column with a null and values of both signs. -/
theorem differences_fit_both_signs :
    (∀ d ∈ differences 0 [-5, 0, 7], -2 ^ 63 ≤ d ∧ d < 2 ^ 63) ∧
      (takeI64 true (appendWords true (deltasOf 0 [-5, 0, 7])) 3 :
        Except (MongrelError Unit) _).map (deltaPrefixSum 0) = .ok [-5, 0, 7] := by
  have h : chooseEncodingNative .int64 (.int64 [-5, 0, 7] [5]) =
      (.ok .delta : Except (MongrelError Unit) _) := rfl
  exact (differences_fit_iff h true).mpr (by decide)

/-- From the least integer to zero the difference is `2 ^ 63`, and the writer picks delta
encoding. -/
theorem difference_overflows :
    chooseEncodingNative .int64 (.int64 [BitVec.intMin 64, 0] [3]) =
        (.ok .delta : Except (MongrelError Unit) _) ∧
      2 ^ 63 ∈ differences 0 [BitVec.intMin 64, 0] :=
  ⟨rfl, by decide⟩

end MongrelDB.Columnar
