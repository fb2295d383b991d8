import Mathlib.Data.Nat.Init
import Mathlib.Tactic.Ring
import Mathlib.Tactic.Linarith

/-!
# Numbers as bytes

Fixed-width little-endian and big-endian numbers over `List UInt8`, the way
`to_le_bytes` and `to_be_bytes` lay out an unsigned number of `w` bytes.
-/

namespace MongrelDB.Lib

open List

abbrev Bytes := List UInt8

/-! ## Fixed width -/

/-- `n` in `w` bytes, lowest first; what does not fit is cut off. -/
def leBytes : Nat → Nat → Bytes
  | 0, _ => []
  | w + 1, n => UInt8.ofNat n :: leBytes w (n / 256)

def leValue : Bytes → Nat
  | [] => 0
  | b :: bs => b.toNat + 256 * leValue bs

/-- `n` in `w` bytes, highest first. -/
def beBytes (w n : Nat) : Bytes := (leBytes w n).reverse

def beValue (bs : Bytes) : Nat := leValue bs.reverse

@[simp] theorem length_leBytes (w n : Nat) : (leBytes w n).length = w := by
  induction w generalizing n with
  | zero => rfl
  | succ w ih => simp [leBytes, ih]

@[simp] theorem length_beBytes (w n : Nat) : (beBytes w n).length = w := by
  simp [beBytes]

theorem leValue_leBytes (w n : Nat) : leValue (leBytes w n) = n % 256 ^ w := by
  induction w generalizing n with
  | zero => simp [leBytes, leValue, Nat.mod_one]
  | succ w ih =>
    have hb : (UInt8.ofNat n).toNat = n % 256 := by simp
    rw [leBytes, leValue, ih, hb, pow_succ' 256 w, Nat.mod_mul]

theorem leValue_leBytes_of_lt {w n : Nat} (h : n < 256 ^ w) : leValue (leBytes w n) = n := by
  rw [leValue_leBytes, Nat.mod_eq_of_lt h]

theorem beValue_beBytes (w n : Nat) : beValue (beBytes w n) = n % 256 ^ w := by
  rw [beValue, beBytes, reverse_reverse, leValue_leBytes]

theorem beValue_beBytes_of_lt {w n : Nat} (h : n < 256 ^ w) : beValue (beBytes w n) = n := by
  rw [beValue_beBytes, Nat.mod_eq_of_lt h]

/-! ## Tables of fixed-width entries -/

variable {α : Type} {f : α → Bytes} {w : Nat} {xs : List α} (hf : ∀ x ∈ xs, (f x).length = w)
include hf

theorem take_drop_flatMap {k : Nat} {x : α} (hk : xs[k]? = some x) (rest : Bytes) :
    ((xs.flatMap f ++ rest).drop (k * w)).take w = f x := by
  induction xs generalizing k with
  | nil => simp at hk
  | cons y ys ih =>
    have hy : (f y).length = w := hf y mem_cons_self
    cases k with
    | zero =>
      obtain rfl : y = x := by simpa using hk
      rw [Nat.zero_mul, drop_zero, flatMap_cons, append_assoc,
        take_left' hy]
    | succ k =>
      have hdrop : (List.flatMap f (y :: ys) ++ rest).drop ((k + 1) * w) =
          (ys.flatMap f ++ rest).drop (k * w) := by
        rw [flatMap_cons, append_assoc, Nat.succ_mul, Nat.add_comm, ← drop_drop,
          drop_left' hy]
      rw [hdrop]
      exact ih (fun z hz => hf z (mem_cons_of_mem _ hz)) (by simpa using hk)

theorem length_flatMap_of_length : (xs.flatMap f).length = xs.length * w := by
  induction xs with
  | nil => simp
  | cons y ys ih =>
    rw [flatMap_cons, length_append, hf y mem_cons_self,
      ih fun z hz => hf z (mem_cons_of_mem _ hz), length_cons, Nat.succ_mul, Nat.add_comm]

end MongrelDB.Lib
