import MongrelDB.Lib.Bytes

/-!
# Packed bitmaps

A list of flags packed eight to a byte, lowest bit first. The bitmap is filled
by a loop that starts from zero bytes and sets the bits of the flags that are
set. A bit past the end reads as clear.
-/

namespace MongrelDB.Lib

open List

/-- Bit `i`; clear past the end. -/
def bitAt (bits : Bytes) (i : Nat) : Bool :=
  (bits.getD (i / 8) 0).toNat.testBit (i % 8)

def setBit (bits : Bytes) (i : Nat) : Bytes :=
  bits.modify (i / 8) fun b => UInt8.ofNat (b.toNat ||| 2 ^ (i % 8))

def packLoop : Nat → List Bool → Bytes → Bytes
  | _, [], bits => bits
  | i, flag :: flags, bits => packLoop (i + 1) flags (if flag then setBit bits i else bits)

def packBits (flags : List Bool) : Bytes :=
  packLoop 0 flags (List.replicate ((flags.length + 7) / 8) 0)

@[simp] theorem length_setBit (bits : Bytes) (i : Nat) : (setBit bits i).length = bits.length := by
  simp [setBit]

theorem length_packLoop (i : Nat) (flags : List Bool) (bits : Bytes) :
    (packLoop i flags bits).length = bits.length := by
  induction flags generalizing i bits with
  | nil => rfl
  | cons flag flags ih =>
    rw [packLoop, ih]
    split
    next => exact length_setBit bits i
    next => rfl

@[simp] theorem length_packBits (flags : List Bool) :
    (packBits flags).length = (flags.length + 7) / 8 := by
  simp [packBits, length_packLoop]

theorem bitAt_setBit {bits : Bytes} {i : Nat} (hi : i / 8 < bits.length) (j : Nat) :
    bitAt (setBit bits i) j = (decide (j = i) || bitAt bits j) := by
  have hbyte : ∀ b : UInt8, (UInt8.ofNat (b.toNat ||| 2 ^ (i % 8))).toNat =
      b.toNat ||| 2 ^ (i % 8) := by
    intro b
    have hpow : 2 ^ (i % 8) < 2 ^ 8 := Nat.pow_lt_pow_right (by decide) (by omega)
    have hor : b.toNat ||| 2 ^ (i % 8) < 2 ^ 8 := Nat.or_lt_two_pow b.toNat_lt hpow
    rw [UInt8.toNat_ofNat', Nat.mod_eq_of_lt hor]
  simp only [bitAt, setBit, getD_eq_getElem?_getD, getElem?_modify]
  by_cases hq : i / 8 = j / 8
  · -- the same byte: the bit is the one set exactly when the positions agree
    have hget : bits[j / 8]? = some bits[j / 8] := getElem?_eq_getElem (hq ▸ hi)
    have hpos : (i % 8 = j % 8) ↔ j = i := by omega
    simp only [hq, if_true, hget, Option.map_eq_map, Option.map_some, Option.getD_some, hbyte,
      Nat.testBit_or, Nat.testBit_two_pow, hpos]
    exact Bool.or_comm _ _
  · have hne : j ≠ i := fun h => hq (by rw [h])
    simp [hq, hne]

theorem bitAt_packLoop (i : Nat) (flags : List Bool) (bits : Bytes)
    (hroom : i + flags.length ≤ 8 * bits.length) (j : Nat) :
    bitAt (packLoop i flags bits) j =
      ((decide (i ≤ j) && flags.getD (j - i) false) || bitAt bits j) := by
  induction flags generalizing i bits with
  | nil => simp [packLoop]
  | cons flag flags ih =>
    simp only [length_cons] at hroom
    have hbit : bitAt (if flag then setBit bits i else bits) j =
        ((decide (j = i) && flag) || bitAt bits j) := by
      cases flag with
      | false => simp
      | true => simp [bitAt_setBit (show i / 8 < bits.length by omega)]
    have hlen : (if flag then setBit bits i else bits).length = bits.length := by
      split <;> simp
    rw [packLoop, ih (i + 1) _ (by omega), hbit]
    rcases Nat.lt_trichotomy j i with hlt | rfl | hgt
    · simp [show ¬ i + 1 ≤ j by omega, show ¬ i ≤ j by omega, show j ≠ i by omega]
    · simp
    · -- past the head: the flag comes from the tail
      obtain ⟨d, rfl⟩ : ∃ d, j = i + 1 + d := ⟨j - (i + 1), by omega⟩
      have hsub : i + 1 + d - i = d + 1 := by omega
      simp [hsub, show i ≤ i + 1 + d by omega, show i + 1 + d ≠ i by omega]

theorem bitAt_packBits (flags : List Bool) (i : Nat) :
    bitAt (packBits flags) i = flags.getD i false := by
  have hzero : bitAt (List.replicate ((flags.length + 7) / 8) 0) i = false := by
    simp [bitAt, getD_eq_getElem?_getD, getElem?_replicate]
    split <;> simp
  rw [packBits, bitAt_packLoop 0 flags _ (by simp; omega), hzero]
  simp

end MongrelDB.Lib
