import Mathlib

/-!
# Bits of a `uint`

What C's shifts and masks on a 32-bit `uint` are in numbers, as long as the shift stays below
the width: `1 << k` is `2^k`, `w >> k` is `w / 2^k`, `w & ((1 << k) - 1)` is `w % 2^k`, and
setting, clearing and testing bit `k` change or read `Nat.testBit` at `k` only. `i << 3 | j`
with `j < 8` is `8 i + j`, and `j + 1` is `j + 1` while it fits.
-/

set_option autoImplicit false

namespace Word

section Shift

variable {k : UInt32} (hk : k.toNat < 32)
include hk

theorem toNat_one_shiftLeft : ((1 : UInt32) <<< k).toNat = 2 ^ k.toNat := by
  rw [UInt32.toNat_shiftLeft, Nat.mod_eq_of_lt hk, Nat.shiftLeft_eq, UInt32.toNat_one, Nat.one_mul]
  exact Nat.mod_eq_of_lt (lt_of_lt_of_eq (Nat.pow_lt_pow_right (by norm_num) hk) (by norm_num))

theorem toNat_shiftRight (w : UInt32) : (w >>> k).toNat = w.toNat / 2 ^ k.toNat := by
  rw [UInt32.toNat_shiftRight, Nat.shiftRight_eq_div_pow, Nat.mod_eq_of_lt hk]

/-- `(1 << k) - 1` is the mask of the low `k` bits. -/
theorem toNat_and_mask (w : UInt32) : (w &&& ((1 <<< k) - 1)).toNat = w.toNat % 2 ^ k.toNat := by
  have hle : (1 : UInt32) ≤ 1 <<< k := by
    rw [UInt32.le_iff_toNat_le, toNat_one_shiftLeft hk]
    exact Nat.one_le_two_pow
  rw [UInt32.toNat_and, UInt32.toNat_sub_of_le _ _ hle, toNat_one_shiftLeft hk]
  simp

theorem shiftRight_ne_zero_iff (w : UInt32) : w >>> k ≠ 0 ↔ 2 ^ k.toNat ≤ w.toNat := by
  rw [Ne, ← UInt32.toNat_inj, toNat_shiftRight hk, UInt32.toNat_zero, Nat.div_eq_zero_iff]
  simp

/-- `(w & (1 << k)) == 0` tests bit `k`. -/
theorem and_bit_eq_zero_iff (w : UInt32) :
    w &&& (1 <<< k) = 0 ↔ w.toNat.testBit k.toNat = false := by
  rw [← UInt32.toNat_inj, UInt32.toNat_and, toNat_one_shiftLeft hk, Nat.and_two_pow,
    UInt32.toNat_zero]
  cases w.toNat.testBit k.toNat <;> simp

/-- `w | (1 << k)` sets bit `k` and no other. -/
theorem testBit_or_bit (w : UInt32) (n : Nat) :
    (w ||| (1 <<< k)).toNat.testBit n = (w.toNat.testBit n || decide (k.toNat = n)) := by
  rw [UInt32.toNat_or, toNat_one_shiftLeft hk, Nat.testBit_or, Nat.testBit_two_pow]

/-- `w & ~(1 << k)` clears bit `k` and no other. -/
theorem testBit_and_not_bit (w : UInt32) (n : Nat) :
    (w &&& ~~~(1 <<< k)).toNat.testBit n = (w.toNat.testBit n && !decide (k.toNat = n)) := by
  rw [UInt32.toNat_and, Nat.testBit_and]
  -- the complement is taken on the bit vector, which has no bits from 32 on
  show (_ && (~~~(1 <<< k)).toBitVec.getLsbD n) = _
  rw [UInt32.toBitVec_not, BitVec.getLsbD_not]
  show (_ && (decide (n < 32) && !((1 : UInt32) <<< k).toNat.testBit n)) = _
  rw [toNat_one_shiftLeft hk, Nat.testBit_two_pow]
  by_cases hn : n < 32
  · simp [hn]
  · have hw : w.toNat.testBit n = false := Nat.testBit_eq_false_of_lt
      (lt_of_lt_of_le w.toNat_lt (Nat.pow_le_pow_right (by norm_num) (by omega)))
    simp [hn, hw]

end Shift

/-- A loop counter's `++` while it stays below the width. -/
theorem toNat_add_one {j : UInt32} (h : j.toNat + 1 < 2 ^ 32) : (j + 1).toNat = j.toNat + 1 := by
  rw [UInt32.toNat_add, UInt32.toNat_one]
  exact Nat.mod_eq_of_lt h

/-- `(i << 3) | j` for `j < 8` is `8 i + j`, while `8 i` fits in a word. -/
theorem toNat_shiftLeft_three_or {i j : UInt32} (hi : i.toNat < 2 ^ 29) (hj : j.toNat < 8) :
    ((i <<< 3) ||| j).toNat = 8 * i.toNat + j.toNat := by
  have hshift : (i <<< 3).toNat = i.toNat <<< 3 := by
    rw [UInt32.toNat_shiftLeft, show (3 : UInt32).toNat % 32 = 3 from rfl]
    exact Nat.mod_eq_of_lt (by rw [Nat.shiftLeft_eq]; omega)
  rw [UInt32.toNat_or, hshift, ← Nat.shiftLeft_add_eq_or_of_lt hj, Nat.shiftLeft_eq]
  omega

end Word
