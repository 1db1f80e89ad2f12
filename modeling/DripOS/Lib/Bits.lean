import Mathlib.Data.Nat.Bitwise

/-!
# Bit fields of natural numbers

Masks and shifts of machine words become division and remainder: `and_field` for a mask of
consecutive ones, `or_low` for filling the low bits of an aligned word, `and_bit_eq_zero` for
testing one bit.  `sub64` is the difference of two words of 64 bits.
-/

namespace DripOS

open Nat

/-- `x - y` on `uint64_t`. -/
def sub64 (x y : ℕ) : ℕ := (x + 2 ^ 64 - y % 2 ^ 64) % 2 ^ 64

theorem sub64_eq {x y : ℕ} (h : y ≤ x) (hx : x < 2 ^ 64) : sub64 x y = x - y := by
  rw [sub64, mod_eq_of_lt (h.trans_lt hx)]
  omega

namespace Bits

/-- Masking with `w` ones from bit `k` on keeps this field. -/
theorem and_field (a k w : ℕ) : a &&& ((2 ^ w - 1) <<< k) = a / 2 ^ k % 2 ^ w * 2 ^ k := by
  apply eq_of_testBit_eq
  intro i
  rw [← shiftLeft_eq, ← shiftRight_eq_div_pow, testBit_land, testBit_shiftLeft,
    testBit_shiftLeft, testBit_two_pow_sub_one, testBit_mod_two_pow,
    testBit_shiftRight]
  by_cases hi : k ≤ i
  · rw [Nat.add_sub_cancel' hi, Bool.and_comm, Bool.and_assoc]
  · simp [hi]

/-- Shifting the field down to bit `0`. -/
theorem field_shiftRight (a k w : ℕ) : (a &&& ((2 ^ w - 1) <<< k)) >>> k = a / 2 ^ k % 2 ^ w := by
  rw [and_field, shiftRight_eq_div_pow, Nat.mul_div_cancel _ (Nat.two_pow_pos k)]

/-- Filling the low bits of an aligned word. -/
theorem or_low {a b k : ℕ} (hb : b < 2 ^ k) : a * 2 ^ k ||| b = a * 2 ^ k + b := by
  rw [Nat.mul_comm, two_pow_add_eq_or_of_lt hb]

theorem and_bit_eq_zero {a k : ℕ} : a &&& 2 ^ k = 0 ↔ a.testBit k = false := by
  rw [and_two_pow]
  cases a.testBit k <;> simp

/-- The mask `~0xfff` clears the offset within a page of 4 KiB. -/
theorem and_pageMask (a : ℕ) : a &&& 0xFFFFFFFFFFFFF000 = a / 0x1000 % 2 ^ 52 * 0x1000 :=
  and_field a 12 52

end Bits

end DripOS
