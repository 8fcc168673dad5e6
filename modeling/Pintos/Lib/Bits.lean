/-
  Bit masks on numbers.

  What the bitwise operations of a program compute, in terms of quotients and remainders.
-/
import Mathlib.Tactic

namespace Lib

variable {x y m n : ℕ}

theorem or_eq_add (hx : x % 2 ^ n = 0) (hy : y < 2 ^ n) : x ||| y = x + y := by
  obtain ⟨k, rfl⟩ := Nat.dvd_of_mod_eq_zero hx
  exact (Nat.two_pow_add_eq_or_of_lt hy k).symm

theorem and_high (hnm : n ≤ m) (hx : x < 2 ^ m) : x &&& (2 ^ m - 2 ^ n) = x / 2 ^ n * 2 ^ n := by
  have hmask : 2 ^ m - 2 ^ n = (2 ^ (m - n) - 1) * 2 ^ n := by
    rw [Nat.sub_mul, one_mul, ← pow_add, Nat.sub_add_cancel hnm]
  apply Nat.eq_of_testBit_eq
  intro i
  rw [Nat.testBit_and, hmask, Nat.testBit_mul_two_pow, Nat.testBit_two_pow_sub_one, Nat.testBit_mul_two_pow,
    Nat.testBit_div_two_pow]
  by_cases hi : n ≤ i
  · by_cases him : i < m
    · simp [hi, show i - n < m - n by omega]
    · have hlarge : x.testBit i = false := Nat.testBit_lt_two_pow (lt_of_lt_of_le hx (Nat.pow_le_pow_right (by decide) (by omega)))
      simp [hi, hlarge]
  · simp [hi]

end Lib
