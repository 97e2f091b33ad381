import Mathlib

/-!
# Alignment

Rounding up to a multiple, and the two ways in which machine words compute with powers of two: the
lowest set bit as `x & -x`, and clearing the bits below a power of two with the mask `-(2 ^ k)`.
-/

namespace Alignment

open Nat

/-- The least multiple of `unit` that is not below `x`. -/
def roundUp (x unit : ℕ) : ℕ := (x + unit - 1) / unit * unit

theorem dvd_roundUp (x unit : ℕ) : unit ∣ roundUp x unit := Nat.dvd_mul_left _ _

theorem le_roundUp {x unit} (positive : 0 < unit) : x ≤ roundUp x unit := by
  have split := div_add_mod (x + unit - 1) unit
  have rest := mod_lt (x + unit - 1) positive
  rw [roundUp, Nat.mul_comm]
  omega

theorem roundUp_le {x unit y} (positive : 0 < unit) (multiple : unit ∣ y) (le : x ≤ y) : roundUp x unit ≤ y := by
  obtain ⟨n, rfl⟩ := multiple
  rw [roundUp, Nat.mul_comm unit n]
  apply Nat.mul_le_mul_right
  rw [← Nat.lt_succ_iff, Nat.div_lt_iff_lt_mul positive, succ_mul, Nat.mul_comm n]
  omega

/-- The lowest set bit of a word is the largest power of two that divides it. -/
theorem and_neg {k odd bits} (small : 2 ^ k * (2 * odd + 1) < 2 ^ bits) :
    2 ^ k * (2 * odd + 1) &&& (2 ^ bits - 2 ^ k * (2 * odd + 1)) = 2 ^ k := by
  have unit : 0 < 2 ^ k := Nat.two_pow_pos k
  have pred : 2 ^ k * (2 * odd + 1) = 2 ^ k * (2 * odd) + (2 ^ k - 1) + 1 := by
    rw [Nat.mul_add, Nat.mul_one]
    omega
  have below : 2 ^ k * (2 * odd) + (2 ^ k - 1) < 2 ^ bits := by omega
  apply eq_of_testBit_eq
  intro i
  rw [testBit_and, testBit_two_pow_mul, pred, testBit_two_pow_sub_succ below,
    testBit_two_pow_mul_add _ (by omega), testBit_two_pow]
  -- bit `k` is the only one that differs between the word and its complement
  rcases Nat.lt_trichotomy i k with before | rfl | after
  · simp [before, before.ne']
  · have inside : i < bits := by
      refine (Nat.pow_lt_pow_iff_right (by decide : 1 < 2)).mp (lt_of_le_of_lt ?_ small)
      exact Nat.le_mul_of_pos_right _ (by omega)
    simp [inside]
  · obtain ⟨n, rfl⟩ := Nat.exists_eq_add_of_lt after
    have step : k + n + 1 - k = n + 1 := by omega
    rw [step, if_neg (by omega), testBit_succ, testBit_succ,
      show (2 * odd + 1) / 2 = odd by omega, show 2 * odd / 2 = odd by omega]
    cases odd.testBit n <;> simp [show k ≠ k + n + 1 by omega]

/-- The mask `-(2 ^ k)` clears the bits below `k`. -/
theorem and_mask {x k bits} (small : x < 2 ^ bits) (le : k ≤ bits) :
    x &&& (2 ^ bits - 2 ^ k) = x / 2 ^ k * 2 ^ k := by
  have mask : 2 ^ bits - 2 ^ k = (2 ^ (bits - k) - 1) * 2 ^ k := by
    rw [Nat.sub_mul, Nat.one_mul, ← pow_add, Nat.sub_add_cancel le]
  apply eq_of_testBit_eq
  intro i
  rw [mask, testBit_and, testBit_mul_two_pow, testBit_mul_two_pow, testBit_two_pow_sub_one, testBit_div_two_pow]
  by_cases above : k ≤ i
  · rw [Nat.sub_add_cancel above]
    by_cases inside : i < bits
    · simp [above, show i - k < bits - k by omega]
    · rw [testBit_lt_two_pow (lt_of_lt_of_le small (Nat.pow_le_pow_right (by decide) (by omega)))]
      simp
  · simp [above]

end Alignment
