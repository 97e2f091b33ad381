import Mathlib

/-!
# Bit fields

Fields of a fixed-width word, read by shifting and masking and written by masking and
shifting. A word is packed by or-ing fields together; a field that no other overlaps
reads back what was put there.
-/

namespace BitFields

open BitVec

variable {w : ℕ}

/-- The word whose low `len` bits are set. -/
def lowMask (len : ℕ) : BitVec w := (1#w <<< len) - 1#w

/-- The value of the field of `len` bits that starts at bit `low`. -/
def field (low len : ℕ) (x : BitVec w) : BitVec w := (x >>> low) &&& lowMask len

/-- A word that is zero outside the field of `len` bits at `low`. -/
def place (low len : ℕ) (x : BitVec w) : BitVec w := (x &&& lowMask len) <<< low

theorem toNat_lowMask (short : len < w) : (lowMask len : BitVec w).toNat = 2 ^ len - 1 := by
  have powers : 2 ^ len < 2 ^ w := Nat.pow_lt_pow_right (by omega) short
  have one : 1 % 2 ^ w = 1 := Nat.mod_eq_of_lt (Nat.one_lt_two_pow (by omega))
  have pos : 0 < 2 ^ len := Nat.two_pow_pos len
  rw [lowMask, toNat_sub, toNat_shiftLeft, toNat_ofNat, one, Nat.shiftLeft_eq, one_mul, Nat.mod_eq_of_lt powers]
  rw [show 2 ^ w - 1 + 2 ^ len = 2 ^ len - 1 + 2 ^ w by omega, Nat.add_mod_right]
  exact Nat.mod_eq_of_lt (by omega)

theorem getLsbD_lowMask (short : len < w) (i : ℕ) : (lowMask len : BitVec w).getLsbD i = decide (i < len) := by
  rw [getLsbD, toNat_lowMask short, Nat.testBit_two_pow_sub_one]

theorem getLsbD_place (short : len < w) (x : BitVec w) (i : ℕ) : (place low len x).getLsbD i =
      (decide (i < w) && (!decide (i < low)) && (x.getLsbD (i - low) && decide (i - low < len))) := by
  simp only [place, getLsbD_shiftLeft, getLsbD_and, getLsbD_lowMask short]

theorem getLsbD_field (short : len < w) (x : BitVec w) (i : ℕ) :
    (field low len x).getLsbD i = (x.getLsbD (low + i) && decide (i < len)) := by
  simp only [field, getLsbD_ushiftRight, getLsbD_and, getLsbD_lowMask short]

theorem field_or (x y : BitVec w) : field low len (x ||| y) = field low len x ||| field low len y := by
  apply eq_of_getLsbD_eq
  intro i _
  simp only [field, getLsbD_and, getLsbD_or, getLsbD_ushiftRight]
  cases (lowMask len : BitVec w).getLsbD i <;> simp

theorem field_place (short : len < w) (fits : low + len ≤ w) (x : BitVec w) :
    field low len (place low len x) = x &&& lowMask len := by
  apply eq_of_getLsbD_eq
  intro i _
  rw [getLsbD_field short, getLsbD_place short, getLsbD_and, getLsbD_lowMask short]
  by_cases inside : i < len
  · simp [inside, show low + i < w by omega]
  · simp [inside]

theorem field_place_apart (short : len < w) (short' : len' < w)
    (apart : low + len ≤ low' ∨ low' + len' ≤ low) (x : BitVec w) : field low len (place low' len' x) = 0#w := by
  apply eq_of_getLsbD_eq
  intro i _
  rw [getLsbD_field short, getLsbD_place short', getLsbD_zero]
  by_cases inside : i < len
  · rcases apart with below | above
    · simp [show low + i < low' by omega]
    · simp [show ¬ low + i - low' < len' by omega]
  · simp [inside]

theorem and_lowMask_of_lt (short : len < w) {x : BitVec w} (small : x.toNat < 2 ^ len) : x &&& lowMask len = x := by
  apply eq_of_toNat_eq
  rw [toNat_and, toNat_lowMask short, Nat.and_two_pow_sub_one_eq_mod]
  exact Nat.mod_eq_of_lt small

end BitFields
