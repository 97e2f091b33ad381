import Mathlib.Data.Set.Function
import Mathlib.Order.Interval.Set.Defs
import Mathlib.Tactic.Ring

/-! # Back references

A stretch of a sequence that repeats what stands a fixed distance before it is restored by copying values one at a time,
also when the distance is shorter than the stretch and a copied value is copied again.
-/

namespace BackReference

open Function

variable {α : Type*}

/-- Fill so many positions from `i` on, in order, each with what stands `back` positions before it. -/
def copyBack (back : ℕ) : ℕ → ℕ → (ℕ → α) → ℕ → α
  | 0, _, mem => mem
  | n + 1, i, mem => copyBack back n (i + 1) (Function.update mem i (mem (i - back)))

/-- From `i` on, so many values are the ones `back` positions before. -/
def Repeats (whole : ℕ → α) (back i n : ℕ) : Prop := ∀ j, j < n → whole (i + j) = whole (i + j - back)

/-- The first `i` values are in place. -/
def Restored (whole mem : ℕ → α) (i : ℕ) : Prop := ∀ x, x < i → mem x = whole x

variable {whole mem : ℕ → α} {back i n : ℕ}

theorem Repeats.tail (repeats : Repeats whole back i (n + 1)) : Repeats whole back (i + 1) n := by
  intro j less
  have next := repeats (j + 1) (Nat.succ_lt_succ less)
  rwa [show i + (j + 1) = i + 1 + j by ring] at next

theorem Restored.update (restored : Restored whole mem i) : Restored whole (Function.update mem i (whole i)) (i + 1) := by
  intro x less
  by_cases last : x = i
  · rw [last, update_self]
  · rw [update_of_ne last]
    exact restored x (by omega)

theorem Restored.copyBack (restored : Restored whole mem i) (positive : 0 < back) (le : back ≤ i)
    (repeats : Repeats whole back i n) : Restored whole (copyBack back n i mem) (i + n) := by
  induction n generalizing i mem with
  | zero => exact restored
  | succ n ih =>
    have here : mem (i - back) = whole i := by
      rw [restored (i - back) (by omega)]
      exact (repeats 0 (Nat.succ_pos n)).symm
    rw [BackReference.copyBack, here, show i + (n + 1) = i + 1 + n by ring]
    exact ih restored.update (by omega) repeats.tail

theorem copyBack_of_le (after : i + n ≤ x) : copyBack back n i mem x = mem x := by
  induction n generalizing i mem with
  | zero => rfl
  | succ n ih =>
    rw [BackReference.copyBack, ih (by omega), update_of_ne (by omega)]

theorem update_congr (agree : Set.EqOn mem mem' (Set.Iio stop)) (a : α) :
    Set.EqOn (Function.update mem i a) (Function.update mem' i a) (Set.Iio stop) := by
  intro x less
  by_cases here : x = i
  · rw [here, update_self, update_self]
  · rw [update_of_ne here, update_of_ne here, agree less]

/-- A copy reads nothing from where it ends on. -/
theorem copyBack_congr (agree : Set.EqOn mem mem' (Set.Iio stop)) (inside : i + n ≤ stop) :
    Set.EqOn (copyBack back n i mem) (copyBack back n i mem') (Set.Iio stop) := by
  induction n generalizing i mem mem' with
  | zero => exact agree
  | succ n ih =>
    have read : mem (i - back) = mem' (i - back) := agree (Set.mem_Iio.mpr (by omega))
    rw [copyBack, copyBack, read]
    exact ih (update_congr agree _) (by omega)

end BackReference
