import Mathlib

/-!
# Checked steps

Functions into `Option` written as a sequence of guarded steps. `none` means that a check failed.
-/

namespace Checked

theorem guard_eq_some [Decidable p] : (guard p : Option Unit) = some u ↔ p := by
  by_cases holds : p <;> simp [guard, holds]

theorem guard_of [Decidable p] (holds : p) : (guard p : Option Unit) = some () :=
  guard_eq_some.mpr holds

end Checked
