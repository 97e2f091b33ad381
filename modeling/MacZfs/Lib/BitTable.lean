import Mathlib.Data.Nat.Bitwise
import Mathlib.Data.List.Basic
import Mathlib.Data.List.Nodup

/-!
# Translating flag words

Two words may use different bits for the same flags. A table pairs the bit positions; a word is
translated flag by flag into an accumulator. Translating with a table and then with its inverse
keeps the flags that the table knows, if no two of its rows have the same second position.
-/

namespace BitTable

open Nat

/-- One flag: where `x` has the first bit of the row, the accumulator gets the second. -/
def row (x acc : ℕ) (bits : ℕ × ℕ) : ℕ :=
  if x &&& 1 <<< bits.1 ≠ 0 then acc ||| 1 <<< bits.2 else acc

def translate (table : List (ℕ × ℕ)) (x acc : ℕ) : ℕ := table.foldl (row x) acc

def inverse (table : List (ℕ × ℕ)) : List (ℕ × ℕ) := table.map Prod.swap

def known (table : List (ℕ × ℕ)) : ℕ := table.foldl (fun acc bits => acc ||| 1 <<< bits.1) 0

variable {acc : ℕ}

theorem testBit_row (x acc : ℕ) (bits : ℕ × ℕ) :
    (row x acc bits).testBit i = (acc.testBit i || (bits.2 == i && x.testBit bits.1)) := by
  have present : (x &&& 1 <<< bits.1 ≠ 0) ↔ x.testBit bits.1 = true := by
    rw [one_shiftLeft, and_two_pow]
    cases x.testBit bits.1 <;> simp
  unfold row
  by_cases has : x.testBit bits.1 = true
  · rw [if_pos (present.mpr has), testBit_or, one_shiftLeft, testBit_two_pow, has]
    simp [Bool.beq_eq_decide_eq]
  · rw [if_neg fun nonzero => has (present.mp nonzero)]
    simp [has]

theorem testBit_translate :
    (translate table x acc).testBit i = (acc.testBit i || table.any fun bits => bits.2 == i && x.testBit bits.1) := by
  unfold translate
  induction table generalizing acc with
  | nil => simp
  | cons bits rest ih => rw [List.foldl_cons, ih, testBit_row, List.any_cons, Bool.or_assoc]

theorem translate_acc : translate table x acc = acc ||| translate table x 0 := by
  apply eq_of_testBit_eq
  intro i
  simp [testBit_translate, testBit_or]

theorem translate_or : translate table (x ||| y) 0 = translate table x 0 ||| translate table y 0 := by
  apply eq_of_testBit_eq
  intro i
  simp only [testBit_translate, testBit_or, zero_testBit, Bool.false_or]
  rw [Bool.eq_iff_iff]
  grind

theorem testBit_known : (known table).testBit i = table.any fun bits => bits.1 == i := by
  have general : ∀ acc, (table.foldl (fun acc bits => acc ||| 1 <<< bits.1) acc).testBit i =
      (acc.testBit i || table.any fun bits => bits.1 == i) := by
    induction table with
    | nil => simp
    | cons bits rest ih =>
      intro acc
      rw [List.foldl_cons, ih, testBit_or, one_shiftLeft, testBit_two_pow, List.any_cons, Bool.or_assoc]
      simp [Bool.beq_eq_decide_eq]
  simpa [known] using general 0

theorem translate_inverse (apart : (table.map Prod.snd).Nodup) :
    translate (inverse table) (translate table x 0) 0 = x &&& known table := by
  apply eq_of_testBit_eq
  intro i
  rw [Bool.eq_iff_iff]
  simp only [testBit_translate, testBit_and, testBit_known, inverse, List.any_map, zero_testBit,
    Bool.false_or, Bool.and_eq_true, List.any_eq_true, Function.comp_apply, Prod.fst_swap, Prod.snd_swap,
    beq_iff_eq]
  constructor
  · rintro ⟨bits, member, rfl, bits', member', same, has⟩
    have : bits' = bits := List.inj_on_of_nodup_map apart member' member same
    exact ⟨this ▸ has, bits, member, rfl⟩
  · rintro ⟨has, bits, member, rfl⟩
    exact ⟨bits, member, rfl, bits, member, rfl, has⟩

end BitTable
