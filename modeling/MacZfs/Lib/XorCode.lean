import Mathlib

/-!
# Two checks over exclusive or

A row of words is protected by its sum and by a second sum that is weighted with the powers of an
additive map `T`, as Horner's scheme computes it. One lost word is found again from either sum and
two lost words from both, when some power of `T` undoes `1 + T ^ k`.
-/

namespace XorCode

open Function List BitVec

variable {w : ℕ}

/-- The first check: `d₀ + d₁ + ⋯`. -/
def total (d : List (BitVec w)) : BitVec w := d.foldl (· ^^^ ·) 0#w

/-- The second check: `(⋯ (T d₀ + d₁) ⋯) T + dₙ`. -/
def horner (T : BitVec w → BitVec w) (d : List (BitVec w)) : BitVec w := d.foldl (fun q x => T q ^^^ x) 0#w

/-- `T` is a map of sums. -/
def Additive (T : BitVec w → BitVec w) : Prop := ∀ a b, T (a ^^^ b) = T a ^^^ T b

section Additive

variable {T : BitVec w → BitVec w}

theorem Additive.zero (additive : Additive T) : T 0#w = 0#w := by
  have twice := additive 0#w 0#w
  rw [BitVec.xor_self, BitVec.xor_self] at twice
  exact twice

theorem Additive.iterate (additive : Additive T) (n : ℕ) : Additive T^[n] := by
  induction n with
  | zero => exact fun a b => rfl
  | succ n ih =>
    intro a b
    rw [iterate_succ_apply', iterate_succ_apply', iterate_succ_apply', ih a b, additive]

end Additive

/-! ## One word apart from the others -/

theorem foldl_xor (d : List (BitVec w)) (a : BitVec w) : d.foldl (· ^^^ ·) a = a ^^^ total d := by
  induction d generalizing a with
  | nil => simp [total]
  | cons head tail ih =>
    simp only [total, foldl_cons]
    rw [ih (a ^^^ head), ih (0#w ^^^ head), zero_xor, xor_assoc]

@[simp]
theorem total_cons (a : BitVec w) (d : List (BitVec w)) : total (a :: d) = a ^^^ total d := by
  rw [total, foldl_cons, foldl_xor, zero_xor]

theorem total_set (inside : x < d.length) : total d = d[x] ^^^ total (d.set x 0#w) := by
  induction d generalizing x with
  | nil => simp at inside
  | cons head tail ih =>
    cases x with
    | zero => simp
    | succ x =>
      rw [set_cons_succ, total_cons, total_cons, ih (Nat.lt_of_succ_lt_succ inside),
        getElem_cons_succ, ← BitVec.xor_assoc, ← BitVec.xor_assoc, BitVec.xor_comm head]

section Horner

variable {T : BitVec w → BitVec w} (additive : Additive T)

include additive

theorem foldl_horner (d : List (BitVec w)) (a : BitVec w) :
    d.foldl (fun q x => T q ^^^ x) a = T^[d.length] a ^^^ horner T d := by
  induction d generalizing a with
  | nil => simp [horner]
  | cons head tail ih =>
    simp only [horner, foldl_cons, length_cons]
    rw [ih (T a ^^^ head), ih (T 0#w ^^^ head), additive.zero, zero_xor,
      (additive.iterate tail.length), iterate_succ_apply, xor_assoc]

theorem horner_cons (a : BitVec w) (d : List (BitVec w)) : horner T (a :: d) = T^[d.length] a ^^^ horner T d := by
  rw [horner, foldl_cons, foldl_horner additive, additive.zero, zero_xor]

theorem horner_set (inside : x < d.length) : horner T d = T^[d.length - 1 - x] d[x] ^^^ horner T (d.set x 0#w) := by
  induction d generalizing x with
  | nil => simp at inside
  | cons head tail ih =>
    cases x with
    | zero =>
      simp [horner_cons additive, (additive.iterate tail.length).zero]
    | succ x =>
      have later : x < tail.length := Nat.lt_of_succ_lt_succ inside
      have weight : (head :: tail).length - 1 - (x + 1) = tail.length - 1 - x := by
        rw [length_cons]
        omega
      rw [set_cons_succ, horner_cons additive, horner_cons additive, ih later, length_set,
        getElem_cons_succ, weight, ← BitVec.xor_assoc, ← BitVec.xor_assoc,
        BitVec.xor_comm (T^[tail.length] head)]

end Horner

/-! ## Lost words -/

theorem xor_cancel (a b : BitVec w) : a ^^^ b ^^^ b = a := by
  rw [BitVec.xor_assoc, BitVec.xor_self, BitVec.xor_zero]

theorem solve_total (inside : x < d.length) : total d ^^^ total (d.set x 0#w) = d[x] := by
  rw [total_set inside, xor_cancel]

section Solve

variable {T : BitVec w → BitVec w} (additive : Additive T) {n : ℕ} (period : ∀ a, T^[n] a = a)

include additive period

theorem solve_horner (inside : x < d.length) (short : d.length ≤ n) :
    T^[n - (d.length - 1 - x)] (horner T (d.set x 0#w) ^^^ horner T d) = d[x] := by
  have back : n - (d.length - 1 - x) + (d.length - 1 - x) = n := by omega
  rw [horner_set additive inside, BitVec.xor_comm, xor_cancel, ← iterate_add_apply, back, period]

/-- Two lost words, from both checks. `T ^ t` undoes `1 + T ^ (n - k)`. -/
theorem solve_pair (weights : i = j + k) (low : i ≤ n) (small : k ≤ n)
    (log : ∀ z, T^[l] z = T^[n - k] z ^^^ z) (inverse : t + l = n)
    (left : ∀ z, T^[ea] z = T^[t] (T^[n - k] z)) (right : ∀ z, T^[eb] z = T^[t] (T^[n - i] z)) :
    T^[ea] (a ^^^ b) ^^^ T^[eb] (T^[i] a ^^^ T^[j] b) = a := by
  have first : T^[n - i] (T^[i] a) = a := by
    rw [← iterate_add_apply, Nat.sub_add_cancel low, period]
  have second : T^[n - i] (T^[j] b) = T^[n - k] b := by
    rw [← iterate_add_apply]
    congr 2
    omega
  have sum : T^[n - k] (a ^^^ b) ^^^ (a ^^^ T^[n - k] b) = T^[l] a := by
    rw [additive.iterate (n - k), log, BitVec.xor_assoc, BitVec.xor_comm a, ← BitVec.xor_assoc (T^[n - k] b),
      BitVec.xor_self, BitVec.zero_xor]
  rw [left, right, additive.iterate (n - i), first, second, ← additive.iterate t, sum,
    ← iterate_add_apply, inverse, period]

end Solve

end XorCode
