import Mathlib

/-!
# The fourth-order Fletcher checksum

`fletcher_4_native` keeps four running sums of the words of a buffer, each the sum of the one before.
In the first three a word counts once, as often as there are words from it on, and as often as there
are pairs of those. Three words cannot cancel out in all of them.
-/

namespace MacZfs.Fletcher

open List Nat

/-- The sums of `fletcher_4_native`, of type `uint64_t`. -/
structure Sums where
  a : ℕ
  b : ℕ
  c : ℕ
  d : ℕ
  deriving DecidableEq

/-- The body of the loop. -/
def addWord (s : Sums) (word : UInt32) : Sums :=
  let a := (s.a + word.toNat) % 2 ^ 64
  let b := (s.b + a) % 2 ^ 64
  let c := (s.c + b) % 2 ^ 64
  let d := (s.d + c) % 2 ^ 64
  ⟨a, b, c, d⟩

/-- `fletcher_4_native`. The buffer is its 32-bit words. -/
def fletcher4Native (words : List UInt32) : Sums := words.foldl addWord ⟨0, 0, 0, 0⟩

/-! ## Differences -/

/-- The difference of two buffers, each word with a weight for the number of words from it on. -/
def difference (w : ℕ → ℤ) : List UInt32 → List UInt32 → ℤ
  | x :: xs, y :: ys => w (xs.length + 1) * (x.toNat - y.toNat) + difference w xs ys
  | _, _ => 0

/-- Where two buffers differ, counted from the end. -/
def differing : List UInt32 → List UInt32 → List ℕ
  | x :: xs, y :: ys => if x = y then differing xs ys else (xs.length + 1) :: differing xs ys
  | _, _ => []

/-- How many pairs, with repetition, there are of so many words. -/
def pairs (n : ℕ) : ℕ := (n + 1).choose 2

theorem pairs_succ (n : ℕ) : pairs (n + 1) = pairs n + (n + 1) := by
  rw [pairs, choose_succ_succ, choose_one_right, add_comm]
  rfl

theorem two_mul_pairs (n : ℕ) : 2 * (pairs n : ℤ) = n * (n + 1) := by
  induction n with
  | zero => rfl
  | succ n ih =>
    rw [pairs_succ]
    push_cast
    linarith

theorem cast_addWord (s : Sums) (word : UInt32) : ((addWord s word).a : ZMod (2 ^ 64)) = s.a + word.toNat ∧
    ((addWord s word).b : ZMod (2 ^ 64)) = s.b + (s.a + word.toNat) ∧
      ((addWord s word).c : ZMod (2 ^ 64)) = s.c + (s.b + (s.a + word.toNat)) := by
  simp [addWord]

/-- Two runs of the loop over buffers of one size. The sums are those of the words, modulo `2 ^ 64`. -/
theorem foldl_addWord (xs ys : List UInt32) (same : xs.length = ys.length) (s t : Sums) : let f := xs.foldl addWord s
    let g := ys.foldl addWord t
    (f.a - g.a : ZMod (2 ^ 64)) = (s.a - t.a) + (difference (fun _ => 1) xs ys : ℤ) ∧
      (f.b - g.b : ZMod (2 ^ 64)) = (s.b - t.b) + xs.length * (s.a - t.a) + (difference (↑) xs ys : ℤ) ∧
      (f.c - g.c : ZMod (2 ^ 64)) = (s.c - t.c) + xs.length * (s.b - t.b) + pairs xs.length * (s.a - t.a) +
        (difference (fun n => pairs n) xs ys : ℤ) := by
  induction xs generalizing ys s t with
  | nil =>
    cases length_eq_zero_iff.mp same.symm
    simp [difference, pairs]
  | cons x xs ih =>
    cases ys with
    | nil => cases same
    | cons y ys =>
      obtain ⟨first, second, third⟩ := ih ys (Nat.succ.inj same) (addWord s x) (addWord t y)
      obtain ⟨a, b, c⟩ := cast_addWord s x
      obtain ⟨a', b', c'⟩ := cast_addWord t y
      simp only [foldl_cons, first, second, third, a, b, c, a', b', c', difference, length_cons, pairs_succ]
      push_cast
      refine ⟨?_, ?_, ?_⟩ <;> ring

/-! ## Three words -/

variable {xs ys : List UInt32}

theorem differing_le : ∀ n ∈ differing xs ys, n ≤ xs.length := by
  induction xs generalizing ys with
  | nil => simp [differing]
  | cons x xs ih =>
    cases ys with
    | nil => simp [differing]
    | cons y ys =>
      intro n member
      rw [differing] at member
      split at member
      · exact (ih n member).trans (le_succ _)
      · cases member with
        | head => exact le_rfl
        | tail _ member => exact (ih n member).trans (le_succ _)

theorem length_differing : (differing xs ys).length = (xs.zip ys).countP fun p => p.1 ≠ p.2 := by
  induction xs generalizing ys with
  | nil => simp [differing]
  | cons x xs ih =>
    cases ys with
    | nil => simp [differing]
    | cons y ys => by_cases same : x = y <;> simp [differing, same, ih]

theorem difference_eq_zero (vanish : ∀ n ∈ differing xs ys, w n = 0) : difference w xs ys = 0 := by
  induction xs generalizing ys with
  | nil => rfl
  | cons x xs ih =>
    cases ys with
    | nil => rfl
    | cons y ys =>
      rw [differing] at vanish
      rw [difference]
      split at vanish
      · rename_i same
        rw [same, sub_self, mul_zero, zero_add, ih vanish]
      · rw [forall_mem_cons] at vanish
        rw [vanish.1, zero_mul, zero_add, ih vanish.2]

theorem difference_linear (p q r : ℤ) (u v w : ℕ → ℤ) : difference (fun n => p * u n + q * v n + r * w n) xs ys =
    p * difference u xs ys + q * difference v xs ys + r * difference w xs ys := by
  induction xs generalizing ys with
  | nil => simp [difference]
  | cons x xs ih =>
    cases ys with
    | nil => simp [difference]
    | cons y ys =>
      rw [difference, difference, difference, difference, ih]
      ring

theorem abs_difference_le {w : ℕ → ℤ} {bound : ℤ} (bounded : ∀ n ≤ xs.length, |w n| ≤ bound) :
    |difference w xs ys| ≤ (differing xs ys).length * (bound * (2 ^ 32 - 1)) := by
  induction xs generalizing ys with
  | nil => simp [difference, differing]
  | cons x xs ih =>
    cases ys with
    | nil => simp [difference, differing]
    | cons y ys =>
      have rest := @ih ys fun n le => bounded n (le.trans (le_succ _))
      rw [difference, differing]
      split
      · rename_i same
        simpa [same] using rest
      · have word : |(x.toNat : ℤ) - y.toNat| ≤ 2 ^ 32 - 1 := by
          have := x.toNat_lt
          have := y.toNat_lt
          rw [abs_le]
          omega
        have weight := bounded _ (le_refl (xs.length + 1))
        calc |w (xs.length + 1) * (x.toNat - y.toNat) + difference w xs ys|
            ≤ |w (xs.length + 1)| * |(x.toNat : ℤ) - y.toNat| + |difference w xs ys| := by
              rw [← abs_mul]
              exact abs_add_le _ _
          _ ≤ bound * (2 ^ 32 - 1) + (differing xs ys).length * (bound * (2 ^ 32 - 1)) := by
              gcongr
              exact (abs_nonneg _).trans weight
          _ = _ := by
              push_cast [length_cons]
              ring

/-- At most three words that cancel out in three sums are none. -/
theorem differing_eq_nil (few : (differing xs ys).length ≤ 3) (first : difference (fun _ => 1) xs ys = 0)
    (second : difference (↑) xs ys = 0) (third : difference (fun n => pairs n) xs ys = 0) : differing xs ys = [] := by
  induction xs generalizing ys with
  | nil => rfl
  | cons x xs ih =>
    cases ys with
    | nil => rfl
    | cons y ys =>
      by_cases same : x = y
      · simp only [difference, same, sub_self, mul_zero, zero_add] at first second third
        rw [differing, if_pos same] at few ⊢
        exact ih few first second third
      -- A polynomial of degree two that vanishes where the later words differ.
      · exfalso
        rw [differing, if_neg same, length_cons] at few
        obtain ⟨i, j, vanish, hi, hj⟩ : ∃ i j : ℕ, (∀ n ∈ differing xs ys, ((n : ℤ) - i) * (n - j) = 0) ∧
            i ≤ xs.length ∧ j ≤ xs.length := by
          have inside := @differing_le xs ys
          rcases places : differing xs ys with _ | ⟨i, _ | ⟨j, _ | ⟨k, rest⟩⟩⟩
          · exact ⟨0, 0, by simp, by simp⟩
          · rw [places] at inside
            exact ⟨i, i, by simp, inside i (by simp), inside i (by simp)⟩
          · rw [places] at inside
            exact ⟨i, j, by simp, inside i (by simp), inside j (by simp)⟩
          · rw [places] at few
            simp only [length_cons] at few
            omega
        have zero : difference (fun n => (i * j : ℤ) * 1 + -(i + j + 1) * n + 2 * pairs n) (x :: xs) (y :: ys) = 0 := by
          rw [difference_linear, first, second, third]
          ring
        rw [difference, difference_eq_zero, add_zero, two_mul_pairs] at zero
        · have apart : (x.toNat : ℤ) - y.toNat ≠ 0 := by
            rw [sub_ne_zero]
            exact_mod_cast fun eq => same (UInt32.toNat_inj.mp eq)
          have outside : ((xs.length + 1 : ℕ) - (i : ℤ)) * ((xs.length + 1 : ℕ) - j) ≠ 0 :=
            mul_ne_zero (by omega) (by omega)
          apply mul_ne_zero outside apart
          rw [← zero]
          ring
        · intro n member
          rw [← vanish n member, two_mul_pairs]
          ring

/-- A difference that is zero modulo `2 ^ 64` is zero, in a buffer of at most 128K. -/
theorem difference_of_cast (few : (differing xs ys).length ≤ 3)
    (bounded : ∀ n ≤ xs.length, |w n| ≤ 2 ^ 29 + 2 ^ 14) (zero : ((difference w xs ys : ℤ) : ZMod (2 ^ 64)) = 0) :
    difference w xs ys = 0 := by
  apply Int.eq_zero_of_abs_lt_dvd ((ZMod.intCast_zmod_eq_zero_iff_dvd _ _).mp zero)
  have := @abs_difference_le xs ys w _ bounded
  push_cast
  nlinarith

/-- Two buffers that differ in at least one and at most three words have different checksums. -/
theorem fletcher_4_native_ne (same : xs.length = ys.length) (size : 4 * xs.length ≤ 128 * 1024)
    (some : 1 ≤ (xs.zip ys).countP fun p => p.1 ≠ p.2) (few : (xs.zip ys).countP (fun p => p.1 ≠ p.2) ≤ 3) :
    fletcher4Native xs ≠ fletcher4Native ys := by
  intro equal
  rw [← length_differing] at some few
  obtain ⟨first, second, third⟩ := foldl_addWord xs ys same ⟨0, 0, 0, 0⟩ ⟨0, 0, 0, 0⟩
  rw [fletcher4Native, fletcher4Native] at equal
  simp only [equal, sub_self, cast_zero, mul_zero, zero_add, add_zero] at first second third
  have none := differing_eq_nil few (difference_of_cast few (by simp) first.symm)
    (difference_of_cast few (fun n le => by rw [abs_cast]; omega) second.symm)
    (difference_of_cast few (fun n le => ?_) third.symm)
  · simp [none] at some
  · have := two_mul_pairs n
    rw [abs_cast]
    nlinarith

theorem fletcher_4_native_ne_words : fletcher4Native [1, 2, 3] ≠ fletcher4Native [3, 2, 1] :=
  fletcher_4_native_ne rfl (by decide) (by decide) (by decide)

end MacZfs.Fletcher
