import Mathlib

/-! # Ring buffers

Logical offsets only grow. The value at a logical offset is kept in a region of a store, at a place that starts again
from the beginning of the region whenever the end is reached.
-/

namespace Ring

open List Nat

variable {α : Type*}

/-! ## Stores -/

def store (mem : ℕ → α) (place : ℕ) (values : List α) (x : ℕ) : α :=
  if place ≤ x then values[x - place]?.getD (mem x) else mem x

def fetch (mem : ℕ → α) (place n : ℕ) : List α := (List.range n).map fun j => mem (place + j)

variable {mem : ℕ → α} {place j : ℕ}

theorem store_of_lt (less : x < place) : store mem place values x = mem x := by
  rw [store, if_neg (by omega)]

theorem store_of_le (beyond : place + values.length ≤ x) : store mem place values x = mem x := by
  rw [store, if_pos (by omega), getElem?_eq_none (by omega), Option.getD_none]

theorem store_at (inside : j < values.length) : values[j]? = some (store mem place values (place + j)) := by
  rw [store, if_pos (by omega), Nat.add_sub_cancel_left, List.getElem?_eq_getElem inside, Option.getD_some]

@[simp] theorem length_fetch : (fetch mem place n).length = n := by
  simp [fetch]

theorem fetch_getElem? (inside : j < n) : (fetch mem place n)[j]? = some (mem (place + j)) := by
  simp [fetch, inside]

/-! ## Places -/

/-- The place of a logical offset in the region that starts at `base`. -/
def phys (base cap x : ℕ) : ℕ := (x - base) % cap + base

variable {cap start : ℕ}

theorem phys_lt (base : ℕ) (positive : 0 < cap) (x : ℕ) : base ≤ phys base cap x ∧ phys base cap x < base + cap := by
  have := mod_lt (x - base) positive
  rw [phys]
  omega

theorem phys_add (le : base ≤ x) (less : j < cap) : phys base cap (x + j) =
    if phys base cap x + j < base + cap then phys base cap x + j else phys base cap x + j - cap := by
  have positive : 0 < cap := by omega
  have low := mod_lt (x - base) positive
  rw [phys, phys, show x + j - base = (x - base) + j by omega, add_mod, mod_eq_of_lt less]
  split_ifs with inside
  · rw [mod_eq_of_lt (by omega)]
    omega
  · rw [mod_eq_sub_mod (by omega), mod_eq_of_lt (by omega)]
    omega

theorem phys_inj {i} (le : base ≤ x) (less : i < cap) (less' : j < cap)
    (same : phys base cap (x + i) = phys base cap (x + j)) : i = j := by
  rw [phys_add le less, phys_add le less'] at same
  split_ifs at same <;> omega

/-! ## Contents -/

def Holds (base cap : ℕ) (mem : ℕ → α) (start : ℕ) (content : List α) : Prop :=
  ∀ j, j < content.length → content[j]? = some (mem (phys base cap (start + j)))

def write (base cap : ℕ) (mem : ℕ → α) (offset : ℕ) (values : List α) : ℕ → α :=
  let first := min values.length (base + cap - phys base cap offset)
  store (store mem (phys base cap offset) (values.take first)) base (values.drop first)

def read (base cap : ℕ) (mem : ℕ → α) (offset n : ℕ) : List α :=
  let first := min n (base + cap - phys base cap offset)
  fetch mem (phys base cap offset) first ++ fetch mem base (n - first)

theorem holds_nil : Holds base cap mem start [] := fun j none => absurd none (not_lt_zero j)

theorem Holds.drop (holds : Holds base cap mem start content) (k : ℕ) : Holds base cap mem (start + k) (content.drop k) := by
  intro j less
  rw [length_drop] at less
  rw [getElem?_drop, add_assoc]
  exact holds (k + j) (by omega)

theorem write_below (positive : 0 < cap) (less : x < base) : write base cap mem start values x = mem x := by
  have low := (phys_lt base positive start).1
  rw [write, store_of_lt less, store_of_lt (by omega)]

theorem write_at (le : base ≤ start) (fits : values.length ≤ cap) (inside : j < values.length) :
    values[j]? = some (write base cap mem start values (phys base cap (start + j))) := by
  obtain ⟨low, high⟩ := phys_lt base (show 0 < cap by omega) start
  rw [phys_add le (by omega), write]
  split_ifs with early
  · -- the part before the end of the region, which the rest does not reach
    have taken : j < (values.take (min values.length (base + cap - phys base cap start))).length := by
      rw [length_take]
      omega
    rw [store_of_le (by rw [length_drop]; omega), ← store_at taken, getElem?_take_of_lt (by omega)]
  · have first : min values.length (base + cap - phys base cap start) = base + cap - phys base cap start := by omega
    have dropped : j - (base + cap - phys base cap start) <
        (values.drop (base + cap - phys base cap start)).length := by
      rw [length_drop]
      omega
    rw [first, show phys base cap start + j - cap = base + (j - (base + cap - phys base cap start)) by omega,
      ← store_at dropped, getElem?_drop]
    congr 1
    omega

theorem write_other (le : base ≤ start) (fits : values.length ≤ cap)
    (other : ∀ j < values.length, x ≠ phys base cap (start + j)) : write base cap mem start values x = mem x := by
  rcases Nat.eq_zero_or_pos cap with none | positive
  · obtain rfl : values = [] := eq_nil_of_length_eq_zero (by omega)
    simp [write, store]
  · obtain ⟨low, high⟩ := phys_lt base positive start
    have far : ∀ j < values.length, x ≠ if phys base cap start + j < base + cap then phys base cap start + j
        else phys base cap start + j - cap := by
      intro j inside
      rw [← phys_add le (by omega)]
      exact other j inside
    have second : store mem (phys base cap start)
        (values.take (min values.length (base + cap - phys base cap start))) x = mem x := by
      rcases Nat.lt_or_ge x (phys base cap start) with less | more
      · exact store_of_lt less
      · refine store_of_le ?_
        rw [length_take]
        by_contra inside
        have := far (x - phys base cap start) (by omega)
        rw [if_pos (by omega)] at this
        omega
    rw [write]
    rcases Nat.lt_or_ge x base with less | more
    · rw [store_of_lt less, second]
    · rw [store_of_le ?_, second]
      rw [length_drop]
      by_contra inside
      have := far (x - base + (base + cap - phys base cap start)) (by omega)
      rw [if_neg (by omega)] at this
      omega

theorem Holds.write (values : List α) (holds : Holds base cap mem start content) (le : base ≤ start)
    (room : content.length + values.length ≤ cap) :
    Holds base cap (write base cap mem (start + content.length) values) start (content ++ values) := by
  intro j less
  rw [length_append] at less
  rcases lt_or_ge j content.length with early | late
  · rw [getElem?_append_left early, holds j early, write_other (by omega) (by omega) fun k inside same => ?_]
    rw [add_assoc] at same
    have := phys_inj le (by omega) (by omega) same
    omega
  · rw [getElem?_append_right late, show start + j = start + content.length + (j - content.length) by omega]
    exact write_at (by omega) (by omega) (by omega)

theorem Holds.read (holds : Holds base cap mem start content) (le : base ≤ start) (fits : content.length ≤ cap)
    (all : n ≤ content.length) : read base cap mem start n = content.take n := by
  have length : (Ring.read base cap mem start n).length = n := by
    simp only [Ring.read, length_append, length_fetch]
    omega
  refine ext_getElem? fun j => ?_
  rcases lt_or_ge j n with inside | outside
  · rw [getElem?_take_of_lt inside, holds j (by omega), phys_add le (by omega), Ring.read]
    obtain ⟨low, high⟩ := phys_lt base (show 0 < cap by omega) start
    split_ifs with early
    · rw [getElem?_append_left (by rw [length_fetch]; omega), fetch_getElem? (by omega)]
    · rw [getElem?_append_right (by rw [length_fetch]; omega), length_fetch, fetch_getElem? (by omega)]
      congr 2
      omega
  · rw [getElem?_eq_none (by omega), getElem?_eq_none (by rw [length_take]; omega)]

end Ring
