import Mathlib

/-!
# The nodes of a radix tree in preorder

A node of a tree in which every node has `2 ^ w` children is a level, counted from the leaves, and a number
within the level. In preorder the nodes are ordered by the first leaf under them, and those with the same first
leaf from the top level `top` down. `rank` is a number that says so. After a node and all that is under it comes
the next one of the same level, or rather the highest one that begins with the same leaf.
-/

namespace Preorder

open Nat

def start (w l b : ℕ) : ℕ := b * 2 ^ (l * w)

def rank (w top l b : ℕ) : ℕ := start w l b * (top + 1) + (top - l)

/-- The node of level `m` that a node of level `l` is under. -/
def up (w l b m : ℕ) : ℕ := b / 2 ^ ((m - l) * w)

theorem start_le_of_rank_le {w top l b m c} (low : l ≤ top) (low' : m ≤ top)
    (le : rank w top l b ≤ rank w top m c) : start w l b ≤ start w m c := by
  by_contra lt
  rw [rank, rank] at le
  have := mul_le_mul_right (top + 1) (succ_le_of_lt (not_le.mp lt))
  grind

/-- The highest node, at most `room` levels up, that begins with the same leaf. -/
def carry (w : ℕ) : (room : ℕ) → ℕ → ℕ → ℕ × ℕ
  | 0, l, b => (l, b)
  | room + 1, l, b => if b % 2 ^ w = 0 then carry w room (l + 1) (b / 2 ^ w) else (l, b)

variable {w top l b m c : ℕ}

theorem rank_lt_iff (low : l ≤ top) (low' : m ≤ top) :
    rank w top l b < rank w top m c ↔ start w l b < start w m c ∨ start w l b = start w m c ∧ m < l := by
  rw [rank, rank]
  rcases lt_trichotomy (start w l b) (start w m c) with less | same | more
  · have := mul_le_mul_right (top + 1) (succ_le_of_lt less)
    grind
  · rw [same]
    omega
  · have := mul_le_mul_right (top + 1) (succ_le_of_lt more)
    grind

theorem rank_inj (low : l ≤ top) (low' : m ≤ top) (same : rank w top l b = rank w top m c) : l = m ∧ b = c := by
  have less := mt (rank_lt_iff low low').mpr (not_lt.mpr same.ge)
  have more := mt (rank_lt_iff low' low).mpr (not_lt.mpr same.le)
  have levels : l = m ∧ start w l b = start w m c := by omega
  obtain ⟨rfl, starts⟩ := levels
  exact ⟨rfl, eq_of_mul_eq_mul_right (Nat.two_pow_pos _) starts⟩

theorem start_up (le : l ≤ m) : start w m c = c * 2 ^ ((m - l) * w) * 2 ^ (l * w) := by
  rw [start, mul_assoc, ← pow_add, ← add_mul, Nat.sub_add_cancel le]

theorem rank_down (low : l + 1 ≤ top) : rank w top l (b * 2 ^ w) = rank w top (l + 1) b + 1 := by
  have same : start w l (b * 2 ^ w) = start w (l + 1) b := by
    rw [start, start, mul_assoc, ← pow_add]
    ring_nf
  rw [rank, rank, same]
  omega

theorem up_self : up w l b l = b := by simp [up]

theorem up_up (le : l ≤ m) (le' : m ≤ n) : up w m (up w l b m) n = up w l b n := by
  rw [up, up, up, Nat.div_div_eq_div_mul, ← pow_add, ← add_mul]
  congr 3
  omega

theorem up_succ : up w l b (l + 1) = b / 2 ^ w := by simp [up]

theorem up_le_div (le : start w l b ≤ c) (high : l ≤ m) : up w l b m ≤ c / 2 ^ (m * w) := by
  have split : 2 ^ (m * w) = 2 ^ (l * w) * 2 ^ ((m - l) * w) := by
    rw [← pow_add, ← add_mul, Nat.add_sub_cancel' high]
  rw [up, split, ← Nat.div_div_eq_div_mul]
  exact Nat.div_le_div_right ((Nat.le_div_iff_mul_le (Nat.two_pow_pos _)).mpr le)

theorem start_lt_of_up_le (le : l ≤ m) (after : up w l b m ≤ c) : start w l b < start w m (c + 1) := by
  rw [start_up le, start]
  refine Nat.mul_lt_mul_of_pos_right ?_ (Nat.two_pow_pos _)
  exact (Nat.div_lt_iff_lt_mul (Nat.two_pow_pos _)).mp (lt_succ_of_le after)

theorem up_aside (aside : b % 2 ^ w + j < 2 ^ w) (lt : l < m) : up w l (b + j) m = up w l b m := by
  have same : (b + j) / 2 ^ w = b / 2 ^ w := by
    rw [← div_add_mod b (2 ^ w), add_assoc, mul_add_div (Nat.two_pow_pos w), div_eq_of_lt aside]
    simp [mul_add_div (Nat.two_pow_pos w)]
  rw [← up_up (le_succ l) lt, ← up_up (le_succ l) lt, up_succ, up_succ, same]

theorem up_next (inner : (b + 1) % 2 ^ w ≠ 0) (lt : l < m) : up w l (b + 1) m = up w l b m := by
  have same : (b + 1) / 2 ^ w = b / 2 ^ w := by
    rw [Nat.succ_div, if_neg fun divides => inner (mod_eq_zero_of_dvd divides), add_zero]
  rw [← up_up (le_succ l) lt, ← up_up (le_succ l) lt, up_succ, up_succ, same]

theorem carry_inner (inner : b % 2 ^ w ≠ 0) (room : ℕ) : carry w room l b = (l, b) := by
  cases room with
  | zero => rfl
  | succ room => exact if_neg inner

theorem carry_spec (room : ℕ) : ∃ n d, carry w room l b = (n, d) ∧ l ≤ n ∧ n ≤ l + room ∧ d = up w l b n ∧
    start w n d = start w l b ∧ (n = l + room ∨ d % 2 ^ w ≠ 0) := by
  induction room generalizing l b with
  | zero => exact ⟨l, b, rfl, le_rfl, le_rfl, up_self.symm, rfl, .inl rfl⟩
  | succ room ih =>
    by_cases aligned : b % 2 ^ w = 0
    · obtain ⟨n, d, at_, low, high, above, same, last⟩ := @ih (l + 1) (b / 2 ^ w)
      refine ⟨n, d, by rw [carry, if_pos aligned, at_], by omega, by omega, ?_, ?_, ?_⟩
      · rw [above, ← up_succ, up_up (le_succ l) low]
      · rw [same, start_up (le_succ l), start]
        simp [Nat.div_mul_cancel (dvd_of_mod_eq_zero aligned)]
      · exact last.imp_left fun top => by omega
    · exact ⟨l, b, if_neg aligned, le_rfl, by omega, up_self.symm, rfl, .inr aligned⟩

theorem up_carry (next : carry w room l (b + 1) = (n, d)) (lt : n < m) (high : m ≤ l + room) :
    up w n d m = up w l b m := by
  obtain ⟨n', d', at_, low, -, above, same, last⟩ := carry_spec (w := w) (l := l) (b := b + 1) room
  obtain ⟨rfl, rfl⟩ := Prod.mk.inj (next.symm.trans at_)
  have inner : d % 2 ^ w ≠ 0 := last.resolve_left (by omega)
  rw [start_up low, start] at same
  have whole := eq_of_mul_eq_mul_right (Nat.two_pow_pos _) same
  have before : up w l b n = d - 1 := by
    have pos : 0 < 2 ^ ((n - l) * w) := Nat.two_pow_pos _
    have d_pos : 0 < d := Nat.pos_of_ne_zero fun none => inner (by rw [none, zero_mod])
    refine Nat.div_eq_of_lt_le ?_ ?_
    · rw [Nat.sub_mul]
      omega
    · rw [Nat.sub_add_cancel d_pos]
      omega
  have step : d - 1 + 1 = d := Nat.sub_add_cancel (Nat.pos_of_ne_zero fun none => inner (by rw [none, zero_mod]))
  have moved := up_next (w := w) (b := d - 1) (by rwa [step]) lt
  rw [step] at moved
  rw [← up_up low lt.le, before, moved]

/-- All nodes between a node and the one that is carried to are under it. -/
theorem between (low : l ≤ top) (low' : m ≤ top) (after : rank w top l b < rank w top m c)
    (next : carry w (top - l) l (b + 1) = (n, d)) (before : rank w top m c < rank w top n d) :
    m < l ∧ up w m c l = b := by
  obtain ⟨n', d', at_, n_low, n_high, -, same, last⟩ := carry_spec (w := w) (l := l) (b := b + 1) (top - l)
  obtain ⟨rfl, rfl⟩ := Prod.mk.inj (next.symm.trans at_)
  have n_top : n ≤ top := by omega
  rw [rank_lt_iff low low'] at after
  rw [rank_lt_iff low' n_top, same] at before
  rcases before with inside | ⟨aligned, higher⟩
  · -- strictly before the leaf where the next one begins
    rcases le_or_gt l m with above | below
    · rw [start_up above, start] at after inside
      have := Nat.lt_of_mul_lt_mul_right inside
      rcases after with less | ⟨eq, down⟩
      · have := Nat.lt_of_mul_lt_mul_right less
        omega
      · omega
    · refine ⟨below, ?_⟩
      have first : start w l b ≤ start w m c := by omega
      rw [start_up below.le, start] at first
      rw [start_up below.le, start] at inside
      have first := Nat.le_of_mul_le_mul_right first (Nat.two_pow_pos _)
      have inside := Nat.lt_of_mul_lt_mul_right inside
      exact Nat.div_eq_of_lt_le first inside
  · -- the highest node that begins there was taken
    have : d % 2 ^ w = 0 := by
      rw [← same, start_up higher.le, start] at aligned
      have := eq_of_mul_eq_mul_right (Nat.two_pow_pos _) aligned
      rw [← this]
      refine mod_eq_zero_of_dvd (Dvd.dvd.mul_left (pow_dvd_pow 2 ?_) c)
      exact Nat.le_mul_of_pos_left w (by omega)
    omega

end Preorder
