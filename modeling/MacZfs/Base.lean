import MacZfs.Lib.Alignment
import MacZfs.Lib.BitFields

/-!
# Machine words

The integer types and the bit macros that the sources share. Offsets, sizes and counters are
`uint64_t`: natural numbers, with every sum and difference that can leave the range reduced
modulo `2 ^ 64` as the machine does. Packed words are bit vectors.
-/

namespace MacZfs

open Nat Alignment

/-- A `uint64_t` whose bits are looked at. -/
abbrev Word := BitVec 64

def u64 (x : ℕ) : ℕ := x % 2 ^ 64

/-- `a - b` in unsigned 64-bit arithmetic. -/
def u64Sub (a b : ℕ) : ℕ := u64 (a + (2 ^ 64 - b % 2 ^ 64))

/-- `P2PHASE(x, align)`. -/
def p2phase (x align : ℕ) : ℕ := x &&& (align - 1)

/-- `P2ALIGN(x, align)`: `-align` is the complement of `align - 1`. -/
def p2align (x align : ℕ) : ℕ := x - p2phase x align

/-- `BF64_ENCODE(x, low, len)`. -/
def bf64Encode (x : Word) (low len : ℕ) : Word := BitFields.place low len x

/-- `BF64_DECODE(x, low, len)`. -/
def bf64Decode (x : Word) (low len : ℕ) : Word := BitFields.field low len x

/-- `P2ROUNDUP(x, align)`: `-(-(x) & -(align))`. -/
def p2roundup (x align : ℕ) : ℕ := u64Sub 0 (u64Sub 0 x &&& u64Sub 0 align)

/-- `highbit`, without the test of the upper half that the port leaves out. -/
def highbit (i : ℕ) : ℕ :=
  if i = 0 then 0
  else
    let (h, i) := if i &&& 0xffff0000 ≠ 0 then (17, i >>> 16) else (1, i)
    let (h, i) := if i &&& 0xff00 ≠ 0 then (h + 8, i >>> 8) else (h, i)
    let (h, i) := if i &&& 0xf0 ≠ 0 then (h + 4, i >>> 4) else (h, i)
    let (h, i) := if i &&& 0xc ≠ 0 then (h + 2, i >>> 2) else (h, i)
    if i &&& 0x2 ≠ 0 then h + 1 else h

/-! ## Transaction group numbers -/

/-- `TXG_CONCURRENT_STATES`: open, quiescing, syncing. -/
def txgConcurrentStates : ℕ := 3

/-- `txg & TXG_MASK`. -/
def txgSlot (txg : ℕ) : ℕ := txg &&& 3

/-- `TXG_CLEAN(txg)`. -/
def txgClean (txg : ℕ) : ℕ := u64Sub txg 1

theorem txgSlot_eq (txg) : txgSlot txg = txg % 4 := and_two_pow_sub_one_eq_mod txg 2

theorem txgSlot_txgClean (txg) : txgSlot (txgClean (txg + 1)) = txg % 4 := by
  simp only [txgSlot_eq, txgClean, u64Sub, u64]
  omega

theorem u64_of_lt (small : x < 2 ^ 64) : u64 x = x := mod_eq_of_lt small

theorem u64Sub_of_le (le : b ≤ a) (small : a < 2 ^ 64) : u64Sub a b = a - b := by
  simp only [u64Sub, u64]
  omega

theorem p2phase_shift (x shift : ℕ) : p2phase x (1 <<< shift) = x % 2 ^ shift := by
  rw [p2phase, one_shiftLeft, and_two_pow_sub_one_eq_mod]

theorem p2roundup_eq (small : x < 2 ^ 64) (shift : k < 64) : p2roundup x (2 ^ k) = u64 (roundUp x (2 ^ k)) := by
  have unit : 0 < 2 ^ k := Nat.two_pow_pos k
  have unitLt : 2 ^ k < 2 ^ 64 := Nat.pow_lt_pow_right (by decide) shift
  have mask : u64Sub 0 (2 ^ k) = 2 ^ 64 - 2 ^ k := by
    rw [u64Sub, u64, mod_eq_of_lt unitLt]
    omega
  rw [p2roundup, mask]
  rcases Nat.eq_zero_or_pos x with rfl | positive
  · have zero : roundUp 0 (2 ^ k) = 0 :=
      Nat.le_zero.mp (roundUp_le unit (dvd_zero _) le_rfl)
    rw [zero, show u64Sub 0 0 = 0 from rfl, zero_and]
    rfl
  · have negated : u64Sub 0 x = 2 ^ 64 - x := by
      rw [u64Sub, u64, mod_eq_of_lt small]
      omega
    rw [negated, and_mask (by omega) shift.le]
    -- what is left of `-x` is the negative of the multiple above `x`
    have kept := div_add_mod (2 ^ 64 - x) (2 ^ k)
    have whole : 2 ^ k ∣ 2 ^ 64 := pow_dvd_pow 2 shift.le
    have multiple : 2 ^ k ∣ 2 ^ 64 - (2 ^ 64 - x) / 2 ^ k * 2 ^ k := dvd_sub whole (dvd_mul_left _ _)
    rw [mul_comm] at kept
    have rounded : roundUp x (2 ^ k) = 2 ^ 64 - (2 ^ 64 - x) / 2 ^ k * 2 ^ k := by
      apply le_antisymm
      · exact roundUp_le unit multiple (by omega)
      · have above := @le_roundUp x _ unit
        have aligned := dvd_roundUp x (2 ^ k)
        by_contra less
        have apart := le_of_dvd (by omega) (dvd_sub multiple aligned)
        omega
    rw [rounded, u64Sub, zero_add, mod_eq_of_lt (by omega)]

end MacZfs
