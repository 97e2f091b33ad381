import MacZfs.Base
import MacZfs.Lib.XorCode

/-! # The arithmetic of the second parity

Bytes are added by exclusive or and doubled as polynomials modulo `x⁸ + x⁴ + x³ + x² + 1`. The parity
loops double the eight bytes of a word at once, by shifts and masks; the reconstruction multiplies
single bytes by powers of two, through tables of powers and logarithms. Here both are shown to be
iterations of one additive map, which is all that reconstruction needs.
-/

namespace MacZfs.Raidz

open Function Nat BitVec

abbrev Byte := BitVec 8

/-- `VDEV_RAIDZ_MUL_2`. -/
def vdevRaidzMul2 (a : Byte) : Byte := (a <<< 1) ^^^ (if a &&& 0x80#8 ≠ 0#8 then 0x1d#8 else 0#8)

/-- The same for the eight bytes of a word, as the parity loops do it: a mask made of the high bit of
    each byte selects where `0x1d` is added. -/
def mul2Word (q : Word) : Word :=
  let mask := q &&& 0x8080808080808080#64
  let mask := (mask <<< 1) - (mask >>> 7)
  ((q <<< 1) &&& 0xfefefefefefefefe#64) ^^^ (mask &&& 0x1d1d1d1d1d1d1d1d#64)

/-- `vdev_raidz_pow2`. -/
def vdevRaidzPow2 : List Byte := [
    0x01, 0x02, 0x04, 0x08, 0x10, 0x20, 0x40, 0x80, 0x1d, 0x3a, 0x74, 0xe8, 0xcd, 0x87, 0x13, 0x26,
    0x4c, 0x98, 0x2d, 0x5a, 0xb4, 0x75, 0xea, 0xc9, 0x8f, 0x03, 0x06, 0x0c, 0x18, 0x30, 0x60, 0xc0,
    0x9d, 0x27, 0x4e, 0x9c, 0x25, 0x4a, 0x94, 0x35, 0x6a, 0xd4, 0xb5, 0x77, 0xee, 0xc1, 0x9f, 0x23,
    0x46, 0x8c, 0x05, 0x0a, 0x14, 0x28, 0x50, 0xa0, 0x5d, 0xba, 0x69, 0xd2, 0xb9, 0x6f, 0xde, 0xa1,
    0x5f, 0xbe, 0x61, 0xc2, 0x99, 0x2f, 0x5e, 0xbc, 0x65, 0xca, 0x89, 0x0f, 0x1e, 0x3c, 0x78, 0xf0,
    0xfd, 0xe7, 0xd3, 0xbb, 0x6b, 0xd6, 0xb1, 0x7f, 0xfe, 0xe1, 0xdf, 0xa3, 0x5b, 0xb6, 0x71, 0xe2,
    0xd9, 0xaf, 0x43, 0x86, 0x11, 0x22, 0x44, 0x88, 0x0d, 0x1a, 0x34, 0x68, 0xd0, 0xbd, 0x67, 0xce,
    0x81, 0x1f, 0x3e, 0x7c, 0xf8, 0xed, 0xc7, 0x93, 0x3b, 0x76, 0xec, 0xc5, 0x97, 0x33, 0x66, 0xcc,
    0x85, 0x17, 0x2e, 0x5c, 0xb8, 0x6d, 0xda, 0xa9, 0x4f, 0x9e, 0x21, 0x42, 0x84, 0x15, 0x2a, 0x54,
    0xa8, 0x4d, 0x9a, 0x29, 0x52, 0xa4, 0x55, 0xaa, 0x49, 0x92, 0x39, 0x72, 0xe4, 0xd5, 0xb7, 0x73,
    0xe6, 0xd1, 0xbf, 0x63, 0xc6, 0x91, 0x3f, 0x7e, 0xfc, 0xe5, 0xd7, 0xb3, 0x7b, 0xf6, 0xf1, 0xff,
    0xe3, 0xdb, 0xab, 0x4b, 0x96, 0x31, 0x62, 0xc4, 0x95, 0x37, 0x6e, 0xdc, 0xa5, 0x57, 0xae, 0x41,
    0x82, 0x19, 0x32, 0x64, 0xc8, 0x8d, 0x07, 0x0e, 0x1c, 0x38, 0x70, 0xe0, 0xdd, 0xa7, 0x53, 0xa6,
    0x51, 0xa2, 0x59, 0xb2, 0x79, 0xf2, 0xf9, 0xef, 0xc3, 0x9b, 0x2b, 0x56, 0xac, 0x45, 0x8a, 0x09,
    0x12, 0x24, 0x48, 0x90, 0x3d, 0x7a, 0xf4, 0xf5, 0xf7, 0xf3, 0xfb, 0xeb, 0xcb, 0x8b, 0x0b, 0x16,
    0x2c, 0x58, 0xb0, 0x7d, 0xfa, 0xe9, 0xcf, 0x83, 0x1b, 0x36, 0x6c, 0xd8, 0xad, 0x47, 0x8e, 0x01]

/-- `vdev_raidz_log2`. -/
def vdevRaidzLog2 : List ℕ := [
    0x00, 0x00, 0x01, 0x19, 0x02, 0x32, 0x1a, 0xc6, 0x03, 0xdf, 0x33, 0xee, 0x1b, 0x68, 0xc7, 0x4b,
    0x04, 0x64, 0xe0, 0x0e, 0x34, 0x8d, 0xef, 0x81, 0x1c, 0xc1, 0x69, 0xf8, 0xc8, 0x08, 0x4c, 0x71,
    0x05, 0x8a, 0x65, 0x2f, 0xe1, 0x24, 0x0f, 0x21, 0x35, 0x93, 0x8e, 0xda, 0xf0, 0x12, 0x82, 0x45,
    0x1d, 0xb5, 0xc2, 0x7d, 0x6a, 0x27, 0xf9, 0xb9, 0xc9, 0x9a, 0x09, 0x78, 0x4d, 0xe4, 0x72, 0xa6,
    0x06, 0xbf, 0x8b, 0x62, 0x66, 0xdd, 0x30, 0xfd, 0xe2, 0x98, 0x25, 0xb3, 0x10, 0x91, 0x22, 0x88,
    0x36, 0xd0, 0x94, 0xce, 0x8f, 0x96, 0xdb, 0xbd, 0xf1, 0xd2, 0x13, 0x5c, 0x83, 0x38, 0x46, 0x40,
    0x1e, 0x42, 0xb6, 0xa3, 0xc3, 0x48, 0x7e, 0x6e, 0x6b, 0x3a, 0x28, 0x54, 0xfa, 0x85, 0xba, 0x3d,
    0xca, 0x5e, 0x9b, 0x9f, 0x0a, 0x15, 0x79, 0x2b, 0x4e, 0xd4, 0xe5, 0xac, 0x73, 0xf3, 0xa7, 0x57,
    0x07, 0x70, 0xc0, 0xf7, 0x8c, 0x80, 0x63, 0x0d, 0x67, 0x4a, 0xde, 0xed, 0x31, 0xc5, 0xfe, 0x18,
    0xe3, 0xa5, 0x99, 0x77, 0x26, 0xb8, 0xb4, 0x7c, 0x11, 0x44, 0x92, 0xd9, 0x23, 0x20, 0x89, 0x2e,
    0x37, 0x3f, 0xd1, 0x5b, 0x95, 0xbc, 0xcf, 0xcd, 0x90, 0x87, 0x97, 0xb2, 0xdc, 0xfc, 0xbe, 0x61,
    0xf2, 0x56, 0xd3, 0xab, 0x14, 0x2a, 0x5d, 0x9e, 0x84, 0x3c, 0x39, 0x53, 0x47, 0x6d, 0x41, 0xa2,
    0x1f, 0x2d, 0x43, 0xd8, 0xb7, 0x7b, 0xa4, 0x76, 0xc4, 0x17, 0x49, 0xec, 0x7f, 0x0c, 0x6f, 0xf6,
    0x6c, 0xa1, 0x3b, 0x52, 0x29, 0x9d, 0x55, 0xaa, 0xfb, 0x60, 0x86, 0xb1, 0xbb, 0xcc, 0x3e, 0x5a,
    0xcb, 0x59, 0x5f, 0xb0, 0x9c, 0xa9, 0xa0, 0x51, 0x0b, 0xf5, 0x16, 0xeb, 0x7a, 0x75, 0x2c, 0xd7,
    0x4f, 0xae, 0xd5, 0xe9, 0xe6, 0xe7, 0xad, 0xe8, 0x74, 0xd6, 0xf4, 0xea, 0xa8, 0x50, 0x58, 0xaf]

def pow2 (exp : ℕ) : Byte := vdevRaidzPow2.getD exp 0#8

def log2 (a : Byte) : ℕ := vdevRaidzLog2.getD a.toNat 0

/-- `vdev_raidz_exp2`: `a` multiplied by the power of two. -/
def vdevRaidzExp2 (a : Byte) (exp : ℕ) : Byte :=
  if a = 0#8 then 0#8
  else
    let exp := exp + log2 a
    pow2 (if exp > 255 then exp - 255 else exp)

/-- Byte `j` of a word. -/
def byte (x : Word) (j : ℕ) : Byte := x.extractLsb' (8 * j) 8

def mapBytes (f : Byte → Byte) (x : Word) : Word :=
  f (byte x 7) ++ f (byte x 6) ++ f (byte x 5) ++ f (byte x 4) ++ f (byte x 3) ++ f (byte x 2) ++
    f (byte x 1) ++ f (byte x 0)

/-! ## Doubling -/

theorem vdevRaidzMul2_eq (a : Byte) : vdevRaidzMul2 a = (a <<< 1) ^^^ (if a.getLsbD 7 then 0x1d#8 else 0#8) := by
  revert a
  decide +kernel

theorem mul2_additive : XorCode.Additive vdevRaidzMul2 := by
  intro a b
  simp only [vdevRaidzMul2_eq, BitVec.getLsbD_xor, BitVec.shiftLeft_xor_distrib]
  cases a.getLsbD 7 <;> cases b.getLsbD 7
  · simp
  · simp [BitVec.xor_assoc]
  · simp only [Bool.xor_false, if_true, BitVec.xor_zero, Bool.false_eq_true, if_false]
    ac_rfl
  · simp only [Bool.xor_self, if_true, Bool.false_eq_true, if_false, BitVec.xor_zero]
    rw [BitVec.xor_assoc, BitVec.xor_comm 29#8, BitVec.xor_assoc, BitVec.xor_self, BitVec.xor_zero]

theorem getLsbD_mapBytes (f : Byte → Byte) (x : Word) (i) (inside : i < 64) :
    (mapBytes f x).getLsbD i = (f (byte x (i / 8))).getLsbD (i % 8) := by
  simp only [mapBytes, getLsbD_append]
  interval_cases i <;> rfl

def atBytes (unit : Byte) (h : Fin 8 → Bool) : Word :=
  (if h 7 then unit else 0#8) ++ (if h 6 then unit else 0#8) ++ (if h 5 then unit else 0#8) ++
    (if h 4 then unit else 0#8) ++ (if h 3 then unit else 0#8) ++ (if h 2 then unit else 0#8) ++
    (if h 1 then unit else 0#8) ++ (if h 0 then unit else 0#8)

theorem getLsbD_atBytes (unit : Byte) (h : Fin 8 → Bool) (i) (inside : i < 64) :
    (atBytes unit h).getLsbD i = (h ⟨i / 8, by omega⟩ && unit.getLsbD (i % 8)) := by
  have cut : ∀ (c : Bool) (k : ℕ), (if c then unit else 0#8).getLsbD k = (c && unit.getLsbD k) := by
    intro c k
    cases c <;> simp
  simp only [atBytes, getLsbD_append, cut]
  interval_cases i <;> rfl

theorem high_mask (h : Fin 8 → Bool) : (atBytes 0x80#8 h <<< 1) - (atBytes 0x80#8 h >>> 7) = atBytes 0xff#8 h := by
  revert h
  decide +kernel

theorem getLsbD_byte (x : Word) (j k : ℕ) (inside : k < 8) : (byte x j).getLsbD k = x.getLsbD (8 * j + k) := by
  simp [byte, inside]

theorem and_high (x : Word) : x &&& 0x8080808080808080#64 = atBytes 0x80#8 fun j => x.getLsbD (8 * j + 7) := by
  have units : 0x8080808080808080#64 = atBytes 0x80#8 fun _ => true := rfl
  apply eq_of_getLsbD_eq
  intro i inside
  rw [units, getLsbD_and, getLsbD_atBytes _ _ _ inside, getLsbD_atBytes _ _ _ inside, Bool.true_and]
  have place : i = 8 * (i / 8) + i % 8 := (div_add_mod i 8).symm
  have small : i % 8 < 8 := mod_lt i (by omega)
  dsimp only
  generalize i / 8 = j at place ⊢
  generalize i % 8 = r at place small ⊢
  subst place
  interval_cases r <;> simp

theorem mul2Word_eq (x : Word) : mul2Word x = mapBytes vdevRaidzMul2 x := by
  have clear : 0xfefefefefefefefe#64 = atBytes 0xfe#8 fun _ => true := rfl
  have poly : 0x1d1d1d1d1d1d1d1d#64 = atBytes 0x1d#8 fun _ => true := rfl
  apply eq_of_getLsbD_eq
  intro i inside
  simp only [mul2Word, and_high, high_mask]
  rw [clear, poly, getLsbD_xor, getLsbD_and, getLsbD_and, getLsbD_shiftLeft,
    getLsbD_atBytes _ _ _ inside, getLsbD_atBytes _ _ _ inside, getLsbD_atBytes _ _ _ inside,
    getLsbD_mapBytes _ _ _ inside, vdevRaidzMul2_eq, getLsbD_xor, getLsbD_shiftLeft]
  have place : i = 8 * (i / 8) + i % 8 := (div_add_mod i 8).symm
  have small : i % 8 < 8 := mod_lt i (by omega)
  dsimp only
  generalize i / 8 = j at place ⊢
  generalize i % 8 = r at place small ⊢
  subst place
  rw [getLsbD_byte x j 7 (by omega), getLsbD_byte x j (r - 1) (by omega)]
  interval_cases r <;> cases x.getLsbD (8 * j + 7) <;> simp [inside]

theorem byte_ext {x y} (same : ∀ j < 8, byte x j = byte y j) : x = y := by
  apply eq_of_getLsbD_eq
  intro i inside
  have at_ := congrArg (getLsbD · (i % 8)) (same (i / 8) (by omega))
  simp only [getLsbD_byte _ _ _ (mod_lt i (by omega)), div_add_mod] at at_
  exact at_

theorem byte_mapBytes (f : Byte → Byte) (x : Word) (inside : j < 8) : byte (mapBytes f x) j = f (byte x j) := by
  apply eq_of_getLsbD_eq
  intro k small
  rw [getLsbD_byte _ _ _ small, getLsbD_mapBytes _ _ _ (by omega)]
  have place : (8 * j + k) / 8 = j ∧ (8 * j + k) % 8 = k := by omega
  rw [place.1, place.2]

theorem byte_xor (x y : Word) (j : ℕ) : byte (x ^^^ y) j = byte x j ^^^ byte y j := by
  apply eq_of_getLsbD_eq
  intro k small
  rw [getLsbD_xor, getLsbD_byte _ _ _ small, getLsbD_byte _ _ _ small, getLsbD_byte _ _ _ small, getLsbD_xor]

theorem mul2Word_additive : XorCode.Additive mul2Word := by
  intro x y
  apply byte_ext
  intro j inside
  simp only [mul2Word_eq, byte_mapBytes _ _ inside, byte_xor, mul2_additive (byte x j) (byte y j)]

theorem byte_mul2Word_iterate (n : ℕ) (x : Word) (inside : j < 8) :
    byte (mul2Word^[n] x) j = vdevRaidzMul2^[n] (byte x j) := by
  induction n generalizing x with
  | zero => rfl
  | succ n ih =>
    rw [iterate_succ_apply, iterate_succ_apply, ih, mul2Word_eq, byte_mapBytes _ _ inside]

/-! ## Powers and logarithms -/

theorem pow2_succ : ∀ e < 255, pow2 (e + 1) = vdevRaidzMul2 (pow2 e) := by decide +kernel

theorem pow2_log2 : ∀ a : Byte, a ≠ 0#8 → pow2 (log2 a) = a ∧ log2 a < 255 := by decide +kernel

theorem pow2_eq (small : e ≤ 255) : pow2 e = vdevRaidzMul2^[e] 1#8 := by
  induction e with
  | zero => rfl
  | succ e ih => rw [pow2_succ e small, ih (le_of_succ_le small), iterate_succ_apply']

theorem iterate_congr (same : vdevRaidzMul2^[m] 1#8 = vdevRaidzMul2^[n] 1#8) (a : Byte) :
    vdevRaidzMul2^[m] a = vdevRaidzMul2^[n] a := by
  by_cases zero : a = 0#8
  · rw [zero, (mul2_additive.iterate m).zero, (mul2_additive.iterate n).zero]
  · obtain ⟨at_, small⟩ := pow2_log2 a zero
    rw [← at_, pow2_eq (by omega), ← iterate_add_apply, ← iterate_add_apply,
      Nat.add_comm m, Nat.add_comm n, iterate_add_apply, iterate_add_apply, same]

theorem mul2_period (a : Byte) : vdevRaidzMul2^[255] a = a := by
  have one : vdevRaidzMul2^[255] 1#8 = vdevRaidzMul2^[0] 1#8 := by
    rw [← pow2_eq (le_refl 255)]
    rfl
  exact iterate_congr one a

/-- `vdev_raidz_exp2` doubles as often as its exponent says. -/
theorem vdevRaidzExp2_eq (small : e ≤ 255) (a : Byte) : vdevRaidzExp2 a e = vdevRaidzMul2^[e] a := by
  by_cases zero : a = 0#8
  · rw [vdevRaidzExp2, if_pos zero, zero, (mul2_additive.iterate e).zero]
  · obtain ⟨at_, low⟩ := pow2_log2 a zero
    have target : vdevRaidzMul2^[e] a = vdevRaidzMul2^[e + log2 a] 1#8 := by
      rw [iterate_add_apply, ← pow2_eq (show log2 a ≤ 255 by omega), at_]
    rw [vdevRaidzExp2, if_neg zero, target]
    dsimp only
    split_ifs with wraps
    · rw [pow2_eq (by omega)]
      have turn : e + log2 a = (e + log2 a - 255) + 255 := by omega
      conv_rhs => rw [turn, iterate_add_apply, mul2_period]
    · exact pow2_eq (by omega)

/-! ## Words -/

theorem mapBytes_exp2 (small : e ≤ 255) (x : Word) : mapBytes (vdevRaidzExp2 · e) x = mul2Word^[e] x := by
  apply byte_ext
  intro j inside
  rw [byte_mapBytes _ _ inside, byte_mul2Word_iterate _ _ inside, vdevRaidzExp2_eq small]

theorem mul2Word_period (x : Word) : mul2Word^[255] x = x := by
  apply byte_ext
  intro j inside
  rw [byte_mul2Word_iterate _ _ inside, mul2_period]

theorem mul2Word_congr (same : vdevRaidzMul2^[m] 1#8 = vdevRaidzMul2^[n] 1#8) (x : Word) :
    mul2Word^[m] x = mul2Word^[n] x := by
  apply byte_ext
  intro j inside
  rw [byte_mul2Word_iterate _ _ inside, byte_mul2Word_iterate _ _ inside, iterate_congr same]

/-! ## The exponents of `vdev_raidz_reconstruct_pq` -/

/-- `tmp`, where `a` is the power of two with the exponent `255 + x - y`. -/
def pqTmp (x y : ℕ) : ℕ := 255 - log2 (pow2 (255 + x - y) ^^^ 1#8)

/-- `aexp`. -/
def pqAexp (x y : ℕ) : ℕ := log2 (vdevRaidzExp2 (pow2 (255 + x - y)) (pqTmp x y))

/-- `bexp`. -/
def pqBexp (cols x y : ℕ) : ℕ := log2 (vdevRaidzExp2 (pow2 (255 - (cols - 1 - x))) (pqTmp x y))

theorem pow2_ne_one : ∀ e < 255, 0 < e → pow2 e ^^^ 1#8 ≠ 0#8 := by decide +kernel

theorem iterate_ne_zero (small : n ≤ 255) (nonzero : a ≠ 0#8) : vdevRaidzMul2^[n] a ≠ 0#8 := by
  intro zero
  apply nonzero
  rw [← mul2_period a, show 255 = (255 - n) + n by omega, iterate_add_apply, zero,
    (mul2_additive.iterate (255 - n)).zero]

theorem iterate_log2_exp2 {e t} (small : e ≤ 255) (small' : t ≤ 255) :
    vdevRaidzMul2^[log2 (vdevRaidzExp2 (pow2 e) t)] 1#8 = vdevRaidzMul2^[t + e] 1#8 ∧
      log2 (vdevRaidzExp2 (pow2 e) t) < 255 := by
  have value : vdevRaidzExp2 (pow2 e) t = vdevRaidzMul2^[t + e] 1#8 := by
    rw [vdevRaidzExp2_eq small', pow2_eq small, ← iterate_add_apply]
  have nonzero : vdevRaidzExp2 (pow2 e) t ≠ 0#8 := by
    rw [value, iterate_add_apply]
    exact iterate_ne_zero small' (iterate_ne_zero small (by decide))
  obtain ⟨at_, low⟩ := pow2_log2 _ nonzero
  refine ⟨?_, low⟩
  rw [← pow2_eq (by omega), at_, value]

theorem pqTmp_le (x y : ℕ) : pqTmp x y ≤ 255 := sub_le _ _

theorem pqBexp_iterate {cols x y} (z : Word) :
    mul2Word^[pqBexp cols x y] z = mul2Word^[pqTmp x y] (mul2Word^[255 - (cols - 1 - x)] z) := by
  rw [← iterate_add_apply]
  apply mul2Word_congr
  rw [pqBexp, (iterate_log2_exp2 (by omega) (pqTmp_le x y)).1]

section Exponents

variable (order : x < y) (inside : y < cols) (narrow : cols ≤ x + 255)

include order inside narrow

theorem pqTmp_log (z : Word) : mul2Word^[255 - pqTmp x y] z = mul2Word^[255 - (y - x)] z ^^^ z := by
  have exponent : 255 + x - y = 255 - (y - x) := by omega
  obtain ⟨at_, low⟩ := pow2_log2 _ (pow2_ne_one (255 + x - y) (by omega) (by omega))
  have log : vdevRaidzMul2^[255 - pqTmp x y] 1#8 = vdevRaidzMul2^[255 - (y - x)] 1#8 ^^^ 1#8 := by
    rw [pqTmp, Nat.sub_sub_self (by omega), ← pow2_eq (by omega), at_, pow2_eq (by omega), exponent]
  apply byte_ext
  intro j inside
  rw [byte_xor, byte_mul2Word_iterate _ _ inside, byte_mul2Word_iterate _ _ inside]
  generalize byte z j = c
  by_cases zero : c = 0#8
  · rw [zero, (mul2_additive.iterate _).zero, (mul2_additive.iterate _).zero, BitVec.xor_self]
  · -- the byte is a power of two, and powers commute
    obtain ⟨power, small⟩ := pow2_log2 c zero
    rw [← power, pow2_eq (by omega), ← iterate_add_apply, ← iterate_add_apply, Nat.add_comm,
      iterate_add_apply, log, mul2_additive.iterate (log2 c), ← iterate_add_apply,
      Nat.add_comm (log2 c)]

theorem pqAexp_iterate (z : Word) : mul2Word^[pqAexp x y] z = mul2Word^[pqTmp x y] (mul2Word^[255 - (y - x)] z) := by
  rw [← iterate_add_apply]
  apply mul2Word_congr
  rw [pqAexp, (iterate_log2_exp2 (by omega) (pqTmp_le x y)).1, show 255 + x - y = 255 - (y - x) by omega]

theorem pq_solve (a b : Word) : mapBytes (vdevRaidzExp2 · (pqAexp x y)) (a ^^^ b) ^^^
      mapBytes (vdevRaidzExp2 · (pqBexp cols x y)) (mul2Word^[cols - 1 - x] a ^^^ mul2Word^[cols - 1 - y] b) = a := by
  have small := (iterate_log2_exp2 (e := 255 + x - y) (by omega) (pqTmp_le x y)).2
  have small' := (iterate_log2_exp2 (e := 255 - (cols - 1 - x)) (by omega) (pqTmp_le x y)).2
  rw [mapBytes_exp2 (e := pqAexp x y) small.le, mapBytes_exp2 (e := pqBexp cols x y) small'.le]
  exact XorCode.solve_pair mul2Word_additive mul2Word_period (k := y - x) (by omega) (by omega) (by omega)
    (pqTmp_log order inside narrow) (add_sub_of_le (pqTmp_le x y))
    (pqAexp_iterate order inside narrow) pqBexp_iterate

end Exponents

end MacZfs.Raidz
