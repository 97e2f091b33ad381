import MacZfs.Raidz.Parity

/-! # The tables of powers and logarithms

`vdev_raidz_reconstruct_q` and `vdev_raidz_reconstruct_pq` with a check at every use of
`vdev_raidz_pow2`. An index into `vdev_raidz_log2` is a byte. Neither `vdev_raidz_open` nor
`vdev_raidz_map_alloc` limits the number of columns.
-/

namespace MacZfs.Raidz

/-- Whether `vdev_raidz_open` goes on to open the children. -/
def vdevRaidzOpen (nparity children : ℕ) : Bool := ¬(nparity > 2 ∨ children < nparity + 1)

/-! ## Checked reconstructions -/

/-- `vdev_raidz_pow2[i]`, if the table has the entry. -/
def pow2At (i : ℤ) : Option Byte :=
  if 0 ≤ i then vdevRaidzPow2[i.toNat]? else none

/-- `vdev_raidz_exp2`, with no result for an exponent or an index outside of the table. -/
def exp2At (exp : ℤ) (a : Byte) : Option Byte := do
  guard (0 ≤ exp ∧ exp ≤ 255)
  if a = 0#8 then return 0#8
  let exp := exp + log2 a
  pow2At (if exp > 255 then exp - 255 else exp)

def mapBytesAt (f : Byte → Option Byte) (x : Word) : Option Word := do
  return (← f (byte x 7)) ++ (← f (byte x 6)) ++ (← f (byte x 5)) ++ (← f (byte x 4)) ++ (← f (byte x 3)) ++
    (← f (byte x 2)) ++ (← f (byte x 1)) ++ (← f (byte x 0))

/-- `vdev_raidz_reconstruct_q`. -/
def reconstructQAt (rm : RaidzMap) (x : ℕ) : Option RaidzMap :=
  let exp : ℤ := 255 - (rm.rmCols - 1 - x)
  match rm.sourcesBut x with
  | [] => some rm
  | first :: rest => do
    let dst := rest.foldl mulInto (copyZero (rm.col x).rcData first)
    let words ← (xorInto dst (rm.col 1).rcData).mapM (mapBytesAt (exp2At exp))
    return rm.setData x words

/-- The loop of `vdev_raidz_reconstruct_pq`, for `n` words of column `x`. -/
def pqWordsAt (aexp bexp n : ℕ) (p q : List Word) : Option (List Word) :=
  ((p.zip q).take n).mapM fun pq => return (← mapBytesAt (exp2At aexp) pq.1) ^^^ (← mapBytesAt (exp2At bexp) pq.2)

/-- `vdev_raidz_reconstruct_pq`. -/
def reconstructPqAt (rm : RaidzMap) (x y : ℕ) : Option RaidzMap := do
  let parity := vdevRaidzGenerateParityPq (setAside rm x y)
  let p := List.zipWith (· ^^^ ·) (rm.col 0).rcData (parity.col 0).rcData
  let q := List.zipWith (· ^^^ ·) (rm.col 1).rcData (parity.col 1).rcData
  let a ← pow2At (255 + x - y)
  let b ← pow2At (255 - (rm.rmCols - 1 - x))
  let tmp := 255 - log2 (a ^^^ 1#8)
  let aexp := log2 (← exp2At tmp a)
  let bexp := log2 (← exp2At tmp b)
  let xd ← pqWordsAt aexp bexp ((rm.col x).rcSize / 8) p q
  let yd := (List.zipWith (· ^^^ ·) p xd).take ((rm.col y).rcSize / 8)
  return (rm.setData x (copyInto (rm.col x).rcData xd)).setData y (copyInto (rm.col y).rcData yd)

/-! ## Inside the tables -/

theorem pow2At_inside {e : ℕ} (small : e ≤ 255) : pow2At e = some (pow2 e) := by
  have length : vdevRaidzPow2.length = 256 := by decide +kernel
  have inside : e < vdevRaidzPow2.length := by omega
  rw [pow2At, if_pos (Int.natCast_nonneg e), Int.toNat_natCast, List.getElem?_eq_getElem inside, pow2,
    List.getD_eq_getElem _ _ inside]

theorem log2_lt : ∀ a : Byte, log2 a < 255 := by decide +kernel

theorem log2_pow2 : ∀ e < 255, log2 (pow2 e) = e := by decide +kernel

theorem exp2At_inside {e : ℕ} (small : e ≤ 255) : exp2At e = fun a => some (vdevRaidzExp2 a e) := by
  funext a
  have low := log2_lt a
  have index : (if (e : ℤ) + log2 a > 255 then (e : ℤ) + log2 a - 255 else e + log2 a) =
      ((if e + log2 a > 255 then e + log2 a - 255 else e + log2 a : ℕ) : ℤ) := by
    split_ifs <;> omega
  have inside : (if e + log2 a > 255 then e + log2 a - 255 else e + log2 a) ≤ 255 := by
    split_ifs <;> omega
  have range : 0 ≤ (e : ℤ) ∧ (e : ℤ) ≤ 255 := by omega
  by_cases zero : a = 0#8
  · simp [exp2At, vdevRaidzExp2, zero, range]
  · simp only [exp2At, vdevRaidzExp2, guard, if_pos range, if_neg zero, index, pow2At_inside inside]
    rfl

theorem mapBytesAt_some (f : Byte → Byte) : mapBytesAt (fun a => some (f a)) = fun x => pure (mapBytes f x) := rfl

theorem pqWordsAt_inside {aexp bexp : ℕ} (small : aexp ≤ 255) (small' : bexp ≤ 255) (n : ℕ) (p q : List Word) :
    pqWordsAt aexp bexp n p q = some ((List.zipWith (fun p q =>
      mapBytes (vdevRaidzExp2 · aexp) p ^^^ mapBytes (vdevRaidzExp2 · bexp) q) p q).take n) := by
  rw [pqWordsAt, exp2At_inside small, exp2At_inside small', ← List.map_uncurry_zip_eq_zipWith, ← List.map_take]
  exact List.mapM_pure ..

section Columns

variable (rm : RaidzMap) (narrow : rm.rmCols ≤ x + 256)

include narrow

theorem reconstructQAt_eq (inside : x < rm.rmCols) : reconstructQAt rm x = some (vdevRaidzReconstructQ rm x) := by
  have exponent : (255 - (rm.rmCols - 1 - x) : ℤ) = (255 - (rm.rmCols - 1 - x) : ℕ) := by omega
  simp only [reconstructQAt, vdevRaidzReconstructQ, exponent, exp2At_inside (Nat.sub_le 255 _), mapBytesAt_some,
    List.mapM_pure]
  cases rm.sourcesBut x <;> rfl

theorem reconstructPqAt_eq (order : x < y) (inside : y < rm.rmCols) :
    reconstructPqAt rm x y = some (vdevRaidzReconstructPq rm x y) := by
  have exponent : (255 - (rm.rmCols - 1 - x) : ℤ) = (255 - (rm.rmCols - 1 - x) : ℕ) := by omega
  have difference : (255 + x - y : ℤ) = (255 + x - y : ℕ) := by omega
  simp only [reconstructPqAt, exponent, difference, pow2At_inside (Nat.sub_le 255 _),
    pow2At_inside (e := 255 + x - y) (by omega), exp2At_inside (Nat.sub_le 255 _),
    pqWordsAt_inside (log2_lt _).le (log2_lt _).le, Option.bind_eq_bind, Option.bind_some]
  rfl

end Columns

/-- Every index and every exponent of a reconstruction with Q is within the 256 entries of the tables,
    and the data columns have different powers of two, exactly if the map has no such reconstruction or
    at most 257 columns. -/
theorem tables_inside (zio : Zio) (unitShift children nparity : ℕ) (parity : 0 < nparity)
    (opens : vdevRaidzOpen nparity children) :
    let cols := (mapSplit zio unitShift children nparity).acols
    (nparity = 2 →
      (∀ rm : RaidzMap, rm.rmCols = cols → ∀ x, nparity ≤ x → x < cols →
        reconstructQAt rm x = some (vdevRaidzReconstructQ rm x) ∧
          ∀ y, x < y → y < cols → reconstructPqAt rm x y = some (vdevRaidzReconstructPq rm x y)) ∧
      ∀ x y, nparity ≤ x → x < y → y < cols →
        vdevRaidzMul2^[cols - 1 - x] 1#8 ≠ vdevRaidzMul2^[cols - 1 - y] 1#8) ↔
      nparity = 1 ∨ cols ≤ 257 := by
  intro cols
  have levels : nparity = 1 ∨ nparity = 2 := by
    simp only [vdevRaidzOpen, decide_eq_true_eq] at opens
    omega
  constructor
  · intro holds
    by_contra wide
    -- columns 2 and 257 are a period apart
    have same : vdevRaidzMul2^[cols - 1 - 2] 1#8 = vdevRaidzMul2^[cols - 1 - 257] 1#8 := by
      rw [show cols - 1 - 2 = (cols - 1 - 257) + 255 by omega, Function.iterate_add_apply, mul2_period]
    exact (holds (by omega)).2 2 257 (by omega) (by omega) (by omega) same
  · rintro narrow two
    refine ⟨fun rm known x isData inside => ⟨reconstructQAt_eq rm (by omega) (by omega), fun y order inside' =>
      reconstructPqAt_eq rm (by omega) order (by omega)⟩, fun x y isData order inside same => ?_⟩
    rw [← pow2_eq (by omega), ← pow2_eq (by omega)] at same
    have exponents := congrArg log2 same
    rw [log2_pow2 _ (by omega), log2_pow2 _ (by omega)] at exponents
    omega

theorem tables_inside_two : vdevRaidzMul2^[4 - 1 - 2] 1#8 ≠ vdevRaidzMul2^[4 - 1 - 3] 1#8 :=
  ((tables_inside ⟨0, 1024, [], false, false⟩ 9 4 2 (by decide) (by decide)).mpr (.inr (by decide)) rfl).2 2 3
    (by decide) (by decide) (by decide)

/-- A block of 128K on 258 children with double parity has 256 data columns, and the first and the last
    of them have the same power of two. -/
theorem tables_same_power :
    vdevRaidzOpen 2 258 ∧ (mapSplit ⟨0, 2 ^ 17, [], false, false⟩ 9 258 2).acols = 258 ∧
      vdevRaidzMul2^[258 - 1 - 2] 1#8 = vdevRaidzMul2^[258 - 1 - 257] 1#8 :=
  ⟨by decide, by decide, mul2_period _⟩

end MacZfs.Raidz
