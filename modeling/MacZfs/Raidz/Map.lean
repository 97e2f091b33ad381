import MacZfs.Base

/-! # RAID-Z column maps

`vdev_raidz_map_alloc` splits one logical I/O into columns, one per child.
Sector `k` of the parent lives on child `k % dcols` at row `k / dcols`, and the
columns of an I/O starting at sector `b` pick out `b + c, b + c + dcols, ...`.
The results below say that this picture is exact: the columns are pairwise
disjoint, they stay inside the sectors that were allocated for the I/O, and the
two independently coded size formulas agree.

Sizes are bounded by `SPA_MAXBLOCKSIZE` and offsets by the size of a vdev, so no
64-bit operation of this file wraps and natural numbers are used throughout.
-/

namespace MacZfs.Raidz

open List Nat

/-- The error codes a RAID-Z column can carry; `rc_error == 0` is `none`. -/
inductive Errno where
  | eio
  | enxio
  | estale
  | ecksum
  deriving Repr, DecidableEq

/-- `raidz_col_t`. The buffer `rc_data` is a value here, so the data columns of a
    map together hold what the source keeps in `zio->io_data`. -/
structure RaidzCol where
  rcDevidx : Nat
  rcOffset : Nat
  rcSize : Nat
  rcData : List Word
  rcError : Option Errno
  rcTried : Bool
  rcSkipped : Bool
  deriving Repr, DecidableEq

/-- `raidz_map_t`. -/
structure RaidzMap where
  rmCols : Nat
  rmBigcols : Nat
  rmAsize : Nat
  rmMissingdata : Nat
  rmMissingparity : Nat
  rmFirstdatacol : Nat
  rmCol : List RaidzCol
  deriving Repr, DecidableEq

/-- The part of `zio_t` that RAID-Z reads: the range, the buffer and the two
    flags that change how parity is treated. -/
structure Zio where
  ioOffset : Nat
  ioSize : Nat
  ioData : List Word
  /-- `ZIO_FLAG_SCRUB` -/
  ioScrub : Bool
  /-- `ZIO_FLAG_RESILVER` -/
  ioResilver : Bool
  deriving Repr, DecidableEq

/-- `roundup` of `sysmacros.h`. -/
def roundup (x y : Nat) : Nat := (x + (y - 1)) / y * y

/-- The quotient/remainder split of an I/O, in units of `1 << unit_shift`. -/
structure MapSplit where
  b : Nat
  f : Nat
  o : Nat
  q : Nat
  bc : Nat
  acols : Nat
  deriving Repr, DecidableEq

def mapSplit (zio : Zio) (unitShift dcols nparity : Nat) : MapSplit :=
  let b := zio.ioOffset >>> unitShift
  let s := zio.ioSize >>> unitShift
  let q := s / (dcols - nparity)
  let r := s - q * (dcols - nparity)
  let bc := if r = 0 then 0 else r + nparity
  { b := b
    f := b % dcols
    o := (b / dcols) <<< unitShift
    q := q
    bc := bc
    acols := if q = 0 then bc else dcols }

/-- Column `c` as the first loop of `vdev_raidz_map_alloc` leaves it. -/
def mapCol (m : MapSplit) (unitShift dcols c : Nat) : RaidzCol :=
  let col := m.f + c
  { rcDevidx := if dcols ≤ col then col - dcols else col
    rcOffset := if dcols ≤ col then m.o + (1 <<< unitShift) else m.o
    rcSize := (m.q + if c < m.bc then 1 else 0) <<< unitShift
    rcData := []
    rcError := none
    rcTried := false
    rcSkipped := false }

/-- The data columns are consecutive slices of one buffer:
    `rc_data[c] = rc_data[c - 1] + rc_size[c - 1]`. -/
def sliceData : List RaidzCol → List Word → List RaidzCol
  | [], _ => []
  | rc :: rest, buf =>
    { rc with rcData := buf.take (rc.rcSize / 8) } :: sliceData rest (buf.drop (rc.rcSize / 8))

/-- The parity columns get buffers of their own; `fresh c` is what
    `zio_buf_alloc` happens to return for column `c`. -/
def freshData (fresh : Nat → List Word) : Nat → List RaidzCol → List RaidzCol
  | _, [] => []
  | c, rc :: rest => { rc with rcData := fresh c } :: freshData fresh (c + 1) rest

/-- The on-disk format quirk of single parity: in odd megabytes the parity and
    the first data column trade places on disk, but not in memory. -/
def swapFirst : List RaidzCol → List RaidzCol
  | c0 :: c1 :: rest =>
    { c0 with rcDevidx := c1.rcDevidx, rcOffset := c1.rcOffset } ::
      { c1 with rcDevidx := c0.rcDevidx, rcOffset := c0.rcOffset } :: rest
  | cols => cols

/-- `vdev_raidz_map_alloc`. -/
def vdevRaidzMapAlloc (zio : Zio) (unitShift dcols nparity : Nat)
    (fresh : Nat → List Word) : RaidzMap :=
  let m := mapSplit zio unitShift dcols nparity
  let cols := (List.range m.acols).map (mapCol m unitShift dcols)
  let total := (cols.map RaidzCol.rcSize).sum
  let filled := freshData fresh 0 (cols.take nparity) ++ sliceData (cols.drop nparity) zio.ioData
  { rmCols := m.acols
    rmBigcols := m.bc
    rmAsize := roundup total ((nparity + 1) <<< unitShift)
    rmMissingdata := 0
    rmMissingparity := 0
    rmFirstdatacol := nparity
    -- bit 20 of the offset: odd megabytes
    rmCol := if nparity = 1 ∧ zio.ioOffset.testBit 20 then swapFirst filled else filled }

/-- `vdev_raidz_asize`, for a vdev with `cols` children. -/
def vdevRaidzAsize (ashift cols nparity psize : Nat) : Nat :=
  let asize := ((psize - 1) >>> ashift) + 1
  let asize := asize + nparity * ((asize + cols - nparity - 1) / (cols - nparity))
  roundup asize (nparity + 1) <<< ashift

/-- The `(child, row)` sectors a column occupies. -/
def RaidzCol.sectors (unitShift : Nat) (rc : RaidzCol) : List (Nat × Nat) :=
  (List.range (rc.rcSize >>> unitShift)).map fun i =>
    (rc.rcDevidx, (rc.rcOffset >>> unitShift) + i)

def RaidzMap.sectors (unitShift : Nat) (rm : RaidzMap) : List (Nat × Nat) :=
  rm.rmCol.flatMap (RaidzCol.sectors unitShift)

/-- Where sector `k` of the parent lives. -/
def sectorPos (dcols k : Nat) : Nat × Nat := (k % dcols, k / dcols)

theorem sectorPos_injective (dcols) : Function.Injective (sectorPos dcols) := by
  intro k k' same
  have mod : k % dcols = k' % dcols := congrArg Prod.fst same
  have div : k / dcols = k' / dcols := congrArg Prod.snd same
  rw [← div_add_mod k dcols, ← div_add_mod k' dcols, mod, div]

/-! ## Buffers do not move columns -/

section Filled

variable {β : Type*} (f : RaidzCol → β) (indifferent : ∀ rc data, f { rc with rcData := data } = f rc)

include f indifferent

theorem sliceData_map (cols : List RaidzCol) (buf : List Word) : (sliceData cols buf).map f = cols.map f := by
  induction cols generalizing buf with
  | nil => rfl
  | cons rc rest ih => simp [sliceData, indifferent, ih]

theorem freshData_map (fresh : Nat → List Word) (cols : List RaidzCol) (c : Nat) :
    (freshData fresh c cols).map f = cols.map f := by
  induction cols generalizing c with
  | nil => rfl
  | cons rc rest ih => simp [freshData, indifferent, ih]

theorem filled_map (n : Nat) (fresh : Nat → List Word) (cols : List RaidzCol) (buf : List Word) :
    (freshData fresh 0 (cols.take n) ++ sliceData (cols.drop n) buf).map f = cols.map f := by
  rw [map_append, freshData_map f indifferent, sliceData_map f indifferent, ← map_append, take_append_drop]

end Filled

theorem swapFirst_sectors (unitShift) (cols : List RaidzCol)
    (sizes : ∀ c0 c1 rest, cols = c0 :: c1 :: rest → c0.rcSize = c1.rcSize) :
    ((swapFirst cols).flatMap (RaidzCol.sectors unitShift)).Perm (cols.flatMap (RaidzCol.sectors unitShift)) := by
  match cols, sizes with
  | [], _ => exact Perm.refl _
  | [c0], _ => exact Perm.refl _
  | c0 :: c1 :: rest, sizes =>
    have same := sizes c0 c1 rest rfl
    have first : RaidzCol.sectors unitShift
        { c0 with rcDevidx := c1.rcDevidx, rcOffset := c1.rcOffset } = c1.sectors unitShift := by
      simp only [RaidzCol.sectors, same]
    have second : RaidzCol.sectors unitShift
        { c1 with rcDevidx := c0.rcDevidx, rcOffset := c0.rcOffset } = c0.sectors unitShift := by
      simp only [RaidzCol.sectors, same]
    simp only [swapFirst, flatMap_cons, first, second]
    rw [← append_assoc, ← append_assoc]
    exact Perm.append_right _ perm_append_comm

/-! ## The linear sector interval -/

/-- How many sectors column `c` holds. -/
def MapSplit.rows (m : MapSplit) (c : Nat) : Nat := m.q + if c < m.bc then 1 else 0

def MapSplit.linear (m : MapSplit) (dcols : Nat) : List Nat :=
  (List.range m.acols).flatMap fun c => (List.range (m.rows c)).map fun i => m.b + c + i * dcols

theorem divMod_of_eq {x d k r : Nat} (h : x = d * k + r) (small : r < d) : x / d = k ∧ x % d = r := by
  have pos : 0 < d := by omega
  rw [h]
  exact ⟨by rw [mul_add_div pos, div_eq_of_lt small, add_zero], by rw [mul_add_mod, mod_eq_of_lt small]⟩

theorem mapCol_sectors (zio : Zio) (unitShift dcols nparity c : Nat) (inside : c < dcols) :
    (mapCol (mapSplit zio unitShift dcols nparity) unitShift dcols c).sectors unitShift =
      (List.range ((mapSplit zio unitShift dcols nparity).rows c)).map fun i =>
        sectorPos dcols ((mapSplit zio unitShift dcols nparity).b + c + i * dcols) := by
  set m := mapSplit zio unitShift dcols nparity with hm
  have hf : m.f = m.b % dcols := rfl
  have ho : m.o = (m.b / dcols) <<< unitShift := rfl
  have size : (mapCol m unitShift dcols c).rcSize >>> unitShift = m.rows c := by
    simp [mapCol, MapSplit.rows]
  simp only [RaidzCol.sectors, size]
  apply map_congr_left
  intro i _
  have pos : 0 < dcols := by omega
  have fLt : m.b % dcols < dcols := mod_lt _ pos
  have split : m.b = dcols * (m.b / dcols) + m.b % dcols := (div_add_mod _ _).symm
  simp only [mapCol, hf, ho, sectorPos, add_mul_mod_self_right]
  by_cases wrap : dcols ≤ m.b % dcols + c
  · -- the column continues on the next row
    have carry : m.b + c = dcols * (m.b / dcols + 1) + (m.b % dcols + c - dcols) := by
      rw [mul_add]
      omega
    obtain ⟨hdiv, hmod⟩ := divMod_of_eq carry (by omega)
    have hrow : ((m.b / dcols) <<< unitShift + 1 <<< unitShift) >>> unitShift = m.b / dcols + 1 := by
      rw [shiftLeft_eq, shiftLeft_eq, ← add_mul, ← shiftLeft_eq, shiftLeft_shiftRight]
    simp [wrap, hmod, hrow, add_mul_div_right _ _ pos, hdiv]
  · have whole : m.b + c = dcols * (m.b / dcols) + (m.b % dcols + c) := by omega
    obtain ⟨hdiv, hmod⟩ := divMod_of_eq whole (by omega)
    simp [wrap, hmod, add_mul_div_right _ _ pos, hdiv]

section Split

variable (zio : Zio) (unitShift dcols nparity : Nat)

def MapSplit.total (m : MapSplit) : Nat := m.acols * m.q + m.bc

theorem mapSplit_bc_le (hd : nparity < dcols) :
    (mapSplit zio unitShift dcols nparity).bc ≤ (mapSplit zio unitShift dcols nparity).acols ∧
      (mapSplit zio unitShift dcols nparity).acols ≤ dcols := by
  have pos : 0 < dcols - nparity := by omega
  have rest : ∀ s, s - s / (dcols - nparity) * (dcols - nparity) < dcols - nparity := by
    intro s
    rw [mul_comm, ← mod_eq_sub_mul_div]
    exact mod_lt _ pos
  have small := rest (zio.ioSize >>> unitShift)
  simp only [mapSplit]
  split <;> split <;> omega

/-- The sectors of `n` columns from column `k` on. -/
theorem rows_sum_from (m : MapSplit) (k n : Nat) :
    ((List.range n).map fun i => m.rows (k + i)).sum = n * m.q + min n (m.bc - k) := by
  induction n with
  | zero => simp
  | succ n ih =>
    rw [range_succ, map_append, sum_append_nat, ih]
    simp only [MapSplit.rows, map_cons, map_nil, sum_cons, sum_nil, add_mul, one_mul]
    split <;> omega

theorem rows_sum (m : MapSplit) (n : Nat) : ((List.range n).map m.rows).sum = n * m.q + min n m.bc := by
  simpa using rows_sum_from m 0 n

theorem mapCol_size_sum (hd : nparity < dcols) : let m := mapSplit zio unitShift dcols nparity
    (((range m.acols).map (mapCol m unitShift dcols)).map RaidzCol.rcSize).sum = m.total <<< unitShift := by
  intro m
  have sizes : ((range m.acols).map (mapCol m unitShift dcols)).map RaidzCol.rcSize =
      (((range m.acols).map m.rows).map (· * 2 ^ unitShift)) := by
    simp only [map_map]
    apply map_congr_left
    intro c _
    simp [mapCol, MapSplit.rows, shiftLeft_eq]
  have hbc := (mapSplit_bc_le zio unitShift dcols nparity hd).1
  rw [sizes, sum_map_mul_right, map_id', rows_sum, MapSplit.total, shiftLeft_eq, min_eq_right hbc]

/-- Every parent sector of the map lies in `[b, b + total)`. -/
theorem linear_bounds (member : k ∈ (mapSplit zio unitShift dcols nparity).linear dcols) :
    (mapSplit zio unitShift dcols nparity).b ≤ k ∧
      k < (mapSplit zio unitShift dcols nparity).b + (mapSplit zio unitShift dcols nparity).total := by
  have full : (mapSplit zio unitShift dcols nparity).q ≠ 0 →
      (mapSplit zio unitShift dcols nparity).acols = dcols := by
    intro hq
    simp only [mapSplit] at hq ⊢
    rw [if_neg hq]
  set m := mapSplit zio unitShift dcols nparity
  simp only [MapSplit.linear, mem_flatMap, mem_range, mem_map] at member
  obtain ⟨c, hc, i, hi, rfl⟩ := member
  refine ⟨by omega, ?_⟩
  simp only [MapSplit.rows] at hi
  simp only [MapSplit.total]
  by_cases hq : m.q = 0
  · -- a short stripe has one row: only the big columns exist
    have zero : i = 0 := by split at hi <;> omega
    have big : c < m.bc := by split at hi <;> omega
    subst zero
    omega
  · rw [full hq] at hc ⊢
    split at hi
    · have le : i * dcols ≤ dcols * m.q := by
        rw [mul_comm dcols]
        exact mul_le_mul_right _ (by omega)
      omega
    · have le : (i + 1) * dcols ≤ dcols * m.q := by
        rw [mul_comm dcols]
        exact mul_le_mul_right _ (by omega)
      rw [add_mul, one_mul] at le
      omega

theorem linear_nodup (hd : nparity < dcols) : ((mapSplit zio unitShift dcols nparity).linear dcols).Nodup := by
  have hac := (mapSplit_bc_le zio unitShift dcols nparity hd).2
  set m := mapSplit zio unitShift dcols nparity
  have pos : 0 < dcols := by omega
  simp only [MapSplit.linear]
  rw [nodup_flatMap]
  constructor
  · intro c _
    apply Nodup.map _ nodup_range
    intro i i' same
    have : i * dcols = i' * dcols := by simp only at same; omega
    exact eq_of_mul_eq_mul_right pos this
  · -- different columns differ modulo `dcols`
    apply Pairwise.imp_of_mem _ pairwise_lt_range
    intro c c' hc hc' lt k first second
    simp only [mem_range] at hc hc'
    simp only [mem_map] at first second
    obtain ⟨i, _, rfl⟩ := first
    obtain ⟨i', _, same⟩ := second
    have residues : (c' + i' * dcols) % dcols = (c + i * dcols) % dcols := by
      rw [show c' + i' * dcols = c + i * dcols by omega]
    rw [add_mul_mod_self_right, add_mul_mod_self_right, mod_eq_of_lt (by omega), mod_eq_of_lt (by omega)] at residues
    omega

/-- The sectors of a map are, up to order, the images of its parent sectors. -/
theorem vdevRaidzMapAlloc_sectors (fresh : Nat → List Word) (hd : nparity < dcols) :
    ((vdevRaidzMapAlloc zio unitShift dcols nparity fresh).sectors unitShift).Perm
      (((mapSplit zio unitShift dcols nparity).linear dcols).map (sectorPos dcols)) := by
  have hac := (mapSplit_bc_le zio unitShift dcols nparity hd).2
  set m := mapSplit zio unitShift dcols nparity with hm
  set cols := (range m.acols).map (mapCol m unitShift dcols) with hcols
  set filled := freshData fresh 0 (cols.take nparity) ++ sliceData (cols.drop nparity) zio.ioData
    with hfilled
  have plain : filled.flatMap (RaidzCol.sectors unitShift) = (m.linear dcols).map (sectorPos dcols) := by
    rw [flatMap_def, hfilled, filled_map _ fun _ _ => rfl, hcols, map_map, MapSplit.linear, map_flatMap, flatMap_def]
    congr 1
    apply map_congr_left
    intro c hc
    simp only [mem_range] at hc
    simp only [Function.comp_apply, hm, map_map]
    rw [mapCol_sectors zio unitShift dcols nparity c (by omega)]
    rfl
  show ((if nparity = 1 ∧ zio.ioOffset.testBit 20 then swapFirst filled else filled).flatMap
    (RaidzCol.sectors unitShift)).Perm _
  rw [← plain]
  split
  · rename_i swap
    apply swapFirst_sectors
    intro c0 c1 rest shape
    -- both columns are big or both are short: `bc` is zero or at least two
    have sizes : filled.map RaidzCol.rcSize = cols.map RaidzCol.rcSize := by
      exact filled_map _ (fun _ _ => rfl) ..
    have bcCase : m.bc = 0 ∨ 2 ≤ m.bc := by
      rw [hm]
      simp only [mapSplit]
      split <;> omega
    rw [shape, hcols, map_map] at sizes
    have len : 2 ≤ m.acols := by
      have := congrArg length sizes
      simp only [map_cons, length_cons, length_map, length_range] at this
      omega
    have at0 := congrArg (fun l => l[0]?) sizes
    have at1 := congrArg (fun l => l[1]?) sizes
    simp only [map_cons, getElem?_cons_zero, getElem?_cons_succ, getElem?_map,
      getElem?_range (show 0 < m.acols by omega), getElem?_range (show 1 < m.acols by omega),
      Option.map_some, Option.some.injEq, Function.comp_apply, mapCol] at at0 at1
    rw [at0, at1]
    congr 2
    rcases bcCase with zero | two
    · simp [zero]
    · simp [show 0 < m.bc by omega, show 1 < m.bc by omega]
  · exact Perm.refl _

theorem roundup_shiftLeft (t y shift : Nat) (pos : 0 < y) :
    roundup (t <<< shift) (y <<< shift) = roundup t y <<< shift := by
  have unit : 0 < 2 ^ shift := Nat.two_pow_pos shift
  simp only [roundup, shiftLeft_eq]
  have quot : (t * 2 ^ shift + (y * 2 ^ shift - 1)) / (y * 2 ^ shift) = (t + (y - 1)) / y := by
    rw [Nat.mul_comm y, ← Nat.div_div_eq_div_mul]
    congr 1
    have shape : t * 2 ^ shift + (2 ^ shift * y - 1) = 2 ^ shift * (t + (y - 1)) + (2 ^ shift - 1) := by
      have : 2 ^ shift * y = 2 ^ shift * (y - 1) + 2 ^ shift := by
        conv_lhs => rw [show y = y - 1 + 1 by omega, mul_add, mul_one]
      rw [mul_add, mul_comm t]
      omega
    rw [shape, mul_add_div unit, div_eq_of_lt (by omega), add_zero]
  rw [quot, mul_assoc]

theorem le_roundup (t y : Nat) (pos : 0 < y) : t ≤ roundup t y := by
  have upper : t + (y - 1) < (t + (y - 1)) / y * y + y := lt_div_mul_add pos
  simp only [roundup]
  omega

theorem vdevRaidzMapAlloc_asize (fresh : Nat → List Word) (hd : nparity < dcols) :
    (vdevRaidzMapAlloc zio unitShift dcols nparity fresh).rmAsize =
      roundup (mapSplit zio unitShift dcols nparity).total (nparity + 1) <<< unitShift := by
  have sum := mapCol_size_sum zio unitShift dcols nparity hd
  simp only [vdevRaidzMapAlloc, sum]
  exact roundup_shiftLeft _ _ _ (by omega)

/-- The closed size formula counts the same sectors as the column loop. -/
theorem total_eq_asize (hd : nparity < dcols) (pos : 0 < zio.ioSize) (aligned : zio.ioSize % 2 ^ unitShift = 0) :
    vdevRaidzAsize unitShift dcols nparity zio.ioSize =
      roundup (mapSplit zio unitShift dcols nparity).total (nparity + 1) <<< unitShift := by
  have unit : 0 < 2 ^ unitShift := Nat.two_pow_pos unitShift
  obtain ⟨s, hs⟩ : ∃ s, zio.ioSize = 2 ^ unitShift * s :=
    (dvd_of_mod_eq_zero aligned)
  have hsPos : 0 < s := by
    rcases Nat.eq_zero_or_pos s with zero | pos'
    · rw [hs, zero, Nat.mul_zero] at pos
      omega
    · exact pos'
  have shifted : zio.ioSize >>> unitShift = s := by
    rw [hs, shiftRight_eq_div_pow, Nat.mul_div_cancel_left _ unit]
  have sectors : (zio.ioSize - 1) >>> unitShift + 1 = s := by
    have last : zio.ioSize - 1 = 2 ^ unitShift * (s - 1) + (2 ^ unitShift - 1) := by
      have : 2 ^ unitShift * s = 2 ^ unitShift * (s - 1) + 2 ^ unitShift := by
        conv_lhs => rw [show s = s - 1 + 1 by omega, Nat.mul_add, Nat.mul_one]
      omega
    rw [last, shiftRight_eq_div_pow, mul_add_div unit, div_eq_of_lt (by omega)]
    omega
  simp only [vdevRaidzAsize, sectors]
  congr 2
  -- from here on only `s = q * n + r` matters, with `n = dcols - nparity`
  simp only [mapSplit, MapSplit.total, shifted]
  obtain ⟨n, rfl⟩ : ∃ n, dcols = nparity + n := ⟨dcols - nparity, by omega⟩
  have nPos : 0 < n := by omega
  have cancel : nparity + n - nparity = n := by omega
  have ceil : s + (nparity + n) - nparity - 1 = s + (n - 1) := by omega
  simp only [cancel, ceil]
  have rest : s - s / n * n = s % n := by
    rw [Nat.mul_comm, ← mod_eq_sub_mul_div]
  have whole : s = n * (s / n) + s % n := (div_add_mod s n).symm
  have rLt : s % n < n := mod_lt _ nPos
  rw [rest]
  by_cases hr : s % n = 0
  · have round : (s + (n - 1)) / n = s / n := by
      conv_lhs => rw [whole, hr, Nat.add_zero, mul_add_div nPos, div_eq_of_lt (show n - 1 < n by omega), Nat.add_zero]
    have qPos : s / n ≠ 0 := by
      intro zero
      rw [zero, hr] at whole
      omega
    simp only [hr, if_true, if_neg qPos, round, Nat.add_mul, Nat.add_zero]
    omega
  · have round : (s + (n - 1)) / n = s / n + 1 := by
      have shape : s + (n - 1) = n * (s / n + 1) + (s % n - 1) := by
        rw [Nat.mul_add]
        omega
      exact (divMod_of_eq shape (by omega)).1
    simp only [if_neg hr, round]
    by_cases hq : s / n = 0
    · rw [hq] at whole ⊢
      omega
    · simp only [if_neg hq, Nat.add_mul, Nat.mul_add, Nat.mul_one]
      omega

end Split

/-- A RAID-Z vdev as the layout sees it: how many children, how many of a
    stripe's columns are parity, and the sector size. -/
structure RaidzVdev where
  dcols : Nat
  nparity : Nat
  unitShift : Nat
  parity : nparity = 1 ∨ nparity = 2
  wide : nparity < dcols

/-- An I/O as `zio_vdev_io_start` issues it: not empty and a whole number of
    sectors, which it pads for and asserts. -/
structure AlignedZio (vd : RaidzVdev) extends Zio where
  nonempty : 0 < ioSize
  aligned : ioSize % 2 ^ vd.unitShift = 0

def RaidzVdev.map (vd : RaidzVdev) (zio : AlignedZio vd) (fresh : Nat → List Word) : RaidzMap :=
  vdevRaidzMapAlloc zio.toZio vd.unitShift vd.dcols vd.nparity fresh

def RaidzVdev.asize (vd : RaidzVdev) (zio : AlignedZio vd) : Nat :=
  vdevRaidzAsize vd.unitShift vd.dcols vd.nparity zio.ioSize

theorem RaidzVdev.map_asize (vd) (zio : AlignedZio vd) (fresh : Nat → List Word) :
    (vd.map zio fresh).rmAsize = vd.asize zio := by
  rw [RaidzVdev.map, vdevRaidzMapAlloc_asize _ _ _ _ _ vd.wide, RaidzVdev.asize,
    total_eq_asize _ _ _ _ vd.wide zio.nonempty zio.aligned]

/-- Every sector of a map is the image of a parent sector in `[b, b + asize)`. -/
theorem RaidzVdev.map_sector_linear (vd) (zio : AlignedZio vd) (fresh : Nat → List Word)
    (member : p ∈ (vd.map zio fresh).sectors vd.unitShift) :
    ∃ k, zio.ioOffset >>> vd.unitShift ≤ k ∧ k < (zio.ioOffset >>> vd.unitShift) + ((vd.asize zio) >>> vd.unitShift) ∧
      p = sectorPos vd.dcols k := by
  have perm := vdevRaidzMapAlloc_sectors zio.toZio vd.unitShift vd.dcols vd.nparity fresh vd.wide
  obtain ⟨k, hk, rfl⟩ := mem_map.mp (perm.mem_iff.mp member)
  obtain ⟨low, high⟩ := linear_bounds _ _ _ _ hk
  refine ⟨k, low, ?_, rfl⟩
  have rounded := le_roundup (mapSplit zio.toZio vd.unitShift vd.dcols vd.nparity).total
    (vd.nparity + 1) (by omega)
  rw [RaidzVdev.asize, total_eq_asize _ _ _ _ vd.wide zio.nonempty zio.aligned, shiftLeft_shiftRight]
  exact lt_of_lt_of_le high (Nat.add_le_add_left rounded _)

theorem RaidzVdev.map_sectors_apart (vd) (zio other : AlignedZio vd)
    (fresh fresh' : Nat → List Word) (apart : zio.ioOffset + vd.asize zio ≤ other.ioOffset) :
    List.Disjoint ((vd.map zio fresh).sectors vd.unitShift) ((vd.map other fresh').sectors vd.unitShift) := by
  intro p first second
  obtain ⟨k, _, high, rfl⟩ := vd.map_sector_linear zio fresh first
  obtain ⟨k', low, _, same⟩ := vd.map_sector_linear other fresh' second
  have equal : k = k' := sectorPos_injective vd.dcols same
  have whole : (zio.ioOffset >>> vd.unitShift) + ((vd.asize zio) >>> vd.unitShift) ≤
      (zio.ioOffset + vd.asize zio) >>> vd.unitShift := by
    simp only [shiftRight_eq_div_pow]
    exact div_add_div_le_add_div
  have mono : (zio.ioOffset + vd.asize zio) >>> vd.unitShift ≤ other.ioOffset >>> vd.unitShift := by
    simp only [shiftRight_eq_div_pow]
    exact Nat.div_le_div_right apart
  omega

/-- The columns of an I/O occupy pairwise distinct sectors inside its own part of
    the parent, `rm_asize` is the size that was allocated for it, and I/Os on
    disjoint parts of the parent share no sector of any child. -/
theorem raidz_map_layout (vd : RaidzVdev) (zio : AlignedZio vd) (fresh : Nat → List Word) :
    ((vd.map zio fresh).sectors vd.unitShift).Nodup ∧
    (∀ p ∈ (vd.map zio fresh).sectors vd.unitShift,
      ∃ k, zio.ioOffset >>> vd.unitShift ≤ k ∧
        k < (zio.ioOffset >>> vd.unitShift) + ((vd.map zio fresh).rmAsize >>> vd.unitShift) ∧
        p = (k % vd.dcols, k / vd.dcols)) ∧
    (vd.map zio fresh).rmAsize = vdevRaidzAsize vd.unitShift vd.dcols vd.nparity zio.ioSize ∧
    (∀ (other : AlignedZio vd) (fresh' : Nat → List Word),
      zio.ioOffset + vd.asize zio ≤ other.ioOffset ∨
        other.ioOffset + vd.asize other ≤ zio.ioOffset →
      List.Disjoint ((vd.map zio fresh).sectors vd.unitShift)
        ((vd.map other fresh').sectors vd.unitShift)) := by
  refine ⟨?_, ?_, vd.map_asize zio fresh, ?_⟩
  · have perm := vdevRaidzMapAlloc_sectors zio.toZio vd.unitShift vd.dcols vd.nparity fresh vd.wide
    exact perm.nodup_iff.mpr
      ((linear_nodup _ _ _ _ vd.wide).map (sectorPos_injective vd.dcols))
  · intro p member
    rw [vd.map_asize]
    exact vd.map_sector_linear zio fresh member
  · intro other fresh' apart
    rcases apart with before | after
    · exact vd.map_sectors_apart zio other fresh fresh' before
    · exact (vd.map_sectors_apart other zio fresh' fresh after).symm

/-- Three children, single parity: two sectors in the second megabyte, so that
    parity and the first data column are swapped on disk. -/
example : ((vdevRaidzMapAlloc ⟨1 <<< 20, 1024, [], false, false⟩ 9 3 1 (fun _ => [])).sectors 9) =
    [(0, 683), (2, 682), (1, 683)] := by decide

end MacZfs.Raidz
