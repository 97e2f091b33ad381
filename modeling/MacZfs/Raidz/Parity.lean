import MacZfs.Raidz.Galois
import MacZfs.Raidz.Map

/-! # Parity columns

`vdev_raidz_generate_parity_p` and `_pq`, and the three ways to reconstruct data columns. The loops run
over words; a column that is shorter than the parity counts as if it were full of zeros. So word `i`
of a parity column is a check of the row of words number `i` of the data columns.
-/

namespace MacZfs.Raidz

open List XorCode BitVec

instance : Inhabited RaidzCol := ⟨⟨0, 0, 0, [], none, false, false⟩⟩

/-! ## Loops over two buffers -/

/-- `*dst = *src` over the words of `src`. -/
def copyInto : List Word → List Word → List Word
  | dst, [] => dst
  | [], _ => []
  | _ :: dst, s :: src => s :: copyInto dst src

/-- `*dst = *src` over the words of `src`, and zeros after them. -/
def copyZero : List Word → List Word → List Word
  | dst, [] => dst.map fun _ => 0#64
  | [], _ => []
  | _ :: dst, s :: src => s :: copyZero dst src

/-- `*dst ^= *src` over the words of `src`. -/
def xorInto : List Word → List Word → List Word
  | dst, [] => dst
  | [], _ => []
  | d :: dst, s :: src => (d ^^^ s) :: xorInto dst src

/-- Doubles every word of `dst` and adds the words of `src`. -/
def mulInto : List Word → List Word → List Word
  | dst, [] => dst.map mul2Word
  | [], _ => []
  | d :: dst, s :: src => (mul2Word d ^^^ s) :: mulInto dst src

/-! ## Columns of a map -/

/-- The words of a column that a loop reads: `rc_size / sizeof (src[0])` of them. -/
def RaidzCol.words (rc : RaidzCol) : List Word := rc.rcData.take (rc.rcSize / 8)

namespace RaidzMap

def col (rm : RaidzMap) (c : ℕ) : RaidzCol := rm.rmCol.getD c default

def setCol (rm : RaidzMap) (c : ℕ) (f : RaidzCol → RaidzCol) : RaidzMap :=
  { rm with rmCol := rm.rmCol.modify c f }

def setData (rm : RaidzMap) (c : ℕ) (data : List Word) : RaidzMap :=
  rm.setCol c fun rc => { rc with rcData := data }

/-- The columns from `rm_firstdatacol` on. -/
def dataCols (rm : RaidzMap) : List RaidzCol := rm.rmCol.drop rm.rmFirstdatacol

def sources (rm : RaidzMap) : List (List Word) := rm.dataCols.map RaidzCol.words

/-- The same with `ccount = 0` for column `x`. -/
def sourcesBut (rm : RaidzMap) (x : ℕ) : List (List Word) :=
  (rm.dataCols.zipIdx rm.rmFirstdatacol).map fun (rc, c) => if c = x then [] else rc.words

/-- `zio->io_data`, of which the data columns are the parts. -/
def ioData (rm : RaidzMap) : List Word := rm.dataCols.flatMap RaidzCol.rcData

end RaidzMap

/-- `vdev_raidz_generate_parity_p`. -/
def vdevRaidzGenerateParityP (rm : RaidzMap) : RaidzMap :=
  match rm.sources with
  | [] => rm
  | first :: rest => rm.setData 0 (rest.foldl xorInto (copyInto (rm.col 0).rcData first))

/-- `vdev_raidz_generate_parity_pq`. -/
def vdevRaidzGenerateParityPq (rm : RaidzMap) : RaidzMap :=
  match rm.sources with
  | [] => rm
  | first :: rest =>
    (rm.setData 0 (rest.foldl xorInto (copyZero (rm.col 0).rcData first))).setData 1
      (rest.foldl mulInto (copyZero (rm.col 1).rcData first))

def generateParity (rm : RaidzMap) : RaidzMap :=
  if rm.rmFirstdatacol = 1 then vdevRaidzGenerateParityP rm else vdevRaidzGenerateParityPq rm

/-- `vdev_raidz_reconstruct_p`. -/
def vdevRaidzReconstructP (rm : RaidzMap) (x : ℕ) : RaidzMap :=
  let xcount := (rm.col x).rcSize / 8
  rm.setData x ((rm.sourcesBut x).foldl xorInto (copyInto (rm.col x).rcData ((rm.col 0).rcData.take xcount)))

/-- `vdev_raidz_reconstruct_q`. -/
def vdevRaidzReconstructQ (rm : RaidzMap) (x : ℕ) : RaidzMap :=
  let exp := 255 - (rm.rmCols - 1 - x)
  match rm.sourcesBut x with
  | [] => rm
  | first :: rest =>
    let dst := rest.foldl mulInto (copyZero (rm.col x).rcData first)
    rm.setData x ((xorInto dst (rm.col 1).rcData).map (mapBytes (vdevRaidzExp2 · exp)))

/-- The map in which columns `x` and `y` have no words and the parity columns have new buffers. The
    generation of the parity overwrites every word of these, whatever `zio_buf_alloc` left in them. -/
def setAside (rm : RaidzMap) (x y : ℕ) : RaidzMap :=
  (((rm.setData 0 (List.replicate ((rm.col 0).rcSize / 8) 0#64)).setData 1
    (List.replicate ((rm.col 1).rcSize / 8) 0#64)).setCol x fun rc => { rc with rcSize := 0 }).setCol y
      fun rc => { rc with rcSize := 0 }

/-- The bytes of one word of column `x` in `vdev_raidz_reconstruct_pq`, from the differences of the
    parities. -/
def pqWord (x y cols : ℕ) (p q : Word) : Word :=
  mapBytes (vdevRaidzExp2 · (pqAexp x y)) p ^^^ mapBytes (vdevRaidzExp2 · (pqBexp cols x y)) q

/-- `vdev_raidz_reconstruct_pq`. -/
def vdevRaidzReconstructPq (rm : RaidzMap) (x y : ℕ) : RaidzMap :=
  let parity := vdevRaidzGenerateParityPq (setAside rm x y)
  let p := List.zipWith (· ^^^ ·) (rm.col 0).rcData (parity.col 0).rcData
  let q := List.zipWith (· ^^^ ·) (rm.col 1).rcData (parity.col 1).rcData
  let xd := (List.zipWith (pqWord x y rm.rmCols) p q).take ((rm.col x).rcSize / 8)
  let yd := (List.zipWith (· ^^^ ·) p xd).take ((rm.col y).rcSize / 8)
  (rm.setData x (copyInto (rm.col x).rcData xd)).setData y (copyInto (rm.col y).rcData yd)

/-! ## What the loops leave -/

theorem ext_getD {a b : List Word} (length : a.length = b.length)
    (words : ∀ i < a.length, a.getD i 0#64 = b.getD i 0#64) : a = b := by
  apply ext_getElem length
  intro i inside inside'
  have at_ := words i inside
  rwa [getD_eq_getElem _ _ inside, getD_eq_getElem _ _ inside'] at at_

section

variable (dst src : List Word)

include dst src

@[simp]
theorem length_copyInto : (copyInto dst src).length = dst.length := by
  fun_induction copyInto dst src <;> simp_all

@[simp]
theorem length_copyZero : (copyZero dst src).length = dst.length := by
  fun_induction copyZero dst src <;> simp_all

@[simp]
theorem length_xorInto : (xorInto dst src).length = dst.length := by
  fun_induction xorInto dst src <;> simp_all

@[simp]
theorem length_mulInto : (mulInto dst src).length = dst.length := by
  fun_induction mulInto dst src <;> simp_all

end

variable {dst src : List Word}

theorem copyInto_eq (same : src.length = dst.length) : copyInto dst src = src := by
  fun_induction copyInto dst src with
  | case1 dst => exact eq_nil_of_length_eq_zero same.symm
  | case2 src nonempty => simp_all
  | case3 d dst s src ih => rw [ih (Nat.succ_inj.mp same)]

variable {i : ℕ}

theorem getD_copyZero (inside : i < dst.length) : (copyZero dst src).getD i 0#64 = src.getD i 0#64 := by
  induction dst, src using copyZero.induct generalizing i with
  | case1 dst => simp [copyZero]
  | case2 src nonempty => simp at inside
  | case3 d dst s src ih =>
    cases i with
    | zero => simp [copyZero]
    | succ i => simpa [copyZero] using ih (Nat.lt_of_succ_lt_succ inside)

theorem getD_xorInto (inside : i < dst.length) :
    (xorInto dst src).getD i 0#64 = dst.getD i 0#64 ^^^ src.getD i 0#64 := by
  induction dst, src using xorInto.induct generalizing i with
  | case1 dst => simp [xorInto]
  | case2 src nonempty => simp at inside
  | case3 d dst s src ih =>
    cases i with
    | zero => simp [xorInto]
    | succ i => simpa [xorInto] using ih (Nat.lt_of_succ_lt_succ inside)

theorem getD_mulInto (inside : i < dst.length) :
    (mulInto dst src).getD i 0#64 = mul2Word (dst.getD i 0#64) ^^^ src.getD i 0#64 := by
  induction dst, src using mulInto.induct generalizing i with
  | case1 dst => simp [mulInto, List.getElem?_eq_getElem inside]
  | case2 src nonempty => simp at inside
  | case3 d dst s src ih =>
    cases i with
    | zero => simp [mulInto]
    | succ i => simpa [mulInto] using ih (Nat.lt_of_succ_lt_succ inside)

/-! ## Rows -/

/-- Word `i` of every column. -/
def row (i : ℕ) (cols : List (List Word)) : List Word := cols.map (·.getD i 0#64)

/-- The first parity of data columns, `n` words of it. -/
def parityP (n : ℕ) (cols : List (List Word)) : List Word :=
  (List.range n).map fun i => XorCode.total (row i cols)

def parityQ (n : ℕ) (cols : List (List Word)) : List Word :=
  (List.range n).map fun i => XorCode.horner mul2Word (row i cols)

theorem getD_range_map (f : ℕ → Word) {n} (inside : i < n) : ((List.range n).map f).getD i 0#64 = f i := by
  rw [getD_eq_getElem _ _ (by simpa), getElem_map, getElem_range]

theorem length_foldl_xorInto (dst) (srcs : List (List Word)) :
    (srcs.foldl xorInto dst).length = dst.length := by
  induction srcs generalizing dst with
  | nil => rfl
  | cons src rest ih => rw [foldl_cons, ih, length_xorInto]

theorem length_foldl_mulInto (dst) (srcs : List (List Word)) :
    (srcs.foldl mulInto dst).length = dst.length := by
  induction srcs generalizing dst with
  | nil => rfl
  | cons src rest ih => rw [foldl_cons, ih, length_mulInto]

theorem getD_foldl_xorInto (srcs : List (List Word)) (inside : i < dst.length) :
    (srcs.foldl xorInto dst).getD i 0#64 = (row i srcs).foldl (· ^^^ ·) (dst.getD i 0#64) := by
  induction srcs generalizing dst with
  | nil => rfl
  | cons src rest ih =>
    rw [foldl_cons, ih (by simpa using inside), getD_xorInto inside]
    rfl

theorem getD_foldl_mulInto (srcs : List (List Word)) (inside : i < dst.length) :
    (srcs.foldl mulInto dst).getD i 0#64 = (row i srcs).foldl (fun q x => mul2Word q ^^^ x) (dst.getD i 0#64) := by
  induction srcs generalizing dst with
  | nil => rfl
  | cons src rest ih =>
    rw [foldl_cons, ih (by simpa using inside), getD_mulInto inside]
    rfl

/-- The loops of `vdev_raidz_generate_parity_pq`. -/
theorem foldl_xorInto_eq (dst first : List Word) (rest : List (List Word)) :
    rest.foldl xorInto (copyZero dst first) = parityP dst.length (first :: rest) := by
  apply ext_getD
  · simp [length_foldl_xorInto, parityP]
  · intro i inside
    rw [length_foldl_xorInto, length_copyZero] at inside
    rw [getD_foldl_xorInto _ (by simpa), getD_copyZero inside, parityP, getD_range_map _ inside]
    simp [row, total]

theorem foldl_mulInto_eq (dst first : List Word) (rest : List (List Word)) :
    rest.foldl mulInto (copyZero dst first) = parityQ dst.length (first :: rest) := by
  apply ext_getD
  · simp [length_foldl_mulInto, parityQ]
  · intro i inside
    rw [length_foldl_mulInto, length_copyZero] at inside
    rw [getD_foldl_mulInto _ (by simpa), getD_copyZero inside, parityQ, getD_range_map _ inside]
    simp [row, horner, mul2Word_additive.zero]

/-! ## Maps -/

namespace RaidzMap

variable {rm : RaidzMap} {c k : ℕ}

variable {f : RaidzCol → RaidzCol}

@[simp]
theorem setCol_firstdatacol : (rm.setCol c f).rmFirstdatacol = rm.rmFirstdatacol := rfl

theorem col_setCol (inside : c < rm.rmCol.length) : (rm.setCol c f).col c = f (rm.col c) := by
  simp [col, setCol, List.getElem?_eq_getElem inside]

theorem col_setCol_ne (other : c' ≠ c) : (rm.setCol c f).col c' = rm.col c' := by
  simp [col, setCol, other.symm]

theorem length_setCol : (rm.setCol c f).rmCol.length = rm.rmCol.length := by
  simp [setCol]

theorem dataCols_setCol_parity (parity : c < rm.rmFirstdatacol) : (rm.setCol c f).dataCols = rm.dataCols := by
  apply ext_getElem?
  intro i
  have other : c ≠ rm.rmFirstdatacol + i := by omega
  simp [dataCols, setCol, other]

theorem dataCols_setCol (at_ : c = rm.rmFirstdatacol + k) : (rm.setCol c f).dataCols = rm.dataCols.modify k f := by
  subst at_
  apply ext_getElem?
  intro i
  by_cases same : k = i
  · simp [dataCols, setCol, same]
  · simp [dataCols, setCol, same]

theorem sourcesBut_eq : rm.sourcesBut (rm.rmFirstdatacol + k) = rm.sources.set k [] := by
  apply ext_getElem?
  intro i
  simp only [sourcesBut, sources, getElem?_map, getElem?_zipIdx, getElem?_set, length_map]
  by_cases same : k = i
  · subst same
    by_cases inside : k < rm.dataCols.length
    · simp [inside]
    · simp [inside]
  · simp only [if_neg same]
    cases rm.dataCols[i]? with
    | none => rfl
    | some rc => simp [Ne.symm same]

end RaidzMap

variable {k : ℕ}

theorem row_set (cols : List (List Word)) : row i (cols.set k []) = (row i cols).set k 0#64 := by
  simp [row]

theorem row_length (cols : List (List Word)) : (row i cols).length = cols.length := by simp [row]

theorem row_getElem {cols : List (List Word)} (inside : k < cols.length)
    (inside' : k < (row i cols).length) : (row i cols)[k] = cols[k].getD i 0#64 := by
  simp [row]

/-! ## Lost columns -/

section Lost

variable {cols : List (List Word)} {k n : ℕ} (inside : k < cols.length) (short : cols[k].length ≤ n)

include inside short

theorem lost_p {dst} (size : dst.length = cols[k].length) :
    (cols.set k []).foldl xorInto (copyInto dst ((parityP n cols).take cols[k].length)) = cols[k] := by
  have copied : copyInto dst ((parityP n cols).take cols[k].length) = (parityP n cols).take cols[k].length :=
    copyInto_eq (by simp [parityP, size, short])
  have taken : ((parityP n cols).take cols[k].length).length = cols[k].length := by simp [parityP, short]
  rw [copied]
  apply ext_getD
  · rw [length_foldl_xorInto, taken]
  · intro i small
    rw [length_foldl_xorInto, taken] at small
    have word : ((parityP n cols).take cols[k].length).getD i 0#64 = total (row i cols) := by
      rw [getD_eq_getElem _ _ (taken.symm ▸ small), getElem_take]
      simp [parityP]
    have inside' : k < (row i cols).length := by simpa [row] using inside
    rw [getD_foldl_xorInto _ (taken.symm ▸ small), word, foldl_xor, row_set,
      solve_total inside', row_getElem inside inside']

theorem lost_q {dst first : List Word} (size : dst.length = cols[k].length)
    (others : cols.set k [] = first :: rest) (narrow : cols.length ≤ 255) :
    (xorInto (rest.foldl mulInto (copyZero dst first)) (parityQ n cols)).map
      (mapBytes (vdevRaidzExp2 · (255 - (cols.length - 1 - k)))) = cols[k] := by
  apply ext_getD
  · simp [length_foldl_mulInto, size]
  · intro i small
    rw [length_map, length_xorInto, length_foldl_mulInto, length_copyZero, size] at small
    have inside' : k < (row i cols).length := by simpa [row] using inside
    have width : (xorInto (rest.foldl mulInto (copyZero dst first)) (parityQ n cols)).length = cols[k].length := by
      rw [length_xorInto, length_foldl_mulInto, length_copyZero, size]
    have word : (xorInto (rest.foldl mulInto (copyZero dst first)) (parityQ n cols)).getD i 0#64 =
        horner mul2Word ((row i cols).set k 0#64) ^^^ horner mul2Word (row i cols) := by
      rw [getD_xorInto (by rw [length_foldl_mulInto, length_copyZero, size]; exact small), foldl_mulInto_eq, ← others,
        parityQ, parityQ, getD_range_map _ (size.symm ▸ small), getD_range_map _ (by omega), row_set]
    rw [getD_eq_getElem _ _ (by rw [length_map, width]; exact small), getElem_map,
      ← getD_eq_getElem _ 0#64, word, mapBytes_exp2 (by omega), ← row_getElem inside inside']
    have solved := solve_horner mul2Word_additive mul2Word_period inside'
      (by rw [row_length]; exact narrow)
    rwa [row_length] at solved

end Lost

/-- The sums that `vdev_raidz_reconstruct_pq` starts from. -/
theorem pair_sums {k'} (order : k < k') (inside : k' < d.length) :
    total d ^^^ total ((d.set k 0#64).set k' 0#64) = d[k] ^^^ d[k'] ∧
      horner mul2Word d ^^^ horner mul2Word ((d.set k 0#64).set k' 0#64) =
        mul2Word^[d.length - 1 - k] d[k] ^^^ mul2Word^[d.length - 1 - k'] d[k'] := by
  have inside' : k' < (d.set k 0#64).length := by simpa using inside
  have kept : (d.set k 0#64)[k'] = d[k'] := getElem_set_ne (by omega) _
  constructor
  · rw [total_set (show k < d.length by omega), total_set inside', kept, ← xor_assoc, xor_cancel]
  · rw [horner_set mul2Word_additive (show k < d.length by omega),
      horner_set mul2Word_additive inside', kept, length_set, ← xor_assoc, xor_cancel]

theorem getD_take_range_map (f : ℕ → Word) {n m} (short : m ≤ n) (small : i < m) :
    (((List.range n).map f).take m).getD i 0#64 = f i := by
  rw [getD_eq_getElem _ _ (by simp; omega), getElem_take, getElem_map, getElem_range]

section Pair

variable {cols : List (List Word)} {k k' n : ℕ} (order : k < k') (inside : k' < cols.length)
  (inside' : k < cols.length)

def withoutPair (cols : List (List Word)) (k k' : ℕ) : List (List Word) := (cols.set k []).set k' []

include order inside inside'

theorem lost_pq_word (narrow : cols.length ≤ 255) (i) :
    (total (row i cols) ^^^ total (row i (withoutPair cols k k')) = cols[k].getD i 0#64 ^^^ cols[k'].getD i 0#64) ∧
    pqWord (2 + k) (2 + k') (2 + cols.length)
      (total (row i cols) ^^^ total (row i (withoutPair cols k k')))
      (horner mul2Word (row i cols) ^^^ horner mul2Word (row i (withoutPair cols k k'))) = cols[k].getD i 0#64 := by
  have wide : k' < (row i cols).length := by simpa [row] using inside
  have wide' : k < (row i cols).length := by simpa [row] using inside'
  have without : row i (withoutPair cols k k') = ((row i cols).set k 0#64).set k' 0#64 := by
    rw [withoutPair, row_set, row_set]
  obtain ⟨sum, weighted⟩ := pair_sums order wide
  rw [without, sum, weighted, row_getElem inside' wide', row_getElem inside wide, row_length]
  refine ⟨rfl, ?_⟩
  have solved := @pq_solve (2 + k) (2 + k') (2 + cols.length) (by omega) (by omega) (by omega)
    (cols[k].getD i 0#64) (cols[k'].getD i 0#64)
  have left : 2 + cols.length - 1 - (2 + k) = cols.length - 1 - k := by omega
  have right : 2 + cols.length - 1 - (2 + k') = cols.length - 1 - k' := by omega
  rw [left, right] at solved
  exact solved

theorem lost_pq (narrow : cols.length ≤ 255) (short : cols[k].length ≤ n) (shorter : cols[k'].length ≤ cols[k].length) :
    let p := zipWith (· ^^^ ·) (parityP n cols) (parityP n (withoutPair cols k k'))
    let q := zipWith (· ^^^ ·) (parityQ n cols) (parityQ n (withoutPair cols k k'))
    (zipWith (pqWord (2 + k) (2 + k') (2 + cols.length)) p q).take cols[k].length = cols[k] ∧
      (zipWith (· ^^^ ·) p cols[k]).take cols[k'].length = cols[k'] := by
  intro p q
  have p_eq : p = (range n).map fun i => cols[k].getD i 0#64 ^^^ cols[k'].getD i 0#64 := by
    simp [p, parityP, (lost_pq_word order inside inside' narrow _).1]
  constructor
  · have xd : zipWith (pqWord (2 + k) (2 + k') (2 + cols.length)) p q =
        (range n).map fun i => cols[k].getD i 0#64 := by
      simp [p, q, parityP, parityQ, (lost_pq_word order inside inside' narrow _).2]
    rw [xd]
    apply ext_getD
    · simp [short]
    · intro i small
      rw [getD_take_range_map _ short (by simpa [short] using small)]
  · rw [p_eq]
    apply ext_getD
    · simp only [length_take, length_zipWith, length_map, length_range]
      omega
    · intro i small
      simp only [length_take, length_zipWith, length_map, length_range] at small
      rw [getD_eq_getElem _ _ (by simp; omega), getElem_take, getElem_zipWith, getElem_map,
        getElem_range, ← getD_eq_getElem cols[k] 0#64 (by omega), BitVec.xor_comm, ← BitVec.xor_assoc,
        BitVec.xor_self, BitVec.zero_xor]

end Pair

end MacZfs.Raidz
