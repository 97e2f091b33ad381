import MacZfs.Raidz.Stripe

/-! # Erased columns

Parity is generated for a map, then one or two of its data columns are overwritten with anything of the
same length. Reconstruction puts back what was there. Columns may have any sizes that the assertions of
the parity loops allow: none is longer than the first data column, which is as long as the parity.
-/

namespace MacZfs.Raidz

open List RaidzMap AdjoinRoot Nat

/-! ## Doubling in the field -/

open Polynomial in
/-- The polynomial `0x11d`. -/
noncomputable def fieldPoly : (ZMod 2)[X] := X ^ 8 + X ^ 4 + X ^ 3 + X ^ 2 + 1

/-- Polynomials over the field of two elements, modulo `0x11d`. -/
abbrev Field256 := AdjoinRoot fieldPoly

noncomputable section

def coefficient (b : Bool) : Field256 := if b then 1 else 0

/-- The element that a byte stands for: bit `i` is the coefficient of `X ^ i`. -/
def fieldElem (a : Byte) : Field256 :=
  ∑ i ∈ Finset.range 8, coefficient (a.getLsbD i) * AdjoinRoot.root fieldPoly ^ i

end

theorem two_eq_zero : (2 : Field256) = 0 := by
  have image := map_ofNat (of fieldPoly) 2
  rw [← image, show (OfNat.ofNat 2 : ZMod 2) = 0 from rfl, map_zero]

theorem root_relation : (root fieldPoly) ^ 8 + root fieldPoly ^ 4 +
    root fieldPoly ^ 3 + root fieldPoly ^ 2 + 1 = 0 := by
  have vanishes := mk_self (f := fieldPoly)
  conv at vanishes => lhs; arg 2; rw [fieldPoly]
  simpa only [map_add, map_pow, map_one, mk_X] using vanishes

theorem coefficient_xor (b c : Bool) : coefficient (b ^^ c) = coefficient b + coefficient c := by
  cases b <;> cases c <;> simp [coefficient]
  rw [one_add_one_eq_two, two_eq_zero]

theorem fieldElem_two : fieldElem 2#8 = root fieldPoly := by
  simp [fieldElem, Finset.sum_range_succ, coefficient]

/-- `VDEV_RAIDZ_MUL_2` multiplies by two. -/
theorem fieldElem_mul2 (a : Byte) : fieldElem (vdevRaidzMul2 a) = fieldElem 2#8 * fieldElem a := by
  have bits : ∀ i < 8, (vdevRaidzMul2 a).getLsbD i =
      ((decide (0 < i) && a.getLsbD (i - 1)) ^^ (a.getLsbD 7 && (0x1d#8).getLsbD i)) := by
    intro i inside
    rw [vdevRaidzMul2_eq, BitVec.getLsbD_xor, BitVec.getLsbD_shiftLeft]
    cases a.getLsbD 7 <;> cases i <;> simp [inside]
  rw [fieldElem_two, fieldElem, fieldElem]
  simp only [Finset.sum_range_succ, Finset.sum_range_zero, bits, Nat.lt_add_one, Nat.reduceLT]
  simp only [BitVec.getLsbD_eq_getElem, BitVec.reduceGetElem, Nat.lt_add_one, Nat.one_lt_ofNat, Nat.ofNat_pos,
    Nat.reduceLT, Nat.add_one_sub_one, tsub_self, zero_tsub, decide_true, decide_false, Bool.true_and, Bool.false_and,
    Bool.and_true, Bool.and_false, Bool.bne_false, Bool.false_bne, coefficient_xor, pow_zero, pow_one, mul_one, zero_add]
  linear_combination coefficient a[7] * root_relation -
    coefficient a[7] * root fieldPoly ^ 8 * two_eq_zero

theorem fieldElem_mul2Word (w : Word) (inside : j < 8) :
    fieldElem (byte (mul2Word w) j) = fieldElem 2#8 * fieldElem (byte w j) := by
  rw [mul2Word_eq, byte_mapBytes _ _ inside, fieldElem_mul2]

/-! ## Maps -/

/-- What `vdev_raidz_map_alloc` and the assertions of the parity loops say of a map, with at most 255 data
    columns. -/
structure RaidzMap.Shaped (rm : RaidzMap) : Prop where
  parity : rm.rmFirstdatacol = 1 ∨ rm.rmFirstdatacol = 2
  cols : rm.rmCols = rm.rmCol.length
  data : rm.rmFirstdatacol < rm.rmCols
  narrow : rm.rmCols ≤ rm.rmFirstdatacol + 255
  buffer : ∀ c < rm.rmCols, (rm.col c).rcData.length * 8 = (rm.col c).rcSize
  depth : ∀ c < rm.rmFirstdatacol, (rm.col c).rcSize = (rm.col rm.rmFirstdatacol).rcSize
  short : ∀ c < rm.rmCols, (rm.col c).rcSize ≤ (rm.col rm.rmFirstdatacol).rcSize

namespace RaidzMap

variable {rm : RaidzMap} {k c : ℕ} {data : List Word}

theorem setData_comm (apart : c ≠ c') :
    (rm.setData c data).setData c' data' = (rm.setData c' data').setData c data := by
  simp only [setData, setCol]
  congr 1
  apply ext_getElem?
  intro i
  simp only [getElem?_modify]
  by_cases first : c = i
  · subst first
    simp [apart.symm]
  · simp [first]

theorem setData_col_self (inside : c < rm.rmCol.length) : ((rm.setData c data).col c).rcData = data := by
  rw [setData_col, if_pos ⟨rfl, inside⟩]

theorem sources_setData (at_ : c = rm.rmFirstdatacol + k) :
    (rm.setData c data).sources.set k [] = rm.sources.set k [] := by
  apply ext_getElem?
  intro i
  rw [sources, setData, dataCols_setCol at_]
  simp only [sources, getElem?_set, length_map, length_modify, getElem?_map, getElem?_modify]
  by_cases same : k = i <;> simp [same]

theorem sources_setData_parity (parity : c < rm.rmFirstdatacol) : (rm.setData c data).sources = rm.sources := by
  rw [sources, setData, dataCols_setCol_parity parity, ← sources]

end RaidzMap

namespace RaidzMap.Shaped

variable {rm : RaidzMap} (shaped : rm.Shaped)

include shaped

theorem length_sources : rm.sources.length = rm.rmCols - rm.rmFirstdatacol := by
  rw [sources, length_map, dataCols, length_drop, shaped.cols]

theorem getElem_sources {k} (inside : k < rm.sources.length) :
    rm.sources[k] = (rm.col (rm.rmFirstdatacol + k)).rcData := by
  have wide : rm.rmFirstdatacol + k < rm.rmCols := by
    rw [shaped.length_sources] at inside
    omega
  have buffer := shaped.buffer _ wide
  have wide' : rm.rmFirstdatacol + k < rm.rmCol.length := by rwa [← shaped.cols]
  simp only [sources, dataCols, getElem_map, getElem_drop, RaidzCol.words]
  simp only [col, getD_eq_getElem _ _ wide'] at buffer ⊢
  rw [← buffer, Nat.mul_div_cancel _ (by omega), take_length]

theorem sources_ne_nil : rm.sources ≠ [] := by
  have length := shaped.length_sources
  have := shaped.data
  intro empty
  rw [empty, length_nil] at length
  omega

theorem length_parity {c} (parity : c < rm.rmFirstdatacol) :
    (rm.col c).rcData.length = (rm.col rm.rmFirstdatacol).rcData.length := by
  have := shaped.buffer c (by have := shaped.data; omega)
  have := shaped.buffer _ shaped.data
  have := shaped.depth c parity
  omega

theorem length_le {c} (inside : c < rm.rmCols) :
    (rm.col c).rcData.length ≤ (rm.col rm.rmFirstdatacol).rcData.length := by
  have := shaped.buffer c inside
  have := shaped.buffer _ shaped.data
  have := shaped.short c inside
  omega

theorem generateParityP_form : vdevRaidzGenerateParityP rm =
    rm.setData 0 (parityP (rm.col rm.rmFirstdatacol).rcData.length rm.sources) := by
  have some_parity : 0 < rm.rmFirstdatacol := by rcases shaped.parity with one | two <;> omega
  obtain ⟨first, rest, shape⟩ := exists_cons_of_ne_nil shaped.sources_ne_nil
  have inside : 0 < rm.sources.length := length_pos_of_ne_nil shaped.sources_ne_nil
  have head := shaped.getElem_sources inside
  simp only [shape, getElem_cons_zero, add_zero] at head
  rw [generateParityP_eq shape (by rw [head, shaped.length_parity some_parity]), shaped.length_parity some_parity]

theorem generateParityPq_form (two : rm.rmFirstdatacol = 2) : vdevRaidzGenerateParityPq rm =
    (rm.setData 0 (parityP (rm.col rm.rmFirstdatacol).rcData.length rm.sources)).setData 1
      (parityQ (rm.col rm.rmFirstdatacol).rcData.length rm.sources) := by
  rw [generateParityPq_eq shaped.sources_ne_nil, shaped.length_parity (show 0 < _ by omega),
    shaped.length_parity (show 1 < _ by omega)]

end RaidzMap.Shaped

structure Protected (rm : RaidzMap) : Prop where
  shaped : rm.Shaped
  p : (rm.col 0).rcData = parityP (rm.col rm.rmFirstdatacol).rcData.length rm.sources
  q : rm.rmFirstdatacol = 2 → (rm.col 1).rcData = parityQ (rm.col rm.rmFirstdatacol).rcData.length rm.sources

theorem RaidzMap.Shaped.setData {rm : RaidzMap} (shaped : rm.Shaped) {c} {data : List Word}
    (same : data.length = (rm.col c).rcData.length) : (rm.setData c data).Shaped := by
  have kept : ∀ c', ((rm.setData c data).col c').rcSize = (rm.col c').rcSize ∧
      ((rm.setData c data).col c').rcData.length = (rm.col c').rcData.length := by
    intro c'
    rw [setData_col]
    split_ifs with at_
    · exact ⟨rfl, by rw [at_.1, same]⟩
    · exact ⟨rfl, rfl⟩
  refine ⟨shaped.parity, ?_, shaped.data, shaped.narrow, ?_, ?_, ?_⟩
  · rw [RaidzMap.setData, length_setCol]
    exact shaped.cols
  · intro c' inside
    rw [(kept c').1, (kept c').2]
    exact shaped.buffer c' inside
  · intro c' parity
    rw [(kept _).1, (kept _).1]
    exact shaped.depth c' parity
  · intro c' inside
    rw [(kept _).1, (kept _).1]
    exact shaped.short c' inside

theorem RaidzMap.Shaped.generateParity_protected {rm : RaidzMap} (shaped : rm.Shaped) :
    Protected (generateParity rm) := by
  have wide : 1 < rm.rmCol.length := by
    rw [← shaped.cols]
    have := shaped.data
    rcases shaped.parity with one | two <;> omega
  rw [generateParity]
  split_ifs with one
  · have some_parity : 0 < rm.rmFirstdatacol := by omega
    have data := fun p => @setData_col_ne rm 0 p rm.rmFirstdatacol (by omega)
    rw [shaped.generateParityP_form]
    refine ⟨shaped.setData ?_, ?_, fun two => absurd (one.symm.trans two) (by decide)⟩
    · rw [shaped.length_parity some_parity]
      simp [parityP]
    · rw [setData_col_self (by omega), sources_setData_parity some_parity, setData_firstdatacol, data]
  · have two : rm.rmFirstdatacol = 2 := shaped.parity.resolve_left one
    rw [shaped.generateParityPq_form two]
    generalize parityEq : parityP (rm.col rm.rmFirstdatacol).rcData.length rm.sources = p
    have pShaped : (rm.setData 0 p).Shaped := by
      apply shaped.setData
      rw [shaped.length_parity (by omega), ← parityEq]
      simp [parityP]
    have data : (rm.setData 0 p).col rm.rmFirstdatacol = rm.col rm.rmFirstdatacol := setData_col_ne (by omega)
    have data' : ∀ q, ((rm.setData 0 p).setData 1 q).col rm.rmFirstdatacol = rm.col rm.rmFirstdatacol :=
      fun q => (setData_col_ne (by omega)).trans data
    have sources : ∀ q, ((rm.setData 0 p).setData 1 q).sources = rm.sources := by
      intro q
      rw [sources_setData_parity (by rw [setData_firstdatacol]; omega), sources_setData_parity (by omega)]
    refine ⟨pShaped.setData ?_, ?_, fun _ => ?_⟩
    · have length := pShaped.length_parity (show 1 < _ by rw [setData_firstdatacol]; omega)
      rw [length, setData_firstdatacol, data]
      simp [parityQ]
    · rw [setData_col_ne (by omega), setData_col_self (by omega), sources, setData_firstdatacol, setData_firstdatacol,
        data', parityEq]
    · rw [setData_col_self (by rw [RaidzMap.setData, length_setCol]; omega), sources, setData_firstdatacol,
        setData_firstdatacol, data']

theorem generateParity_data {rm} (shaped : rm.Shaped) {c} (data : rm.rmFirstdatacol ≤ c) :
    (generateParity rm).col c = rm.col c := by
  rw [generateParity]
  split_ifs with one
  · rw [shaped.generateParityP_form, setData_col_ne (by omega)]
  · have two : rm.rmFirstdatacol = 2 := shaped.parity.resolve_left one
    rw [shaped.generateParityPq_form two, setData_col_ne (by omega), setData_col_ne (by omega)]

/-! ## Reconstruction -/

theorem RaidzMap.Shaped.room {rm : RaidzMap} (shaped : rm.Shaped) :
    rm.Room (rm.col rm.rmFirstdatacol).rcData.length rm.sources := by
  have count := shaped.length_sources
  have data := shaped.data
  refine ⟨by omega, shaped.cols.symm, ?_, ?_, ?_, ?_, ?_⟩
  · have := shaped.narrow
    omega
  · intro k inside
    rw [shaped.getElem_sources inside]
    exact shaped.length_le (by omega)
  · intro k inside
    have buffer := shaped.buffer (rm.rmFirstdatacol + k) (by omega)
    rw [shaped.getElem_sources inside]
    omega
  · intro k inside
    rw [shaped.getElem_sources inside]
  · intro c parity
    have buffer := shaped.buffer c (by omega)
    rw [← shaped.length_parity parity]
    omega

namespace Protected

variable {rm : RaidzMap} (rmProtected : Protected rm) {k : ℕ} (inside : k < rm.sources.length)

include rmProtected inside

theorem reconstructP_erased (same : junk.length = rm.sources[k].length) :
    vdevRaidzReconstructP (rm.setData (rm.rmFirstdatacol + k) junk) (rm.rmFirstdatacol + k) = rm := by
  have room := rmProtected.shaped.room
  have parity : 0 < rm.rmFirstdatacol := by rcases rmProtected.shaped.parity with one | two <;> omega
  have col : (rm.setData (rm.rmFirstdatacol + k) junk).col 0 = rm.col 0 := setData_col_ne (by omega)
  have restored := (room.setData (same.trans (room.buffer k inside).symm)).reconstructP inside
    ((congrArg _ col).trans rmProtected.p) (sources_setData rfl)
  rw [rmProtected.shaped.getElem_sources inside] at restored
  exact restored.trans setData_restore

theorem reconstructQ_erased (two : rm.rmFirstdatacol = 2) (same : junk.length = rm.sources[k].length) :
    vdevRaidzReconstructQ (rm.setData (rm.rmFirstdatacol + k) junk) (rm.rmFirstdatacol + k) = rm := by
  have room := rmProtected.shaped.room
  have col : (rm.setData (rm.rmFirstdatacol + k) junk).col 1 = rm.col 1 := setData_col_ne (by omega)
  have restored := (room.setData (same.trans (room.buffer k inside).symm)).reconstructQ inside
    ((congrArg _ col).trans (rmProtected.q two)) (sources_setData rfl)
  rw [rmProtected.shaped.getElem_sources inside] at restored
  exact restored.trans setData_restore

theorem reconstructPq_erased (two : rm.rmFirstdatacol = 2) (order : k < k') (inside' : k' < rm.sources.length)
    (shorter : rm.sources[k'].length ≤ rm.sources[k].length)
    (same : junk.length = rm.sources[k].length) (same' : junk'.length = rm.sources[k'].length) :
    vdevRaidzReconstructPq ((rm.setData (rm.rmFirstdatacol + k) junk).setData (rm.rmFirstdatacol + k') junk')
      (rm.rmFirstdatacol + k) (rm.rmFirstdatacol + k') = rm := by
  have room := rmProtected.shaped.room
  have once := room.setData (same.trans (room.buffer k inside).symm)
  have twice := once.setData (same'.trans (once.buffer k' inside').symm)
  have parity : ∀ c < 2, ((rm.setData (rm.rmFirstdatacol + k) junk).setData (rm.rmFirstdatacol + k') junk').col c =
      rm.col c := by
    intro c parity
    rw [setData_col_ne (by omega), setData_col_ne (by omega)]
  have sources : withoutPair ((rm.setData (rm.rmFirstdatacol + k) junk).setData (rm.rmFirstdatacol + k') junk').sources
      k k' = withoutPair rm.sources k k' := by
    have outer := @sources_setData (rm.setData (rm.rmFirstdatacol + k) junk) k' (rm.rmFirstdatacol + k') junk' rfl
    have inner := @sources_setData rm k (rm.rmFirstdatacol + k) junk rfl
    rw [withoutPair, withoutPair, set_comm _ _ (by omega), outer, set_comm _ _ (by omega), inner]
  have restored := twice.reconstructPq inside two order inside' shorter
    ((congrArg _ (parity 0 (by omega))).trans rmProtected.p) ((congrArg _ (parity 1 (by omega))).trans (rmProtected.q two))
    sources
  refine restored.trans ?_
  simp only [setData_firstdatacol]
  rw [rmProtected.shaped.getElem_sources inside, rmProtected.shaped.getElem_sources inside',
    setData_comm (show rm.rmFirstdatacol + k' ≠ rm.rmFirstdatacol + k by omega), setData_restore, setData_restore]

end Protected

theorem generateParity_form (rm) :
    (generateParity rm).rmFirstdatacol = rm.rmFirstdatacol ∧ (generateParity rm).rmCols = rm.rmCols := by
  rw [generateParity, vdevRaidzGenerateParityP, vdevRaidzGenerateParityPq]
  split_ifs <;> cases rm.sources <;> exact ⟨rfl, rfl⟩

/-- Reconstruction of one or two data columns after the parity was generated, whatever was put in their place, and the
    meaning of the step that the loops make on eight bytes at once. -/
theorem erased_columns_restored (rm : RaidzMap) (shaped : rm.Shaped) :
    (∀ x, rm.rmFirstdatacol ≤ x → (generateParity rm).col x = rm.col x) ∧
    (∀ x junk, rm.rmFirstdatacol ≤ x → x < rm.rmCols → junk.length = (rm.col x).rcData.length →
      vdevRaidzReconstructP ((generateParity rm).setData x junk) x = generateParity rm ∧
      (rm.rmFirstdatacol = 2 → vdevRaidzReconstructQ ((generateParity rm).setData x junk) x = generateParity rm)) ∧
    (∀ x y junk junk', rm.rmFirstdatacol = 2 → rm.rmFirstdatacol ≤ x → x < y → y < rm.rmCols →
      (rm.col y).rcSize ≤ (rm.col x).rcSize → junk.length = (rm.col x).rcData.length →
      junk'.length = (rm.col y).rcData.length →
      vdevRaidzReconstructPq (((generateParity rm).setData x junk).setData y junk') x y = generateParity rm) ∧
    ∀ w j, j < 8 → fieldElem (byte (mul2Word w) j) = fieldElem 2#8 * fieldElem (byte w j) := by
  have data := fun x after => @generateParity_data rm shaped x after
  have rmProtected := shaped.generateParity_protected
  obtain ⟨first, cols⟩ := generateParity_form rm
  have count := rmProtected.shaped.length_sources
  have column : ∀ k, (inside : k < (generateParity rm).sources.length) →
      (generateParity rm).sources[k] = (rm.col (rm.rmFirstdatacol + k)).rcData := by
    intro k inside
    rw [rmProtected.shaped.getElem_sources inside, first, data _ (by omega)]
  refine ⟨data, ?_, ?_, fun w j inside => fieldElem_mul2Word w inside⟩
  · intro x junk after before same
    obtain ⟨k, rfl⟩ := Nat.exists_eq_add_of_le after
    have inside : k < (generateParity rm).sources.length := by omega
    rw [← column k inside] at same
    rw [← first]
    exact ⟨rmProtected.reconstructP_erased inside same, fun two => rmProtected.reconstructQ_erased inside two same⟩
  · intro x y junk junk' two after order before shorter same same'
    obtain ⟨k, rfl⟩ := Nat.exists_eq_add_of_le after
    obtain ⟨k', rfl⟩ := Nat.exists_eq_add_of_le (after.trans order.le)
    have inside : k < (generateParity rm).sources.length := by omega
    have inside' : k' < (generateParity rm).sources.length := by omega
    have sizeX := shaped.buffer (rm.rmFirstdatacol + k) (by omega)
    have sizeY := shaped.buffer (rm.rmFirstdatacol + k') before
    rw [← column k inside] at same
    rw [← column k' inside'] at same'
    have shorter' : (generateParity rm).sources[k'].length ≤ (generateParity rm).sources[k].length := by
      rw [column k inside, column k' inside']
      omega
    rw [← first]
    exact rmProtected.reconstructPq_erased inside (first.trans two) (by omega) inside' shorter' same same'

def shortColumnMap : RaidzMap :=
  let column (size : ℕ) (data : List Word) : RaidzCol := ⟨0, 0, size, data, none, false, false⟩
  ⟨4, 2, 0, 0, 0, 2, [column 16 [0, 0], column 16 [0, 0], column 16 [1, 2], column 8 [3]]⟩

theorem erased_columns_restored_short :
    shortColumnMap.Shaped ∧
      vdevRaidzReconstructPq (((generateParity shortColumnMap).setData 2 [7, 7]).setData 3 [7]) 2 3 =
        generateParity shortColumnMap := by
  have shaped : shortColumnMap.Shaped := by constructor <;> decide
  exact ⟨shaped, (erased_columns_restored shortColumnMap shaped).2.2.1 2 3 [7, 7] [7] rfl (by decide) (by decide)
    (by decide) (by decide) rfl rfl⟩

end MacZfs.Raidz
