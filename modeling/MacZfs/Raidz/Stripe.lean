import MacZfs.Raidz.Read

/-! # Stripes

The columns that a full write puts on disk, and maps that have their shape. If all data columns but one or
two are right and enough parity is, then reconstruction makes them all right.
-/

namespace MacZfs.Raidz

open List RaidzMap

/-- The data columns of one write. The first one is as long as the parity, and none is longer than the
    one before it. -/
structure Stripe where
  nparity : ℕ
  data : List (List Word)
  parity : nparity = 1 ∨ nparity = 2
  nonempty : data ≠ []
  narrow : data.length ≤ 255
  falling : data.Pairwise fun a b => b.length ≤ a.length

namespace Stripe

variable (st : Stripe)

def depth : ℕ := (st.data.head st.nonempty).length

def columns : List (List Word) :=
  (if st.nparity = 1 then [parityP st.depth st.data]
    else [parityP st.depth st.data, parityQ st.depth st.data]) ++ st.data

def width : ℕ := st.nparity + st.data.length

/-- Column `c`. -/
def column (c : ℕ) : List Word := st.columns.getD c []

theorem column_zero : st.column 0 = parityP st.depth st.data := by
  rcases st.parity with one | two <;> simp [column, columns, *]

theorem column_one (two : st.nparity = 2) : st.column 1 = parityQ st.depth st.data := by
  simp [column, columns, two]

variable {k : ℕ}

theorem column_data (inside : k < st.data.length) : st.column (st.nparity + k) = st.data[k] := by
  rcases st.parity with one | two <;>
    simp [column, columns, *, add_comm]

theorem length_le (order : k ≤ k') (inside : k' < st.data.length) (inside' : k < st.data.length) :
    st.data[k'].length ≤ st.data[k].length := by
  rcases Nat.lt_or_eq_of_le order with before | rfl
  · exact pairwise_iff_getElem.mp st.falling k k' inside' inside before
  · exact le_rfl

theorem length_le_depth (inside : k < st.data.length) : st.data[k].length ≤ st.depth := by
  have first : st.depth = st.data[0].length := by simp [depth, head_eq_getElem]
  rw [first]
  exact st.length_le (Nat.zero_le k) inside _

theorem length_parity {c} (parity : c < st.nparity) : (st.column c).length = st.depth := by
  rcases st.parity with one | two
  · obtain rfl : c = 0 := by omega
    simp [column_zero, parityP]
  · obtain rfl | rfl : c = 0 ∨ c = 1 := by omega
    · simp [column_zero, parityP]
    · simp [column_one _ two, parityQ]

end Stripe

structure Fits (st : Stripe) (rm : RaidzMap) : Prop where
  firstdatacol : rm.rmFirstdatacol = st.nparity
  cols : rm.rmCols = st.width
  length : rm.rmCol.length = st.width
  size : ∀ c < st.width, (rm.col c).rcSize / 8 = (st.column c).length
  buffer : ∀ c < st.width, (rm.col c).rcData.length = (st.column c).length

/-- Column `c` holds what was written. -/
def Right (st : Stripe) (rm : RaidzMap) (c : ℕ) : Prop := (rm.col c).rcData = st.column c

namespace Fits

variable {st : Stripe} {rm : RaidzMap} (fits : Fits st rm)

include fits

theorem length_dataCols : rm.dataCols.length = st.data.length := by
  rw [dataCols, length_drop, fits.length, fits.firstdatacol, Stripe.width, Nat.add_sub_cancel_left]

theorem getElem_dataCols {k} (inside : k < rm.dataCols.length) : rm.dataCols[k] = rm.col (st.nparity + k) := by
  have inside' : st.nparity + k < rm.rmCol.length := by
    rw [fits.length, Stripe.width]
    rw [fits.length_dataCols] at inside
    omega
  simp only [dataCols, getElem_drop, col, fits.firstdatacol]
  rw [getD_eq_getElem _ _ inside']

theorem words_eq {c} (inside : c < st.width) : (rm.col c).words = (rm.col c).rcData := by
  rw [RaidzCol.words, fits.size c inside, ← fits.buffer c inside, take_length]

theorem ioData_eq (right : ∀ k < st.data.length, Right st rm (st.nparity + k)) : rm.ioData = st.data.flatten := by
  rw [ioData, flatMap_def]
  congr 1
  apply ext_getElem
  · rw [length_map, fits.length_dataCols]
  · intro k inside inside'
    have inside'' : k < rm.dataCols.length := by simpa using inside
    rw [getElem_map, fits.getElem_dataCols inside'', right k inside', st.column_data inside']

theorem getElem?_sources {k} (inside : k < st.data.length) (right : Right st rm (st.nparity + k)) :
    rm.sources[k]? = some st.data[k] := by
  have wide : k < rm.dataCols.length := by rwa [fits.length_dataCols]
  rw [sources, getElem?_map, getElem?_eq_getElem wide, Option.map_some, fits.getElem_dataCols wide,
    fits.words_eq (by rw [Stripe.width]; omega), right, st.column_data inside]

theorem withoutPair_sources {k k'} (right : ∀ i < st.data.length, i ≠ k → i ≠ k' → Right st rm (st.nparity + i)) :
    withoutPair rm.sources k k' = withoutPair st.data k k' := by
  have length : rm.sources.length = st.data.length := by simp [sources, fits.length_dataCols]
  apply ext_getElem?
  intro i
  simp only [withoutPair, getElem?_set, length_set, length]
  split_ifs with last _ early
  · rfl
  · rfl
  · rfl
  · rfl
  · by_cases inside : i < st.data.length
    · rw [fits.getElem?_sources inside (right i inside (Ne.symm early) (Ne.symm last)), getElem?_eq_getElem inside]
    · rw [getElem?_eq_none (by omega), getElem?_eq_none (by omega)]

theorem sources_set {k} (right : ∀ k' < st.data.length, k' ≠ k → Right st rm (st.nparity + k')) :
    rm.sources.set k [] = st.data.set k [] := by
  have both := @withoutPair_sources st rm fits k k fun i inside other _ => right i inside other
  rwa [withoutPair, withoutPair, set_set, set_set] at both

end Fits

/-! ## New contents for a column -/

namespace RaidzMap

variable {rm : RaidzMap} {c : ℕ} {data : List Word}

@[simp]
theorem setData_firstdatacol : (rm.setData c data).rmFirstdatacol = rm.rmFirstdatacol := rfl

theorem setData_col : (rm.setData c data).col c' =
    if c' = c ∧ c < rm.rmCol.length then { rm.col c' with rcData := data } else rm.col c' := by
  by_cases same : c' = c
  · subst same
    by_cases inside : c' < rm.rmCol.length
    · simp [setData, col_setCol inside, inside]
    · simp [setData, setCol, col, inside]
  · simp [same, setData, col_setCol_ne same]

theorem setData_col_ne {c'} (other : c' ≠ c) : (rm.setData c data).col c' = rm.col c' :=
  col_setCol_ne other

theorem setData_restore : (rm.setData c data).setData c (rm.col c).rcData = rm := by
  simp only [setData, setCol]
  congr 1
  apply ext_getElem?
  intro i
  simp only [getElem?_modify]
  by_cases same : c = i
  · subst same
    cases at_ : rm.rmCol[c]? with
    | none => simp
    | some rc => simp [col, at_]
  · simp [same]

end RaidzMap

variable {rm : RaidzMap} {c : ℕ}

theorem Fits.setData {st} (fits : Fits st rm) {data}
    (length : data.length = (st.column c).length) : Fits st (rm.setData c data) := by
  refine ⟨fits.firstdatacol, fits.cols, ?_, ?_, ?_⟩
  · rw [RaidzMap.setData, RaidzMap.length_setCol, fits.length]
  · intro c' inside
    rw [RaidzMap.setData_col]
    split_ifs <;> exact fits.size c' inside
  · intro c' inside
    rw [RaidzMap.setData_col]
    split_ifs with same
    · rw [same.1, length]
    · exact fits.buffer c' inside

/-! ## Generation -/

theorem generateParityPq_eq (some_data : rm.sources ≠ []) :
    vdevRaidzGenerateParityPq rm = (rm.setData 0 (parityP (rm.col 0).rcData.length rm.sources)).setData 1
      (parityQ (rm.col 1).rcData.length rm.sources) := by
  rw [vdevRaidzGenerateParityPq]
  cases sources : rm.sources with
  | nil => exact absurd sources some_data
  | cons first rest =>
    dsimp only
    rw [foldl_xorInto_eq, foldl_mulInto_eq]

theorem generateParityP_eq (sources : rm.sources = first :: rest) (depth : first.length = (rm.col 0).rcData.length) :
    vdevRaidzGenerateParityP rm = rm.setData 0 (parityP (rm.col 0).rcData.length rm.sources) := by
  rw [vdevRaidzGenerateParityP, sources]
  dsimp only
  have same : copyInto (rm.col 0).rcData first = copyZero (rm.col 0).rcData first := by
    rw [copyInto_eq depth]
    apply ext_getD
    · rw [length_copyZero, depth]
    · intro i inside
      rw [getD_copyZero (depth ▸ inside)]
  rw [same, foldl_xorInto_eq]

/-- If the data columns are right, then generating the parity makes all columns right. -/
theorem Fits.generateParity_col {st} (fits : Fits st rm)
    (right : ∀ k < st.data.length, Right st rm (st.nparity + k)) (inside : c < st.width) :
    Right st (generateParity rm) c := by
  have sources : rm.sources = st.data := by
    apply ext_getElem
    · rw [RaidzMap.sources, length_map, fits.length_dataCols]
    · intro k small small'
      exact getElem_eq_iff small |>.mpr (fits.getElem?_sources small' (right k small'))
  have some_data : rm.sources ≠ [] := by rw [sources]; exact st.nonempty
  have buffer : ∀ c < st.nparity, (rm.col c).rcData.length = st.depth := by
    intro c parity
    rw [fits.buffer c (by rw [Stripe.width]; omega), st.length_parity parity]
  have wide := fits.length
  have data : ∀ {c : ℕ}, st.nparity ≤ c → c < st.nparity + st.data.length → (rm.col c).rcData = st.column c := by
    intro c after small
    obtain ⟨k, rfl⟩ := Nat.exists_eq_add_of_le after
    exact right k (by omega)
  rw [generateParity, fits.firstdatacol, Right]
  split_ifs with one
  · obtain ⟨first, rest, shape⟩ := exists_cons_of_ne_nil st.nonempty
    have depth : first.length = (rm.col 0).rcData.length := by
      rw [buffer 0 (by omega), Stripe.depth]
      simp [shape]
    rw [generateParityP_eq (sources.trans shape) depth, RaidzMap.setData_col]
    split_ifs with parity
    · rw [parity.1, st.column_zero, buffer 0 (by omega), sources]
    · exact data (by omega) inside
  · have two : st.nparity = 2 := st.parity.resolve_left one
    rw [generateParityPq_eq some_data, RaidzMap.setData_col, RaidzMap.setData_col, RaidzMap.setData,
      RaidzMap.length_setCol]
    split_ifs with last first first
    · rw [last.1, st.column_one two, buffer 1 (by omega), sources]
    · rw [last.1, st.column_one two, buffer 1 (by omega), sources]
    · rw [first.1, st.column_zero, buffer 0 (by omega), sources]
    · exact data (by omega) inside

/-! ## Reconstruction

Of the lengths of the columns it is only needed that none is longer than the parity.
-/

variable {x y : ℕ}

theorem setAside_length : (setAside rm x y).rmCol.length = rm.rmCol.length := by
  simp only [setAside, setData, length_setCol]

theorem setAside_parity (wide : 2 ≤ rm.rmCol.length) (hx : 2 ≤ x) (hy : 2 ≤ y)
    (parity : c < 2) : ((setAside rm x y).col c).rcData.length = (rm.col c).rcSize / 8 := by
  have apart : c ≠ x ∧ c ≠ y := by omega
  have wide' : 1 < (rm.setData 0 (replicate ((rm.col 0).rcSize / 8) 0#64)).rmCol.length := by
    rw [setData, length_setCol]
    omega
  simp only [setAside, col_setCol_ne apart.1, col_setCol_ne apart.2]
  interval_cases c
  · rw [setData_col, if_neg (by omega), setData_col, if_pos ⟨rfl, by omega⟩]
    simp
  · rw [setData_col, if_pos ⟨rfl, wide'⟩]
    simp

theorem sources_setAside (two : rm.rmFirstdatacol = 2) (k k' : ℕ) :
    (setAside rm (rm.rmFirstdatacol + k) (rm.rmFirstdatacol + k')).sources = withoutPair rm.sources k k' := by
  have cleared : ∀ rc : RaidzCol, ({ rc with rcSize := 0 } : RaidzCol).words = [] := by
    intro rc
    simp [RaidzCol.words]
  simp only [setAside, sources, setData]
  rw [dataCols_setCol (k := k') (by simp), dataCols_setCol (k := k) (by simp),
    dataCols_setCol_parity (by simp [two]), dataCols_setCol_parity (by simp [two])]
  apply ext_getElem
  · simp [withoutPair]
  · intro i small small'
    simp only [withoutPair, getElem_map, getElem_modify, getElem_set]
    split_ifs with last early <;> first | rfl | exact cleared _

theorem setAside_generate {depth} (some_data : (setAside rm x y).sources ≠ [])
    (wide : 2 ≤ rm.rmCol.length) (hx : 2 ≤ x) (hy : 2 ≤ y) (size : ∀ c < 2, (rm.col c).rcSize / 8 = depth) :
    ((vdevRaidzGenerateParityPq (setAside rm x y)).col 0).rcData = parityP depth (setAside rm x y).sources ∧
      ((vdevRaidzGenerateParityPq (setAside rm x y)).col 1).rcData = parityQ depth (setAside rm x y).sources := by
  have buffer : ∀ c < 2, ((setAside rm x y).col c).rcData.length = depth := fun c parity =>
    (setAside_parity wide hx hy parity).trans (size c parity)
  rw [generateParityPq_eq some_data, buffer 0 (by omega), buffer 1 (by omega)]
  constructor
  · rw [setData_col, if_neg (by omega), setData_col, if_pos ⟨rfl, by rw [setAside_length]; omega⟩]
  · rw [setData_col, if_pos ⟨rfl, by rw [setData, length_setCol, setAside_length]; omega⟩]

/-- The map has room for `data`. -/
structure RaidzMap.Room (rm : RaidzMap) (depth : ℕ) (data : List (List Word)) : Prop where
  cols : rm.rmCols = rm.rmFirstdatacol + data.length
  length : rm.rmCol.length = rm.rmCols
  narrow : data.length ≤ 255
  short : ∀ k, (inside : k < data.length) → data[k].length ≤ depth
  size : ∀ k, (inside : k < data.length) → (rm.col (rm.rmFirstdatacol + k)).rcSize / 8 = data[k].length
  buffer : ∀ k, (inside : k < data.length) → (rm.col (rm.rmFirstdatacol + k)).rcData.length = data[k].length
  parity : ∀ c < rm.rmFirstdatacol, (rm.col c).rcSize / 8 = depth

namespace RaidzMap.Room

variable {rm : RaidzMap} {depth : ℕ} {data : List (List Word)} (room : rm.Room depth data) {k : ℕ}
  (inside : k < data.length)

include room

theorem setData {c} (length : new.length = (rm.col c).rcData.length) : (rm.setData c new).Room depth data := by
  refine ⟨room.cols, ?_, room.narrow, room.short, ?_, ?_, ?_⟩
  · rw [RaidzMap.setData, length_setCol]
    exact room.length
  · intro k inside
    rw [setData_col]
    split_ifs <;> exact room.size k inside
  · intro k inside
    rw [setData_col]
    split_ifs with same
    · rw [← room.buffer k inside]
      exact length.trans (congrArg (fun c => (rm.col c).rcData.length) same.1.symm)
    · exact room.buffer k inside
  · intro c parity
    rw [setData_col]
    split_ifs <;> exact room.parity c parity

include inside

theorem reconstructP (p : (rm.col 0).rcData = parityP depth data) (others : rm.sources.set k [] = data.set k []) :
    vdevRaidzReconstructP rm (rm.rmFirstdatacol + k) = rm.setData (rm.rmFirstdatacol + k) data[k] := by
  rw [vdevRaidzReconstructP, sourcesBut_eq, room.size k inside, p, others]
  exact congrArg (rm.setData _) (lost_p inside (room.short k inside) (room.buffer k inside))

theorem reconstructQ (q : (rm.col 1).rcData = parityQ depth data) (others : rm.sources.set k [] = data.set k []) :
    vdevRaidzReconstructQ rm (rm.rmFirstdatacol + k) = rm.setData (rm.rmFirstdatacol + k) data[k] := by
  have exponent : rm.rmCols - 1 - (rm.rmFirstdatacol + k) = data.length - 1 - k := by
    rw [room.cols]
    omega
  rw [vdevRaidzReconstructQ, sourcesBut_eq, others, exponent, q]
  cases split : data.set k [] with
  | nil =>
    have empty := congrArg List.length split
    rw [length_set, length_nil] at empty
    omega
  | cons first rest =>
    exact congrArg (rm.setData _) (lost_q inside (room.short k inside) (room.buffer k inside) split room.narrow)

/-- Both parities, with two lost columns of which the later one is not longer. -/
theorem reconstructPq (two : rm.rmFirstdatacol = 2) (order : k < k') (inside' : k' < data.length)
    (shorter : data[k'].length ≤ data[k].length) (p : (rm.col 0).rcData = parityP depth data)
    (q : (rm.col 1).rcData = parityQ depth data) (others : withoutPair rm.sources k k' = withoutPair data k k') :
    vdevRaidzReconstructPq rm (rm.rmFirstdatacol + k) (rm.rmFirstdatacol + k') =
      (rm.setData (rm.rmFirstdatacol + k) data[k]).setData (rm.rmFirstdatacol + k') data[k'] := by
  have sources := (sources_setAside two k k').trans others
  have cols := room.cols
  have wide := room.length
  have some_data : (setAside rm (rm.rmFirstdatacol + k) (rm.rmFirstdatacol + k')).sources ≠ [] := by
    rw [sources, withoutPair]
    intro empty
    have length := congrArg List.length empty
    rw [length_set, length_set, length_nil] at length
    omega
  have parity := setAside_generate some_data (by omega) (by omega) (by omega) fun c small => room.parity c (by omega)
  have solved := lost_pq order inside' inside room.narrow (room.short k inside) shorter
  simp only [vdevRaidzReconstructPq, parity.1, parity.2]
  rw [sources, p, q, room.size k inside, room.size k' inside', cols, two, solved.1, solved.2, ← two,
    copyInto_eq (room.buffer k inside).symm, copyInto_eq (room.buffer k' inside').symm]

end RaidzMap.Room

section Reconstruct

variable {st : Stripe} {rm : RaidzMap} (fits : Fits st rm)

include fits

theorem Fits.room : rm.Room st.depth st.data where
  cols := by rw [fits.cols, fits.firstdatacol, Stripe.width]
  length := fits.length.trans fits.cols.symm
  narrow := st.narrow
  short k inside := st.length_le_depth inside
  size k inside := by rw [fits.firstdatacol, fits.size _ (by rw [Stripe.width]; omega), st.column_data inside]
  buffer k inside := by rw [fits.firstdatacol, fits.buffer _ (by rw [Stripe.width]; omega), st.column_data inside]
  parity c small := by
    rw [fits.firstdatacol] at small
    rw [fits.size c (by rw [Stripe.width]; omega), st.length_parity small]

theorem reconstructP_eq {k} (inside : k < st.data.length) (right : Right st rm 0)
    (others : ∀ k' < st.data.length, k' ≠ k → Right st rm (st.nparity + k')) :
    vdevRaidzReconstructP rm (st.nparity + k) = rm.setData (st.nparity + k) (st.column (st.nparity + k)) := by
  rw [st.column_data inside, ← fits.firstdatacol]
  exact fits.room.reconstructP inside (right.trans st.column_zero) (fits.sources_set others)

theorem reconstructQ_eq (two : st.nparity = 2) {k} (inside : k < st.data.length) (right : Right st rm 1)
    (others : ∀ k' < st.data.length, k' ≠ k → Right st rm (st.nparity + k')) :
    vdevRaidzReconstructQ rm (st.nparity + k) = rm.setData (st.nparity + k) (st.column (st.nparity + k)) := by
  rw [st.column_data inside, ← fits.firstdatacol]
  exact fits.room.reconstructQ inside (right.trans (st.column_one two)) (fits.sources_set others)

theorem reconstructPq_eq (two : st.nparity = 2) {k k'}
    (others : ∀ i < st.data.length, i ≠ k → i ≠ k' → Right st rm (st.nparity + i)) (order : k < k')
    (inside : k' < st.data.length) (rightP : Right st rm 0)
    (rightQ : Right st rm 1) : vdevRaidzReconstructPq rm (st.nparity + k) (st.nparity + k') =
      (rm.setData (st.nparity + k) (st.column (st.nparity + k))).setData (st.nparity + k')
        (st.column (st.nparity + k')) := by
  have inside' : k < st.data.length := by omega
  rw [st.column_data inside, st.column_data inside', ← fits.firstdatacol]
  exact fits.room.reconstructPq inside' (fits.firstdatacol.trans two) order inside
    (st.length_le order.le inside inside') (rightP.trans st.column_zero) (rightQ.trans (st.column_one two))
    (fits.withoutPair_sources others)

end Reconstruct

end MacZfs.Raidz
