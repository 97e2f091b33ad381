import MacZfs.Raidz.Recover
import Mathlib.Data.List.SplitLengths

/-! # What a write stores

The map of an I/O has the shape of the stripe of its data, and what a write puts into the columns is that
stripe. With this the recovery of stripes becomes the recovery of what was written.
-/

namespace MacZfs.Raidz

open List RaidzCol Nat

/-- An I/O with its buffers: `zio->io_data` has `io_size` bytes, the buffer of a parity column is allocated with
    `rc_size` bytes, and sectors have at least `1 << SPA_MINBLOCKSHIFT` bytes. -/
structure RaidzIo where
  vd : RaidzVdev
  zio : AlignedZio vd
  fresh : ℕ → List Word
  minshift : 9 ≤ vd.unitShift
  narrow : vd.dcols - vd.nparity ≤ 255
  length : zio.ioData.length = zio.ioSize / 8
  buffers : ∀ c < vd.nparity, (fresh c).length = ((vd.map zio fresh).col c).rcSize / 8

def RaidzIo.map (io : RaidzIo) : RaidzMap := io.vd.map io.zio io.fresh

/-- `vdev_raidz_io_start` for a write of `data`: the parity is generated, and every column is written from its
    buffer. -/
def RaidzIo.written (io : RaidzIo) (data : List Word) : RaidzMap :=
  generateParity (io.vd.map { io.zio with ioData := data } io.fresh)

/-! ## The buffers of a new map -/

theorem sliceData_data (cols : List RaidzCol) (buf : List Word) :
    (sliceData cols buf).map rcData = (cols.map fun rc => rc.rcSize / 8).splitLengths buf := by
  induction cols generalizing buf with
  | nil => rfl
  | cons rc rest ih => simp [sliceData, ih]

theorem freshData_data (fresh : ℕ → List Word) (cols : List RaidzCol) (c : ℕ) :
    (freshData fresh c cols).map rcData = (List.range' c cols.length).map fresh := by
  induction cols generalizing c with
  | nil => rfl
  | cons rc rest ih => simp [freshData, ih, range'_succ]

variable {β : Type}

theorem swapFirst_map (f : RaidzCol → β)
    (indifferent : ∀ rc dev offset, f { rc with rcDevidx := dev, rcOffset := offset } = f rc) (cols : List RaidzCol) :
    (swapFirst cols).map f = cols.map f := by
  match cols with
  | [] => rfl
  | [_] => rfl
  | c0 :: c1 :: rest => simp [swapFirst, indifferent]

section Map

variable (vd : RaidzVdev) (zio : AlignedZio vd) (fresh : ℕ → List Word)

theorem map_map {β : Type} (f : RaidzCol → β)
    (place : ∀ rc dev offset, f { rc with rcDevidx := dev, rcOffset := offset } = f rc)
    (buffer : ∀ rc data, f { rc with rcData := data } = f rc) :
    (vd.map zio fresh).rmCol.map f =
      (List.range (mapSplit zio.toZio vd.unitShift vd.dcols vd.nparity).acols).map fun c =>
        f (mapCol (mapSplit zio.toZio vd.unitShift vd.dcols vd.nparity) vd.unitShift vd.dcols c) := by
  simp only [RaidzVdev.map, vdevRaidzMapAlloc]
  split_ifs
  · rw [swapFirst_map f place, filled_map f buffer, List.map_map]
    rfl
  · rw [filled_map f buffer, List.map_map]
    rfl

theorem map_length : (vd.map zio fresh).rmCol.length =
    (mapSplit zio.toZio vd.unitShift vd.dcols vd.nparity).acols := by
  have sizes := congrArg List.length (map_map vd zio fresh (fun _ => ()) (fun _ _ _ => rfl) (fun _ _ => rfl))
  simpa using sizes

theorem map_size {c} (inside : c < (mapSplit zio.toZio vd.unitShift vd.dcols vd.nparity).acols) :
    ((vd.map zio fresh).col c).rcSize =
      (mapSplit zio.toZio vd.unitShift vd.dcols vd.nparity).rows c <<< vd.unitShift := by
  have inside' : c < (vd.map zio fresh).rmCol.length := by rwa [map_length]
  have sizes := map_map vd zio fresh rcSize (fun _ _ _ => rfl) (fun _ _ => rfl)
  have at_ := getElem_of_eq sizes (by rwa [List.length_map])
  rw [getElem_map, getElem_map, getElem_range] at at_
  rw [RaidzMap.col, getD_eq_getElem _ _ inside']
  exact at_

theorem map_data : (vd.map zio fresh).rmCol.map rcData =
    (List.range (min vd.nparity (mapSplit zio.toZio vd.unitShift vd.dcols vd.nparity).acols)).map fresh ++
      (((List.range (mapSplit zio.toZio vd.unitShift vd.dcols vd.nparity).acols).drop vd.nparity).map fun c =>
        ((mapSplit zio.toZio vd.unitShift vd.dcols vd.nparity).rows c <<< vd.unitShift) / 8).splitLengths
          zio.ioData := by
  simp only [RaidzVdev.map, vdevRaidzMapAlloc]
  have plain : ∀ cols : List RaidzCol, (if vd.nparity = 1 ∧ zio.ioOffset.testBit 20 then swapFirst cols
      else cols).map rcData = cols.map rcData := by
    intro cols
    split_ifs
    · exact swapFirst_map _ (fun _ _ _ => rfl) cols
    · rfl
  rw [plain, map_append, freshData_data, sliceData_data, ← map_take, ← map_drop, List.map_map,
    List.length_map, length_take, length_range, ← range_eq_range']
  rfl

end Map

/-! ## Sizes -/

namespace RaidzIo

variable (io : RaidzIo)

def split : MapSplit := mapSplit io.zio.toZio io.vd.unitShift io.vd.dcols io.vd.nparity

/-- The words of column `c`. -/
def words (c : ℕ) : ℕ := io.split.rows c * 2 ^ (io.vd.unitShift - 3)

def sizes : List ℕ := (List.range (io.split.acols - io.vd.nparity)).map fun k => io.words (io.vd.nparity + k)

theorem unit_eq : 2 ^ io.vd.unitShift = 8 * 2 ^ (io.vd.unitShift - 3) := by
  have shift := io.minshift
  rw [show 8 = 2 ^ 3 from rfl, ← pow_add]
  congr 1
  omega

theorem words_eq (c : ℕ) : (io.split.rows c <<< io.vd.unitShift) / 8 = io.words c := by
  rw [Nat.shiftLeft_eq, io.unit_eq, words, Nat.mul_left_comm, Nat.mul_div_cancel_left _ (by decide)]

theorem sectors_eq : io.zio.ioSize = 2 ^ io.vd.unitShift * (io.zio.ioSize >>> io.vd.unitShift) := by
  rw [Nat.shiftRight_eq_div_pow, Nat.mul_div_cancel' (Nat.dvd_of_mod_eq_zero io.zio.aligned)]

theorem sectors_pos : 0 < io.zio.ioSize >>> io.vd.unitShift := by
  rcases Nat.eq_zero_or_pos (io.zio.ioSize >>> io.vd.unitShift) with zero | pos
  · have size := io.sectors_eq
    rw [zero, Nat.mul_zero] at size
    exact absurd io.zio.nonempty (by omega)
  · exact pos

/-- The data columns hold as many sectors as the I/O has. If some columns are longer than the others, these are
    all of the parity and some of the data. -/
theorem split_spec : io.vd.nparity < io.split.acols ∧ (io.split.bc = 0 ∨ io.vd.nparity < io.split.bc) ∧
    (io.split.acols - io.vd.nparity) * io.split.q + min (io.split.acols - io.vd.nparity)
      (io.split.bc - io.vd.nparity) = io.zio.ioSize >>> io.vd.unitShift := by
  have wide := io.vd.wide
  have pos := io.sectors_pos
  simp only [split, mapSplit]
  generalize io.zio.ioSize >>> io.vd.unitShift = s at pos ⊢
  obtain ⟨n, dcols⟩ : ∃ n, io.vd.dcols = io.vd.nparity + n := ⟨io.vd.dcols - io.vd.nparity, by omega⟩
  have cancel : io.vd.dcols - io.vd.nparity = n := by omega
  rw [cancel]
  have rest : s - s / n * n = s % n := by rw [mul_comm, ← mod_eq_sub_mul_div]
  have whole : n * (s / n) + s % n = s := div_add_mod s n
  have small : s % n < n := mod_lt _ (by omega)
  rw [rest]
  by_cases short : s / n = 0
  · -- one row, in which only the long columns exist
    rw [short, mul_zero, zero_add] at whole
    rw [short, whole]
    simp only [pos_iff_ne_zero.mp pos, if_true, if_false]
    omega
  · rw [if_neg short, cancel]
    split_ifs with even
    · omega
    · omega

theorem sizes_sum : io.sizes.sum = io.zio.ioSize / 8 := by
  obtain ⟨_, _, rows⟩ := io.split_spec
  have total : io.sizes.sum = (io.zio.ioSize >>> io.vd.unitShift) * 2 ^ (io.vd.unitShift - 3) := by
    rw [← rows, ← rows_sum_from, ← sum_map_mul_right]
    rfl
  rw [total]
  conv_rhs => rw [io.sectors_eq, io.unit_eq, Nat.mul_assoc, Nat.mul_div_cancel_left _ (by decide), Nat.mul_comm]

variable {c : ℕ}

theorem words_falling (order : c ≤ c') : io.words c' ≤ io.words c := by
  apply Nat.mul_le_mul_right
  simp only [MapSplit.rows]
  split <;> split <;> omega

theorem words_parity (parity : c ≤ io.vd.nparity) : io.words c = io.words io.vd.nparity := by
  obtain ⟨_, long, _⟩ := io.split_spec
  simp only [words, MapSplit.rows]
  congr 2
  rcases long with zero | long
  · simp [zero]
  · rw [if_pos long, if_pos (by omega)]

/-! ## The columns of the map -/

theorem map_cols : io.map.rmCols = io.split.acols := rfl

theorem length_map : io.map.rmCol.length = io.split.acols := map_length _ _ _

theorem map_buffers : io.map.rmCol.map rcData =
    (List.range io.vd.nparity).map io.fresh ++ io.sizes.splitLengths io.zio.ioData := by
  have parity := io.split_spec.1.le
  rw [map, map_data]
  change (range (min io.vd.nparity io.split.acols)).map io.fresh ++
    (((range io.split.acols).drop io.vd.nparity).map fun c =>
      (io.split.rows c <<< io.vd.unitShift) / 8).splitLengths io.zio.ioData = _
  rw [min_eq_left parity]
  congr 2
  simp only [words_eq, sizes]
  apply ext_getElem
  · simp
  · intro k _ _
    simp

theorem col_size (inside : c < io.split.acols) : (io.map.col c).rcSize / 8 = io.words c := by
  rw [map, map_size _ _ _ inside]
  exact io.words_eq c

theorem map_new (inside : c < io.map.rmCols) : (io.map.col c).rcTried = false := by
  have inside' : c < io.map.rmCol.length := by rwa [io.length_map]
  have new := map_map io.vd io.zio io.fresh rcTried (fun _ _ _ => rfl) (fun _ _ => rfl)
  have at_ := getElem_of_eq new (by rw [List.length_map]; exact inside')
  rw [getElem_map, getElem_map, getElem_range] at at_
  rw [RaidzMap.col, getD_eq_getElem _ _ inside']
  exact at_

theorem col_parity (parity : c < io.vd.nparity) : (io.map.col c).rcData = io.fresh c := by
  have inside : c < io.map.rmCol.length := by
    rw [io.length_map]
    exact parity.trans io.split_spec.1
  have at_ := getElem_of_eq io.map_buffers (by simpa using inside)
  rw [getElem_map, getElem_append_left (by simpa using parity), getElem_map, getElem_range] at at_
  rwa [RaidzMap.col, getD_eq_getElem _ _ inside]

theorem col_data (inside : io.vd.nparity + k < io.split.acols) :
    (io.map.col (io.vd.nparity + k)).rcData = (io.sizes.splitLengths io.zio.ioData).getD k [] := by
  have inside' : io.vd.nparity + k < io.map.rmCol.length := by rwa [io.length_map]
  have at_ := getElem_of_eq io.map_buffers (by simpa using inside')
  rw [getElem_map, getElem_append_right (by simp)] at at_
  rw [RaidzMap.col, getD_eq_getElem _ _ inside', at_, getD_eq_getElem]
  · simp
  · simp [sizes]
    omega

/-! ## The stripe of the data -/

theorem length_slices {data : List Word} (length : data.length = io.zio.ioSize / 8) :
    (io.sizes.splitLengths data).map List.length = io.sizes :=
  map_splitLengths_length _ _ (by rw [io.sizes_sum, length])

/-- The stripe that a write of `data` puts on disk. -/
def stripe (data : List Word) (length : data.length = io.zio.ioSize / 8) : Stripe where
  nparity := io.vd.nparity
  data := io.sizes.splitLengths data
  parity := io.vd.parity
  nonempty := by
    intro empty
    have none := congrArg List.length empty
    simp only [List.length_splitLengths, sizes, List.length_map, List.length_range, List.length_nil] at none
    have := io.split_spec.1
    omega
  narrow := by
    have wide := (mapSplit_bc_le io.zio.toZio io.vd.unitShift io.vd.dcols io.vd.nparity io.vd.wide).2
    have narrow := io.narrow
    simp only [List.length_splitLengths, sizes, List.length_map, List.length_range, split]
    omega
  falling := by
    rw [← List.pairwise_map (f := List.length) (R := fun a b => b ≤ a), io.length_slices length, sizes,
      List.pairwise_map]
    apply List.pairwise_lt_range.imp
    intro k k' order
    exact io.words_falling (by omega)

variable {io} {data : List Word} (length : data.length = io.zio.ioSize / 8)

theorem stripe_width : (io.stripe data length).width = io.split.acols := by
  have wide := io.split_spec.1
  simp only [Stripe.width, stripe, length_splitLengths, sizes, List.length_map, length_range]
  omega

theorem stripe_slice (inside : k < (io.stripe data length).data.length) :
    ((io.stripe data length).data[k]).length = io.words (io.vd.nparity + k) := by
  have at_ := getElem_of_eq (io.length_slices length) (by rw [List.length_map]; exact inside)
  rw [getElem_map] at at_
  refine at_.trans ?_
  simp [sizes]

theorem length_column (inside : c < io.split.acols) : ((io.stripe data length).column c).length = io.words c := by
  rcases Nat.lt_or_ge c io.vd.nparity with parity | after
  · have first := stripe_slice length (List.length_pos_iff.mpr (io.stripe data length).nonempty)
    rw [Stripe.length_parity _ (show c < (io.stripe data length).nparity from parity), Stripe.depth,
      head_eq_getElem, first, Nat.add_zero, io.words_parity parity.le]
  · obtain ⟨k, rfl⟩ := Nat.exists_eq_add_of_le after
    have small : k < (io.stripe data length).data.length := by
      have width := stripe_width length
      rw [Stripe.width, show (io.stripe data length).nparity = io.vd.nparity from rfl] at width
      omega
    rw [show io.vd.nparity = (io.stripe data length).nparity from rfl, Stripe.column_data _ small,
      stripe_slice length small]
    rfl

theorem fits : Fits (io.stripe data length) io.map := by
  have width := stripe_width length
  refine ⟨rfl, width.symm, io.length_map.trans width.symm, ?_, ?_⟩
  · intro c inside
    rw [width] at inside
    rw [io.col_size inside, length_column length inside]
  · intro c inside
    rw [width] at inside
    rw [length_column length inside]
    rcases Nat.lt_or_ge c io.vd.nparity with parity | after
    · rw [io.col_parity parity, io.buffers c parity]
      exact io.col_size inside
    · obtain ⟨k, rfl⟩ := Nat.exists_eq_add_of_le after
      have own := stripe_slice io.length (k := k) (by simp [stripe, sizes]; omega)
      rw [io.col_data inside, ← own, getD_eq_getElem]
      rfl

theorem stripe_flatten : (io.stripe data length).data.flatten = data :=
  flatten_splitLengths _ _ (by rw [io.sizes_sum, length])

variable (io data) in
def withData (length : data.length = io.zio.ioSize / 8) : RaidzIo where
  vd := io.vd
  zio := { io.zio with ioData := data }
  fresh := io.fresh
  minshift := io.minshift
  narrow := io.narrow
  length := length
  buffers := by
    intro c parity
    have inside : c < io.split.acols := parity.trans io.split_spec.1
    rw [io.buffers c parity, map_size _ _ _ inside, map_size _ { io.zio with ioData := data } _ inside]
    rfl

/-- What a write of `data` leaves in the columns is the stripe of the data. -/
theorem written_col (inside : c < io.split.acols) :
    ((io.written data).col c).rcData = (io.stripe data length).column c := by
  have shape : Fits (io.stripe data length) (io.withData data length).map :=
    @fits (io.withData data length) data length
  refine shape.generateParity_col ?_ (by rwa [stripe_width])
  intro k small
  have small' : io.vd.nparity + k < io.split.acols := by
    have width := stripe_width length
    rw [Stripe.width, show (io.stripe data length).nparity = io.vd.nparity from rfl] at width
    omega
  rw [Right, Stripe.column_data _ small]
  refine ((io.withData data length).col_data small').trans ?_
  exact getD_eq_getElem _ _ small

theorem sound_map (env) : Sound (io.stripe data length) env (fun c => (io.map.col c).rcDevidx) io.map := by
  have shape := fits length
  refine ⟨shape.firstdatacol, shape.cols, shape.length, ?_⟩
  intro c inside
  have new := io.map_new (c := c) (by rw [shape.cols]; exact inside)
  refine ⟨shape.size c inside, shape.buffer c inside, rfl, ?_, ?_⟩ <;>
    exact fun tried => absurd (new.symm.trans tried) (by decide)

theorem failed_eq (env) : failed (io.stripe data length) env (fun c => (io.map.col c).rcDevidx) =
    (Finset.range io.map.rmCols).filter fun c =>
      Failing env (io.map.col c).rcDevidx ((io.written data).col c).rcData := by
  ext c
  rw [mem_failed, stripe_width, Finset.mem_filter, Finset.mem_range, io.map_cols]
  constructor
  · rintro ⟨inside, fails⟩
    exact ⟨inside, by rwa [written_col length inside]⟩
  · rintro ⟨inside, fails⟩
    exact ⟨inside, by rwa [← written_col length inside]⟩

end RaidzIo

/-- A read of a stripe of which no more columns fail than there is parity ends with the data of the stripe. -/
theorem Sound.read (sound : Sound st env dev rm)
    (new : ∀ c < rm.rmCols, (rm.col c).rcTried = false) (accepts : env.checksumOk st.data.flatten = true)
    (few : (failed st env dev).card ≤ st.nparity) :
    ∃ rm' unexpected, vdevRaidzRead env rm = some (rm', none, unexpected) ∧ env.checksumOk rm'.ioData = true := by
  have start := sound.ioStart new
  rw [vdevRaidzRead]
  rcases start.ioDone_step with ⟨rm', unexpected, done, valid⟩ | ⟨rm', reread, again⟩ | tried
  · exact ⟨rm', unexpected, by rw [done], valid⟩
  · -- everything was tried after the second round
    have tried : ∀ c < st.width, ((Raidz.readUntried env rm').col c).rcTried = true := fun c inside =>
      tried_readUntried (again.length ▸ inside)
    obtain ⟨rm'', unexpected, done, valid⟩ := again.readUntried.finish tried accepts few
    exact ⟨rm'', unexpected, by simp only [reread, done], valid⟩
  · obtain ⟨rm', unexpected, done, valid⟩ := start.finish tried accepts few
    exact ⟨rm', unexpected, by rw [done], valid⟩

/-- The data of a block is recovered from its columns as long as no more of them fail than there is parity: their
    devices are dead, or return an error, or return other bytes than were written. -/
theorem raidz_read_recovers (io : RaidzIo) (env : ReadEnv) (orig : List Word)
    (length : orig.length = io.zio.ioSize / 8) (accepts : ∀ data, env.checksumOk data = true ↔ data = orig)
    (few : ((Finset.range io.map.rmCols).filter fun c =>
      Failing env (io.map.col c).rcDevidx ((io.written orig).col c).rcData).card ≤ io.vd.nparity) :
    ∃ rm unexpected, vdevRaidzRead env io.map = some (rm, none, unexpected) ∧ rm.ioData = orig := by
  have valid : env.checksumOk (io.stripe orig length).data.flatten = true :=
    (accepts _).mpr (RaidzIo.stripe_flatten length)
  obtain ⟨rm, unexpected, done, valid'⟩ := (RaidzIo.sound_map length env).read (fun c inside => io.map_new inside)
    valid (by rw [RaidzIo.failed_eq]; exact few)
  exact ⟨rm, unexpected, done, (accepts _).mp valid'⟩

def oneSector : RaidzIo where
  vd := ⟨2, 1, 9, Or.inl rfl, by decide⟩
  zio := ⟨⟨0, 512, List.replicate 64 1#64, false, false⟩, by decide, by decide⟩
  fresh := fun _ => List.replicate 64 1#64
  minshift := by decide
  narrow := by decide
  length := by decide
  buffers := by decide

/-- The data comes from the parity when the device of the data is dead. -/
theorem raidz_read_recovers_dead : ∃ rm unexpected,
    vdevRaidzRead ⟨false, false, true, fun dev => ⟨dev == 1, false, none, fun _ => 0#64⟩,
      fun data => decide (data = List.replicate 64 0#64)⟩ oneSector.map = some (rm, none, unexpected) ∧
      rm.ioData = List.replicate 64 0#64 :=
  raidz_read_recovers oneSector _ _ (by decide) (fun _ => decide_eq_true_iff) (by decide +kernel)

end MacZfs.Raidz
