import MacZfs.SpaceMap.Log
import MacZfs.SpaceMap.Set

/-!
# Replaying a space map log

What a log means: a list of runs, each added to or taken from a set. Entries survive the trip
through a packed word, the writer's buffer and the reader's blocks do not show, and so a map
loaded from a log holds exactly the set that the log's entries leave.
-/

namespace MacZfs

open List Extents Checked BitFields BitVec LogBuffer

/-! ## Packing and unpacking -/

theorem smRunMax_eq : smRunMax = 32768 := by decide

section Entries

variable (maptype : MapType) (start runLen : ℕ)

theorem runEntry_debug : smDebugDecode (runEntry maptype start runLen) = 0 := by
  simp only [smDebugDecode, runEntry, smOffsetEncode, smTypeEncode, smRunEncode, bf64Encode, bf64Decode, field_or]
  rw [field_place_apart (by omega) (by omega) (by omega), field_place_apart (by omega) (by omega) (by omega),
    field_place_apart (by omega) (by omega) (by omega)]
  rfl

theorem runEntry_type : smTypeDecode (runEntry maptype start runLen) = maptype.code := by
  simp only [smTypeDecode, runEntry, smOffsetEncode, smTypeEncode, smRunEncode, bf64Encode, bf64Decode, field_or]
  rw [field_place_apart (by omega) (by omega) (by omega), field_place (by omega) (by omega),
    field_place_apart (by omega) (by omega) (by omega)]
  cases maptype <;> decide

variable {start runLen}

theorem runEntry_offset (small : start < 2 ^ 47) :
    (smOffsetDecode (runEntry maptype start runLen)).toNat = start := by
  have toNat : (BitVec.ofNat 64 start).toNat = start :=
    Nat.mod_eq_of_lt (small.trans (by decide))
  simp only [smOffsetDecode, runEntry, smOffsetEncode, smTypeEncode, smRunEncode, bf64Encode, bf64Decode, field_or]
  rw [field_place (by omega) (by omega), field_place_apart (by omega) (by omega) (by omega),
    field_place_apart (by omega) (by omega) (by omega),
    and_lowMask_of_lt (by omega) (by rw [toNat]; exact small)]
  simpa using toNat

theorem runEntry_run (pos : 0 < runLen) (short : runLen ≤ smRunMax) :
    (smRunDecode (runEntry maptype start runLen)).toNat = runLen := by
  rw [smRunMax_eq] at short
  have one : (1 : Word).toNat = 1 := rfl
  have toNat : (BitVec.ofNat 64 runLen - 1).toNat = runLen - 1 := by
    rw [BitVec.toNat_sub, BitVec.toNat_ofNat, one]
    omega
  simp only [smRunDecode, runEntry, smOffsetEncode, smTypeEncode, smRunEncode, bf64Encode, bf64Decode, field_or]
  rw [field_place_apart (by omega) (by omega) (by omega), field_place_apart (by omega) (by omega) (by omega),
    field_place (by omega) (by omega),
    and_lowMask_of_lt (by omega) (by rw [toNat]; omega)]
  rw [BitVec.zero_or, BitVec.zero_or, BitVec.toNat_add, toNat, one]
  omega

theorem debugEntry_debug (syncpass txg) : smDebugDecode (debugEntry maptype syncpass txg) ≠ 0 := by
  simp only [smDebugDecode, debugEntry, smDebugEncode, smDebugActionEncode, smDebugSyncpassEncode,
    smDebugTxgEncode, bf64Encode, bf64Decode, field_or]
  rw [field_place (by omega) (by omega), field_place_apart (by omega) (by omega) (by omega),
    field_place_apart (by omega) (by omega) (by omega),
    field_place_apart (by omega) (by omega) (by omega)]
  decide

end Entries

/-! ## Maps of one range -/

/-- The range a space map is created for: `sm_start`, `sm_size` and `sm_shift`. -/
structure MapRange where
  start : ℕ
  size : ℕ
  shift : ℕ
  nonempty : 0 < size
  bounded : start + size < 2 ^ 64
  alignedStart : 2 ^ shift ∣ start
  alignedSize : 2 ^ shift ∣ size

namespace MapRange

variable (R : MapRange)

def set : Finset ℕ := Finset.Ico R.start (R.start + R.size)

/-- The offsets of `len` units from unit `start` on. -/
def run (start len : ℕ) : Finset ℕ :=
  Finset.Ico (R.start + start * 2 ^ R.shift) (R.start + (start + len) * 2 ^ R.shift)

structure RunOk (start len : ℕ) : Prop where
  pos : 0 < len
  short : len ≤ smRunMax
  small : start < 2 ^ 47
  inside : (start + len) * 2 ^ R.shift ≤ R.size

/-- An empty map for the range, as `space_map_create` leaves it. -/
def create : SpaceMap := spaceMapCreate R.start R.size R.shift

end MapRange

/-- A well-formed map for the range `R`. -/
structure SpaceMap.On (sm : SpaceMap) (R : MapRange) : Prop extends sm.Wf where
  start_eq : sm.smStart = R.start
  size_eq : sm.smSize = R.size
  shift_eq : sm.smShift = R.shift

namespace SpaceMap

variable {R : MapRange} {sm sm' : SpaceMap} {s : Finset ℕ}

theorem On.range_eq (on : sm.On R) : sm.range = R.set := by
  rw [range, MapRange.set, on.start_eq, on.size_eq]

theorem On.subset (on : sm.On R) : sm.offsets ⊆ R.set := on.range_eq ▸ on.subset_range

theorem Becomes.on (becomes : sm.Becomes sm' s) (on : sm.On R) : sm'.On R := by
  have frame := becomes.frame
  injection frame with _ _ start size shift
  exact ⟨becomes.wf, start.trans on.start_eq, size.trans on.size_eq, shift.trans on.shift_eq⟩

section

variable (on : sm.On R) (on' : sm'.On R)

include on on'

theorem On.fits_of : ∀ ss ∈ sm.smRoot, sm'.Fits ss := by
  intro ss member
  obtain ⟨ordered, lower, upper⟩ := on.fits ss member
  rw [on.start_eq, on.shift_eq] at lower
  rw [on.start_eq, on.size_eq, on.shift_eq] at upper
  exact ⟨ordered, by rw [on'.start_eq, on'.shift_eq]; exact lower,
    by rw [on'.start_eq, on'.size_eq, on'.shift_eq]; exact upper⟩

theorem On.walk_add (fresh : Disjoint sm'.offsets sm.offsets) :
    ∃ sm'', spaceMapWalk sm spaceMapAdd sm' = some sm'' ∧ sm'.Becomes sm'' (sm'.offsets ∪ sm.offsets) :=
  foldlM_add sm.smRoot on'.toWf (on.fits_of on') on.separated.scattered fresh

theorem On.walk_remove (held : sm.offsets ⊆ sm'.offsets) :
    ∃ sm'', spaceMapWalk sm spaceMapRemove sm' = some sm'' ∧ sm'.Becomes sm'' (sm'.offsets \ sm.offsets) :=
  foldlM_remove sm.smRoot on'.toWf (on.fits_of on') on.separated.scattered held

end

theorem On.vacated (on : sm.On R) : sm.vacated.On R :=
  ⟨on.toWf.vacated, on.start_eq, on.size_eq, on.shift_eq⟩

@[simp]
theorem offsets_vacated (sm : SpaceMap) : sm.vacated.offsets = ∅ := rfl

theorem on_create (R : MapRange) : R.create.On R where
  separated := separated_nil
  lower := by simp [MapRange.create, spaceMapCreate]
  upper := by simp [MapRange.create, spaceMapCreate]
  space := rfl
  bounded := R.bounded
  start_eq := rfl
  size_eq := rfl
  shift_eq := rfl

end SpaceMap

/-! ## What a log means -/

namespace MapType

/-- The allocated set after an entry of this type for the offsets `s`. -/
def apply (A s : Finset ℕ) : MapType → Finset ℕ
  | .smAlloc => A ∪ s
  | .smFree => A \ s

def Admits (A s : Finset ℕ) : MapType → Prop
  | .smAlloc => Disjoint A s
  | .smFree => s ⊆ A

variable {A s t : Finset ℕ} {maptype : MapType}

theorem apply_apply : maptype.apply (maptype.apply A s) t = maptype.apply A (s ∪ t) := by
  cases maptype with
  | smAlloc => exact Finset.union_assoc A s t
  | smFree => exact sdiff_sdiff_left

theorem admits_union : maptype.Admits A (s ∪ t) ↔ maptype.Admits A s ∧ maptype.Admits A t := by
  cases maptype with
  | smAlloc => exact Finset.disjoint_union_right
  | smFree => exact Finset.union_subset_iff

theorem Admits.apply (admits : maptype.Admits A t) (apart : Disjoint s t) : maptype.Admits (maptype.apply A s) t := by
  cases maptype with
  | smAlloc => exact Finset.disjoint_union_left.mpr ⟨admits, apart⟩
  | smFree => exact Finset.subset_sdiff.mpr ⟨admits, apart.symm⟩

theorem apply_empty : maptype.apply A ∅ = A := by
  cases maptype with
  | smAlloc => exact Finset.union_empty A
  | smFree => exact Finset.sdiff_empty

end MapType

/-- The entries `log` turn the allocated set `A` into `B`. -/
inductive Replays (R : MapRange) : List Word → Finset ℕ → Finset ℕ → Prop where
  | nil (A : Finset ℕ) : Replays R [] A A
  | debug {e : Word} {log : List Word} {A B : Finset ℕ} (skipped : smDebugDecode e ≠ 0)
      (rest : Replays R log A B) : Replays R (e :: log) A B
  | run {log : List Word} {A B : Finset ℕ} (maptype : MapType) {start len : ℕ}
      (ok : R.RunOk start len) (admits : maptype.Admits A (R.run start len))
      (rest : Replays R log (maptype.apply A (R.run start len)) B) :
      Replays R (runEntry maptype start len :: log) A B

theorem Replays.append {R log log' A B C}
    (first : Replays R log A B) (second : Replays R log' B C) : Replays R (log ++ log') A C := by
  induction first with
  | nil => exact second
  | debug skipped _ ih => exact .debug skipped (ih second)
  | run maptype ok admits _ ih => exact .run maptype ok admits (ih second)

/-! ## Loading -/

/-- What a map loaded with this type holds when `A` is allocated. -/
def MapType.view (R : MapRange) (A : Finset ℕ) : MapType → Finset ℕ
  | .smAlloc => A
  | .smFree => R.set \ A

section Load

variable {R : MapRange} {sm : SpaceMap} {maptype : MapType} {A B : Finset ℕ} {start len : ℕ}

theorem MapRange.RunOk.subset (ok : R.RunOk start len) : R.run start len ⊆ R.set := by
  have := ok.inside
  exact Finset.Ico_subset_Ico (by omega) (by omega)

theorem MapRange.run_eq (R : MapRange) (start len : ℕ) : R.run start len =
    Finset.Ico (R.start + start * 2 ^ R.shift) (R.start + start * 2 ^ R.shift + len * 2 ^ R.shift) := by
  rw [run, Nat.add_mul, Nat.add_assoc]

theorem MapRange.RunOk.takes (ok : R.RunOk start len) (on : sm.On R) :
    sm.Takes (R.start + start * 2 ^ R.shift) (len * 2 ^ R.shift) where
  nonempty := Nat.mul_pos ok.pos (Nat.two_pow_pos _)
  lower := by rw [on.start_eq]; omega
  upper := by
    have := ok.inside
    rw [Nat.add_mul] at this
    rw [on.start_eq, on.size_eq]
    omega
  alignedStart := by
    rw [on.shift_eq]
    exact R.alignedStart.add (Nat.dvd_mul_left _ _)
  alignedSize := by
    rw [on.shift_eq]
    exact Nat.dvd_mul_left _ _

theorem loadEntry_debug (skipped : smDebugDecode e ≠ 0) (mapstart) :
    loadEntry maptype mapstart sm e = some sm := by
  rw [loadEntry, if_pos skipped]

theorem loadEntry_runEntry (on : sm.On R) (ok : R.RunOk start len) (etype : MapType) :
    loadEntry maptype R.start sm (runEntry etype start len) =
      (if etype = maptype then spaceMapAdd else spaceMapRemove) sm
        (R.start + start * 2 ^ R.shift) (len * 2 ^ R.shift) := by
  have bounded := R.bounded
  have inside := ok.inside
  rw [Nat.add_mul] at inside
  have offset : (smOffsetDecode (runEntry etype start len) <<< sm.smShift).toNat = start * 2 ^ R.shift := by
    rw [toNat_shiftLeft, runEntry_offset _ ok.small, on.shift_eq, Nat.shiftLeft_eq]
    exact Nat.mod_eq_of_lt (by omega)
  have size : (smRunDecode (runEntry etype start len) <<< sm.smShift).toNat = len * 2 ^ R.shift := by
    rw [toNat_shiftLeft, runEntry_run _ ok.pos ok.short, on.shift_eq, Nat.shiftLeft_eq]
    exact Nat.mod_eq_of_lt (by omega)
  have types : (smTypeDecode (runEntry etype start len) = maptype.code) = (etype = maptype) := by
    rw [runEntry_type]
    cases etype <;> cases maptype <;> decide
  simp only [loadEntry, runEntry_debug, ne_eq, not_true_eq_false, if_false, offset, size, types]
  rw [u64_of_lt (by omega), add_comm]

theorem loadEntry_spec (on : sm.On R) (view : sm.offsets = maptype.view R A)
    (ok : R.RunOk start len) (etype : MapType) (admits : etype.Admits A (R.run start len)) :
    ∃ sm', loadEntry maptype R.start sm (runEntry etype start len) = some sm' ∧
      sm.Becomes sm' (maptype.view R (etype.apply A (R.run start len))) := by
  have takes := ok.takes on
  rw [loadEntry_runEntry on ok]
  by_cases same : etype = maptype
  · rw [if_pos same]
    subst same
    have fresh : Disjoint sm.offsets (R.run start len) := by
      rw [view]
      cases etype with
      | smAlloc => exact admits
      | smFree => exact Finset.disjoint_of_subset_right admits Finset.sdiff_disjoint
    rw [R.run_eq] at fresh
    obtain ⟨sm', added, becomes⟩ := SpaceMap.add_spec on.toWf takes fresh
    refine ⟨sm', added, ?_⟩
    convert becomes using 1
    rw [view, ← R.run_eq]
    cases etype with
    | smAlloc => rfl
    | smFree =>
      -- Freed offsets come back to the complement.
      simp only [MapType.view, MapType.apply]
      rw [Finset.sdiff_sdiff_eq_sdiff_union ok.subset]
  · rw [if_neg same]
    have held : R.run start len ⊆ sm.offsets := by
      rw [view]
      cases maptype with
      | smAlloc =>
        cases etype with
        | smAlloc => exact absurd rfl same
        | smFree => exact admits
      | smFree =>
        cases etype with
        | smAlloc => exact Finset.subset_sdiff.mpr ⟨ok.subset, admits.symm⟩
        | smFree => exact absurd rfl same
    rw [R.run_eq] at held
    obtain ⟨sm', removed, becomes⟩ := SpaceMap.remove_spec on.toWf takes.nonempty
      takes.alignedStart takes.alignedSize held
    refine ⟨sm', removed, ?_⟩
    convert becomes using 1
    rw [view, ← R.run_eq]
    cases maptype with
    | smAlloc =>
      cases etype with
      | smAlloc => exact absurd rfl same
      | smFree => rfl
    | smFree =>
      cases etype with
      | smAlloc => exact sdiff_sdiff_left.symm
      | smFree => exact absurd rfl same

theorem MapType.apply_subset (etype : MapType) (inside : A ⊆ R.set) (ok : R.RunOk start len) :
    etype.apply A (R.run start len) ⊆ R.set := by
  cases etype with
  | smAlloc => exact Finset.union_subset inside ok.subset
  | smFree => exact Finset.sdiff_subset.trans inside

theorem Replays.subset {log} (replays : Replays R log A B) (inside : A ⊆ R.set) : B ⊆ R.set := by
  induction replays with
  | nil => exact inside
  | debug _ _ ih => exact ih inside
  | run etype ok _ _ ih => exact ih (etype.apply_subset inside ok)

theorem Replays.load {log} (replays : Replays R log A B) (on : sm.On R) (view : sm.offsets = maptype.view R A) :
    ∃ sm', log.foldlM (loadEntry maptype R.start) sm = some sm' ∧ sm.Becomes sm' (maptype.view R B) := by
  induction replays generalizing sm with
  | nil => exact ⟨sm, rfl, view ▸ .refl on.toWf⟩
  | debug skipped _ ih =>
    obtain ⟨sm', folded, becomes⟩ := ih on view
    exact ⟨sm', by simpa [loadEntry_debug skipped] using folded, becomes⟩
  | run etype ok admits _ ih =>
    obtain ⟨next, stepped, becomes⟩ := loadEntry_spec on view ok etype admits
    obtain ⟨sm', folded, becomes'⟩ :=
      ih (becomes.on on) becomes.offsets_eq
    exact ⟨sm', by simpa [stepped] using folded, becomes'.wf, becomes'.offsets_eq, becomes'.frame.trans becomes.frame⟩

end Load

/-! ## Objects, buffers and blocks -/

/-- The object begins with the words of `log`. -/
def Holds (object : DmuObject) (log : List Word) : Prop :=
  ∀ i < log.length, log[i]? = some (object i)

section Objects

variable {object : DmuObject} {log data : List Word}

theorem holds_nil (object) : Holds object [] := by
  intro i bound
  simp at bound

theorem Holds.write (holds : Holds object log) (data : List Word) :
    Holds (dmuWrite object (8 * log.length) data) (log ++ data) := by
  intro i bound
  rw [length_append] at bound
  simp only [dmuWrite, Nat.mul_div_cancel_left _ (show 0 < 8 by decide)]
  by_cases old : i < log.length
  · rw [if_neg (by omega), List.getElem?_append_left old, holds i old]
  · rw [if_pos (by omega), getElem?_append_right (by omega), List.getElem?_eq_getElem (by omega), Option.getD_some]

theorem Holds.read (holds : Holds object log) (inside : k + n ≤ log.length) :
    dmuRead object (8 * k) (8 * n) = (log.drop k).take n := by
  apply ext_getElem?
  intro i
  simp only [dmuRead, Nat.mul_div_cancel_left _ (show 0 < 8 by decide)]
  by_cases bound : i < n
  · rw [List.getElem?_map, List.getElem?_range bound, Option.map_some,
      List.getElem?_take_of_lt bound, List.getElem?_drop, holds (k + i) (by omega)]
  · rw [List.getElem?_eq_none (by simp; omega), List.getElem?_eq_none (by simp; omega)]

def LogBuffer.Stands (buf : LogBuffer) (log : List Word) : Prop :=
  ∃ written, log = written ++ buf.entryMap ∧ buf.smoObjsize = 8 * written.length ∧
    Holds buf.object written

variable {buf : LogBuffer}

section

variable (stands : buf.Stands log)

include stands

theorem LogBuffer.Stands.flush : buf.flush.Stands log := by
  obtain ⟨written, rfl, size, holds⟩ := stands
  refine ⟨written ++ buf.entryMap, by simp [flush], ?_, ?_⟩
  · simp only [flush, size, length_append]
    omega
  · simp only [flush, size]
    exact holds.write buf.entryMap

theorem LogBuffer.Stands.put (bufsize) (e) : (buf.put bufsize e).Stands (log ++ [e]) := by
  have ready : (if buf.entryMap.length = bufsize / 8 then buf.flush else buf).Stands log := by
    split
    · exact stands.flush
    · exact stands
  obtain ⟨written, rfl, size, holds⟩ := ready
  exact ⟨written, by simp [put], size, holds⟩

theorem LogBuffer.Stands.putAll (bufsize)
    (es : List Word) : (es.foldl (LogBuffer.put bufsize) buf).Stands (log ++ es) := by
  induction es generalizing buf log with
  | nil => simpa using stands
  | cons head tail ih => simpa using ih (stands.put bufsize head)

theorem LogBuffer.Stands.final : let buf := if buf.entryMap ≠ [] then buf.flush else buf
    buf.smoObjsize = 8 * log.length ∧ Holds buf.object log := by
  split
  · obtain ⟨written, eq, size, holds⟩ := stands.flush
    simp only [LogBuffer.flush, append_nil] at eq
    subst eq
    exact ⟨size, holds⟩
  · rename_i empty
    obtain ⟨written, eq, size, holds⟩ := stands
    simp only [ne_eq, Decidable.not_not] at empty
    rw [empty, append_nil] at eq
    subst eq
    exact ⟨size, holds⟩

end

theorem loadBlock_eq (maptype) (mapstart) (sm) (holds : Holds object log) (more : 512 * blocks < log.length) :
    loadBlock maptype mapstart object (8 * log.length) 4096 sm (blocks * 4096) =
      ((log.drop (512 * blocks)).take 512).foldlM (loadEntry maptype mapstart) sm := by
  have size : min (8 * log.length - blocks * 4096) 4096 = 8 * min 512 (log.length - 512 * blocks) := by omega
  have words : (log.drop (512 * blocks)).take 512 =
      (log.drop (512 * blocks)).take (min 512 (log.length - 512 * blocks)) := by
    simp
  have aligned : p2phase (8 * min 512 (log.length - 512 * blocks)) 8 = 0 := by
    have phase := p2phase_shift (8 * min 512 (log.length - 512 * blocks)) 3
    rw [show 1 <<< 3 = 8 by rfl] at phase
    omega
  have nonzero : 8 * min 512 (log.length - 512 * blocks) ≠ 0 := by omega
  rw [words, ← holds.read (by omega), loadBlock, size, show blocks * 4096 = 8 * (512 * blocks) by omega]
  simp only [guard_of aligned, guard_of nonzero, Option.bind_eq_bind, Option.bind_some]

theorem loadBlocks_eq (maptype) (mapstart) (sm) (holds : Holds object log)
    (blocks : ℕ) (bound : blocks ≤ (8 * log.length + 4096 - 1) / 4096) :
    ((List.range blocks).map (· * 4096)).foldlM
        (loadBlock maptype mapstart object (8 * log.length) 4096) sm =
      (log.take (512 * blocks)).foldlM (loadEntry maptype mapstart) sm := by
  induction blocks with
  | zero => rfl
  | succ blocks ih =>
    rw [range_succ, map_append, foldlM_append, ih (by omega),
      show 512 * (blocks + 1) = 512 * blocks + 512 by omega, take_add, foldlM_append]
    refine congrArg _ (funext fun next => ?_)
    simp only [map_cons, map_nil, foldlM_cons, foldlM_nil, bind_pure]
    exact loadBlock_eq maptype mapstart next holds (by omega)

end Objects

end MacZfs
