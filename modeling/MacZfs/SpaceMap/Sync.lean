import MacZfs.SpaceMap.Replay

/-!
# Writing a log and reading it back

`space_map_sync` appends entries that replay to the map it empties, and `space_map_load` of
what any sequence of such calls leaves in the object gives the set they leave allocated, or
its complement.
-/

namespace MacZfs

open Finset Extents Checked MapRange Nat MapType List Option

variable {R : MapRange} {maptype : MapType} {A : Finset ℕ}

/-! ## The entries of one call -/

theorem MapRange.run_split (R : MapRange) (start : ℕ) {k size} (le : k ≤ size) :
    R.run start size = R.run start k ∪ R.run (start + k) (size - k) ∧
      Disjoint (R.run start k) (R.run (start + k) (size - k)) := by
  have first : (start + k) * 2 ^ R.shift ≤ (start + size) * 2 ^ R.shift :=
    mul_le_mul_right _ (by omega)
  have second : start * 2 ^ R.shift ≤ (start + k) * 2 ^ R.shift := mul_le_mul_right _ (by omega)
  simp only [run, show start + k + (size - k) = start + size by omega]
  constructor
  · rw [Ico_union_Ico_eq_Ico (by omega) (by omega)]
  · exact Ico_disjoint_Ico_consecutive _ _ _

theorem runEntries_replays {rounds start size} (enough : size ≤ rounds)
    (small : start + size ≤ 2 ^ 47) (inside : (start + size) * 2 ^ R.shift ≤ R.size)
    (admits : maptype.Admits A (R.run start size)) :
    Replays R (runEntries maptype rounds start size) A (maptype.apply A (R.run start size)) := by
  induction rounds generalizing start size A with
  | zero =>
    have : R.run start size = ∅ := by simp [MapRange.run, show size = 0 by omega]
    rw [this, MapType.apply_empty]
    exact .nil A
  | succ rounds ih =>
    rw [runEntries]
    split
    · have : R.run start size = ∅ := by simp [MapRange.run, *]
      rw [this, MapType.apply_empty]
      exact .nil A
    · have max := smRunMax_eq
      obtain ⟨split, apart⟩ := R.run_split start (min_le_left size smRunMax)
      rw [split] at admits ⊢
      obtain ⟨admitsHead, admitsTail⟩ := MapType.admits_union.mp admits
      have headInside : (start + min size smRunMax) * 2 ^ R.shift ≤ R.size :=
        (Nat.mul_le_mul_right _ (by omega)).trans inside
      have tail : start + min size smRunMax + (size - min size smRunMax) = start + size := by
        omega
      refine .run maptype ⟨by omega, by omega, by omega, headInside⟩ admitsHead ?_
      rw [← MapType.apply_apply]
      exact ih (by omega) (by omega) (by rw [tail]; exact inside) (admitsTail.apply apart)

/-- The offsets are below `2 ^ 47` units, the width of an entry's offset field. -/
def MapRange.Encodable (R : MapRange) (s : Finset ℕ) : Prop :=
  ∀ x ∈ s, (x - R.start) / 2 ^ R.shift < 2 ^ 47

variable {sm : SpaceMap}

theorem SpaceMap.Fits.run_eq (fits : sm.Fits ss) (on : sm.On R) :
    ∃ start size, u64Sub ss.stop ss.start >>> sm.smShift = size ∧
      u64Sub ss.start sm.smStart >>> sm.smShift = start ∧ R.run start size = ss.toFinset ∧
      0 < size ∧ (start + size) * 2 ^ R.shift ≤ R.size := by
  have ordered := fits.ordered
  obtain ⟨lower, start, startEq⟩ := fits.lower
  obtain ⟨upper, stop, stopEq⟩ := fits.upper
  obtain ⟨base, baseEq⟩ := R.alignedStart
  rw [on.start_eq, on.shift_eq, on.size_eq] at *
  have bounded := R.bounded
  have unit : 0 < 2 ^ R.shift := Nat.two_pow_pos _
  have stopLt : start < stop := by
    by_contra high
    have := Nat.mul_le_mul_left (2 ^ R.shift) (show stop ≤ start by omega)
    omega
  have size : ss.stop - ss.start = (stop - start) * 2 ^ R.shift := by
    rw [startEq, stopEq, ← Nat.mul_sub, Nat.mul_comm]
  have offset : ss.start - R.start = (start - base) * 2 ^ R.shift := by
    rw [startEq, baseEq, ← Nat.mul_sub, Nat.mul_comm]
  refine ⟨start - base, stop - start, ?_, ?_, ?_, by omega, ?_⟩
  · rw [u64Sub_of_le (by omega) (by omega), size, Nat.shiftRight_eq_div_pow, Nat.mul_div_cancel _ unit]
  · rw [u64Sub_of_le (by omega) (by omega), offset, Nat.shiftRight_eq_div_pow, Nat.mul_div_cancel _ unit]
  · rw [MapRange.run_eq, ← size, ← offset, Extent.toFinset]
    congr 1 <;> omega
  · rw [Nat.add_mul, ← size, ← offset]
    omega

theorem segEntries_replays (fits : sm.Fits ss) (on : sm.On R)
    (encodable : R.Encodable ss.toFinset) (admits : maptype.Admits A ss.toFinset) :
    Replays R (segEntries sm maptype ss) A (maptype.apply A ss.toFinset) := by
  obtain ⟨start, size, sizeEq, startEq, run, pos, inside⟩ := fits.run_eq on
  rw [segEntries, sizeEq, startEq, ← run]
  refine runEntries_replays (le_refl size) ?_ inside (run ▸ admits)
  -- The last unit of the segment bounds all of them.
  have unit : 0 < 2 ^ R.shift := Nat.two_pow_pos _
  have last : R.start + (start + size - 1) * 2 ^ R.shift ∈ R.run start size := by
    rw [MapRange.run, mem_Ico]
    have low := Nat.mul_le_mul_right (2 ^ R.shift) (show start ≤ start + size - 1 by omega)
    have high := Nat.mul_lt_mul_of_pos_right (show start + size - 1 < start + size by omega) unit
    omega
  have bound := encodable _ (run ▸ last)
  rw [Nat.add_sub_cancel_left, Nat.mul_div_cancel _ unit] at bound
  omega

theorem MapRange.Encodable.mono (encodable : R.Encodable t) (sub : s ⊆ t) : R.Encodable s :=
  fun x inside => encodable x (sub inside)

theorem segs_replay (segs) (on : sm.On R) (fits : ∀ ss ∈ segs, sm.Fits ss)
    (scattered : Scattered segs) (encodable : R.Encodable (cover segs)) (admits : maptype.Admits A (cover segs)) :
    Replays R (segs.flatMap (segEntries sm maptype)) A (maptype.apply A (cover segs)) := by
  induction segs generalizing A with
  | nil =>
    rw [cover_nil, apply_empty]
    exact .nil A
  | cons head tail ih =>
    rw [cover_cons] at admits encodable ⊢
    obtain ⟨admitsHead, admitsTail⟩ := admits_union.mp admits
    rw [List.flatMap_cons, ← apply_apply]
    refine (segEntries_replays (fits head (by simp)) on
      (encodable.mono subset_union_left) admitsHead).append ?_
    exact ih (fun ss member => fits ss (by simp [member])) (List.pairwise_cons.mp scattered).2
      (encodable.mono subset_union_right) (admitsTail.apply scattered.head_disjoint)

/-! ## One call -/

/-- The object holds a log of the allocated set `A`, and its header agrees. -/
structure LogOf (R : MapRange) (smo : SpaceMapObj) (object : DmuObject) (log : List Word)
    (A : Finset ℕ) : Prop where
  objsize : smo.smoObjsize = 8 * log.length
  holds : Holds object log
  replays : Replays R log ∅ A
  alloc : smo.smoAlloc = A.card

theorem LogOf.subset {smo object log} (logOf : LogOf R smo object log A) : A ⊆ R.set :=
  logOf.replays.subset (empty_subset _)

theorem logOf_empty {smo} (objsize : smo.smoObjsize = 0) (alloc : smo.smoAlloc = 0)
    (object) : LogOf R smo object [] ∅ :=
  ⟨objsize, holds_nil object, .nil ∅, alloc⟩

/-- What one `space_map_sync` appends to the log. -/
def syncEntries (order : DestroyOrder) (sm : SpaceMap) (maptype : MapType) (syncpass txg : ℕ) :
    List Word :=
  if sm.smSpace = 0 then []
  else debugEntry maptype syncpass txg :: (order.visit sm.smRoot).flatMap (segEntries sm maptype)

theorem syncEntries_replays (order) (on : sm.On R) (syncpass txg)
    (encodable : R.Encodable sm.offsets) (admits : maptype.Admits A sm.offsets) :
    Replays R (syncEntries order sm maptype syncpass txg) A (maptype.apply A sm.offsets) := by
  have perm := order.perm sm.smRoot
  have same : cover (order.visit sm.smRoot) = sm.offsets := cover_perm perm
  unfold syncEntries
  split
  · rename_i empty
    have : sm.offsets = ∅ := card_eq_zero.mp (on.space_eq_card ▸ empty)
    rw [this, apply_empty]
    exact .nil A
  · refine .debug (debugEntry_debug maptype syncpass txg) ?_
    rw [← same] at admits encodable ⊢
    exact segs_replay _ on (fun ss member => on.fits ss (perm.mem_iff.mp member))
      (on.separated.scattered.perm perm.symm) encodable admits

/-- The running `sm_space -= size` of the loop ends at zero. -/
theorem foldl_space (segs) (bounds : ∀ ss ∈ segs, ss.start < ss.stop ∧ ss.stop < 2 ^ 64)
    (enough : total segs ≤ space) (small : space < 2 ^ 64) :
    segs.foldl (fun space ss => u64Sub space (u64Sub ss.stop ss.start)) space = space - total segs := by
  induction segs generalizing space with
  | nil => rfl
  | cons head tail ih =>
    obtain ⟨ordered, high⟩ := bounds head (by simp)
    rw [total_cons, Extent.size] at enough ⊢
    rw [foldl_cons, u64Sub_of_le ordered.le high, u64Sub_of_le (by omega) small,
      ih (fun ss member => bounds ss (by simp [member])) (by omega) (by omega)]
    omega

theorem SpaceMap.Wf.space_zero (wf : sm.Wf) (empty : sm.smSpace = 0) : sm.vacated = sm := by
  have none : sm.smRoot = [] := by
    cases root : sm.smRoot with
    | nil => rfl
    | cons head tail =>
      have ordered := wf.separated.nonempty head (by simp [root])
      have := wf.space
      rw [root, total_cons, Extent.size] at this
      omega
  cases sm
  simp_all [SpaceMap.vacated]

theorem MapRange.card_set (R : MapRange) : R.set.card = R.size := by
  simp [set]

/-- `smo_alloc` follows the allocated set. -/
theorem MapType.charge_card (admits : maptype.Admits A s)
    (before : A.card < 2 ^ 64) (after : (maptype.apply A s).card < 2 ^ 64) :
    maptype.charge A.card s.card = (maptype.apply A s).card := by
  cases maptype with
  | smAlloc =>
    have card : (A ∪ s).card = A.card + s.card := card_union_of_disjoint admits
    exact (u64_of_lt (card ▸ after)).trans card.symm
  | smFree =>
    exact (u64Sub_of_le (card_le_card admits) before).trans
      (card_sdiff_of_subset admits).symm

theorem MapRange.card_lt (inside : s ⊆ R.set) : s.card < 2 ^ 64 := by
  have le := card_le_card inside
  have bounded := R.bounded
  rw [card_set] at le
  omega

section Spec

variable {smo : SpaceMapObj} {object : DmuObject} {log : List Word}

theorem syncLoops_spec (order) (objsize : smo.smoObjsize = 8 * log.length)
    (holds : Holds object log) (some : sm.smSpace ≠ 0) (maptype) (syncpass txg) :
    let buf := syncLoops order sm maptype smo.smoObjsize object syncpass txg
    let log' := log ++ syncEntries order sm maptype syncpass txg
    buf.smoObjsize = 8 * log'.length ∧ Holds buf.object log' := by
  have start : LogBuffer.Stands ⟨[debugEntry maptype syncpass txg], smo.smoObjsize, object⟩
      (log ++ [debugEntry maptype syncpass txg]) := ⟨log, rfl, objsize, holds⟩
  have written := (start.putAll (min ((8 + sm.smRoot.length) * 8) (1 <<< spaceMapBlockshift))
    ((order.visit sm.smRoot).flatMap (segEntries sm maptype))).final
  rw [append_assoc, singleton_append] at written
  rw [syncEntries, if_neg some]
  exact written

theorem syncSpace_eq (order) (on : sm.On R) : syncSpace order sm = 0 := by
  have perm := order.perm sm.smRoot
  have totalEq : total (order.visit sm.smRoot) = sm.smSpace := by
    rw [on.space, total, total]
    exact (perm.map _).sum_eq
  have bounded := on.bounded
  have spaceLe := on.space_le
  rw [syncSpace, foldl_space _ _ totalEq.le (by omega), totalEq, Nat.sub_self]
  intro ss member
  have fits := on.fits ss (perm.mem_iff.mp member)
  have := fits.upper.1
  exact ⟨fits.ordered, by omega⟩

/-- `space_map_sync` empties the map into the log. -/
theorem spaceMapSync_spec (order) (maptype)
    (logOf : LogOf R smo object log A) (on : sm.On R) (encodable : R.Encodable sm.offsets) (admits : maptype.Admits A sm.offsets)
    (syncpass txg) :
    ∃ smo' object', spaceMapSync order sm maptype smo object syncpass txg =
        some (sm.vacated, smo', object') ∧ smo'.smoObject = smo.smoObject ∧
      LogOf R smo' object' (log ++ syncEntries order sm maptype syncpass txg) (maptype.apply A sm.offsets) := by
  have entries := syncEntries_replays order on syncpass txg encodable admits
  have replays := logOf.replays.append entries
  by_cases empty : sm.smSpace = 0
  · have none : sm.offsets = ∅ := card_eq_zero.mp (on.space_eq_card ▸ empty)
    refine ⟨smo, object, ?_, rfl, ?_⟩
    · rw [spaceMapSync, if_pos empty, on.toWf.space_zero empty]
    · have noEntries : syncEntries order sm maptype syncpass txg = [] := if_pos empty
      rw [noEntries, append_nil] at replays ⊢
      exact ⟨logOf.objsize, logOf.holds, replays, by rw [none, apply_empty, logOf.alloc]⟩
  · have space := syncSpace_eq order on
    obtain ⟨size, holds⟩ :=
      syncLoops_spec order logOf.objsize logOf.holds empty maptype syncpass txg
    refine ⟨{ smo with
        smoObjsize := (syncLoops order sm maptype smo.smoObjsize object syncpass txg).smoObjsize
        smoAlloc := maptype.charge smo.smoAlloc sm.smSpace }, _, ?_, rfl, size, holds, replays, ?_⟩
    · rw [spaceMapSync, if_neg empty]
      simp only [space, guard_of, Option.pure_def, Option.bind_eq_bind, Option.bind_some]
      rfl
    · rw [logOf.alloc, on.space_eq_card]
      exact charge_card admits (card_lt logOf.subset)
        (card_lt (replays.subset (empty_subset _)))

theorem Holds.read_all (holds : Holds object log) : dmuRead object 0 (8 * log.length) = log := by
  have read := holds.read (k := 0) (n := log.length) (by omega)
  simpa using read

theorem loadBlocks_spec (logOf : LogOf R smo object log A) (sm) :
    loadBlocks maptype smo object sm = log.foldlM (loadEntry maptype sm.smStart) sm := by
  have block : 1 <<< spaceMapBlockshift = 4096 := rfl
  simp only [loadBlocks, block, logOf.objsize]
  rw [loadBlocks_eq maptype sm.smStart sm logOf.holds _ (le_refl _), take_of_length_le (by omega)]

theorem MapRange.takes_all (R) (on : sm.On R) : sm.Takes sm.smStart sm.smSize where
  nonempty := on.size_eq ▸ R.nonempty
  lower := le_refl _
  upper := le_refl _
  alignedStart := by
    rw [on.start_eq, on.shift_eq]
    exact R.alignedStart
  alignedSize := by
    rw [on.size_eq, on.shift_eq]
    exact R.alignedSize

theorem loadInit_spec (on : sm.On R) (empty : sm.smSpace = 0) (maptype) :
    ∃ first, loadInit sm maptype = some first ∧ sm.Becomes first (maptype.view R ∅) := by
  have none : sm.offsets = ∅ := card_eq_zero.mp (on.space_eq_card ▸ empty)
  cases maptype with
  | smAlloc => exact ⟨sm, rfl, by simpa [MapType.view, none] using SpaceMap.Becomes.refl on.toWf⟩
  | smFree =>
    obtain ⟨first, added, becomes⟩ := SpaceMap.add_spec on.toWf (R.takes_all on)
      (by rw [none]; exact disjoint_empty_left _)
    refine ⟨first, added, ?_⟩
    rw [none, empty_union] at becomes
    simpa [MapType.view, MapRange.set, on.start_eq, on.size_eq] using becomes

theorem loadSpace_eq (on : sm.On R) (inside : A ⊆ R.set) (alloc : smo.smoAlloc = A.card) :
    loadSpace sm smo maptype = (maptype.view R A).card := by
  have bounded := R.bounded
  have le := card_le_card inside
  rw [R.card_set] at le
  cases maptype with
  | smAlloc => exact alloc
  | smFree =>
    rw [loadSpace, view, card_sdiff_of_subset inside, R.card_set, alloc, on.size_eq, u64Sub_of_le le (by omega)]

def SpaceMap.loadedWith (sm : SpaceMap) (ops : Bool) : SpaceMap :=
  { sm with smLoaded := true, smOps := ops, smPpd := if ops then List.replicate 64 0 else sm.smPpd }

/-- `space_map_load` of a log gives the set it leaves allocated, or its complement. -/
theorem spaceMapLoad_spec (logOf : LogOf R smo object log A) (on : sm.On R)
    (unloaded : sm.smLoaded = false) (empty : sm.smSpace = 0) (ops) (maptype) :
    ∃ sm', spaceMapLoad sm ops maptype smo object = some (sm'.loadedWith ops) ∧
      sm.Becomes sm' (maptype.view R A) := by
  obtain ⟨first, init, becomes⟩ := loadInit_spec on empty maptype
  have on' := becomes.on on
  obtain ⟨sm', folded, becomes'⟩ := logOf.replays.load on' becomes.offsets_eq
  have space : sm'.smSpace = loadSpace sm smo maptype := by
    rw [becomes'.wf.space_eq_card, becomes'.offsets_eq, loadSpace_eq on logOf.subset logOf.alloc]
  refine ⟨sm', ?_, becomes'.wf, becomes'.offsets_eq, becomes'.frame.trans becomes.frame⟩
  have notLoaded : ¬ sm.smLoaded = true := by simp [unloaded]
  rw [spaceMapLoad, if_neg notLoaded, guard_of empty, init]
  simp only [bind_eq_bind, bind_some]
  rw [loadBlocks_spec logOf, on'.start_eq, folded]
  simp only [bind_some, guard_of space]
  rfl

end Spec

/-! ## Any sequence of calls -/

/-- The arguments of one `space_map_sync`: a map for the range `R` whose offsets fit the entries,
    and the order in which its tree is taken apart. -/
structure SyncCall (R : MapRange) where
  order : DestroyOrder
  sm : SpaceMap
  maptype : MapType
  syncpass : ℕ
  txg : ℕ
  on : sm.On R
  encodable : R.Encodable sm.offsets

namespace SyncCall

def perform (state : SpaceMapObj × DmuObject) (call : SyncCall R) :
    Option (SpaceMapObj × DmuObject) := do
  let (_, smo, object) ←
    spaceMapSync call.order call.sm call.maptype state.1 state.2 call.syncpass call.txg
  return (smo, object)

def entries (calls : List (SyncCall R)) : List Word :=
  calls.flatMap fun call => syncEntries call.order call.sm call.maptype call.syncpass call.txg

/-- What is allocated after the calls when `A` was before. -/
def net (A : Finset ℕ) (calls : List (SyncCall R)) : Finset ℕ :=
  calls.foldl (fun A call => call.maptype.apply A call.sm.offsets) A

def Admissible : Finset ℕ → List (SyncCall R) → Prop
  | _, [] => True
  | A, call :: calls => call.maptype.Admits A call.sm.offsets ∧
      Admissible (call.maptype.apply A call.sm.offsets) calls

theorem perform_all (calls : List (SyncCall R)) {smo object}
    {log} (logOf : LogOf R smo object log A) (admissible : Admissible A calls) :
    ∃ smo' object', calls.foldlM perform (smo, object) = some (smo', object') ∧
      LogOf R smo' object' (log ++ entries calls) (net A calls) := by
  induction calls generalizing A smo object log with
  | nil => exact ⟨smo, object, rfl, by simpa [entries, net] using logOf⟩
  | cons call calls ih =>
    obtain ⟨admits, rest⟩ := admissible
    obtain ⟨smo', object', synced, -, logOf'⟩ :=
      spaceMapSync_spec call.order call.maptype logOf call.on call.encodable admits call.syncpass call.txg
    obtain ⟨smo'', object'', performed, final⟩ := ih logOf' rest
    refine ⟨smo'', object'', ?_, by simpa [entries, net] using final⟩
    have first : perform (smo, object) call = some (smo', object') := by
      simp [perform, synced]
    simp [first, performed]

end SyncCall

/-- Any sequence of `space_map_sync` calls, from an empty object, leaves a log that
    `space_map_load` reads back as the net allocated set or as its complement; both loads pass
    their check of `sm_space`. The header counts the bytes allocated and the bytes of the log,
    and the log is the calls' entries one after the other. -/
theorem space_map_log_round_trip (R : MapRange) (calls : List (SyncCall R))
    (admissible : SyncCall.Admissible ∅ calls) (smo : SpaceMapObj) (object : DmuObject)
    (objsize : smo.smoObjsize = 0) (alloc : smo.smoAlloc = 0) :
    ∃ smo' object', calls.foldlM SyncCall.perform (smo, object) = some (smo', object') ∧
      (∀ ops, ∃ sm, spaceMapLoad R.create ops .smAlloc smo' object' = some sm ∧ sm.On R ∧
        sm.offsets = SyncCall.net ∅ calls) ∧
      (∀ ops, ∃ sm, spaceMapLoad R.create ops .smFree smo' object' = some sm ∧ sm.On R ∧
        sm.offsets = R.set \ SyncCall.net ∅ calls) ∧
      smo'.smoAlloc = (SyncCall.net ∅ calls).card ∧
      smo'.smoObjsize = 8 * (SyncCall.entries calls).length ∧
      dmuRead object' 0 smo'.smoObjsize = SyncCall.entries calls := by
  obtain ⟨smo', object', performed, logOf⟩ :=
    SyncCall.perform_all calls (logOf_empty objsize alloc object) admissible
  rw [nil_append] at logOf
  have load (ops : Bool) (maptype : MapType) :
      ∃ sm, spaceMapLoad R.create ops maptype smo' object' = some sm ∧ sm.On R ∧
        sm.offsets = maptype.view R (SyncCall.net ∅ calls) := by
    obtain ⟨sm, loaded, becomes⟩ :=
      spaceMapLoad_spec logOf (SpaceMap.on_create R) rfl rfl ops maptype
    have on := becomes.on (SpaceMap.on_create R)
    exact ⟨_, loaded, ⟨⟨on.separated, on.lower, on.upper, on.space, on.bounded⟩, on.start_eq,
      on.size_eq, on.shift_eq⟩, becomes.offsets_eq⟩
  exact ⟨smo', object', performed, fun ops => load ops .smAlloc, fun ops => load ops .smFree,
    logOf.alloc, logOf.objsize, by rw [logOf.objsize, logOf.holds.read_all]⟩

/-- A range of `2 ^ 17` sectors. -/
def sectorRange : MapRange where
  start := 0
  size := 2 ^ 26
  shift := 9
  nonempty := by decide
  bounded := by decide
  alignedStart := by decide
  alignedSize := by decide

theorem sectorRange_encodable (inside : ∀ x ∈ s, x < 2 ^ 26) : sectorRange.Encodable s := by
  intro x member
  have := inside x member
  simp only [sectorRange]
  omega

/-- A call with a single segment of `sectorRange`, the tree taken apart in order. -/
def segCall (maptype : MapType) (start stop : ℕ) (ordered : start < stop) (inside : stop ≤ 2 ^ 26)
    (alignedStart : 2 ^ 9 ∣ start) (alignedStop : 2 ^ 9 ∣ stop) : SyncCall sectorRange where
  order := ⟨id, fun _ => .refl _⟩
  sm := { sectorRange.create with smRoot := [⟨start, stop⟩], smSpace := stop - start }
  maptype := maptype
  syncpass := 1
  txg := 4
  on :=
    { separated := separated_insert separated_nil separated_nil ordered (by simp) (by simp)
      lower := by
        intro ss member
        rw [List.mem_singleton.mp member]
        exact ⟨Nat.zero_le start, alignedStart⟩
      upper := by
        intro ss member
        rw [List.mem_singleton.mp member]
        exact ⟨inside.trans (Nat.le_add_left _ _), alignedStop⟩
      space := rfl
      bounded := sectorRange.bounded
      start_eq := rfl
      size_eq := rfl
      shift_eq := rfl }
  encodable := by
    refine sectorRange_encodable fun x member => ?_
    have bounds : start ≤ x ∧ x < stop := by simpa [SpaceMap.offsets] using member
    exact bounds.2.trans_le inside

/-- An extent of `2 ^ 16` sectors takes two entries; one sector of it is freed again. -/
theorem space_map_log_round_trip_long_extent :
    ∃ smo' object', [segCall .smAlloc 0 (2 ^ 25) (by decide) (by decide) (by decide) (by decide),
        segCall .smFree 512 1024 (by decide) (by decide) (by decide) (by decide)].foldlM
          SyncCall.perform (⟨1, 0, 0⟩, fun _ => 0) = some (smo', object') ∧
      smo'.smoObjsize = 40 := by
  obtain ⟨smo', object', performed, -, -, -, objsize, -⟩ := space_map_log_round_trip sectorRange
    [segCall .smAlloc 0 (2 ^ 25) (by decide) (by decide) (by decide) (by decide),
      segCall .smFree 512 1024 (by decide) (by decide) (by decide) (by decide)]
    (by
      refine ⟨disjoint_empty_left _, ?_, trivial⟩
      intro x member
      have bounds : 512 ≤ x ∧ x < 1024 := by
        simpa [SpaceMap.offsets, segCall] using member
      have inside : 0 ≤ x ∧ x < 2 ^ 25 := by omega
      simpa [apply, SpaceMap.offsets, segCall] using inside)
    ⟨1, 0, 0⟩ (fun _ => 0) rfl rfl
  exact ⟨smo', object', performed, objsize.trans (by rfl)⟩

end MacZfs
