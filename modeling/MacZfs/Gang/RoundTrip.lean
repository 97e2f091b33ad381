import MacZfs.Gang.Members

/-!
# Gang blocks hold what was written

A block that was written through gang headers reads back as it was, on any of its copies, and
freeing it frees what was allocated for it, once.
-/

namespace MacZfs.Gang

open List Option Alignment Alloc Nat

variable {pool : Pool} {args : WriteArgs} {disk : Disk} {data : List UInt8}

/-! ## The size of a gang block -/

variable {bp : Blkptr}

/-- The members add their sizes to the DVAs of the header, in any order. -/
theorem foldl_gangMemberDone (children : List Blkptr)
    (fits : ∀ d dva, bp.blkDva[d]? = some dva → spaMinBlockSize ∣ dva.dvaAsize ∧
      (∀ child ∈ children, spaMinBlockSize ∣ child.asizeAt d) ∧
      dva.dvaAsize + (children.map fun child => child.asizeAt d).sum < 2 ^ 33) :
    children.foldl gangMemberDone bp = { bp with blkDva := bp.blkDva.mapIdx fun d dva =>
      { dva with dvaAsize := dva.dvaAsize + (children.map fun child => child.asizeAt d).sum } } := by
  induction children generalizing bp with
  | nil =>
    refine congrArg (fun dvas => { bp with blkDva := dvas }) (ext_getElem? fun d => ?_)
    rw [getElem?_mapIdx]
    cases bp.blkDva[d]? <;> rfl
  | cons child children ih =>
    have one : gangMemberDone bp child = { bp with blkDva := bp.blkDva.mapIdx fun d dva =>
        { dva with dvaAsize := dva.dvaAsize + child.asizeAt d } } := by
      refine congrArg (fun dvas => { bp with blkDva := dvas }) (ext_getElem? fun d => ?_)
      rw [getElem?_mapIdx, getElem?_mapIdx]
      cases found : bp.blkDva[d]? with
      | none => rfl
      | some dva =>
        obtain ⟨sectors, childSectors, bound⟩ := fits d dva found
        rw [map_cons, sum_cons] at bound
        rw [map_some, map_some, sectorField_eq (dvd_add sectors (childSectors child mem_cons_self)) (by omega)]
    rw [foldl_cons, ih, one]
    · refine congrArg (fun dvas => { bp with blkDva := dvas }) ?_
      rw [mapIdx_mapIdx]
      refine congrArg (fun f => bp.blkDva.mapIdx f) ?_
      funext d dva
      simp [add_assoc]
    · intro d dva found
      rw [one, getElem?_mapIdx, map_eq_some_iff] at found
      obtain ⟨before, found, rfl⟩ := found
      obtain ⟨sectors, childSectors, bound⟩ := fits d before found
      refine ⟨dvd_add sectors (childSectors child mem_cons_self),
        fun other member => childSectors other (mem_cons_of_mem _ member), ?_⟩
      rw [map_cons, sum_cons] at bound
      dsimp only
      omega

variable {parts : List Part}

theorem sum_asizeAt_le (sectors : ∀ part ∈ parts, spaMinBlockSize ∣ part.data.length)
    (bounds : ∀ part ∈ parts, part.bp.asizeAt d + 2 ^ 24 ≤ 2 ^ 24 * (2 * (part.data.length / spaMinBlockSize))) :
    (parts.map fun part => part.bp.asizeAt d).sum + 2 ^ 24 * parts.length ≤
      2 ^ 24 * (2 * ((parts.flatMap Part.data).length / spaMinBlockSize)) := by
  induction parts with
  | nil => simp
  | cons part parts ih =>
    rw [forall_mem_cons] at sectors bounds
    have rest := ih sectors.2 bounds.2
    rw [flatMap_cons, length_append, Nat.add_div_of_dvd_right sectors.1, map_cons, sum_cons, length_cons]
    linarith

theorem two_le_length (positive : 0 < whole)
    (covers : (parts.flatMap Part.data).length = whole) (shorter : ∀ part ∈ parts, part.data.length < whole) :
    2 ≤ parts.length := by
  match parts with
  | [] => simp at covers; omega
  | [part] =>
    have := shorter part mem_cons_self
    simp at covers
    omega
  | _ :: _ :: _ => simp

/-! ## Writes -/

theorem isGang_eq (copies : bp.blkDva ≠ []) (all : ∀ dva ∈ bp.blkDva, dva.dvaGang = gang) : bp.isGang = gang := by
  unfold Blkptr.isGang
  cases list : bp.blkDva with
  | nil => exact absurd list copies
  | cons dva rest => exact all dva (list ▸ mem_cons_self)

/-- The `asize` of a header, and that the DVA has it. -/
theorem Pool.Honest.header (honest : pool.Honest) (vdev : ℕ) :
    spaMinBlockSize ∣ pool.vdevPsizeToAsize vdev spaGangBlockSize ∧
      pool.vdevPsizeToAsize vdev spaGangBlockSize ≤ 2 ^ 24 ∧
      Alloc.sectorField 24 (pool.vdevPsizeToAsize vdev spaGangBlockSize) = pool.vdevPsizeToAsize vdev spaGangBlockSize := by
  obtain ⟨sectors, bound⟩ := honest.asize vdev spaGangBlockSize (by decide) (by decide)
  exact ⟨sectors, bound, honest.sectorField (by decide) (by decide)⟩

theorem SoundAll.total (all : SoundAll pool start members parts) (covers : parts.flatMap Part.data = data) (d : ℕ) :
    (parts.map fun part => part.bp.asizeAt d).sum + 2 ^ 24 * parts.length ≤
      2 ^ 24 * (2 * (data.length / spaMinBlockSize)) :=
  covers ▸ sum_asizeAt_le (fun part member => (all.pieces part member).1)
    fun part member => (all.asize part member d).2

theorem gangBlock_dvas (honest : pool.Honest) {start places members parts}
    (all : SoundAll pool start members parts) (covers : parts.flatMap Part.data = data) (several : 2 ≤ parts.length)
    (small : data.length ≤ spaMaxBlockSize) :
    (gangBlock pool args data.length places members).bp.blkDva = places.mapIdx fun d place =>
      ⟨place.1, place.2, pool.vdevPsizeToAsize place.1 spaGangBlockSize +
        (parts.map fun part => part.bp.asizeAt d).sum, true⟩ := by
  have sum : ∀ d, ((pool.order members.gbps).map fun child => child.asizeAt d).sum =
      (parts.map fun part => part.bp.asizeAt d).sum := by
    intro d
    rw [((honest.order members.gbps).map fun child => child.asizeAt d).sum_eq, all.gbps, List.map_map]
    rfl
  unfold gangBlock
  rw [foldl_gangMemberDone]
  · refine ext_getElem? fun d => ?_
    rw [getElem?_mapIdx, getElem?_mapIdx, getElem?_map, sum d]
    cases places[d]? with
    | none => rfl
    | some place => simp [dvaAt, (honest.header place.1).2.2]
  · intro d dva found
    rw [getElem?_map, map_eq_some_iff] at found
    obtain ⟨place, -, rfl⟩ := found
    have sectorsAt : ∀ child ∈ pool.order members.gbps, spaMinBlockSize ∣ child.asizeAt d := by
      intro child member
      rw [(honest.order members.gbps).mem_iff, all.gbps] at member
      obtain ⟨part, inside, rfl⟩ := mem_map.mp member
      exact (all.asize part inside d).1
    have bound := all.total covers d
    have whole : data.length / spaMinBlockSize ≤ 256 := Nat.div_le_of_le_mul small
    obtain ⟨sectors, headerBound, field⟩ := honest.header place.1
    rw [dvaAt, field, sum d]
    refine ⟨sectors, sectorsAt, ?_⟩
    dsimp only
    omega

theorem foldl_gangMemberDone_fields (children : List Blkptr) (bp) :
    (children.foldl gangMemberDone bp).blkPsize = bp.blkPsize ∧
      (children.foldl gangMemberDone bp).blkBirth = bp.blkBirth := by
  induction children generalizing bp with
  | nil => exact ⟨rfl, rfl⟩
  | cons child children ih => exact ih _

section

variable (honest : pool.Honest) (valid : args.Valid)

include honest valid

theorem gangBlock_sound (start_le : start ≤ call)
    (alloc : pool.metaslabAlloc call spaGangBlockSize (min (args.ioNdvas + 1) pool.spaMaxReplication) = some places)
    (all : SoundAll pool (call + 1) members parts) (covers : parts.flatMap Part.data = data)
    (few : parts.length ≤ spaGbhNblkptrs) (shorter : ∀ part ∈ parts, part.data.length < data.length)
    (positive : 0 < data.length) (small : data.length ≤ spaMaxBlockSize) :
    Sound pool start data (gangBlock pool args data.length places members) ∧
      (gangBlock pool args data.length places members).bp.isGang = true := by
  have copies : places ≠ [] := by
    rintro rfl
    have := honest.count alloc
    have := honest.replication
    rw [length_nil] at *
    omega
  have several := two_le_length positive (congrArg length covers) shorter
  have dvas := @gangBlock_dvas pool args data honest (call + 1) places members parts all covers several small
  have own : ∀ dva ∈ (gangBlock pool args data.length places members).bp.blkDva,
      dva.dvaGang = true ∧ place dva ∈ places := by
    intro dva member
    rw [dvas, mem_mapIdx] at member
    obtain ⟨d, inside, rfl⟩ := member
    exact ⟨rfl, getElem_mem inside⟩
  have notEmpty : (gangBlock pool args data.length places members).bp.blkDva ≠ [] := by
    rw [dvas]
    simpa using copies
  have givenHere : ∀ place ∈ places, FromCalls pool start (call + 1) place :=
    fun place member => ⟨call, _, _, places, start_le, lt_succ_self _, alloc, member⟩
  have placesOf : (gangBlock pool args data.length places members).allocs.map Extent.place =
      places ++ members.allocs.map Extent.place := by
    simp [gangBlock, extentAt, Function.comp_def]
  refine ⟨⟨fun disk agrees => ?_, ?_, ?_, fun extent member => ?_, ?_, fun d => ?_⟩,
    isGang_eq notEmpty fun dva member => (own dva member).1⟩
  · have same : (gangBlock pool args data.length places members).allocs =
        (gangBlock pool args data.length places members).bp.blkDva.map
          (fun dva => ⟨place dva, pool.vdevPsizeToAsize dva.dvaVdev spaGangBlockSize⟩) ++ parts.flatMap Part.allocs := by
      rw [dvas, ← all.allocs]
      refine congrArg (· ++ members.allocs) (ext_getElem? fun d => ?_)
      rw [getElem?_map, getElem?_map, getElem?_mapIdx]
      cases places[d]? <;> rfl
    rw [same]
    subst covers
    refine .gang notEmpty ?_ (foldl_gangMemberDone_fields _ _).1 few all.pieces
      (fun dva member => ⟨(own dva member).1, ?_⟩) ?_ ?_
    · rw [gangBlock, (foldl_gangMemberDone_fields _ _).2]
      exact valid.txg
    · rw [← all.gbps]
      exact agrees (place dva, gangHeader members.gbps)
        (mem_append_left _ (mem_map.mpr ⟨place dva, (own dva member).2, rfl⟩))
    · intro d dva found
      rw [dvas, getElem?_mapIdx, map_eq_some_iff] at found
      obtain ⟨place, -, rfl⟩ := found
      rfl
    · exact all.holds disk fun write member => agrees write (mem_append_right _ member)
  · rw [placesOf, ← all.places]
    simp [gangBlock, Function.comp_def]
  · have := all.start_le
    simp only [gangBlock]
    omega
  · rcases mem_append.mp member with first | later
    · obtain ⟨place, inside, rfl⟩ := mem_map.mp first
      exact (givenHere place inside).mono le_rfl all.start_le
    · exact (all.given extent later).mono (by omega) le_rfl
  · rw [placesOf]
    refine Nodup.append (honest.nodup alloc) all.nodup fun place first later => ?_
    obtain ⟨extent, inside, rfl⟩ := mem_map.mp later
    exact (givenHere _ first).ne honest (all.given extent inside) rfl
  · -- two members leave room for the header
    have bound := all.total covers d
    rw [Blkptr.asizeAt, dvas, getElem?_mapIdx]
    cases places[d]? with
    | none => exact ⟨dvd_zero _, by simp only [map_none, elim_none]; omega⟩
    | some place =>
      obtain ⟨sectors, le, -⟩ := honest.header place.1
      simp only [map_some, elim_some]
      refine ⟨dvd_add sectors (dvd_sum fun x member => ?_), by omega⟩
      obtain ⟨part, inside, rfl⟩ := mem_map.mp member
      exact (all.asize part inside d).1

theorem zioWriteAllocateGangMembers_spec (start_le : start ≤ call)
    (sectors : spaMinBlockSize ∣ data.length) (large : spaMinBlockSize < data.length) (small : data.length ≤ spaMaxBlockSize)
    (children : ∀ call piece, spaMinBlockSize ∣ piece.length → spaMinBlockSize < piece.length → piece.length < data.length →
      ∃ outcome, writeAllocate call piece = some outcome ∧ ∀ block, outcome = .done block → Sound pool call piece block) :
    ∃ outcome, zioWriteAllocateGangMembers pool args writeAllocate call data = some outcome ∧
      ∀ block, outcome = .done block → Sound pool start data block ∧ block.bp.isGang = true := by
  unfold zioWriteAllocateGangMembers
  split
  · exact ⟨_, rfl, by simp⟩
  · rename_i places alloc
    have positive : 0 < spaMinBlockSize := by decide
    obtain ⟨maxSectors, maxPositive, maxLess⟩ := roundUp_half sectors large.ne' (positive.trans large)
    have noBang : ¬(roundUp (data.length / 2) spaMinBlockSize ≥ zioGangBang ∧ pool.lbolt call % 2 = 0) := by
      unfold zioGangBang
      omega
    dsimp only
    rw [if_neg noBang]
    obtain ⟨outcome, result, covered⟩ := @gangMembers_spec pool args honest valid data.length small writeAllocate children
      spaGbhNblkptrs data (roundUp (data.length / 2) spaMinBlockSize) (call + 1) (by decide) sectors (fun none => absurd none (by decide))
      (.inr ⟨rfl, by decide⟩) maxSectors maxPositive maxLess
    rw [result]
    cases outcome with
    | panic => exact ⟨_, rfl, by simp⟩
    | done members =>
      obtain ⟨parts, all, covers, few, shorter⟩ := covered
      refine ⟨_, rfl, ?_⟩
      rintro block ⟨⟩
      exact gangBlock_sound honest valid start_le alloc all covers few shorter (by omega) small

theorem zioDvaAllocate_spec {fuel call} {data}
    (sectors : spaMinBlockSize ∣ data.length) (positive : 0 < data.length) (small : data.length ≤ spaMaxBlockSize)
    (enough : data.length ≤ fuel) :
    ∃ outcome, zioDvaAllocate pool args fuel call data = some outcome ∧
      ∀ block, outcome = .done block → Sound pool call data block := by
  induction fuel generalizing call data with
  | zero => omega
  | succ fuel ih =>
    rw [zioDvaAllocate]
    have noBang : ¬(data.length ≥ zioGangBang ∧ pool.lbolt call % 4 = 0) := by
      unfold zioGangBang
      omega
    rw [if_neg noBang]
    split
    · rename_i places alloc
      refine ⟨_, rfl, ?_⟩
      rintro block ⟨⟩
      exact wholeBlock_sound honest valid le_rfl alloc sectors positive small
    · split
      · exact ⟨_, rfl, by simp⟩
      · rename_i notOne
        have atLeast := le_of_dvd positive sectors
        obtain ⟨outcome, result, sound⟩ := zioWriteAllocateGangMembers_spec honest valid
          (le_succ call) sectors (lt_of_le_of_ne atLeast (Ne.symm notOne)) small
          fun call piece sectors large less => @ih call piece sectors (by omega) (by omega) (by omega)
        exact ⟨outcome, result, fun block isDone => (sound block isDone).1⟩

end

/-! ## Reads and frees -/

def Picks (pick : List Dva → Option Dva) : Prop := ∀ dvas, dvas ≠ [] → ∃ dva ∈ dvas, pick dvas = some dva

theorem Holds.psize (holds : Holds pool disk bp data allocs) : bp.blkPsize = data.length := by
  cases holds with
  | block _ _ size => exact size
  | gang _ _ size => exact size

theorem Holds.born (holds : Holds pool disk bp data allocs) : bp.isHole = false := by
  cases holds with
  | block _ born => simpa [Blkptr.isHole] using born
  | gang _ born => simpa [Blkptr.isHole] using born

variable {pick : List Dva → Option Dva}

theorem readCopy_eq (picks : Picks pick)
    (copies : bp.blkDva ≠ []) (stored : ∀ dva ∈ bp.blkDva, disk (place dva) = some content) :
    readCopy disk pick bp = some content := by
  obtain ⟨dva, member, picked⟩ := picks bp.blkDva copies
  rw [readCopy, picked, bind_some, stored dva member]

theorem exists_bound {good : ℕ → Part → Prop}
    (each : ∀ part ∈ parts, ∃ bound, ∀ fuel, bound ≤ fuel → good fuel part) :
    ∃ bound, ∀ fuel, bound ≤ fuel → ∀ part ∈ parts, good fuel part := by
  induction parts with
  | nil => exact ⟨0, by simp⟩
  | cons part parts ih =>
    rw [forall_mem_cons] at each
    obtain ⟨first, isFirst⟩ := each.1
    obtain ⟨rest, isRest⟩ := ih each.2
    refine ⟨max first rest, fun fuel enough => List.forall_mem_cons.mpr ⟨isFirst fuel (by omega), isRest fuel (by omega)⟩⟩

theorem readGangMembers_eq {read} (holes : List Blkptr)
    (each : ∀ part ∈ parts, part.bp.blkPsize = part.data.length ∧ 0 < part.data.length ∧ read part.bp = some part.data) :
    readGangMembers read (parts.map Part.bp ++ holes) (parts.flatMap Part.data).length =
      some (parts.flatMap Part.data) := by
  induction parts with
  | nil => cases holes <;> simp [readGangMembers]
  | cons part parts ih =>
    rw [forall_mem_cons] at each
    obtain ⟨⟨size, positive, isRead⟩, rest⟩ := each
    rw [map_cons, cons_append, readGangMembers, flatMap_cons, length_append, if_neg (by omega),
      if_neg (by omega), isRead, size, Nat.add_sub_cancel_left, ih rest]
    rfl

theorem Holds.read (picks : Picks pick) {allocs : List Extent} (holds : Holds pool disk bp data allocs) :
    ∃ bound, ∀ fuel, bound ≤ fuel → zioRead disk pick fuel bp = some data := by
  induction holds with
  | @block bp data copies born size stored =>
    refine ⟨1, fun fuel enough => ?_⟩
    obtain ⟨fuel, rfl⟩ := Nat.exists_eq_add_of_le' enough
    rw [zioRead, readCopy_eq picks copies fun dva member => (stored dva member).2,
      isGang_eq copies fun dva member => (stored dva member).1]
    rfl
  | @gang bp parts copies born size few pieces stored asize each ih =>
    obtain ⟨bound, enough⟩ := exists_bound ih
    refine ⟨bound + 1, fun fuel le => ?_⟩
    obtain ⟨fuel, rfl⟩ := Nat.exists_eq_add_of_le' (Nat.le_of_add_left_le le)
    rw [zioRead, readCopy_eq picks copies fun dva member => (stored dva member).2,
      isGang_eq copies fun dva member => (stored dva member).1, gangHeader]
    dsimp only
    rw [if_pos rfl, size]
    exact readGangMembers_eq _ fun part member =>
      ⟨(each part member).psize, (pieces part member).2, enough fuel (by omega) part member⟩

theorem freeGangMembers_eq {free : Blkptr → Option (List Extent)} {parts : List Part} (holes : ℕ)
    (each : ∀ part ∈ parts, part.bp.isHole = false ∧ ∃ freed, free part.bp = some freed ∧ freed.Perm part.allocs) :
    ∃ freed, freeGangMembers free (parts.map Part.bp ++ List.replicate holes .hole) = some freed ∧
      freed.Perm (parts.flatMap Part.allocs) := by
  induction parts with
  | nil =>
    refine ⟨[], ?_, List.Perm.refl _⟩
    rw [map_nil, nil_append]
    induction holes with
    | zero => rfl
    | succ holes ih => rwa [replicate_succ, freeGangMembers, if_pos (by rfl)]
  | cons part parts ih =>
    rw [forall_mem_cons] at each
    obtain ⟨⟨born, freed, isFreed, perm⟩, rest⟩ := each
    obtain ⟨others, isOthers, perm'⟩ := ih rest
    refine ⟨freed ++ others, ?_, perm.append perm'⟩
    rw [map_cons, cons_append, freeGangMembers, born, isFreed, isOthers]
    rfl

theorem Holds.free (picks : Picks pick) {allocs : List Extent} (holds : Holds pool disk bp data allocs) :
    ∃ bound, ∀ fuel, bound ≤ fuel → ∃ freed, zioFree pool disk pick fuel bp = some freed ∧ freed.Perm allocs := by
  induction holds with
  | @block bp data copies born size stored =>
    refine ⟨1, fun fuel enough => ?_⟩
    obtain ⟨fuel, rfl⟩ := Nat.exists_eq_add_of_le' enough
    refine ⟨_, by rw [zioFree, isGang_eq copies fun dva member => (stored dva member).1]; rfl, ?_⟩
    refine List.Perm.of_eq (map_congr_left fun dva member => ?_)
    rw [(stored dva member).1]
    rfl
  | @gang bp parts copies born size few pieces stored asize each ih =>
    obtain ⟨bound, enough⟩ := exists_bound ih
    refine ⟨bound + 1, fun fuel le => ?_⟩
    obtain ⟨fuel, rfl⟩ := Nat.exists_eq_add_of_le' (Nat.le_of_add_left_le le)
    obtain ⟨freed, isFreed, perm⟩ := @freeGangMembers_eq (zioFree pool disk pick fuel) parts
      (spaGbhNblkptrs - (parts.map Part.bp).length) fun part member =>
        ⟨(each part member).born, enough fuel (by omega) part member⟩
    refine ⟨freed ++ metaslabFree pool bp, ?_, (perm.append_right _).trans (List.perm_append_comm.trans ?_)⟩
    · rw [zioFree, isGang_eq copies fun dva member => (stored dva member).1,
        readCopy_eq picks copies fun dva member => (stored dva member).2, gangHeader]
      simp only [if_true, isFreed, map_some]
    · refine List.Perm.append_right _ (List.Perm.of_eq (map_congr_left fun dva member => ?_))
      rw [(stored dva member).1]
      rfl

/-- For a write of more than one sector and at most 128K, whatever the allocator answers: gang
    allocation ends, in a panic or with a block that holds the data in order in members of at most
    three to a header, whose sizes add up. It reads back as it was written, and what is freed is what
    was allocated, each place once. -/
theorem gang_round_trip (honest : pool.Honest) (valid : args.Valid) (sectors : spaMinBlockSize ∣ data.length)
    (large : spaMinBlockSize < data.length) (small : data.length ≤ spaMaxBlockSize) (call : ℕ) {fuel : ℕ}
    (enough : data.length ≤ fuel) :
    zioWriteAllocateGangMembers pool args (zioDvaAllocate pool args fuel) call data = some .panic ∨
      ∃ block, zioWriteAllocateGangMembers pool args (zioDvaAllocate pool args fuel) call data = some (.done block) ∧
        block.bp.isGang = true ∧ (block.writes.map Prod.fst).Nodup ∧ (block.allocs.map Extent.place).Nodup ∧
        ∀ disk, Agrees disk block.writes → Holds pool disk block.bp data block.allocs ∧
          ∀ pick, Picks pick → ∃ bound, ∀ fuel, bound ≤ fuel →
            zioRead disk pick fuel block.bp = some data ∧
            ∃ freed, zioFree pool disk pick fuel block.bp = some freed ∧ freed.Perm block.allocs := by
  obtain ⟨outcome, result, sound⟩ := zioWriteAllocateGangMembers_spec honest valid le_rfl sectors large small
    fun call piece sectors large less => @zioDvaAllocate_spec pool args honest valid fuel call piece sectors
      (by omega) (by omega) (by omega)
  cases outcome with
  | panic => exact .inl result
  | done block =>
    obtain ⟨sound, isGang⟩ := sound block rfl
    refine .inr ⟨block, result, isGang, sound.places ▸ sound.nodup, sound.nodup, fun disk agrees => ?_⟩
    have holds := sound.holds disk agrees
    refine ⟨holds, fun pick picks => ?_⟩
    obtain ⟨readBound, reads⟩ := holds.read picks
    obtain ⟨freeBound, frees⟩ := holds.free picks
    exact ⟨max readBound freeBound, fun fuel le => ⟨reads fuel (by omega), frees fuel (by omega)⟩⟩

/-- A pool that has only single sectors left: copy `i` of a block is on vdev `i`. -/
def fragmented : Pool where
  metaslabAlloc call psize ndvas := if psize ≤ 512 then some ((List.range ndvas).map fun i => (i, call)) else none
  vdevPsizeToAsize _ psize := roundUp psize 512
  spaMaxReplication := 3
  lbolt _ := 0
  order gbps := gbps

theorem fragmented_alloc (alloc : fragmented.metaslabAlloc call psize ndvas = some places) :
    places = (List.range ndvas).map fun i => (i, call) := by
  simp only [fragmented] at alloc
  split at alloc
  · exact (Option.some.inj alloc).symm
  · cases alloc

theorem fragmented_honest : fragmented.Honest where
  count alloc := by simp [fragmented_alloc alloc]
  nodup alloc := by
    rw [fragmented_alloc alloc]
    exact nodup_range.map fun i j same => (Prod.mk.inj same).1
  apart different alloc alloc' place first second := by
    rw [fragmented_alloc alloc] at first
    rw [fragmented_alloc alloc'] at second
    obtain ⟨i, -, rfl⟩ := mem_map.mp first
    obtain ⟨j, -, same⟩ := mem_map.mp second
    exact different (Prod.mk.inj same).2.symm
  asize vdev psize positive small := by
    have atMost := @roundUp_le psize 512 (2 ^ 17) (by decide) (by decide) small
    exact ⟨dvd_roundUp psize 512, by simp only [fragmented]; omega⟩
  order gbps := Perm.refl _
  replication := by decide

/-! Such a pool always finds a sector, so that no write ends in a panic. -/

theorem fragmented_allocMember {args gbpsLeft resid} (tries) : ∀ maxalloc call,
    allocMember fragmented args gbpsLeft resid tries maxalloc call ≠ some .panic := by
  induction tries with
  | zero => simp [allocMember]
  | succ tries ih =>
    intro maxalloc call
    rw [allocMember]
    split
    · split
      · simp
      · rename_i full
        have large : maxalloc ≠ spaMinBlockSize := by
          rintro rfl
          cases full
        rw [if_neg large]
        exact ih _ _
    · simp

theorem cons_ne_panic {member : Written} {rest : Option (Outcome Members)} (works : rest ≠ some .panic) :
    rest.map (Outcome.cons member) ≠ some .panic := by
  rcases rest with _ | _ | _
  · simp
  · exact absurd rfl works
  · simp [Outcome.cons]

theorem fragmented_gangMembers {args writeAllocate} (pieces : ∀ call data, writeAllocate call data ≠ some .panic)
    (gbpsLeft) : ∀ data maxalloc call, gangMembers fragmented args writeAllocate gbpsLeft data maxalloc call ≠ some .panic := by
  induction gbpsLeft with
  | zero =>
    intro data maxalloc call
    rw [gangMembers]
    split <;> simp
  | succ gbpsLeft ih =>
    intro data maxalloc call
    rw [gangMembers]
    split
    · simp
    · dsimp only
      split
      · simp
      · exact absurd ‹_› (fragmented_allocMember _ _ _)
      · exact cons_ne_panic (ih _ _ _)
      · split
        · simp
        · exact absurd ‹_› (pieces _ _)
        · exact cons_ne_panic (ih _ _ _)

theorem fragmented_gang {args writeAllocate} (pieces : ∀ call data, writeAllocate call data ≠ some .panic) (call data) :
    zioWriteAllocateGangMembers fragmented args writeAllocate call data ≠ some .panic := by
  rw [zioWriteAllocateGangMembers]
  split
  · rename_i full
    cases full
  · dsimp only
    split
    · simp
    · exact absurd ‹_› (fragmented_gangMembers pieces _ _ _ _)
    · simp

theorem fragmented_works {args} (fuel) : ∀ call data, zioDvaAllocate fragmented args fuel call data ≠ some .panic := by
  induction fuel with
  | zero => simp [zioDvaAllocate]
  | succ fuel ih =>
    intro call data
    rw [zioDvaAllocate]
    split
    · exact fragmented_gang ih _ _
    · split
      · simp
      · rename_i full
        have large : data.length ≠ spaMinBlockSize := by
          intro sector
          rw [sector] at full
          cases full
        rw [if_neg large]
        exact fragmented_gang ih _ _

def fiveSectors : List UInt8 := List.replicate 2560 7

theorem fiveSectors_length : fiveSectors.length = 2560 := length_replicate

/-- Five sectors are more than the members of a header, so that members have headers of their own. -/
theorem gang_round_trip_fragmented :
    ∃ block, zioWriteAllocateGangMembers fragmented ⟨1, 4⟩ (zioDvaAllocate fragmented ⟨1, 4⟩ 2560) 0 fiveSectors =
        some (.done block) ∧
      block.bp.isGang = true ∧ (block.writes.map Prod.fst).Nodup ∧ (block.allocs.map Extent.place).Nodup ∧
      ∀ disk, Agrees disk block.writes → Holds fragmented disk block.bp fiveSectors block.allocs ∧
        ∀ pick, Picks pick → ∃ bound, ∀ fuel, bound ≤ fuel →
          zioRead disk pick fuel block.bp = some fiveSectors ∧
          ∃ freed, zioFree fragmented disk pick fuel block.bp = some freed ∧ freed.Perm block.allocs :=
  (gang_round_trip fragmented_honest ⟨by decide, by decide⟩ (fiveSectors_length ▸ by decide)
    (fiveSectors_length ▸ by decide) (fiveSectors_length ▸ by decide) 0 (fiveSectors_length ▸ le_rfl)).resolve_left
      (fragmented_gang (fragmented_works _) _ _)

end MacZfs.Gang
