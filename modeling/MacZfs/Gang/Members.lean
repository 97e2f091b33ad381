import MacZfs.Gang.Basic

/-!
# The members of a gang block

Up to three members cover the data in order, and each is smaller than the whole. This is proved for
the loop with an arbitrary way to write a piece as a block of its own, as long as that does right by
pieces smaller than the whole.
-/

namespace MacZfs.Gang

open Alignment Alloc List Nat

variable {pool : Pool} {args : WriteArgs} {disk : Disk} {data : List UInt8}

/-! ## What a block is -/

structure Part where
  bp : Blkptr
  data : List UInt8
  allocs : List Extent

/-- The block pointer leads to the data, in one piece or through the headers of gang blocks, and the
    space belongs to it. The `asize` of a gang block is that of the header and of all its members. -/
inductive Holds (pool : Pool) (disk : Disk) : Blkptr → List UInt8 → List Extent → Prop
  | block {bp : Blkptr} {data : List UInt8} (copies : bp.blkDva ≠ []) (born : bp.blkBirth ≠ 0)
      (size : bp.blkPsize = data.length)
      (stored : ∀ dva ∈ bp.blkDva, dva.dvaGang = false ∧ disk (place dva) = some (.data data)) :
      Holds pool disk bp data (bp.blkDva.map fun dva => ⟨place dva, dva.dvaAsize⟩)
  | gang {bp : Blkptr} {parts : List Part} (copies : bp.blkDva ≠ []) (born : bp.blkBirth ≠ 0)
      (size : bp.blkPsize = (parts.flatMap Part.data).length) (few : parts.length ≤ spaGbhNblkptrs)
      (pieces : ∀ part ∈ parts, spaMinBlockSize ∣ part.data.length ∧ 0 < part.data.length)
      (stored : ∀ dva ∈ bp.blkDva, dva.dvaGang = true ∧ disk (place dva) = some (gangHeader (parts.map Part.bp)))
      (asize : ∀ d dva, bp.blkDva[d]? = some dva → dva.dvaAsize =
        pool.vdevPsizeToAsize dva.dvaVdev spaGangBlockSize + (parts.map fun part => part.bp.asizeAt d).sum)
      (each : ∀ part ∈ parts, Holds pool disk part.bp part.data part.allocs) :
      Holds pool disk bp (parts.flatMap Part.data)
        (bp.blkDva.map (fun dva => ⟨place dva, pool.vdevPsizeToAsize dva.dvaVdev spaGangBlockSize⟩) ++
          parts.flatMap Part.allocs)

/-! ## The allocator -/

/-- What is asked of the allocator: it gives as many places as were asked for, no place twice, and
    for a block of up to 128K at most 16M in whole sectors. Members complete in some order. -/
structure Pool.Honest (pool : Pool) : Prop where
  count : ∀ {call psize ndvas places}, pool.metaslabAlloc call psize ndvas = some places → places.length = ndvas
  nodup : ∀ {call psize ndvas places}, pool.metaslabAlloc call psize ndvas = some places → places.Nodup
  apart : ∀ {call psize ndvas places call' psize' ndvas' places'}, call ≠ call' →
    pool.metaslabAlloc call psize ndvas = some places → pool.metaslabAlloc call' psize' ndvas' = some places' →
    places.Disjoint places'
  asize : ∀ vdev psize, 0 < psize → psize ≤ spaMaxBlockSize →
    spaMinBlockSize ∣ pool.vdevPsizeToAsize vdev psize ∧ pool.vdevPsizeToAsize vdev psize ≤ 2 ^ 24
  order : ∀ gbps, (pool.order gbps).Perm gbps
  replication : 0 < pool.spaMaxReplication

structure WriteArgs.Valid (args : WriteArgs) : Prop where
  copies : 0 < args.ioNdvas
  txg : args.ioTxg ≠ 0

def FromCalls (pool : Pool) (start stop : ℕ) (place : Place) : Prop :=
  ∃ call psize ndvas places, start ≤ call ∧ call < stop ∧ pool.metaslabAlloc call psize ndvas = some places ∧
    place ∈ places

theorem FromCalls.mono {start stop start' stop' place} (given : FromCalls pool start stop place)
    (lower : start' ≤ start) (upper : stop ≤ stop') : FromCalls pool start' stop' place := by
  obtain ⟨call, psize, ndvas, places, low, high, rest⟩ := given
  exact ⟨call, psize, ndvas, places, lower.trans low, high.trans_le upper, rest⟩

theorem FromCalls.ne (honest : pool.Honest) {start mid stop place place'}
    (given : FromCalls pool start mid place) (given' : FromCalls pool mid stop place') : place ≠ place' := by
  obtain ⟨call, psize, ndvas, places, low, high, alloc, member⟩ := given
  obtain ⟨call', psize', ndvas', places', low', high', alloc', member'⟩ := given'
  rintro rfl
  exact honest.apart (by omega) alloc alloc' member member'

def Agrees (disk : Disk) (writes : List (Place × Block)) : Prop := ∀ write ∈ writes, disk write.1 = some write.2

/-- What is known of a block that was written: its places are new, and its `asize` stays well below
    what fits into a DVA. -/
structure Sound (pool : Pool) (start : ℕ) (data : List UInt8) (block : Written) : Prop where
  holds : ∀ disk, Agrees disk block.writes → Holds pool disk block.bp data block.allocs
  places : block.writes.map Prod.fst = block.allocs.map Extent.place
  start_le : start ≤ block.call
  given : ∀ extent ∈ block.allocs, FromCalls pool start block.call extent.place
  nodup : (block.allocs.map Extent.place).Nodup
  asize : ∀ d, spaMinBlockSize ∣ block.bp.asizeAt d ∧
    block.bp.asizeAt d + 2 ^ 24 ≤ 2 ^ 24 * (2 * (data.length / spaMinBlockSize))

structure SoundAll (pool : Pool) (start : ℕ) (members : Members) (parts : List Part) : Prop where
  gbps : members.gbps = parts.map Part.bp
  allocs : members.allocs = parts.flatMap Part.allocs
  holds : ∀ disk, Agrees disk members.writes → ∀ part ∈ parts, Holds pool disk part.bp part.data part.allocs
  pieces : ∀ part ∈ parts, spaMinBlockSize ∣ part.data.length ∧ 0 < part.data.length
  places : members.writes.map Prod.fst = members.allocs.map Extent.place
  start_le : start ≤ members.call
  given : ∀ extent ∈ members.allocs, FromCalls pool start members.call extent.place
  nodup : (members.allocs.map Extent.place).Nodup
  asize : ∀ part ∈ parts, ∀ d, spaMinBlockSize ∣ part.bp.asizeAt d ∧
    part.bp.asizeAt d + 2 ^ 24 ≤ 2 ^ 24 * (2 * (part.data.length / spaMinBlockSize))

/-! ## Sizes -/

theorem sectorField_eq (sectors : spaMinBlockSize ∣ x) (fits : x < 2 ^ 33) : sectorField 24 x = x := by
  obtain ⟨n, rfl⟩ := sectors
  simp only [spaMinBlockSize] at fits ⊢
  have : (512 * n) >>> 9 = n := by
    omega
  rw [sectorField, this, mod_eq_of_lt (by omega), shiftLeft_eq, u64, mod_eq_of_lt (by omega)]
  omega

theorem roundUp_half (sectors : spaMinBlockSize ∣ x) (large : x ≠ spaMinBlockSize) (positive : 0 < x) :
    spaMinBlockSize ∣ roundUp (x / 2) spaMinBlockSize ∧ 0 < roundUp (x / 2) spaMinBlockSize ∧
      roundUp (x / 2) spaMinBlockSize < x := by
  obtain ⟨n, rfl⟩ := sectors
  simp only [roundUp, spaMinBlockSize] at large positive ⊢
  omega

theorem roundUp_share {resid left maxalloc} (sectors : spaMinBlockSize ∣ resid) (positive : 0 < left) (few : left ≤ 3)
    (atLeast : spaMinBlockSize ≤ maxalloc) (tooMuch : maxalloc * left < resid) :
    spaMinBlockSize ∣ roundUp (resid / left) spaMinBlockSize ∧ spaMinBlockSize < roundUp (resid / left) spaMinBlockSize ∧
      roundUp (resid / left) spaMinBlockSize ≤ resid ∧ (2 ≤ left → roundUp (resid / left) spaMinBlockSize < resid) ∧
      (left = 1 → roundUp (resid / left) spaMinBlockSize = resid) := by
  obtain ⟨n, rfl⟩ := sectors
  simp only [roundUp, spaMinBlockSize] at atLeast tooMuch ⊢
  interval_cases left <;> omega

/-- The inner loop ends. A member that was allocated is as large as it has to be, and a piece for
    which it was not is too large for members of the size that has come out. -/
theorem allocMember_spec {gbpsLeft resid} (tries : ℕ) {maxalloc call} (sectors : spaMinBlockSize ∣ maxalloc)
    (positive : 0 < maxalloc) (enough : maxalloc < tries) :
    ∃ choice, allocMember pool args gbpsLeft resid tries maxalloc call = some choice ∧
      match choice with
      | .panic => True
      | .direct places lsize call' => spaMinBlockSize ∣ lsize ∧ 0 < lsize ∧ lsize ≤ maxalloc ∧ resid ≤ lsize * gbpsLeft ∧
          ∃ last, call ≤ last ∧ call' = last + 1 ∧ pool.metaslabAlloc last lsize args.ioNdvas = some places
      | .nested maxalloc' call' => spaMinBlockSize ∣ maxalloc' ∧ 0 < maxalloc' ∧ maxalloc' ≤ maxalloc ∧
          maxalloc' * gbpsLeft < resid ∧ call ≤ call' := by
  induction tries generalizing maxalloc call with
  | zero => omega
  | succ tries ih =>
    rw [allocMember]
    split
    · rename_i fits
      cases answer : pool.metaslabAlloc call maxalloc args.ioNdvas with
      | some places => exact ⟨_, rfl, sectors, positive, le_rfl, fits, call, le_rfl, rfl, answer⟩
      | none =>
        dsimp only
        split
        · exact ⟨_, rfl, trivial⟩
        · rename_i large
          obtain ⟨sectors', positive', less⟩ := roundUp_half sectors large positive
          obtain ⟨choice, result, spec⟩ := @ih (roundUp (maxalloc / 2) spaMinBlockSize) (call + 1) sectors' positive' (by omega)
          refine ⟨choice, result, ?_⟩
          cases choice with
          | panic => trivial
          | direct places lsize call' =>
            obtain ⟨h₁, h₂, h₃, h₄, last, h₅, h₆, h₇⟩ := spec
            exact ⟨h₁, h₂, by omega, h₄, last, by omega, h₆, h₇⟩
          | nested maxalloc' call' =>
            obtain ⟨h₁, h₂, h₃, h₄, h₅⟩ := spec
            exact ⟨h₁, h₂, by omega, h₄, by omega⟩
    · rename_i tooMuch
      exact ⟨_, rfl, sectors, positive, le_rfl, by omega, le_rfl⟩

/-! ## Whole blocks -/

theorem asizeAt_map (places : List Place) (psize size txg d : ℕ) (gang : Bool) :
    Blkptr.asizeAt ⟨places.map (dvaAt pool psize gang), size, txg⟩ d =
      (places[d]?).elim 0 fun place => sectorField 24 (pool.vdevPsizeToAsize place.1 psize) := by
  unfold Blkptr.asizeAt
  rw [getElem?_map]
  cases places[d]? <;> rfl

/-- The `asize` of a block of this size, as the DVA has it. -/
theorem Pool.Honest.sectorField (honest : pool.Honest) (positive : 0 < psize) (small : psize ≤ spaMaxBlockSize) :
    Alloc.sectorField 24 (pool.vdevPsizeToAsize vdev psize) = pool.vdevPsizeToAsize vdev psize := by
  obtain ⟨sectors, bound⟩ := honest.asize vdev psize positive small
  exact sectorField_eq sectors (by omega)

theorem wholeBlock_sound (honest : pool.Honest) (valid : args.Valid) {places start call}
    (start_le : start ≤ call) (alloc : pool.metaslabAlloc call data.length args.ioNdvas = some places)
    (sectors : spaMinBlockSize ∣ data.length) (positive : 0 < data.length) (small : data.length ≤ spaMaxBlockSize) :
    Sound pool start data (wholeBlock pool args data places (call + 1)) := by
  have field : ∀ vdev, Alloc.sectorField 24 (pool.vdevPsizeToAsize vdev data.length) =
      pool.vdevPsizeToAsize vdev data.length := fun vdev => honest.sectorField positive small
  have copies : places ≠ [] := by
    rintro rfl
    have := honest.count alloc
    have := valid.copies
    simp_all
  have same : (wholeBlock pool args data places (call + 1)).allocs.map Extent.place = places := by
    simp [wholeBlock, extentAt, Function.comp_def]
  refine ⟨fun disk agrees => ?_, ?_, by simp only [wholeBlock]; omega, fun extent member => ?_, ?_, fun d => ?_⟩
  · have allocs : (wholeBlock pool args data places (call + 1)).allocs =
        (wholeBlock pool args data places (call + 1)).bp.blkDva.map fun dva => ⟨place dva, dva.dvaAsize⟩ := by
      simp [wholeBlock, extentAt, dvaAt, place, field]
    rw [allocs]
    refine .block (by simpa [wholeBlock] using copies) valid.txg rfl fun dva member => ?_
    obtain ⟨place, inside, rfl⟩ := mem_map.mp member
    exact ⟨rfl, agrees (place, .data data) (mem_map.mpr ⟨place, inside, rfl⟩)⟩
  · rw [same]
    simp [wholeBlock, Function.comp_def]
  · obtain ⟨place, inside, rfl⟩ := mem_map.mp member
    exact ⟨call, _, _, places, start_le, lt_succ_self _, alloc, inside⟩
  · rw [same]
    exact honest.nodup alloc
  · have whole : spaMinBlockSize ≤ data.length := le_of_dvd positive sectors
    have one : 1 ≤ data.length / spaMinBlockSize := div_pos whole (by decide)
    rw [wholeBlock, asizeAt_map]
    cases places[d]? with
    | none => exact ⟨dvd_zero _, by simp only [Option.elim_none]; omega⟩
    | some place =>
      obtain ⟨dvd, bound⟩ := honest.asize place.1 data.length positive small
      rw [Option.elim_some, field]
      exact ⟨dvd, by omega⟩

/-! ## The loop -/

theorem SoundAll.nil (pool) (call) : SoundAll pool call ⟨[], [], [], call⟩ [] where
  gbps := rfl
  allocs := rfl
  holds := by simp
  pieces := by simp
  places := rfl
  start_le := le_rfl
  given := by simp
  nodup := nodup_nil
  asize := by simp

theorem SoundAll.cons (honest : pool.Honest) {start member members parts}
    (sound : Sound pool start data member) (sectors : spaMinBlockSize ∣ data.length) (positive : 0 < data.length)
    (rest : SoundAll pool member.call members parts) :
    SoundAll pool start (members.cons member) (⟨member.bp, data, member.allocs⟩ :: parts) where
  gbps := by simp [Members.cons, rest.gbps]
  allocs := by simp [Members.cons, rest.allocs]
  holds disk agrees part inside := by
    rcases mem_cons.mp inside with rfl | later
    · exact sound.holds disk fun write member => agrees write (mem_append_left _ member)
    · exact rest.holds disk (fun write member => agrees write (mem_append_right _ member)) part later
  pieces part inside := by
    rcases mem_cons.mp inside with rfl | later
    · exact ⟨sectors, positive⟩
    · exact rest.pieces part later
  places := by simp [Members.cons, sound.places, rest.places]
  start_le := sound.start_le.trans rest.start_le
  given extent inside := by
    rcases mem_append.mp inside with first | later
    · exact (sound.given extent first).mono le_rfl rest.start_le
    · exact (rest.given extent later).mono sound.start_le le_rfl
  nodup := by
    rw [Members.cons, map_append]
    refine Nodup.append sound.nodup rest.nodup fun place first later => ?_
    obtain ⟨extent, inside, rfl⟩ := mem_map.mp first
    obtain ⟨extent', inside', same⟩ := mem_map.mp later
    exact (sound.given extent inside).ne honest (rest.given extent' inside') same.symm
  asize part inside := by
    rcases mem_cons.mp inside with rfl | later
    · exact sound.asize
    · exact rest.asize part later

def Covered (pool : Pool) (start whole left : ℕ) (data : List UInt8) : Outcome Members → Prop
  | .panic => True
  | .done members => ∃ parts, SoundAll pool start members parts ∧ parts.flatMap Part.data = data ∧ parts.length ≤ left ∧
      ∀ part ∈ parts, part.data.length < whole

theorem covered_cons (honest : pool.Honest) {start whole left lsize member outcome}
    (sound : Sound pool start (data.take lsize) member) (sectors : spaMinBlockSize ∣ lsize) (positive : 0 < lsize)
    (inside : lsize ≤ data.length) (less : lsize < whole)
    (rest : Covered pool member.call whole left (data.drop lsize) outcome) :
    Covered pool start whole (left + 1) data (outcome.cons member) := by
  cases outcome with
  | panic => trivial
  | done members =>
    obtain ⟨parts, all, covers, few, shorter⟩ := rest
    have length : (data.take lsize).length = lsize := by simp [inside]
    refine ⟨⟨member.bp, data.take lsize, member.allocs⟩ :: parts,
      SoundAll.cons honest sound (by rwa [length]) (by rwa [length]) all, ?_, by simpa using few, fun part isPart => ?_⟩
    · rw [flatMap_cons, covers]
      exact take_append_drop lsize data
    · rcases mem_cons.mp isPart with rfl | later
      · rwa [length]
      · exact shorter part later

/-- The loop ends, with members that cover the data. `whole` is the size of the block: pieces that are
    written as blocks of their own are smaller. -/
theorem gangMembers_spec (honest : pool.Honest) (valid : args.Valid) {whole} (small : whole ≤ spaMaxBlockSize)
    {writeAllocate}
    (children : ∀ call piece, spaMinBlockSize ∣ piece.length → spaMinBlockSize < piece.length → piece.length < whole →
      ∃ outcome, writeAllocate call piece = some outcome ∧ ∀ block, outcome = .done block → Sound pool call piece block)
    {gbpsLeft} {data} {maxalloc call} (few : gbpsLeft ≤ 3) (sectors : spaMinBlockSize ∣ data.length)
    (last : gbpsLeft = 0 → data.length = 0) (inside : data.length < whole ∨ data.length = whole ∧ 2 ≤ gbpsLeft)
    (maxSectors : spaMinBlockSize ∣ maxalloc) (maxPositive : 0 < maxalloc) (maxLess : maxalloc < whole) :
    ∃ outcome, gangMembers pool args writeAllocate gbpsLeft data maxalloc call = some outcome ∧
      Covered pool call whole gbpsLeft data outcome := by
  have empty {left call : ℕ} {data : List UInt8} (none : data.length = 0) :
      Covered pool call whole left data (.done ⟨[], [], [], call⟩) :=
    ⟨[], .nil pool call, by simpa using (length_eq_zero_iff.mp none).symm, by simp, by simp⟩
  induction gbpsLeft generalizing data maxalloc call with
  | zero => exact ⟨_, by rw [gangMembers, if_pos (last rfl)], empty (last rfl)⟩
  | succ left ih =>
    rw [gangMembers]
    split
    · rename_i none
      exact ⟨_, rfl, empty none⟩
    · rename_i some_
      have minSectors : spaMinBlockSize ∣ min maxalloc data.length := by
        rcases min_choice maxalloc data.length with eq | eq <;> rw [eq] <;> assumption
      obtain ⟨choice, result, spec⟩ := @allocMember_spec pool args (left + 1) data.length
        (min maxalloc data.length + 1) (min maxalloc data.length) call minSectors (by omega) (by omega)
      dsimp only
      rw [result]
      cases choice with
      | panic => exact ⟨_, rfl, trivial⟩
      | direct places lsize call' =>
        obtain ⟨lsizeSectors, positive, le, fits, lastCall, le', rfl, alloc⟩ := spec
        have length : (data.take lsize).length = lsize := by simp; omega
        have sound : Sound pool call (data.take lsize) (wholeBlock pool args (data.take lsize) places (lastCall + 1)) :=
          wholeBlock_sound honest valid le' (by rwa [length]) (by rwa [length]) (by rwa [length])
            (by rw [length]; omega)
        obtain ⟨outcome, rest, covered⟩ := @ih (data.drop lsize) lsize (lastCall + 1) (by omega)
          (by rw [length_drop]; exact dvd_sub sectors lsizeSectors)
          (by rintro rfl; rw [length_drop]; omega) (by rw [length_drop]; omega) lsizeSectors positive (by omega)
        simp only [rest, Option.map_some]
        exact ⟨_, rfl, covered_cons honest sound lsizeSectors positive (by omega) (by omega) covered⟩
      | nested maxalloc' call' =>
        obtain ⟨maxSectors', maxPositive', le, tooMuch, le'⟩ := spec
        obtain ⟨pieceSectors, large, atMost, less, all⟩ := roundUp_share sectors (by omega) few
          (le_of_dvd maxPositive' maxSectors') tooMuch
        generalize roundUp (data.length / (left + 1)) spaMinBlockSize = lsize at pieceSectors large atMost less all ⊢
        have length : (data.take lsize).length = lsize := by simp; omega
        have lsizeLess : lsize < whole := by omega
        obtain ⟨outcome, written, sound⟩ := children call' (data.take lsize) (by rwa [length]) (by rwa [length])
          (by rwa [length])
        simp only [written]
        cases outcome with
        | panic => exact ⟨_, rfl, trivial⟩
        | done member =>
          have sound := sound member rfl
          have positive : 0 < lsize := by omega
          obtain ⟨outcome, rest, covered⟩ := @ih (data.drop lsize) maxalloc' member.call (by omega)
            (by rw [length_drop]; exact dvd_sub sectors pieceSectors)
            (by rintro rfl; rw [length_drop]; omega) (by rw [length_drop]; omega) maxSectors' maxPositive'
            (by omega)
          simp only [rest, Option.map_some]
          refine ⟨_, rfl, covered_cons honest ?_ pieceSectors positive atMost lsizeLess covered⟩
          exact ⟨sound.holds, sound.places, le'.trans sound.start_le,
            fun extent member => (sound.given extent member).mono le' le_rfl, sound.nodup, sound.asize⟩

end MacZfs.Gang
