import MacZfs.Metaslab.Class

/-!
# Gang blocks

When no metaslab has room for a block, it is written in pieces: `zio_write_allocate_gang_members`
allocates a header of one sector with up to three block pointers, and members whose sizes go down
while the allocator fails. A piece for which no room is found becomes a block of its own, with its
own header where that is needed.

What the allocator answers is arbitrary. Its calls are numbered, in the order of the pieces; the
writes of the pieces go on at the same time, so that the answers to two calls need not have come in
that order. The order in which the members complete is arbitrary as well.
-/

namespace MacZfs.Gang

open Alignment Alloc

def spaMinBlockSize : ℕ := 512

def spaMaxBlockSize : ℕ := 2 ^ 17

def spaGangBlockSize : ℕ := spaMinBlockSize

/-- `SPA_GBH_NBLKPTRS`. -/
def spaGbhNblkptrs : ℕ := 3

/-- `zio_gang_bang`. -/
def zioGangBang : ℕ := spaMaxBlockSize + 1

/-! ## State -/

structure Blkptr where
  blkDva : List Dva
  blkPsize : ℕ
  blkBirth : ℕ
  deriving Repr, DecidableEq

def Blkptr.hole : Blkptr := ⟨[], 0, 0⟩

def Blkptr.isHole (bp : Blkptr) : Bool := bp.blkBirth = 0

/-- `BP_IS_GANG`: the first DVA tells. -/
def Blkptr.isGang (bp : Blkptr) : Bool := bp.blkDva.head?.any Dva.dvaGang

/-- `DVA_GET_ASIZE` of one of the DVAs; a DVA that is not there is zero. -/
def Blkptr.asizeAt (bp : Blkptr) (d : ℕ) : ℕ := (bp.blkDva[d]?).elim 0 Dva.dvaAsize

abbrev Place := ℕ × ℕ

def place (dva : Dva) : Place := (dva.dvaVdev, dva.dvaOffset)

inductive Block where
  | data (bytes : List UInt8)
  | header (zgBlkptr : List Blkptr)
  deriving DecidableEq

structure Extent where
  place : Place
  size : ℕ
  deriving DecidableEq

/-- The pool. `metaslabAlloc` is the answer to a call for a size and a number of copies; `none` is
    `ENOSPC`. -/
structure Pool where
  metaslabAlloc : (call psize ndvas : ℕ) → Option (List Place)
  vdevPsizeToAsize : (vdev psize : ℕ) → ℕ
  spaMaxReplication : ℕ
  lbolt : (call : ℕ) → ℕ
  order : List Blkptr → List Blkptr

structure WriteArgs where
  ioNdvas : ℕ
  ioTxg : ℕ

/-- The DVA that `metaslab_alloc_dva` sets. -/
def dvaAt (pool : Pool) (psize : ℕ) (gang : Bool) (place : Place) : Dva :=
  ⟨place.1, place.2, sectorField 24 (pool.vdevPsizeToAsize place.1 psize), gang⟩

def extentAt (pool : Pool) (psize : ℕ) (place : Place) : Extent := ⟨place, pool.vdevPsizeToAsize place.1 psize⟩

/-- The result of a write: the block pointer, what was written where, the space that was allocated,
    and the number of the next call. -/
structure Written where
  bp : Blkptr
  writes : List (Place × Block)
  allocs : List Extent
  call : ℕ

inductive Outcome (α : Type) where
  | panic
  | done (result : α)

def wholeBlock (pool : Pool) (args : WriteArgs) (data : List UInt8) (places : List Place) (call : ℕ) : Written where
  bp := ⟨places.map (dvaAt pool data.length false), data.length, args.ioTxg⟩
  writes := places.map fun place => (place, .data data)
  allocs := places.map (extentAt pool data.length)
  call := call

/-! ## Writes -/

/-- How the inner loop ends: with an allocation, or because what is left does not fit any more into
    members of this size. -/
inductive Choice where
  | panic
  | direct (places : List Place) (maxalloc call : ℕ)
  | nested (maxalloc call : ℕ)

def allocMember (pool : Pool) (args : WriteArgs) (gbpsLeft resid : ℕ) :
    (tries : ℕ) → (maxalloc call : ℕ) → Option Choice
  | 0, _, _ => none
  | tries + 1, maxalloc, call =>
    if resid ≤ maxalloc * gbpsLeft then
      match pool.metaslabAlloc call maxalloc args.ioNdvas with
      | some places => some (.direct places maxalloc (call + 1))
      | none =>
        if maxalloc = spaMinBlockSize then some .panic
        else allocMember pool args gbpsLeft resid tries (roundUp (maxalloc / 2) spaMinBlockSize) (call + 1)
    else some (.nested maxalloc call)

structure Members where
  gbps : List Blkptr
  writes : List (Place × Block)
  allocs : List Extent
  call : ℕ

def Members.cons (member : Written) (rest : Members) : Members where
  gbps := member.bp :: rest.gbps
  writes := member.writes ++ rest.writes
  allocs := member.allocs ++ rest.allocs
  call := rest.call

def Outcome.cons (member : Written) : Outcome Members → Outcome Members
  | .panic => .panic
  | .done rest => .done (rest.cons member)

/-- The loop over the members. `data` is what is left to be written, and `writeAllocate` writes a
    piece as a block of its own. The assertion that there is a block pointer left is checked. -/
def gangMembers (pool : Pool) (args : WriteArgs)
    (writeAllocate : (call : ℕ) → List UInt8 → Option (Outcome Written)) :
    (gbpsLeft : ℕ) → (data : List UInt8) → (maxalloc call : ℕ) → Option (Outcome Members)
  | 0, data, _, call => if data.length = 0 then some (.done ⟨[], [], [], call⟩) else none
  | gbpsLeft + 1, data, maxalloc, call =>
    if data.length = 0 then some (.done ⟨[], [], [], call⟩)
    else
      let maxalloc := min maxalloc data.length
      match allocMember pool args (gbpsLeft + 1) data.length (maxalloc + 1) maxalloc call with
      | none => none
      | some .panic => some .panic
      | some (.direct places lsize call) =>
        (gangMembers pool args writeAllocate gbpsLeft (data.drop lsize) lsize call).map
          (Outcome.cons (wholeBlock pool args (data.take lsize) places call))
      | some (.nested maxalloc call) =>
        let lsize := roundUp (data.length / (gbpsLeft + 1)) spaMinBlockSize
        match writeAllocate call (data.take lsize) with
        | none => none
        | some .panic => some .panic
        | some (.done member) =>
          (gangMembers pool args writeAllocate gbpsLeft (data.drop lsize) maxalloc member.call).map
            (Outcome.cons member)

/-- `zio_write_allocate_gang_member_done`. -/
def gangMemberDone (pbp cbp : Blkptr) : Blkptr :=
  { pbp with blkDva := pbp.blkDva.mapIdx fun d dva =>
      { dva with dvaAsize := sectorField 24 (dva.dvaAsize + cbp.asizeAt d) } }

def gangHeader (gbps : List Blkptr) : Block :=
  .header (gbps ++ List.replicate (spaGbhNblkptrs - gbps.length) .hole)

def gangBlock (pool : Pool) (args : WriteArgs) (size : ℕ) (places : List Place) (members : Members) : Written where
  bp := (pool.order members.gbps).foldl gangMemberDone
    ⟨places.map (dvaAt pool spaGangBlockSize true), size, args.ioTxg⟩
  writes := places.map (fun place => (place, gangHeader members.gbps)) ++ members.writes
  allocs := places.map (extentAt pool spaGangBlockSize) ++ members.allocs
  call := members.call

/-- `zio_write_allocate_gang_members`. -/
def zioWriteAllocateGangMembers (pool : Pool) (args : WriteArgs)
    (writeAllocate : (call : ℕ) → List UInt8 → Option (Outcome Written)) (call : ℕ) (data : List UInt8) :
    Option (Outcome Written) :=
  match pool.metaslabAlloc call spaGangBlockSize (min (args.ioNdvas + 1) pool.spaMaxReplication) with
  | none => some .panic
  | some places =>
    let maxalloc := roundUp (data.length / 2) spaMinBlockSize
    let maxalloc :=
      if maxalloc ≥ zioGangBang ∧ pool.lbolt call % 2 = 0 then max (maxalloc / 4) spaMinBlockSize else maxalloc
    match gangMembers pool args writeAllocate spaGbhNblkptrs data maxalloc (call + 1) with
    | none => none
    | some .panic => some .panic
    | some (.done members) => some (.done (gangBlock pool args data.length places members))

/-- `zio_dva_allocate`, and with it the write of a block. -/
def zioDvaAllocate (pool : Pool) (args : WriteArgs) :
    (fuel : ℕ) → (call : ℕ) → (data : List UInt8) → Option (Outcome Written)
  | 0, _, _ => none
  | fuel + 1, call, data =>
    let gang := zioWriteAllocateGangMembers pool args (zioDvaAllocate pool args fuel)
    if data.length ≥ zioGangBang ∧ pool.lbolt call % 4 = 0 then gang call data
    else
      match pool.metaslabAlloc call data.length args.ioNdvas with
      | some places => some (.done (wholeBlock pool args data places (call + 1)))
      | none => if data.length = spaMinBlockSize then some .panic else gang (call + 1) data

/-! ## Reads and frees -/

abbrev Disk := Place → Option Block

def readCopy (disk : Disk) (pick : List Dva → Option Dva) (bp : Blkptr) : Option Block :=
  (pick bp.blkDva).bind fun dva => disk (place dva)

/-- `zio_read_gang_members`: the members up to `size`. -/
def readGangMembers (read : Blkptr → Option (List UInt8)) : List Blkptr → (size : ℕ) → Option (List UInt8)
  | [], size => if size = 0 then some [] else none
  | gbp :: gbps, size =>
    if size = 0 then some []
    -- a member that goes beyond the end is an assertion
    else if gbp.blkPsize > size then none
    else
      match read gbp with
      | none => none
      | some part => (readGangMembers read gbps (size - gbp.blkPsize)).map (part ++ ·)

/-- `zio_read`. -/
def zioRead (disk : Disk) (pick : List Dva → Option Dva) : (fuel : ℕ) → Blkptr → Option (List UInt8)
  | 0, _ => none
  | fuel + 1, bp =>
    match readCopy disk pick bp with
    | some (.header gbps) =>
      if bp.isGang then readGangMembers (zioRead disk pick fuel) gbps bp.blkPsize else none
    | some (.data bytes) => if bp.isGang then none else some bytes
    | none => none

/-- `metaslab_free`: of a gang block, only the header. -/
def metaslabFree (pool : Pool) (bp : Blkptr) : List Extent :=
  bp.blkDva.map fun dva =>
    ⟨place dva, if dva.dvaGang then pool.vdevPsizeToAsize dva.dvaVdev spaGangBlockSize else dva.dvaAsize⟩

/-- `zio_free_gang_members`: the members that are not holes. -/
def freeGangMembers (free : Blkptr → Option (List Extent)) : List Blkptr → Option (List Extent)
  | [] => some []
  | gbp :: gbps =>
    if gbp.isHole then freeGangMembers free gbps
    else
      match free gbp with
      | none => none
      | some freed => (freeGangMembers free gbps).map (freed ++ ·)

/-- `zio_free`, the stages that free: the members and then the block. -/
def zioFree (pool : Pool) (disk : Disk) (pick : List Dva → Option Dva) : (fuel : ℕ) → Blkptr → Option (List Extent)
  | 0, _ => none
  | fuel + 1, bp =>
    if bp.isGang then
      match readCopy disk pick bp with
      | some (.header gbps) =>
        (freeGangMembers (zioFree pool disk pick fuel) gbps).map (· ++ metaslabFree pool bp)
      | _ => none
    else some (metaslabFree pool bp)

end MacZfs.Gang
