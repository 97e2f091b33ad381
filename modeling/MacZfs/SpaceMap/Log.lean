import MacZfs.SpaceMap.Basic

/-!
# The on-disk log of a space map

The on-disk half of `space_map.c`. A space map object is a log of 64-bit entries, each an
allocation or a free of one run; `space_map_sync` empties an in-core map into the log through
a buffer of at most one block, `space_map_load` replays the log block by block. The object is
read and written at multiples of eight bytes only, so its content is a function from word
indices. Its length, `smo_objsize`, is not reduced modulo `2 ^ 64`: no object gets there.
-/

namespace MacZfs

open Extents

/-- `SM_ALLOC` and `SM_FREE`. -/
inductive MapType where
  | smAlloc
  | smFree
  deriving Repr, DecidableEq

def MapType.code : MapType → Word
  | .smAlloc => 0x0
  | .smFree => 0x1

/-! ## Entries -/

def smRunDecode (e : Word) : Word := bf64Decode e 0 15 + 1
def smRunEncode (x : Word) : Word := bf64Encode (x - 1) 0 15
def smTypeDecode (e : Word) : Word := bf64Decode e 15 1
def smTypeEncode (x : Word) : Word := bf64Encode x 15 1
def smOffsetDecode (e : Word) : Word := bf64Decode e 16 47
def smOffsetEncode (x : Word) : Word := bf64Encode x 16 47
def smDebugDecode (e : Word) : Word := bf64Decode e 63 1
def smDebugEncode (x : Word) : Word := bf64Encode x 63 1
def smDebugActionEncode (x : Word) : Word := bf64Encode x 60 3
def smDebugSyncpassEncode (x : Word) : Word := bf64Encode x 50 10
def smDebugTxgEncode (x : Word) : Word := bf64Encode x 0 50

/-- `SM_RUN_MAX`. -/
def smRunMax : ℕ := (smRunDecode (~~~0)).toNat

/-- The entry for a run of `runLen` units at `start`. -/
def runEntry (maptype : MapType) (start runLen : ℕ) : Word :=
  smOffsetEncode (BitVec.ofNat 64 start) ||| smTypeEncode maptype.code |||
    smRunEncode (BitVec.ofNat 64 runLen)

/-- The entry that opens what one `space_map_sync` writes. -/
def debugEntry (maptype : MapType) (syncpass txg : ℕ) : Word :=
  smDebugEncode 1 ||| smDebugActionEncode maptype.code |||
    smDebugSyncpassEncode (BitVec.ofNat 64 syncpass) ||| smDebugTxgEncode (BitVec.ofNat 64 txg)

/-! ## Objects -/

abbrev DmuObject := ℕ → Word

/-- `dmu_write` of whole words at a byte offset. -/
def dmuWrite (object : DmuObject) (offset : ℕ) (data : List Word) : DmuObject := fun i =>
  if offset / 8 ≤ i then (data[i - offset / 8]?).getD (object i) else object i

/-- `dmu_read` of whole words at a byte offset. -/
def dmuRead (object : DmuObject) (offset size : ℕ) : List Word :=
  (List.range (size / 8)).map fun i => object (offset / 8 + i)

/-- `space_map_obj_t`. -/
structure SpaceMapObj where
  smoObject : ℕ
  smoObjsize : ℕ
  smoAlloc : ℕ
  deriving Repr, DecidableEq

/-- `SPACE_MAP_BLOCKSHIFT`. -/
def spaceMapBlockshift : ℕ := 12

/-! ## Writing -/

/-- The entries for `size` units from `start`: one for every `SM_RUN_MAX` of them. Each round
    takes at least one unit, so `size` rounds are enough. -/
def runEntries (maptype : MapType) : (rounds : ℕ) → (start size : ℕ) → List Word
  | 0, _, _ => []
  | rounds + 1, start, size =>
    if size = 0 then []
    else
      let runLen := min size smRunMax
      runEntry maptype start runLen :: runEntries maptype rounds (start + runLen) (size - runLen)

/-- The entries `space_map_sync` writes for one segment. -/
def segEntries (sm : SpaceMap) (maptype : MapType) (ss : SpaceSeg) : List Word :=
  let size := u64Sub ss.stop ss.start >>> sm.smShift
  let start := u64Sub ss.start sm.smStart >>> sm.smShift
  runEntries maptype size start size

/-- The loop state of `space_map_sync`: the entries in the buffer (from `entry_map` up to
    `entry`), and the object with its size. -/
structure LogBuffer where
  entryMap : List Word
  smoObjsize : ℕ
  object : DmuObject

def LogBuffer.flush (buf : LogBuffer) : LogBuffer where
  entryMap := []
  smoObjsize := buf.smoObjsize + 8 * buf.entryMap.length
  object := dmuWrite buf.object buf.smoObjsize buf.entryMap

/-- `*entry++ = e`, with the buffer written out first when it is full. -/
def LogBuffer.put (bufsize : ℕ) (buf : LogBuffer) (e : Word) : LogBuffer :=
  let buf := if buf.entryMap.length = bufsize / 8 then buf.flush else buf
  { buf with entryMap := buf.entryMap ++ [e] }

/-- The object after the loops of `space_map_sync`. -/
def syncLoops (order : DestroyOrder) (sm : SpaceMap) (maptype : MapType) (smoObjsize : ℕ)
    (object : DmuObject) (syncpass txg : ℕ) : LogBuffer :=
  let bufsize := min ((8 + sm.smRoot.length) * 8) (1 <<< spaceMapBlockshift)
  let buf := ((order.visit sm.smRoot).flatMap (segEntries sm maptype)).foldl (LogBuffer.put bufsize)
    ⟨[debugEntry maptype syncpass txg], smoObjsize, object⟩
  if buf.entryMap ≠ [] then buf.flush else buf

/-- `sm_space` after the loops of `space_map_sync`. -/
def syncSpace (order : DestroyOrder) (sm : SpaceMap) : ℕ :=
  (order.visit sm.smRoot).foldl (fun space ss => u64Sub space (u64Sub ss.stop ss.start)) sm.smSpace

/-- `smo_alloc` after a sync of `space` bytes. -/
def MapType.charge (smoAlloc space : ℕ) : MapType → ℕ
  | .smAlloc => u64 (smoAlloc + space)
  | .smFree => u64Sub smoAlloc space

/-- `space_map_sync`: the map, the object's header and its content afterwards. -/
def spaceMapSync (order : DestroyOrder) (sm : SpaceMap) (maptype : MapType) (smo : SpaceMapObj)
    (object : DmuObject) (syncpass txg : ℕ) : Option (SpaceMap × SpaceMapObj × DmuObject) :=
  if sm.smSpace = 0 then some (sm, smo, object)
  else do
    let smoAlloc := maptype.charge smo.smoAlloc sm.smSpace
    let buf := syncLoops order sm maptype smo.smoObjsize object syncpass txg
    let space := syncSpace order sm
    guard (space = 0)
    return ({ sm with smRoot := [], smSpace := space },
      { smo with smoObjsize := buf.smoObjsize, smoAlloc := smoAlloc }, buf.object)

/-- `space_map_truncate`. -/
def spaceMapTruncate (smo : SpaceMapObj) : SpaceMapObj × DmuObject :=
  ({ smo with smoObjsize := 0, smoAlloc := 0 }, fun _ => 0)

/-! ## Reading -/

/-- What `space_map_load` does with one entry. -/
def loadEntry (maptype : MapType) (mapstart : ℕ) (sm : SpaceMap) (e : Word) : Option SpaceMap :=
  if smDebugDecode e ≠ 0 then some sm
  else
    (if smTypeDecode e = maptype.code then spaceMapAdd else spaceMapRemove) sm
      (u64 ((smOffsetDecode e <<< sm.smShift).toNat + mapstart)) (smRunDecode e <<< sm.smShift).toNat

/-- What `space_map_load` does with one block. -/
def loadBlock (maptype : MapType) (mapstart : ℕ) (object : DmuObject) (stop bufsize : ℕ)
    (sm : SpaceMap) (offset : ℕ) : Option SpaceMap := do
  let size := min (stop - offset) bufsize
  guard (p2phase size 8 = 0)
  guard (size ≠ 0)
  (dmuRead object offset size).foldlM (loadEntry maptype mapstart) sm

/-- The loop of `space_map_load` over the blocks of the object. -/
def loadBlocks (maptype : MapType) (smo : SpaceMapObj) (object : DmuObject) (sm : SpaceMap) :
    Option SpaceMap :=
  let bufsize := 1 <<< spaceMapBlockshift
  let stop := smo.smoObjsize
  ((List.range ((stop + bufsize - 1) / bufsize)).map (· * bufsize)).foldlM
    (loadBlock maptype sm.smStart object stop bufsize) sm

/-- The map `space_map_load` starts from: empty, or everything. -/
def loadInit (sm : SpaceMap) : MapType → Option SpaceMap
  | .smFree => spaceMapAdd sm sm.smStart sm.smSize
  | .smAlloc => some sm

/-- The space `space_map_load` expects in the end. -/
def loadSpace (sm : SpaceMap) (smo : SpaceMapObj) : MapType → ℕ
  | .smFree => u64Sub sm.smSize smo.smoAlloc
  | .smAlloc => smo.smoAlloc

/-- `space_map_load`; `ops` says whether the caller passes an ops vector, whose load sets up the
    cursors. -/
def spaceMapLoad (sm : SpaceMap) (ops : Bool) (maptype : MapType) (smo : SpaceMapObj)
    (object : DmuObject) : Option SpaceMap :=
  if sm.smLoaded then some sm
  else do
    guard (sm.smSpace = 0)
    let first ← loadInit sm maptype
    let loaded ← loadBlocks maptype smo object first
    guard (loaded.smSpace = loadSpace sm smo maptype)
    return { loaded with
      smLoaded := true
      smOps := ops
      smPpd := if ops then List.replicate 64 0 else loaded.smPpd }

end MacZfs
