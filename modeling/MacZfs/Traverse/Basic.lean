import MacZfs.Base

/-!
# Traversing the blocks of a dataset

`dmu_traverse.c`: a traversal is a bookmark that moves through the blocks of a dataset. Each call of
`traverse_more` finds the place of the bookmark again, from the root of the pool down, with a cache of one
block per level, and moves it on until it has done enough or is told to come back later. Blocks are read
without errors; log blocks, the statistics and what only the debugging checks use are left out.
-/

namespace MacZfs.Traverse

/-- `blkptr_t`: what `BP_EQUAL` compares. -/
structure Blkptr where
  blkDva : ℕ
  blkBirth : ℕ
  deriving DecidableEq, Inhabited

/-- `BP_IS_HOLE`. -/
def Blkptr.isHole (bp : Blkptr) : Bool := bp.blkBirth == 0

/-- `dmu_object_type_t`. -/
inductive ObjectType
  | none
  | dslDataset
  | other (code : ℕ)
  deriving DecidableEq, Inhabited

/-- `dsl_dataset_phys_t`. -/
structure DsPhys where
  dsBp : Blkptr
  dsPrevSnapTxg : ℕ
  deriving Inhabited

/-- `dnode_phys_t`, with the bonus buffer as a dataset would have it. -/
structure DnodePhys where
  dnType : ObjectType
  dnIndblkshift : ℕ
  dnNlevels : ℕ
  dnNblkptr : ℕ
  dnBlkptr : ℕ → Blkptr
  dnMaxblkid : ℕ
  dnBonus : DsPhys
  deriving Inhabited

/-- The data of a block, as block pointers, as dnodes, or as an `objset_phys_t` of which this is the
    `os_meta_dnode`. -/
structure Contents where
  blkptrs : ℕ → Blkptr
  dnodes : ℕ → DnodePhys
  osMetaDnode : DnodePhys
  deriving Inhabited

abbrev Disk := Blkptr → Contents

/-- `zbookmark_t`. An `objset_phys_t` is level -1 of object 0. -/
structure Zbookmark where
  zbObjset : ℕ
  zbObject : ℕ
  zbLevel : ℤ
  zbBlkid : ℕ
  deriving DecidableEq, Inhabited

/-- The `ADVANCE_` flags. -/
structure Advance where
  pre : Bool
  prune : Bool
  data : Bool
  holes : Bool

/-- `zseg_t`. -/
structure Zseg where
  segMintxg : ℕ
  segMaxtxg : ℕ
  segStart : Zbookmark
  segEnd : Zbookmark

inductive Rc
  | ok
  | eagain
  | erange
  | enotblk
  deriving DecidableEq

def zbMaxlevel : ℕ := 32

def zbMaxblkid : ℕ := 2 ^ 62

def zbMaxobjset : ℕ := 2 ^ 62

def zbMaxobject : ℕ := 2 ^ 62

def dnodesPerBlock : ℕ := 2 ^ 5

/-- `ZB_MOS_CACHE`, `ZB_MDN_CACHE` and `ZB_DN_CACHE`. -/
inductive Depth
  | mos
  | mdn
  | dn
  deriving DecidableEq

def DnodePhys.wshift (dnp : DnodePhys) : ℕ := dnp.dnIndblkshift - 7

def DnodePhys.maxlevel (dnp : DnodePhys) : ℕ := dnp.dnNlevels - 1

/-! ## Bookmarks -/

/-- A number plus `bias`, which is 0 or -1. -/
def biased (pre : Bool) (n : ℕ) : ℕ := if pre then n else u64Sub n 1

/-- A level `^ bias`. -/
def biasedLevel (pre : Bool) (level : ℤ) : ℤ := if pre then level else -level - 1

/-- `(zb_blkid - bias) << BP_SPAN_SHIFT(level, wshift)`. -/
def blkoff (pre : Bool) (wshift : ℕ) (zb : Zbookmark) : ℕ :=
  u64 ((if pre then zb.zbBlkid else zb.zbBlkid + 1) <<< (zb.zbLevel.toNat * wshift))

/-- `compare_bookmark`. -/
def compareBookmark (szb ezb : Zbookmark) (dnp : Option DnodePhys) (pre : Bool) : ℤ :=
  if biased pre szb.zbObjset < biased pre ezb.zbObjset then -1
  else if biased pre szb.zbObjset > biased pre ezb.zbObjset then 1
  else if szb.zbLevel < 0 ∨ ezb.zbLevel < 0 then biasedLevel pre szb.zbLevel - biasedLevel pre ezb.zbLevel
  else if biased pre szb.zbObject < biased pre ezb.zbObject then -1
  else if biased pre szb.zbObject > biased pre ezb.zbObject then 1
  else match dnp with
    | none => 0
    | some dnp =>
      let sblkoff := blkoff pre dnp.wshift szb
      let eblkoff := blkoff pre dnp.wshift ezb
      if sblkoff < eblkoff then -1
      else if sblkoff > eblkoff then 1
      else biasedLevel pre ezb.zbLevel - biasedLevel pre szb.zbLevel

def moved (zseg : Zseg) (zb : Zbookmark) (dnp : Option DnodePhys) (pre : Bool) : Rc × Zseg :=
  (if compareBookmark zb zseg.segEnd dnp pre > 0 then .erange else .eagain, { zseg with segStart := zb })

/-- `advance_objset`. -/
def advanceObjset (zseg : Zseg) (objset : ℕ) (pre : Bool) : Rc × Zseg :=
  if pre then
    if objset ≥ zbMaxobjset then (.erange, zseg) else moved zseg ⟨objset, 0, -1, 0⟩ none pre
  else
    let objset := if objset ≥ zbMaxobjset then 0 else objset
    moved zseg ⟨objset, 1, 0, 0⟩ none pre

/-- `advance_object`. -/
def advanceObject (zseg : Zseg) (object : ℕ) (pre : Bool) : Rc × Zseg :=
  let zb := zseg.segStart
  if pre then
    if object ≥ zbMaxobject then moved zseg ⟨zb.zbObjset + 1, 0, -1, 0⟩ none pre
    else moved zseg ⟨zb.zbObjset, object, zbMaxlevel, 0⟩ none pre
  else if zb.zbObject = 0 then moved zseg ⟨zb.zbObjset, 0, -1, 0⟩ none pre
  else
    let object := if object ≥ zbMaxobject then 0 else object
    moved zseg ⟨zb.zbObjset, object, 0, 0⟩ none pre

/-- `advance_from_osphys`. -/
def advanceFromOsphys (zseg : Zseg) (pre : Bool) : Rc × Zseg :=
  let zb := zseg.segStart
  if pre then moved zseg { zb with zbLevel := zbMaxlevel, zbBlkid := 0 } none pre
  else if zb.zbObjset = 0 then (.erange, zseg)
  else moved zseg ⟨zb.zbObjset + 1, 1, 0, 0⟩ none pre

/-- To the highest level, at most `room` up, at which a block begins where this one does. -/
def climb (wshift : ℕ) : (room : ℕ) → ℕ → ℕ → ℕ × ℕ
  | 0, level, blkid => (level, blkid)
  | room + 1, level, blkid =>
    if p2phase blkid (1 <<< wshift) ≠ 0 then (level, blkid)
    else climb wshift room (level + 1) (blkid >>> wshift)

/-- To the lowest level, at most `room` up, at which a block begins within the object. -/
def climbInside (dnp : DnodePhys) : (room : ℕ) → ℕ → ℕ → Option (ℕ × ℕ)
  | room, level, blkid =>
    if u64 (blkid <<< (level * dnp.wshift)) > dnp.dnMaxblkid then
      match room with
      | 0 => none
      | room + 1 => climbInside dnp room (level + 1) (blkid >>> dnp.wshift)
    else some (level, blkid)

/-- Where `advance_block` goes from a block; `rc` is 0 if the block was found. -/
def nextBlock (dnp : DnodePhys) (level blkid : ℕ) (rc : Rc) (pre : Bool) : Option (ℕ × ℕ) :=
  if pre then
    if level > 0 ∧ rc = .ok then some (level - 1, u64 (blkid <<< dnp.wshift))
    else
      let blkid := blkid + 1
      if u64 (blkid <<< (level * dnp.wshift)) > dnp.dnMaxblkid then none
      else some (climb dnp.wshift (dnp.maxlevel - level) level blkid)
  else if level ≥ dnp.maxlevel ∨ p2phase (blkid + 1) (1 <<< dnp.wshift) ≠ 0 then
    climbInside dnp dnp.maxlevel 0 (u64 ((blkid + 1) <<< (level * dnp.wshift)))
  else climbInside dnp (dnp.maxlevel - (level + 1)) (level + 1) (blkid >>> dnp.wshift)

/-- `advance_block`. -/
def advanceBlock (zseg : Zseg) (dnp : DnodePhys) (rc : Rc) (pre : Bool) : Rc × Zseg :=
  let zb := zseg.segStart
  match nextBlock dnp zb.zbLevel.toNat zb.zbBlkid rc pre with
  | none => (.erange, zseg)
  | some (level, blkid) => moved zseg { zb with zbLevel := level, zbBlkid := blkid } (some dnp) pre

/-! ## Finding blocks -/

/-- `traverse_blk_cache_t`; `bc_data` may be `NULL`. -/
structure BlkCache where
  bcBookmark : Zbookmark
  bcBlkptr : Blkptr
  bcData : Option Contents
  bcDnode : DnodePhys
  deriving Inhabited

structure Finished where
  bookmark : Zbookmark
  blkptr : Blkptr
  dnode : DnodePhys

/-- `traverse_handle_t`, with the number of calls of `spa_traverse_wanted` and what the callback finished, the last
    one first. -/
structure Handle where
  thAdvance : Advance
  thCache : Depth → ℕ → BlkCache
  thCallbacks : ℕ
  thRestarts : ℕ
  asked : ℕ
  finished : List Finished

section

-- What is read for each block pointer.
variable (disk : Disk)

/-- `traverse_read`. -/
def traverseRead (bc : BlkCache) (bp : Blkptr) (dnp : DnodePhys) : BlkCache :=
  if bc.bcBlkptr = bp then { bc with bcDnode := dnp }
  else { bc with
    bcDnode := dnp
    bcBlkptr := bp
    bcData := bc.bcData.map fun old => if bp.isHole then old else disk bp }

def Handle.read (th : Handle) (depth : Depth) (level : ℕ) (zb : Zbookmark) (bp : Blkptr) (dnp : DnodePhys) : Handle :=
  let bc := traverseRead disk { th.thCache depth level with bcBookmark := zb } bp dnp
  { th with thCache := fun d l => if d = depth ∧ l = level then bc else th.thCache d l }

/-- An `objset_phys_t` put in the cache; `bc_dnode` points to the meta-dnode in it. -/
def Handle.readOsphys (th : Handle) (depth : Depth) (objset : ℕ) (bp : Blkptr) : Handle :=
  let level := zbMaxlevel - 1
  let bc := traverseRead disk { th.thCache depth level with bcBookmark := ⟨objset, 0, -1, 0⟩ } bp default
  let bc := { bc with bcDnode := (bc.bcData.getD default).osMetaDnode }
  { th with thCache := fun d l => if d = depth ∧ l = level then bc else th.thCache d l }

/-- The first of `left` indices, from `i` on, that `stop` accepts; else the one after them. -/
def firstIndex (stop : ℕ → Bool) : (left : ℕ) → ℕ → ℕ
  | 0, i => i
  | left + 1, i => if stop i then i else firstIndex stop left (i + 1)

def wanted (mintxg : ℕ) (doHoles : Bool) (bp : Blkptr) : Bool := bp.blkBirth > mintxg || bp.isHole && doHoles

/-- One round of the loop of `find_block`: the level `minlevel + k`, with `nbp` block pointers at hand. If it does
    not end here, the block above the bookmark is in the cache. -/
def findStep (th : Handle) (zb : Zbookmark) (dnp : DnodePhys) (depth : Depth) (mintxg : ℕ) (doHoles : Bool) (k : ℕ)
    (bps : ℕ → Blkptr) (nbp : ℕ) : Option (Rc × Zbookmark) × Handle :=
  let level := zb.zbLevel.toNat + k
  let blkid := zb.zbBlkid >>> (k * dnp.wshift)
  let first := p2phase blkid (1 <<< dnp.wshift)
  let i := firstIndex (fun i => wanted mintxg doHoles (bps i)) (nbp - first) first
  if i ≠ first then (some (.enotblk, { zb with zbLevel := level, zbBlkid := blkid + (i - 1 - first) }), th)
  else
    let th := th.read disk depth level { zb with zbLevel := level, zbBlkid := blkid } (bps i) dnp
    if (bps i).isHole then (some (.ok, { zb with zbLevel := level, zbBlkid := blkid }), th)
    else (none, th)

/-- The loop of `find_block` over the levels from `minlevel + k` down. -/
def findLevel (zb : Zbookmark) (dnp : DnodePhys) (depth : Depth) (mintxg : ℕ) (doHoles : Bool) :
    (k : ℕ) → Handle → (bps : ℕ → Blkptr) → (nbp : ℕ) → Rc × Zbookmark × Handle
  | k, th, bps, nbp =>
    match findStep disk th zb dnp depth mintxg doHoles k bps nbp with
    | (some (rc, zb), th) => (rc, zb, th)
    | (none, th) =>
      match k with
      | 0 => (.ok, zb, th)
      | k + 1 =>
        let data := (th.thCache depth (zb.zbLevel.toNat + (k + 1))).bcData.getD default
        findLevel zb dnp depth mintxg doHoles k th data.blkptrs (1 <<< dnp.wshift)

/-- `find_block`. -/
def findBlock (th : Handle) (zseg : Zseg) (dnp : DnodePhys) (depth : Depth) : Rc × Zseg × Handle :=
  let zb := zseg.segStart
  let minlevel := zb.zbLevel.toNat
  let blkid := zb.zbBlkid >>> ((dnp.maxlevel - minlevel) * dnp.wshift)
  let doHoles := th.thAdvance.holes && depth == .dn
  if minlevel > dnp.maxlevel ∨ blkid ≥ dnp.dnNblkptr then (.erange, zseg, th)
  else
    let (rc, zb, th) := findLevel disk zb dnp depth zseg.segMintxg doHoles (dnp.maxlevel - minlevel) th dnp.dnBlkptr
      dnp.dnNblkptr
    (rc, { zseg with segStart := zb }, th)

/-- The dnode of a dnode block that `get_dnode` looks for: from `object` on, allocated, and of the type that is
    asked for, if any. -/
def pickDnode (dnodes : ℕ → DnodePhys) (blkid object : ℕ) (type : Option ObjectType) : Option ℕ :=
  (List.range dnodesPerBlock).find? fun i =>
    blkid * dnodesPerBlock + i ≥ object && (dnodes i).dnType != .none &&
      (type.all fun type => (dnodes i).dnType == type)

/-- The loop of `get_dnode`. -/
def getDnodeFrom (th : Handle) (mdn : DnodePhys) (object : ℕ) (type : Option ObjectType) (depth : Depth) :
    (rounds : ℕ) → Zseg → Option (Rc × ℕ × DnodePhys × Handle)
  | 0, _ => none
  | rounds + 1, zseg =>
    let (rc, zseg, th) := findBlock disk th zseg mdn depth
    if rc = .erange then some (.erange, zbMaxobject, default, th)
    else
      let dnodes := ((th.thCache depth 0).bcData.getD default).dnodes
      let found := if rc = .ok ∧ zseg.segStart.zbLevel = 0 then pickDnode dnodes zseg.segStart.zbBlkid object type
        else none
      match found with
      | some i => some (.ok, zseg.segStart.zbBlkid * dnodesPerBlock + i, dnodes i, th)
      | none =>
        let (rc, zseg) := advanceBlock zseg mdn rc true
        if rc = .erange then some (.erange, zbMaxobject, default, th)
        else getDnodeFrom th mdn object type depth rounds zseg

/-- `get_dnode`: the return value, the object and its dnode. -/
def getDnode (th : Handle) (rounds objset : ℕ) (mdn : DnodePhys) (object txg : ℕ) (type : Option ObjectType)
    (depth : Depth) : Option (Rc × ℕ × DnodePhys × Handle) :=
  getDnodeFrom disk th mdn object type depth rounds
    ⟨txg, 2 ^ 64 - 1, ⟨objset, 0, 0, object / dnodesPerBlock⟩, ⟨objset, 0, 0, zbMaxblkid⟩⟩

/-! ## Traversing -/

-- Whether the callback wants to be called again, and whether `spa_sync` waits, by the number of the call.
variable (again wants : ℕ → Bool)

/-- `traverse_callback`. -/
def traverseCallback (th : Handle) (zseg : Zseg) (bc : BlkCache) : Rc × Handle :=
  if bc.bcBlkptr.blkBirth ≥ zseg.segMaxtxg then (.ok, th)
  else
    let call := th.thCallbacks
    let th := { th with thCallbacks := call + 1 }
    if again call then (.eagain, th)
    else (.ok, { th with finished := ⟨bc.bcBookmark, bc.bcBlkptr, bc.bcDnode⟩ :: th.finished })

def nextObject (th : Handle) (zseg : Zseg) : Option Rc × Zseg × Handle :=
  let (rc, zseg) := advanceObject zseg (zseg.segStart.zbObject + 1) th.thAdvance.pre
  (some rc, zseg, th)

/-- The end of a round of the loop of `traverse_segment`, after the block was visited or passed over: what is
    returned, or none if the loop goes on. -/
def moveOn (dn : DnodePhys) (rc : Rc) (th : Handle) (zseg : Zseg) : Option Rc × Zseg × Handle :=
  let (rc, zseg) := advanceBlock zseg dn rc th.thAdvance.pre
  if rc = .erange then nextObject th zseg
  else
    let asked := th.asked
    (if wants asked then some .eagain else none, zseg, { th with asked := asked + 1 })

/-- One round of the loop of `traverse_segment`. -/
def traverseBlock (dn : DnodePhys) (th : Handle) (zseg : Zseg) : Option Rc × Zseg × Handle :=
  let (rc, zseg, th) := findBlock disk th zseg dn .dn
  if rc = .erange then nextObject th zseg
  else
    let bc := th.thCache .dn zseg.segStart.zbLevel.toNat
    let (called, th) := if rc = .ok then traverseCallback again th zseg bc else (.ok, th)
    if called ≠ .ok then (some called, zseg, th)
    else moveOn wants dn (if rc = .ok ∧ bc.bcBlkptr.isHole then .enotblk else rc) th zseg

/-- The loop of `traverse_segment` over the blocks of one object. -/
def traverseBlocks (dn : DnodePhys) : (worklimit : ℕ) → Handle → Zseg → Rc × Zseg × Handle
  | 0, th, zseg => (.eagain, zseg, th)
  | worklimit + 1, th, zseg =>
    match traverseBlock disk again wants dn th zseg with
    | (some rc, zseg, th) => (rc, zseg, th)
    | (none, zseg, th) => traverseBlocks dn worklimit th zseg

/-- The part of `traverse_segment` below an `objset_phys_t` that is in the cache, as `bc`. -/
def traverseObjset (th : Handle) (rounds : ℕ) (zseg : Zseg) (bc : BlkCache) : Option (Rc × Zseg × Handle) :=
  let zb := zseg.segStart
  let pre := th.thAdvance.pre
  let mdn := bc.bcDnode
  if zb.zbLevel = -1 then
    let (rc, th) := if bc.bcBlkptr.blkBirth > zseg.segMintxg then traverseCallback again th zseg bc else (.ok, th)
    if rc ≠ .ok then some (rc, zseg, th)
    else
      let (rc, zseg) := advanceFromOsphys zseg pre
      some (rc, zseg, th)
  else
    let blocks (dn : DnodePhys) (th : Handle) : Rc × Zseg × Handle :=
      let level := if zb.zbLevel = zbMaxlevel then (dn.maxlevel : ℤ) else zb.zbLevel
      traverseBlocks disk again wants dn 100 th { zseg with segStart := { zb with zbLevel := level } }
    if zb.zbObject = 0 then some (blocks mdn th)
    else do
      let (rc, object, dn, th) ← getDnode disk th rounds zb.zbObjset mdn zb.zbObject zseg.segMintxg none .mdn
      if object ≠ zb.zbObject then
        let (rc, zseg) := advanceObject zseg object pre
        some (rc, zseg, th)
      else if rc ≠ .ok then some (rc, zseg, th)
      else some (blocks dn th)

/-- `traverse_segment`, from the root of the pool. -/
def traverseSegment (th : Handle) (rounds : ℕ) (zseg : Zseg) (mosbp : Blkptr) : Option (Rc × Zseg × Handle) :=
  let zb := zseg.segStart
  let th := th.readOsphys disk .mos 0 mosbp
  let bc := th.thCache .mos (zbMaxlevel - 1)
  if zb.zbObjset = 0 then traverseObjset disk again wants th rounds zseg bc
  else do
    let (rc, objset, dn, th) ← getDnode disk th rounds 0 bc.bcDnode zb.zbObjset 0 (some .dslDataset) .mos
    if objset ≠ zb.zbObjset then
      let (rc, zseg) := advanceObjset zseg objset th.thAdvance.pre
      some (rc, zseg, th)
    else if rc ≠ .ok then some (rc, zseg, th)
    else
      let dsp := dn.dnBonus
      let th := th.readOsphys disk .mdn objset dsp.dsBp
      let mintxg := if th.thAdvance.prune then max zseg.segMintxg dsp.dsPrevSnapTxg else zseg.segMintxg
      traverseObjset disk again wants th rounds { zseg with segMintxg := mintxg } (th.thCache .mdn (zbMaxlevel - 1))

/-- `traverse_more`: what is left of the segments. The root of the pool may be another one for each call. -/
def traverseMore (mosbp : ℕ → Blkptr) (th : Handle) (rounds : ℕ) : List Zseg → Option (Rc × List Zseg × Handle)
  | [] => some (.ok, [], th)
  | zseg :: rest => do
      let (rc, zseg', th) ← traverseSegment disk again wants { th with thRestarts := th.thRestarts + 1 } rounds zseg
        (mosbp th.thRestarts)
      if rc = .erange then some (.eagain, rest, th)
      else some (rc, { zseg' with segMintxg := zseg.segMintxg } :: rest, th)

/-- Calls of `traverse_more` until it does not return `EAGAIN`. -/
def traverseAll (mosbp : ℕ → Blkptr) (rounds : ℕ) : (calls : ℕ) → Handle → List Zseg → Option (Rc × Handle)
  | 0, _, _ => none
  | calls + 1, th, segs => do
      let (rc, segs, th) ← traverseMore disk again wants mosbp th rounds segs
      if rc = .eagain then traverseAll mosbp rounds calls th segs else some (rc, th)

end

/-- `traverse_init`. -/
def traverseInit (advance : Advance) : Handle where
  thAdvance := advance
  thCache depth level :=
    { (default : BlkCache) with
      bcData := if advance.data ∨ level ≠ 0 ∨ depth ≠ .dn then some default else none }
  thCallbacks := 0
  thRestarts := 0
  asked := 0
  finished := []

/-- `traverse_add_objset`. -/
def traverseAddObjset (advance : Advance) (mintxg maxtxg objset : ℕ) : Zseg :=
  if advance.pre then ⟨mintxg, maxtxg, ⟨objset, 0, -1, 0⟩, ⟨objset, zbMaxobject, 0, zbMaxblkid⟩⟩
  else ⟨mintxg, maxtxg, ⟨objset, 1, 0, 0⟩, ⟨objset, 0, -1, 0⟩⟩

end MacZfs.Traverse
