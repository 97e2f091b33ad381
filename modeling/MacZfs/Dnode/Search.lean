import MacZfs.Dnode.Basic
import MacZfs.Lib.LevelSearch

/-! # Searching the blocks of an object

`dnode_next_offset` of `dnode.c`. Level 0 of a search are the dnodes in the data blocks of the meta-dnode; level `l + 1`
are the pointers to blocks of level `l`. Reads succeed.
-/

namespace MacZfs.Dnode

/-- What the search reads of a dnode in a block of the meta-dnode: whether its type is other than `DMU_OT_NONE`, and
    the births of its block pointers. -/
structure Slot where
  allocated : Bool
  births : List ℕ
  deriving DecidableEq, Repr

/-- What the search reads of a `dnode_t`. `slot` is the dnode at an index in a data block. -/
structure Searched where
  phys : DnodePhys
  dnDatablkshift : ℕ
  dnDatablksz : ℕ
  slot : ℕ → ℕ → Slot

/-- Whether `dbuf_hold_impl` with `fail_sparse` finds the block, `n` levels below the highest. -/
def dbufHoldImpl (dnp : DnodePhys) : ℕ → ℕ → ℕ → Bool
  | 0, level, blkid =>
    decide (blkid ≤ dnp.dnMaxblkid >>> (level * dnp.epbs)) && !decide (dnp.blkptr level blkid).IsHole
  | n + 1, level, blkid =>
    decide (blkid ≤ dnp.dnMaxblkid >>> (level * dnp.epbs)) &&
      (dbufHoldImpl dnp n (level + 1) (blkid >>> dnp.epbs) && !decide (dnp.blkptr level blkid).IsHole)

namespace Searched

/-- `dbuf_whichblock` -/
def dbufWhichblock (dn : Searched) (offset : ℕ) : ℕ :=
  if dn.dnDatablkshift ≠ 0 then offset >>> dn.dnDatablkshift else 0

def span (dn : Searched) : ℕ → ℕ
  -- `DNODE_SHIFT`
  | 0 => 9
  | l + 1 => l * dn.phys.epbs + dn.dnDatablkshift

end Searched

/-- The loops of `dnode_next_offset_level`: from entry `i` on, for at most so many entries. -/
def scan (wanted : ℕ → Bool) (step : ℕ) : ℕ → ℕ → ℕ → Bool × ℕ
  | 0, _, offset => (false, offset)
  | n + 1, i, offset => if wanted i then (true, offset) else scan wanted step n (i + 1) (u64 (offset + step))

def slotWanted (hole : Bool) (txg : ℕ) (dnp : Slot) : Bool :=
  decide ((!dnp.allocated) = hole) && (decide (txg = 0) || dnp.births.any fun birth => decide (txg < birth))

def bpWanted (hole : Bool) (maxfill txg : ℕ) (bp : Blkptr) : Bool :=
  let (minfill, maxfill) := if hole then (0, u64Sub maxfill 1) else (1, maxfill)
  decide (minfill ≤ bp.blkFill) && decide (bp.blkFill ≤ maxfill) && decide (txg < bp.blkBirth)

/-- `dnode_next_offset_level`: whether there is no error, and the offset. -/
def dnodeNextOffsetLevel (dn : Searched) (hole : Bool) (blkfill txg lvl offset : ℕ) : Bool × ℕ :=
  let epbs := dn.phys.epbs
  let top := decide (lvl = dn.phys.dnNlevels)
  let blkid := if top then 0 else dn.dbufWhichblock offset >>> (epbs * lvl)
  if !top && !dbufHoldImpl dn.phys (dn.phys.dnNlevels - 1 - lvl) lvl blkid then (hole, offset)
  else if !top && decide (txg ≠ 0) && decide ((dn.phys.blkptr lvl blkid).blkBirth ≤ txg) then (false, offset)
  else if lvl = 0 then
    let i := (offset >>> dn.span 0) &&& (blkfill - 1)
    scan (fun i => slotWanted hole txg (dn.slot blkid i)) (1 <<< dn.span 0) (blkfill - i) i offset
  else
    let epb := if top then dn.phys.dnNblkptr else 1 <<< epbs
    let i := (offset >>> dn.span lvl) &&& ((1 <<< epbs) - 1)
    scan (fun i => bpWanted hole (u64 (blkfill <<< ((lvl - 1) * epbs))) txg (dn.phys.blkptr (lvl - 1) (blkid <<< epbs + i)))
      (1 <<< dn.span lvl) (epb - i) i offset

/-- `dnode_next_offset`: whether there is no error, which would be `ESRCH`, and the offset. -/
def dnodeNextOffset (dn : Searched) (hole : Bool) (offset minlvl blkfill txg : ℕ) : Bool × ℕ :=
  if dn.phys.dnNlevels = 0 then (false, offset)
  else if dn.dnDatablkshift = 0 then
    if offset < dn.dnDatablksz then (true, if hole then dn.dnDatablksz else offset) else (false, offset)
  else
    let (found, next) :=
      LevelSearch.search (dnodeNextOffsetLevel dn hole blkfill txg) minlvl dn.phys.dnNlevels offset
    (found && !decide (offset > next), next)

/-- `dmu_object_next`: whether there is no error, and the object. -/
def dmuObjectNext (dn : Searched) (object : ℕ) (hole : Bool) (txg : ℕ) : Bool × ℕ :=
  let offset := u64 ((object + 1) <<< 9)
  -- `DNODES_PER_BLOCK`
  let (found, offset) := dnodeNextOffset dn hole offset 0 32 txg
  (found, offset >>> 9)

end MacZfs.Dnode
