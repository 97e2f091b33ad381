import MacZfs.Dnode.Basic

/-! # Freeing a range of blocks

`dnode_sync_free_range` of `dnode_sync.c`, with `free_children` and `free_blocks`. Every buffer is held and read
without an error, and a change to the pointers in it is a change to the tree.
-/

namespace MacZfs.Dnode

/-- A block that was given to `dsl_dataset_block_kill`: its level, its id and the pointer. -/
structure Kill where
  level : ℕ
  blkid : ℕ
  bp : Blkptr
  deriving DecidableEq, Repr

structure Syncing where
  phys : DnodePhys
  dnUsed : ℕ
  /-- `DNODE_FLAG_USED_BYTES` -/
  usedBytes : Bool
  /-- Whether `spa_version` is at least `SPA_VERSION_DNODE_BYTES`. -/
  dnodeBytes : Bool
  killed : List Kill

namespace Syncing

/-- `DN_USED_BYTES`, with `SPA_MINBLOCKSHIFT` -/
def dnUsedBytes (dn : Syncing) : ℕ := if dn.usedBytes then dn.dnUsed else u64 (dn.dnUsed <<< 9)

end Syncing

/-- `dnode_diduse_space`, with `DEV_BSHIFT` -/
def dnodeDiduseSpace (dn : Syncing) (delta : ℤ) : Syncing :=
  let space := ((dn.dnUsedBytes + delta) % 2 ^ 64).toNat
  if dn.dnodeBytes then { dn with dnUsed := space, usedBytes := true }
  else { dn with dnUsed := space >>> 9 }

/-- One round of the loop of `free_blocks`. -/
def freeBlock (level : ℕ) (acc : Syncing × ℕ) (i : ℕ) : Syncing × ℕ :=
  let (dn, bytesfreed) := acc
  let bp := dn.phys.blkptr level i
  if bp.IsHole then (dn, bytesfreed)
  else
    let blkptr := fun l j => if l = level ∧ j = i then Blkptr.zero else dn.phys.blkptr l j
    ({ dn with phys := { dn.phys with blkptr := blkptr }, killed := dn.killed ++ [⟨level, i, bp⟩] },
      u64 (bytesfreed + bp.dasize))

/-- `free_blocks` of `num` pointers from the one of block `first` on. -/
def freeBlocks (dn : Syncing) (level first num : ℕ) : Syncing :=
  let (dn, bytesfreed) := (List.range' first num).foldl (freeBlock level) (dn, 0)
  dnodeDiduseSpace dn (-bytesfreed)

/-- The pointers of an indirect block that `free_children` goes through, and whether the block will have none left. -/
def childRange (epbs blkid nblks : ℕ) (trunc : Bool) (dbLevel dbBlkid : ℕ) : ℕ × ℕ × Bool :=
  let shift := (dbLevel - 1) * epbs
  let dbstart := dbBlkid <<< epbs
  let start := blkid >>> shift
  let (start, all) := if dbstart < start then (start, false) else (dbstart, true)
  let dbend := ((dbBlkid + 1) <<< epbs) - 1
  let stop := (blkid + nblks - 1) >>> shift
  if dbend ≤ stop then (start, dbend, all) else (start, stop, if all then trunc else all)

def freeIndirect (children : Syncing → ℕ → Syncing × Bool) (level : ℕ) (acc : Syncing × Bool) (i : ℕ) :
    Syncing × Bool :=
  let (dn, all) := acc
  if (dn.phys.blkptr level i).IsHole then (dn, all)
  else
    match children dn i with
    | (dn, true) => (freeBlocks dn level i 1, all)
    | (dn, false) => (dn, false)

/-- `free_children` of the block at level `n + 1`. -/
def freeChildren (blkid nblks : ℕ) (trunc : Bool) : ℕ → Syncing → ℕ → Syncing × Bool
  | 0, dn, dbBlkid =>
    let (start, stop, all) := childRange dn.phys.epbs blkid nblks trunc 1 dbBlkid
    (freeBlocks dn 0 start (stop + 1 - start), all)
  | n + 1, dn, dbBlkid =>
    let (start, stop, all) := childRange dn.phys.epbs blkid nblks trunc (n + 2) dbBlkid
    (List.range' start (stop + 1 - start)).foldl (freeIndirect (freeChildren blkid nblks trunc n) (n + 1)) (dn, all)

def truncated (dn : Syncing) (trunc : Bool) (blkid : ℕ) : Syncing :=
  if trunc then { dn with phys := { dn.phys with dnMaxblkid := if blkid = 0 then 0 else blkid - 1 } } else dn

/-- The part of `dnode_sync_free_range` that goes through the pointers in the dnode. -/
def freeFromDnode (dn : Syncing) (blkid nblks : ℕ) (trunc : Bool) : Syncing :=
  match dn.phys.dnNlevels - 1 with
  | 0 => freeBlocks dn 0 blkid nblks
  | n + 1 =>
    let shift := (n + 1) * dn.phys.epbs
    let start := blkid >>> shift
    let stop := (blkid + nblks - 1) >>> shift
    ((List.range' start (stop + 1 - start)).foldl
      (freeIndirect (freeChildren blkid nblks trunc n) (n + 1)) (dn, true)).1

/-- `dnode_sync_free_range` -/
def dnodeSyncFreeRange (dn : Syncing) (blkid nblks : ℕ) : Syncing :=
  if blkid > dn.phys.dnMaxblkid then dn
  else
    let trunc := decide (u64 (blkid + nblks) > dn.phys.dnMaxblkid)
    let nblks := if trunc then dn.phys.dnMaxblkid - blkid + 1 else nblks
    -- without indirect blocks, the range may never have been made persistent
    if dn.phys.dnNlevels = 1 ∧ blkid ≥ dn.phys.dnNblkptr then dn
    else truncated (freeFromDnode dn blkid nblks trunc) trunc blkid

end MacZfs.Dnode
