import MacZfs.SpaceMap.Basic

/-! # Range locks

The range locks of a file, `zfs_rlock.c`. The AVL tree of a znode is modelled by its nodes in the order of
`zfs_range_compare`; a pointer to a node of the tree is the node itself, which the tree holds at most once. Every
function runs under `z_range_lock` from its start, or from the return of a `cv_wait`, to its end or the next
`cv_wait`, and so is one step here. What stops the machine, an `avl_add` of an entry that is there already or an
address that was never set, gives `none`.
-/

namespace MacZfs.Rlock

/-- `rl_type_t` -/
inductive RlType where
  | reader
  | writer
  | append
  deriving DecidableEq, Repr

/-- `rl_t`. `id` is its address. -/
structure Rl where
  id : ℕ
  rOff : ℕ
  rLen : ℕ
  rCnt : ℕ
  rType : RlType
  rProxy : Bool
  rWriteWanted : Bool
  rReadWanted : Bool
  deriving DecidableEq, Repr

/-- `r_off + r_len` -/
def Rl.stop (rl : Rl) : ℕ := u64 (rl.rOff + rl.rLen)

/-- `UINT64_MAX` -/
def uint64Max : ℕ := 2 ^ 64 - 1

/-- The range locks of a `znode_t`: the tree, the structures of the readers whose ranges are in the tree by proxies
    only, and the next address to be allocated. -/
structure Znode where
  zRangeAvl : List Rl
  shared : List Rl
  fresh : ℕ
  deriving DecidableEq, Repr

structure ZnodeSize where
  zVnode : Bool
  zpSize : ℕ
  zBlksz : ℕ
  zMaxBlksz : ℕ

def zfsRangeCompare (rl1 rl2 : Rl) : Ordering :=
  if rl1.rOff > rl2.rOff then .gt
  else if rl1.rOff < rl2.rOff then .lt
  else .eq

/-! ## The tree -/

def avlInsert (place : AvlPos Rl) (rl : Rl) : Option (List Rl) :=
  match place.node with
  | some _ => none
  | none => some (place.before ++ rl :: place.after)

def avlAdd (tree : List Rl) (rl : Rl) : Option (List Rl) := avlInsert (avlFind zfsRangeCompare rl tree) rl

def avlRemove (tree : List Rl) (rl : Rl) : List Rl :=
  let pos := avlFind zfsRangeCompare rl tree
  pos.before ++ pos.after

/-- `AVL_NEXT` -/
def avlNext (tree : List Rl) (rl : Rl) : Option Rl := (avlFind zfsRangeCompare rl tree).after.head?

/-- `avl_insert_here` after an entry of the tree. -/
def avlInsertHere (tree : List Rl) (rl here : Rl) : List Rl :=
  let pos := avlFind zfsRangeCompare here tree
  pos.before ++ (pos.node.toList ++ rl :: pos.after)

def avlModify (tree : List Rl) (rl : Rl) (change : Rl → Rl) : List Rl :=
  let pos := avlFind zfsRangeCompare rl tree
  pos.before ++ (pos.node.toList.map change ++ pos.after)

namespace Znode

def modify (zp : Znode) (rl : Rl) (change : Rl → Rl) : Znode :=
  { zp with zRangeAvl := avlModify zp.zRangeAvl rl change }

end Znode

/-! ## Writers -/

inductive Attempt where
  | granted (zp : Znode) (rl : Rl)
  | waits (zp : Znode)
  deriving DecidableEq, Repr

def writerRange (size : ZnodeSize) (off len : ℕ) (type : RlType) : ℕ × ℕ :=
  if size.zVnode then
    let off := if type = .append then size.zpSize else off
    let endSize := max size.zpSize (u64 (off + len))
    -- `ISP2`
    if endSize > size.zBlksz ∧ (size.zBlksz &&& u64Sub size.zBlksz 1 ≠ 0 ∨ size.zBlksz < size.zMaxBlksz) then
      (0, uint64Max)
    else (off, len)
  else (off, len)

/-- `r_write_wanted` is set on an entry and the thread waits. -/
def waitToWrite (zp : Znode) (rl : Rl) : Attempt := .waits (zp.modify rl fun rl => { rl with rWriteWanted := true })

/-- One round of `zfs_range_lock_writer`. -/
def zfsRangeLockWriter (zp : Znode) (size : ZnodeSize) (new : Rl) : Option Attempt :=
  let (off, len) := writerRange size new.rOff new.rLen new.rType
  let new := { new with rOff := off, rLen := len }
  let granted : Rl := { new with rType := .writer }
  if zp.zRangeAvl.length = 0 then
    (avlAdd zp.zRangeAvl granted).map fun tree => .granted { zp with zRangeAvl := tree } granted
  else
    let place := avlFind zfsRangeCompare new zp.zRangeAvl
    match place.node with
    | some rl => some (waitToWrite zp rl)
    | none =>
      match place.after.head?.filter fun rl => rl.rOff < new.stop with
      | some rl => some (waitToWrite zp rl)
      | none =>
        match place.before.getLast?.filter fun rl => rl.stop > new.rOff with
        | some rl => some (waitToWrite zp rl)
        | none => (avlInsert place granted).map fun tree => .granted { zp with zRangeAvl := tree } granted

/-! ## Readers -/

/-- `zfs_range_proxify` -/
def zfsRangeProxify (zp : Znode) (rl : Rl) : Option (Znode × Rl) :=
  if rl.rProxy then some (zp, rl)
  else do
    let proxy : Rl := ⟨zp.fresh, rl.rOff, rl.rLen, 1, .reader, true, false, false⟩
    let tree ← avlAdd (avlRemove zp.zRangeAvl rl) proxy
    return (⟨tree, { rl with rCnt := 0 } :: zp.shared, zp.fresh + 1⟩, proxy)

/-- `zfs_range_split`, which returns the front. -/
def zfsRangeSplit (zp : Znode) (rl : Rl) (off : ℕ) : Option (Znode × Rl) := do
  let rear : Rl := ⟨zp.fresh, off, u64Sub rl.stop off, rl.rCnt, .reader, true, false, false⟩
  let (zp, front) ← zfsRangeProxify { zp with fresh := zp.fresh + 1 } rl
  let zp := zp.modify front fun front => { front with rLen := u64Sub off rl.rOff }
  let front := { front with rLen := u64Sub off rl.rOff }
  return ({ zp with zRangeAvl := avlInsertHere zp.zRangeAvl rear front }, front)

/-- `zfs_range_new_proxy` -/
def zfsRangeNewProxy (zp : Znode) (off len : ℕ) : Option Znode := do
  let tree ← avlAdd zp.zRangeAvl ⟨zp.fresh, off, len, 1, .reader, true, false, false⟩
  return { zp with zRangeAvl := tree, fresh := zp.fresh + 1 }

/-- `r_cnt++` -/
def bump (zp : Znode) (rl : Rl) : Znode := zp.modify rl fun rl => { rl with rCnt := rl.rCnt + 1 }

/-- The remaining end range, after the loop of `zfs_range_add_reader`. -/
def addReaderEnd (zp : Znode) (stop : ℕ) : Option Rl → Option Znode
  | some prev => zfsRangeNewProxy zp prev.stop (u64Sub stop prev.stop)
  | none => some zp

def proxyBefore (zp : Znode) (off : ℕ) (next : Rl) : Option Znode :=
  if off < next.rOff then zfsRangeNewProxy zp off (u64Sub next.rOff off) else some zp

def addReaderGap (zp : Znode) (next : Rl) : Option Rl → Option Znode
  | some prev => proxyBefore zp prev.stop next
  | none => some zp

/-- The loop of `zfs_range_add_reader`, for a range that ends at `stop`. -/
def addReaderLoop (stop : ℕ) : ℕ → Znode → Option Rl → Option Rl → Option Znode
  | 0, _, _, _ => none
  | _ + 1, zp, prev, none => addReaderEnd zp stop prev
  | rounds + 1, zp, prev, some next =>
    if stop ≤ next.rOff then addReaderEnd zp stop prev
    else do
      let zp ← addReaderGap zp next prev
      if stop = next.stop then
        let (zp, next) ← zfsRangeProxify zp next
        return bump zp next
      else if stop < next.stop then
        let (zp, next) ← zfsRangeSplit zp next stop
        return bump zp next
      else
        let (zp, next) ← zfsRangeProxify zp next
        let zp := bump zp next
        let next := { next with rCnt := next.rCnt + 1 }
        addReaderLoop stop rounds zp (some next) (avlNext zp.zRangeAvl next)

/-- The first part of `zfs_range_add_reader`: the entry that starts where the new range does, split off from the
    entry before it if need be. -/
def addReaderFirst (zp : Znode) (off : ℕ) : Option Rl → Option (Znode × Option Rl)
  | none => some (zp, none)
  | some prev =>
    if prev.stop ≤ off then some (zp, none)
    else if prev.rOff ≠ off then do
      let (zp, front) ← zfsRangeSplit zp prev off
      return (zp, avlNext zp.zRangeAvl front)
    else some (zp, some prev)

/-- `zfs_range_add_reader` -/
def zfsRangeAddReader (zp : Znode) (new : Rl) (prev : Option Rl) (place : AvlPos Rl) : Option Attempt := do
  let off := new.rOff
  let stop := new.stop
  let (zp, prev) ← addReaderFirst zp off prev
  match prev.or place.after.head? with
  | none =>
    let tree ← avlInsert place new
    return .granted { zp with zRangeAvl := tree } new
  | some next =>
    if stop ≤ next.rOff then
      -- no overlaps, use the original new rl_t in the tree
      let tree ← avlInsert place new
      return .granted { zp with zRangeAvl := tree } new
    else
      -- a proxy for the initial range before the overlap
      let zp ← proxyBefore zp off next
      let new := { new with rCnt := 0 }
      let zp ← addReaderLoop stop (zp.zRangeAvl.length + 1) zp none (some next)
      return .granted { zp with shared := new :: zp.shared } new

def holdsOff (rl : Rl) : Bool := decide (rl.rType = .writer) || rl.rWriteWanted

/-- The search of `zfs_range_lock_reader` through the following entries, for one to wait for. -/
def writerAhead (stop : ℕ) : List Rl → Option Rl
  | [] => none
  | next :: rest =>
    if stop ≤ next.rOff then none
    else if holdsOff next then some next
    else if stop ≤ next.stop then none
    else writerAhead stop rest

/-- `r_read_wanted` is set on an entry and the thread waits. -/
def waitToRead (zp : Znode) (rl : Rl) : Attempt := .waits (zp.modify rl fun rl => { rl with rReadWanted := true })

/-- The part of `zfs_range_lock_reader` that goes through the following entries. -/
def readerSearch (zp : Znode) (new : Rl) (prev : Option Rl) (place : AvlPos Rl) (following : List Rl) :
    Option Attempt :=
  match writerAhead new.stop following with
  | some rl => some (waitToRead zp rl)
  | none => zfsRangeAddReader zp new prev place

/-- `zfs_range_lock_reader` with the entry at or before the start of the new range. -/
def readerFrom (zp : Znode) (new : Rl) (place : AvlPos Rl) : Option Rl → Option Attempt
  | none => readerSearch zp new none place place.after
  | some rl =>
    let following := (avlFind zfsRangeCompare rl zp.zRangeAvl).after
    if new.rOff < rl.stop then
      if holdsOff rl then some (waitToRead zp rl)
      else if new.stop < rl.stop then zfsRangeAddReader zp new (some rl) place
      else readerSearch zp new (some rl) place following
    else readerSearch zp new (some rl) place following

/-- One round of `zfs_range_lock_reader`. -/
def zfsRangeLockReader (zp : Znode) (new : Rl) : Option Attempt :=
  let place := avlFind zfsRangeCompare new zp.zRangeAvl
  readerFrom zp new place (place.node.or place.before.getLast?)

/-- `zfs_range_lock` -/
def zfsRangeLock (zp : Znode) (size : ZnodeSize) (off len : ℕ) (type : RlType) : Option Attempt :=
  let new : Rl := ⟨zp.fresh, off, len, 1, type, false, false, false⟩
  let zp := { zp with fresh := zp.fresh + 1 }
  if type = .reader then
    if zp.zRangeAvl.length = 0 then do
      let tree ← avlAdd zp.zRangeAvl new
      return .granted { zp with zRangeAvl := tree } new
    else zfsRangeLockReader zp new
  else zfsRangeLockWriter zp size new

/-! ## Unlock and reduce -/

/-- `r_cnt--`, and the entry goes if that was the last reader. -/
def release (zp : Znode) (rl : Rl) : Znode :=
  if rl.rCnt - 1 = 0 then { zp with zRangeAvl := avlRemove zp.zRangeAvl rl }
  else zp.modify rl fun rl => { rl with rCnt := rl.rCnt - 1 }

/-- The loop of `zfs_range_unlock_reader`. -/
def unlockLoop : ℕ → Znode → ℕ → Option Rl → Option Znode
  | _, zp, 0, _ => some zp
  | 0, _, _, _ => none
  | _, _, _, none => none
  | rounds + 1, zp, len, some rl =>
    let len := u64Sub len rl.rLen
    unlockLoop rounds (release zp rl) len (avlNext zp.zRangeAvl rl)

/-- `zfs_range_unlock_reader` -/
def zfsRangeUnlockReader (zp : Znode) (remove : Rl) : Option Znode :=
  if remove.rCnt = 1 then some { zp with zRangeAvl := avlRemove zp.zRangeAvl remove }
  else do
    let rl := (avlFind zfsRangeCompare remove zp.zRangeAvl).node
    let zp ← unlockLoop (zp.zRangeAvl.length + 1) zp remove.rLen rl
    return { zp with shared := zp.shared.filter fun rl => rl.id ≠ remove.id }

def Znode.at (zp : Znode) (id : ℕ) : Option Rl := (zp.zRangeAvl ++ zp.shared).find? fun rl => rl.id = id

/-- `zfs_range_unlock` -/
def zfsRangeUnlock (zp : Znode) (id : ℕ) : Option Znode := do
  let rl ← zp.at id
  if rl.rType = .writer then some { zp with zRangeAvl := avlRemove zp.zRangeAvl rl }
  else zfsRangeUnlockReader zp rl

/-- `zfs_range_reduce` -/
def zfsRangeReduce (zp : Znode) (id off len : ℕ) : Option Znode := do
  let rl ← zp.at id
  return zp.modify rl fun rl => { rl with rOff := off, rLen := len }

end MacZfs.Rlock
