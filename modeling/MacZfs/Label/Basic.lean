import MacZfs.Base
import MacZfs.Lib.WriteCache

/-!
# Labels and uberblocks

The part of `vdev_label.c` that writes labels and uberblocks, and the part that finds the newest
uberblock again. A disk is a map from locations to what a read of them gives: a label or uberblock
whose checksum holds, or nothing useful. What the code does to the disks is a list of events.
-/

namespace MacZfs.Label

open WriteCache

/-! ## Vdevs -/

/-- A leaf of the vdev tree, with what the code looks up in its `vdev_top`. -/
structure Leaf where
  vdevGuid : ℕ
  /-- `vdev_is_dead`. -/
  vdevIsDead : Bool
  vdevTopAshift : ℕ
  vdevTopMsArray : ℕ
  /-- A unit is no larger than `SPA_MAXBLOCKSIZE`. -/
  ashift_le : vdevTopAshift ≤ 17
  deriving DecidableEq

inductive Vdev where
  | leaf (leaf : Leaf)
  | interior (children : List Vdev)

mutual

def Vdev.forLeaves {α : Type} (f : Leaf → List α) : Vdev → List α
  | .leaf leaf => f leaf
  | .interior children => forChildren f children

def forChildren {α : Type} (f : Leaf → List α) : List Vdev → List α
  | [] => []
  | child :: rest => child.forLeaves f ++ forChildren f rest

end

def Vdev.leaves (vd : Vdev) : List Leaf := vd.forLeaves fun leaf => [leaf]

structure Top where
  vdevTree : Vdev
  vdevIslog : Bool

/-! ## What is on disk -/

/-- `VDEV_LABELS`. -/
abbrev vdevLabels : ℕ := 4

/-- `ub_rootbp`: its birth, and the other words. -/
structure Rootbp where
  blkBirth : ℕ
  blkRest : List ℕ
  deriving DecidableEq

/-- `uberblock_t`. -/
structure Uberblock where
  ubMagic : ℕ
  ubVersion : ℕ
  ubTxg : ℕ
  ubGuidSum : ℕ
  ubTimestamp : ℕ
  ubRootbp : Rootbp
  deriving DecidableEq

/-- `UBERBLOCK_MAGIC`. -/
def uberblockMagic : ℕ := 0x00bab10c

/-- `UBERBLOCK_SHIFT`. -/
def uberblockShift : ℕ := 10

/-- `VDEV_UBERBLOCK_COUNT`. -/
def vdevUberblockCount (leaf : Leaf) : ℕ := (128 <<< 10) >>> max leaf.vdevTopAshift uberblockShift

/-- The parts of the labels of a leaf: `vl_vdev_phys`, and the slots of `vl_uberblock`. -/
inductive Loc where
  | phys (guid : ℕ) (l : Fin vdevLabels)
  | uber (guid : ℕ) (l : Fin vdevLabels) (n : ℕ)
  deriving DecidableEq

def Loc.guid : Loc → ℕ
  | .phys guid _ => guid
  | .uber guid _ _ => guid

/-- What a location holds. `κ` stands for the configurations that labels describe. -/
inductive Content (κ : Type) where
  | label (txg : ℕ) (config : κ)
  | uberblock (ub : Uberblock)
  /-- The checksum is wrong, or nothing was ever written. -/
  | bad

variable {κ : Type}

abbrev Disk (κ : Type) := Loc → Content κ

abbrev IoEvent (κ : Type) := Event Loc ℕ (Content κ)

/-! ## Finding the newest uberblock -/

/-- `BSWAP_64`. -/
def bswap64 (x : ℕ) : ℕ :=
  (List.range 8).foldl (fun acc i => acc + (x / 256 ^ i % 256) * 256 ^ (7 - i)) 0

/-- `byteswap_uint64_array` on an uberblock. -/
def byteswapUberblock (ub : Uberblock) : Uberblock where
  ubMagic := bswap64 ub.ubMagic
  ubVersion := bswap64 ub.ubVersion
  ubTxg := bswap64 ub.ubTxg
  ubGuidSum := bswap64 ub.ubGuidSum
  ubTimestamp := bswap64 ub.ubTimestamp
  ubRootbp := ⟨bswap64 ub.ubRootbp.blkBirth, ub.ubRootbp.blkRest.map bswap64⟩

/-- `uberblock_verify`, with the uberblock in native byte order if it is good. -/
def uberblockVerify (ub : Uberblock) : Option Uberblock :=
  let ub := if ub.ubMagic = bswap64 uberblockMagic then byteswapUberblock ub else ub
  if ub.ubMagic = uberblockMagic then some ub else none

/-- `vdev_uberblock_compare`. -/
def vdevUberblockCompare (ub1 ub2 : Uberblock) : Ordering :=
  (compare ub1.ubTxg ub2.ubTxg).then (compare ub1.ubTimestamp ub2.ubTimestamp)

def Content.readUberblock : Content κ → Option Uberblock
  | .uberblock ub => uberblockVerify ub
  | .label _ _ | .bad => none

/-- `vdev_uberblock_load_done`. -/
def vdevUberblockLoadDone (ubbest : Uberblock) (content : Content κ) : Uberblock :=
  match content.readUberblock with
  | some ub => if vdevUberblockCompare ub ubbest = .gt then ub else ubbest
  | none => ubbest

/-- The locations that `vdev_uberblock_load` reads. -/
def uberblockLocs (vd : Vdev) : List Loc :=
  vd.forLeaves fun leaf =>
    if leaf.vdevIsDead then []
    else (List.finRange vdevLabels).flatMap fun l =>
      (List.range (vdevUberblockCount leaf)).map (.uber leaf.vdevGuid l)

/-- `vdev_uberblock_load` into a zeroed uberblock, with the reads done in the given order. -/
def vdevUberblockLoad (disk : Disk κ) (order : List Loc) : Uberblock :=
  order.foldl (fun ubbest loc => vdevUberblockLoadDone ubbest (disk loc)) ⟨0, 0, 0, 0, 0, ⟨0, []⟩⟩

/-! ## Writing -/

inductive Errno where
  | eio
  | enodev
  deriving DecidableEq

structure Script (κ : Type) where
  events : List (IoEvent κ)
  error : Option Errno

def Script.andThen (a b : Script κ) : Script κ :=
  match a.error with
  | some e => ⟨a.events, some e⟩
  | none => ⟨a.events ++ b.events, b.error⟩

/-- What `vdev_config_sync` looks up. `io` says which writes succeed. -/
structure Spa (κ : Type) where
  rootVdev : List Top
  dirtyList : List Top
  /-- The vdevs that were written to in this txg. -/
  vdevTxgList : List Vdev
  spaUberblock : Uberblock
  guidSum : ℕ
  freezeTxg : ℕ
  /-- `gethrestime_sec`. -/
  now : ℕ
  /-- The label that `spa_config_generate` makes for a leaf, if `nvlist_pack` finds room for it. -/
  configGenerate : ℕ → Option κ
  io : IoEvent κ → Bool

/-- `spa_root_vdev`. -/
def Spa.rvd (spa : Spa κ) : Vdev := .interior (spa.rootVdev.map Top.vdevTree)

/-- `zio_ioctl` with `DKIOCFLUSHWRITECACHE`. -/
def flushWriteCache (vd : Vdev) : List (IoEvent κ) :=
  vd.forLeaves fun leaf => [.flush leaf.vdevGuid]

/-- `vdev_sync_label`. -/
def vdevSyncLabel (spa : Spa κ) (l : Fin vdevLabels) (txg : ℕ) (vd : Vdev) : List (IoEvent κ) :=
  vd.forLeaves fun leaf =>
    if leaf.vdevIsDead then []
    else match spa.configGenerate leaf.vdevGuid with
      | none => []
      | some config => [.write (.phys leaf.vdevGuid l) (.label txg config)]

def groupError (failed : Bool) (goodWrites : ℕ) (noWrites : Errno) : Option Errno :=
  let error := if failed then some .eio else none
  let error := if error ≠ none ∧ goodWrites ≠ 0 then none else error
  if goodWrites = 0 ∧ error = none then some noWrites else error

/-- `vdev_sync_labels`. -/
def vdevSyncLabels (spa : Spa κ) (vd : Top) (l : Fin vdevLabels) (txg : ℕ) : Script κ :=
  let writes := vdevSyncLabel spa l txg vd.vdevTree
  let error := groupError (!writes.all spa.io) (writes.countP spa.io) .enodev
  ⟨writes, if vd.vdevIslog then none else error⟩

def dirtyLabels (spa : Spa κ) (parity : ℕ) : List (Top × Fin vdevLabels) :=
  spa.dirtyList.flatMap fun vd =>
    ((List.finRange vdevLabels).filter fun l => l.val &&& 1 = parity).map fun l => (vd, l)

/-- `vdev_sync_labels` for one after the other, up to an error. -/
def syncLabels (spa : Spa κ) (txg : ℕ) : List (Top × Fin vdevLabels) → Script κ
  | [] => ⟨[], none⟩
  | (vd, l) :: rest => (vdevSyncLabels spa vd l txg).andThen (syncLabels spa txg rest)

/-- `vdev_uberblock_sync`, with the leaf that each write is for. -/
def vdevUberblockSync (ub : Uberblock) (txg : ℕ) (vd : Vdev) : List (Leaf × IoEvent κ) :=
  vd.forLeaves fun leaf =>
    if leaf.vdevIsDead then []
    else (List.finRange vdevLabels).map fun l =>
      (leaf, .write (.uber leaf.vdevGuid l (txg &&& (vdevUberblockCount leaf - 1))) (.uberblock ub))

/-- `vdev_uberblock_sync_tree`. -/
def vdevUberblockSyncTree (spa : Spa κ) (ub : Uberblock) (txg : ℕ) (vd : Vdev) : Script κ :=
  let writes := vdevUberblockSync ub txg vd
  let good := writes.countP fun w => spa.io w.2 && w.1.vdevTopMsArray != 0
  ⟨writes.map Prod.snd, groupError (!writes.all fun w => spa.io w.2) good .eio⟩

/-- `uberblock_update`, with whether anything changed. -/
def uberblockUpdate (spa : Spa κ) (txg : ℕ) : Uberblock × Bool :=
  let ub := { spa.spaUberblock with
    ubMagic := uberblockMagic
    ubTxg := txg
    ubGuidSum := spa.guidSum
    ubTimestamp := spa.now }
  (ub, ub.ubRootbp.blkBirth = txg)

/-- The uberblock that `vdev_config_sync` writes: updated, unless this is a resync. -/
def syncUberblock (spa : Spa κ) (txg : ℕ) : Uberblock :=
  if spa.spaUberblock.ubTxg < txg then (uberblockUpdate spa txg).1 else spa.spaUberblock

/-- The events of `vdev_config_sync` once there is something to do. -/
def configSyncScript (spa : Spa κ) (uvd : Vdev) (txg : ℕ) : Script κ :=
  let flushDirty : Script κ := ⟨spa.dirtyList.flatMap fun vd => flushWriteCache vd.vdevTree, none⟩
  Script.andThen ⟨spa.vdevTxgList.flatMap flushWriteCache, none⟩ <|
  (syncLabels spa txg (dirtyLabels spa 0)).andThen <|
  flushDirty.andThen <|
  (vdevUberblockSyncTree spa (syncUberblock spa txg) txg uvd).andThen <|
  Script.andThen ⟨flushWriteCache uvd, none⟩ <|
  (syncLabels spa txg (dirtyLabels spa 1)).andThen flushDirty

/-- `vdev_config_sync`. -/
def vdevConfigSync (spa : Spa κ) (uvd : Vdev) (txg : ℕ) : Script κ :=
  if spa.spaUberblock.ubTxg < txg ∧ (uberblockUpdate spa txg).2 = false ∧ spa.dirtyList = [] then
    ⟨[], none⟩
  else if txg > spa.freezeTxg then ⟨[], none⟩
  else configSyncScript spa uvd txg

end MacZfs.Label
