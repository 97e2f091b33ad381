import MacZfs.Base
import MacZfs.Lib.Runs

/-!
# Datasets, snapshots and clones

The part of `dsl_dataset.c` that decides when a block is freed. A dataset is its
`dsl_dataset_phys_t`, with the blocks that its `ds_bp` leads to in place of the block tree:
`traverse_dsl_dataset` visits those of them that were born after a given txg. Object number 0
stands for none, as in the source. Space accounting, names and properties are left out.
-/

namespace MacZfs.Dsl

/-- A block pointer. A block is born once, so `blkDva` and `blkBirth` tell it from all others. -/
structure Block where
  blkDva : ℕ
  blkBirth : ℕ
  deriving DecidableEq

/-- `dsl_dataset_phys_t`. -/
structure DsPhys where
  dsDirObj : ℕ
  dsPrevSnapObj : ℕ
  dsPrevSnapTxg : ℕ
  dsNextSnapObj : ℕ
  dsNumChildren : ℕ
  dsCreationTxg : ℕ
  dsDeadlist : List Block
  /-- The birth of `ds_bp` itself. -/
  dsBpBirth : ℕ
  /-- The blocks that `ds_bp` leads to. -/
  dsBlocks : List Block

/-- `dsl_dir_phys_t`. -/
structure DirPhys where
  ddHeadDatasetObj : ℕ
  ddCloneParentObj : ℕ

/-- The datasets of a pool, in the txg that is syncing. `freed` are the calls to `arc_free` and
    `born` the blocks that were ever born; no step looks at these two. -/
structure Pool where
  objs : Finset ℕ
  ds : ℕ → DsPhys
  dd : ℕ → DirPhys
  txg : ℕ
  freed : List Block
  born : List Block

namespace Pool

def setDs (s : Pool) (obj : ℕ) (phys : DsPhys) : Pool := { s with ds := Function.update s.ds obj phys }

/-- Blocks passed to `arc_free`. -/
def arcFree (s : Pool) (blocks : List Block) : Pool := { s with freed := s.freed ++ blocks }

end Pool

/-- The blocks that `traverse_dsl_dataset` visits. -/
def traverseDslDataset (ds : DsPhys) (txgStart : ℕ) : List Block :=
  ds.dsBlocks.filter fun b => b.blkBirth > txgStart

/-! ## Blocks -/

/-- `dsl_dataset_block_born`, with the write of the root that follows. -/
def dslDatasetBlockBorn (s : Pool) (obj : ℕ) (b : Block) : Pool :=
  let ds := s.ds obj
  { s.setDs obj { ds with dsBlocks := b :: ds.dsBlocks, dsBpBirth := s.txg } with
    born := b :: s.born }

/-- `dsl_dataset_block_kill`. -/
def dslDatasetBlockKill (s : Pool) (obj : ℕ) (b : Block) : Pool :=
  let ds := { s.ds obj with dsBlocks := (s.ds obj).dsBlocks.erase b, dsBpBirth := s.txg }
  if b.blkBirth > ds.dsPrevSnapTxg then (s.setDs obj ds).arcFree [b]
  else s.setDs obj { ds with dsDeadlist := ds.dsDeadlist ++ [b] }

/-! ## Creation -/

/-- `dmu_objset_create_check`: only snapshots can be cloned. -/
def createCheck (s : Pool) (cloneParent : ℕ) : Bool :=
  cloneParent == 0 || (s.ds cloneParent).dsNumChildren != 0

/-- `dsl_dataset_create_sync`; `cloneParent` is 0 if this is not a clone. -/
def dslDatasetCreateSync (s : Pool) (ddobj dsobj cloneParent : ℕ) : Pool :=
  let empty : DsPhys := ⟨ddobj, 0, 0, 0, 0, s.txg, [], 0, []⟩
  let s := { s with
    objs := insert dsobj s.objs
    dd := Function.update s.dd ddobj ⟨dsobj, cloneParent⟩ }
  if cloneParent = 0 then s.setDs dsobj empty
  else
    let parent := s.ds cloneParent
    (s.setDs dsobj { empty with
      dsPrevSnapObj := cloneParent
      dsPrevSnapTxg := parent.dsCreationTxg
      dsBpBirth := parent.dsBpBirth
      dsBlocks := parent.dsBlocks }).setDs cloneParent
        { parent with dsNumChildren := parent.dsNumChildren + 1 }

/-! ## Snapshots -/

/-- `dsl_dataset_snapshot_check`. -/
def dslDatasetSnapshotCheck (s : Pool) (obj : ℕ) : Bool := (s.ds obj).dsPrevSnapTxg < s.txg

def snapshotPrev (s : Pool) (prevobj obj dsobj : ℕ) : Pool :=
  let prev := s.ds prevobj
  if prevobj ≠ 0 ∧ prev.dsNextSnapObj = obj then s.setDs prevobj { prev with dsNextSnapObj := dsobj }
  else s

/-- `dsl_dataset_snapshot_sync`; `dsobj` is what `dmu_object_alloc` returns. -/
def dslDatasetSnapshotSync (s : Pool) (obj dsobj : ℕ) : Pool :=
  let ds := s.ds obj
  let s' := { s with objs := insert dsobj s.objs }.setDs dsobj { ds with
    dsNextSnapObj := obj
    dsNumChildren := 1
    dsCreationTxg := s.txg }
  (snapshotPrev s' ds.dsPrevSnapObj obj dsobj).setDs obj { ds with
    dsPrevSnapObj := dsobj
    dsPrevSnapTxg := s.txg
    dsDeadlist := [] }

/-! ## Rollback -/

/-- `dsl_dataset_rollback_check`. -/
def dslDatasetRollbackCheck (s : Pool) (obj : ℕ) : Bool :=
  let ds := s.ds obj
  ds.dsPrevSnapTxg != 0 && ds.dsNextSnapObj == 0 && ds.dsBpBirth < s.txg

/-- `dsl_dataset_rollback_sync`. -/
def dslDatasetRollbackSync (s : Pool) (obj : ℕ) : Pool :=
  let ds := s.ds obj
  let prev := s.ds ds.dsPrevSnapObj
  (s.setDs obj { ds with
    dsDeadlist := []
    dsBpBirth := prev.dsBpBirth
    dsBlocks := prev.dsBlocks }).arcFree (traverseDslDataset ds ds.dsPrevSnapTxg)

/-! ## Destroying -/

/-- `dsl_dataset_destroy_check`. The in-core `ds_prev` is set for head datasets only. -/
def dslDatasetDestroyCheck (s : Pool) (obj : ℕ) : Bool :=
  let ds := s.ds obj
  let dsPrev := if ds.dsNextSnapObj = 0 then ds.dsPrevSnapObj else 0
  ds.dsNumChildren ≤ 1 && !(dsPrev != 0 && (s.ds dsPrev).dsNextSnapObj == obj) && ds.dsBpBirth < s.txg

/-- The first part of `dsl_dataset_destroy_sync`: the previous snapshot. -/
def destroyPrev (s : Pool) (obj : ℕ) : Pool :=
  let ds := s.ds obj
  let prev := s.ds ds.dsPrevSnapObj
  if ds.dsPrevSnapObj = 0 then s
  else if prev.dsNextSnapObj ≠ obj then
    -- after a branch point
    if ds.dsNextSnapObj = 0 then
      s.setDs ds.dsPrevSnapObj { prev with dsNumChildren := prev.dsNumChildren - 1 }
    else s
  else s.setDs ds.dsPrevSnapObj { prev with dsNextSnapObj := ds.dsNextSnapObj }

def destroyNext (s : Pool) (obj : ℕ) : Pool :=
  let ds := s.ds obj
  if ds.dsNextSnapObj ≠ 0 then
    let next := s.ds ds.dsNextSnapObj
    (s.setDs ds.dsNextSnapObj { next with
      dsPrevSnapObj := ds.dsPrevSnapObj
      dsPrevSnapTxg := ds.dsPrevSnapTxg
      dsDeadlist := ds.dsDeadlist ++
        next.dsDeadlist.filter fun b => b.blkBirth ≤ ds.dsPrevSnapTxg }).arcFree
      (next.dsDeadlist.filter fun b => b.blkBirth > ds.dsPrevSnapTxg)
  else s.arcFree (traverseDslDataset ds ds.dsPrevSnapTxg)

/-- `dsl_dataset_destroy_sync`. -/
def dslDatasetDestroySync (s : Pool) (obj : ℕ) : Pool :=
  let dir := (s.ds obj).dsDirObj
  let s := destroyNext (destroyPrev s obj) obj
  { s with
    objs := s.objs.erase obj
    dd := if (s.dd dir).ddHeadDatasetObj = obj then
        Function.update s.dd dir { s.dd dir with ddHeadDatasetObj := 0 }
      else s.dd }

/-! ## Promotion -/

/-- The walk of `dsl_dataset_promote_check` from the head back to the dataset after the pivot. -/
def promoteNewnext (s : Pool) (pivot : ℕ) : (rounds : ℕ) → ℕ → Option ℕ
  | 0, _ => none
  | rounds + 1, obj =>
    if (s.ds obj).dsPrevSnapObj = pivot then some obj
    else if (s.ds obj).dsPrevSnapObj = 0 then none
    else promoteNewnext s pivot rounds (s.ds obj).dsPrevSnapObj

/-- The walk of `dsl_dataset_promote_sync` over the snapshots that move. -/
def promoteSnaps (s : Pool) : (rounds : ℕ) → ℕ → Option (List ℕ)
  | 0, _ => none
  | rounds + 1, obj =>
    let prev := (s.ds obj).dsPrevSnapObj
    if prev = 0 ∨ (s.ds prev).dsNextSnapObj ≠ obj then some [obj]
    else (promoteSnaps s rounds prev).map (obj :: ·)

/-- `dsl_dataset_promote_sync`. -/
def dslDatasetPromoteSync (s : Pool) (hds newnext : ℕ) (snaps : List ℕ) : Pool :=
  let dir := (s.ds hds).dsDirObj
  let pivot := (s.dd dir).ddCloneParentObj
  let pdir := (s.ds pivot).dsDirObj
  let moved : ℕ → DsPhys := fun o => if o ∈ snaps then { s.ds o with dsDirObj := dir } else s.ds o
  let dd := Function.update s.dd dir
    { s.dd dir with ddCloneParentObj := (s.dd pdir).ddCloneParentObj }
  { s with
    ds := Function.update moved pivot { moved pivot with dsNextSnapObj := newnext }
    dd := Function.update dd pdir { dd pdir with ddCloneParentObj := pivot } }

/-! ## Runs -/

def emptyPool (txg : ℕ) : Pool where
  objs := ∅
  ds _ := ⟨0, 0, 0, 0, 0, 0, [], 0, []⟩
  dd _ := ⟨0, 0⟩
  txg := txg
  freed := []
  born := []

inductive Step : Pool → Pool → Prop
  /-- A block is born in a head dataset. `dsl_pool_sync` writes the dirty datasets before it runs the
      sync tasks of the txg, so no block is born in a dataset once it was snapshot in this txg. -/
  | born {s : Pool} {obj : ℕ} {b : Block} (live : obj ∈ s.objs) (head : (s.ds obj).dsNextSnapObj = 0)
      (unsnapped : (s.ds obj).dsPrevSnapTxg < s.txg) (birth : b.blkBirth = s.txg)
      (fresh : b ∉ s.born) : Step s (dslDatasetBlockBorn s obj b)
  /-- A block that a head dataset references is killed. -/
  | kill {s : Pool} {obj : ℕ} {b : Block} (live : obj ∈ s.objs) (head : (s.ds obj).dsNextSnapObj = 0)
      (referenced : b ∈ (s.ds obj).dsBlocks) : Step s (dslDatasetBlockKill s obj b)
  /-- A dataset or a clone of `cloneParent` is created. -/
  | create {s : Pool} {ddobj dsobj cloneParent : ℕ} (nonzero : dsobj ≠ 0) (unused : dsobj ∉ s.objs)
      (parent : cloneParent = 0 ∨ cloneParent ∈ s.objs) (check : createCheck s cloneParent) :
      Step s (dslDatasetCreateSync s ddobj dsobj cloneParent)
  | snapshot {s : Pool} {obj dsobj : ℕ} (live : obj ∈ s.objs) (head : (s.ds obj).dsNextSnapObj = 0)
      (nonzero : dsobj ≠ 0) (unused : dsobj ∉ s.objs) (check : dslDatasetSnapshotCheck s obj) :
      Step s (dslDatasetSnapshotSync s obj dsobj)
  | rollback {s : Pool} {obj : ℕ} (live : obj ∈ s.objs) (check : dslDatasetRollbackCheck s obj) :
      Step s (dslDatasetRollbackSync s obj)
  /-- A snapshot, a clone or a head dataset is destroyed. -/
  | destroy {s : Pool} {obj : ℕ} (live : obj ∈ s.objs) (check : dslDatasetDestroyCheck s obj) :
      Step s (dslDatasetDestroySync s obj)
  /-- A clone is promoted. -/
  | promote {s : Pool} {hds newnext rounds : ℕ} {snaps : List ℕ} (live : hds ∈ s.objs)
      (head : (s.ds hds).dsNextSnapObj = 0) (clone : (s.dd (s.ds hds).dsDirObj).ddCloneParentObj ≠ 0)
      (walk : promoteNewnext s (s.dd (s.ds hds).dsDirObj).ddCloneParentObj rounds hds = some newnext)
      (moves : promoteSnaps s rounds (s.dd (s.ds hds).dsDirObj).ddCloneParentObj = some snaps) :
      Step s (dslDatasetPromoteSync s hds newnext snaps)
  /-- The next txg syncs. -/
  | next {s : Pool} : Step s { s with txg := s.txg + 1 }

/-- The runs of a pool that was created in the txg `first`. -/
def runs (first : ℕ) : Runs.System Pool where
  init s := s = emptyPool first
  step := Step

end MacZfs.Dsl
