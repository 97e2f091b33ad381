import MacZfs.Dsl.Branches

/-!
# The space of datasets and directories

A dataset keeps the space of all its blocks, and its directory the space of the blocks that were born in its
datasets and not freed. Promotion moves snapshots to another directory, and computes from the sizes of the
datasets and of their deadlists how much space goes with them. A directory also counts the space of the
directories below it; only what is its own is kept here.
-/

namespace MacZfs.Dsl

/-- Bytes that are used, and those of the compressed and of the uncompressed data. Differences that wrap around
    in the source are negative here. -/
abbrev Space := ℤ × ℤ × ℤ

/-- A pool with `ds_used_bytes`, `ds_compressed_bytes` and `ds_uncompressed_bytes` of its datasets, and the same
    of its directories. -/
structure Usage where
  pool : Pool
  ds : ℕ → Space
  dd : ℕ → Space

/-- `bplist_phys_t`, with the entries of the list. Those of older pools have no `bpl_comp` and `bpl_uncomp`. -/
structure Bplist where
  bplEntries : List Block
  bplBytes : ℤ
  bplComp : ℤ
  bplUncomp : ℤ
  bplHavecomp : Bool

section Ops

-- `bp_get_dasize`, `BP_GET_PSIZE` and `BP_GET_UCSIZE`
variable (bpSpace : Block → Space)

def total (blocks : List Block) : Space := (blocks.map bpSpace).sum

namespace Bplist

def create (havecomp : Bool) : Bplist := ⟨[], 0, 0, 0, havecomp⟩

/-- `bplist_enqueue`. -/
def enqueue (bpl : Bplist) (b : Block) : Bplist :=
  { bpl with
    bplEntries := bpl.bplEntries ++ [b]
    bplBytes := bpl.bplBytes + (bpSpace b).1
    bplComp := if bpl.bplHavecomp then bpl.bplComp + (bpSpace b).2.1 else bpl.bplComp
    bplUncomp := if bpl.bplHavecomp then bpl.bplUncomp + (bpSpace b).2.2 else bpl.bplUncomp }

/-- `bplist_space`. -/
def space (bpl : Bplist) : Space :=
  if bpl.bplHavecomp then (bpl.bplBytes, bpl.bplComp, bpl.bplUncomp)
  else
    bpl.bplEntries.foldl (fun sum b => (sum.1, sum.2.1 + (bpSpace b).2.1, sum.2.2 + (bpSpace b).2.2))
      (bpl.bplBytes, 0, 0)

end Bplist

def bplistSpace (havecomp : Bool) (deadlist : List Block) : Space :=
  (deadlist.foldl (Bplist.enqueue bpSpace) (.create havecomp)).space bpSpace

namespace Usage

/-- `dsl_dir_diduse_space`, for the directory itself. -/
def diduse (dd : ℕ → Space) (dir : ℕ) (used : Space) : ℕ → Space := Function.update dd dir (dd dir + used)

def blockBorn (u : Usage) (obj : ℕ) (b : Block) : Usage where
  pool := dslDatasetBlockBorn u.pool obj b
  ds := Function.update u.ds obj (u.ds obj + bpSpace b)
  dd := diduse u.dd (u.pool.dir obj) (bpSpace b)

def blockKill (u : Usage) (obj : ℕ) (b : Block) : Usage where
  pool := dslDatasetBlockKill u.pool obj b
  ds := Function.update u.ds obj (u.ds obj - bpSpace b)
  dd :=
    if b.blkBirth > (u.pool.ds obj).dsPrevSnapTxg then diduse u.dd (u.pool.dir obj) (-bpSpace b)
    else u.dd

def create (u : Usage) (ddobj dsobj cloneParent : ℕ) : Usage where
  pool := dslDatasetCreateSync u.pool ddobj dsobj cloneParent
  ds := Function.update u.ds dsobj (if cloneParent = 0 then 0 else u.ds cloneParent)
  dd := Function.update u.dd ddobj 0

def snapshot (u : Usage) (obj dsobj : ℕ) : Usage where
  pool := dslDatasetSnapshotSync u.pool obj dsobj
  ds := Function.update u.ds dsobj (u.ds obj)
  dd := u.dd

def rollback (u : Usage) (obj : ℕ) : Usage where
  pool := dslDatasetRollbackSync u.pool obj
  ds := Function.update u.ds obj (u.ds (u.pool.ds obj).dsPrevSnapObj)
  dd := diduse u.dd (u.pool.dir obj)
    (-total bpSpace (traverseDslDataset (u.pool.ds obj) (u.pool.ds obj).dsPrevSnapTxg))

/-- What `dsl_dataset_destroy_sync` frees. -/
def destroyed (s : Pool) (obj : ℕ) : List Block :=
  let ds := s.ds obj
  if ds.dsNextSnapObj ≠ 0 then
    (s.ds ds.dsNextSnapObj).dsDeadlist.filter fun b => b.blkBirth > ds.dsPrevSnapTxg
  else traverseDslDataset ds ds.dsPrevSnapTxg

def destroy (u : Usage) (obj : ℕ) : Usage where
  pool := dslDatasetDestroySync u.pool obj
  ds := u.ds
  dd := diduse u.dd (u.pool.dir obj) (-total bpSpace (destroyed u.pool obj))

/-- `struct promotearg`, with `used`, `comp` and `uncomp` as one. -/
structure PromoteArg where
  newnextObj : ℕ
  space : Space
  deriving DecidableEq

/-- The walk of `dsl_dataset_promote_check` over the snapshots that would move. Each snapshot gave birth to its
    used space, less that of the one before, and the space of its deadlist. -/
def promoteSpace (u : Usage) (havecomp : ℕ → Bool) : (rounds : ℕ) → ℕ → Option Space
  | 0, _ => none
  | rounds + 1, obj =>
    let ds := u.pool.ds obj
    if ds.dsPrevSnapObj = 0 then some (u.ds obj)
    else
      let born := u.ds obj + (bplistSpace bpSpace (havecomp obj) ds.dsDeadlist - u.ds ds.dsPrevSnapObj)
      -- a clone of a clone: the branch point of the parent is reached
      if (u.pool.ds ds.dsPrevSnapObj).dsNextSnapObj ≠ obj then some born
      else (u.promoteSpace havecomp rounds ds.dsPrevSnapObj).map (born + ·)

/-- `dsl_dataset_promote_check`. The names of the snapshots and the limits of the directories are left out; they
    can only refuse more. -/
def promoteCheck (u : Usage) (havecomp : ℕ → Bool) (rounds hds : ℕ) : Option PromoteArg :=
  let pivot := (u.pool.dd (u.pool.ds hds).dsDirObj).ddCloneParentObj
  if pivot = 0 then none
  else do
    let newnext ← promoteNewnext u.pool pivot rounds hds
    let space ← u.promoteSpace bpSpace havecomp rounds pivot
    return ⟨newnext, space⟩

/-- `dsl_dataset_promote_sync`. -/
def promote (u : Usage) (hds : ℕ) (pa : PromoteArg) (snaps : List ℕ) : Usage where
  pool := dslDatasetPromoteSync u.pool hds pa.newnextObj snaps
  ds := u.ds
  dd :=
    let pivot := (u.pool.dd (u.pool.ds hds).dsDirObj).ddCloneParentObj
    diduse (diduse u.dd (u.pool.dir pivot) (-pa.space)) (u.pool.dir hds) pa.space

end Usage

/-- The steps of a pool with its space, under the same conditions as those of `Step`. `dsl_dir_create_sync`
    allocates an object for the directory of a new dataset. -/
inductive UsageStep : Usage → Usage → Prop
  | born {u : Usage} {obj : ℕ} {b : Block} (live : obj ∈ u.pool.objs) (head : (u.pool.ds obj).dsNextSnapObj = 0)
      (unsnapped : (u.pool.ds obj).dsPrevSnapTxg < u.pool.txg) (birth : b.blkBirth = u.pool.txg)
      (fresh : b ∉ u.pool.born) : UsageStep u (u.blockBorn bpSpace obj b)
  | kill {u : Usage} {obj : ℕ} {b : Block} (live : obj ∈ u.pool.objs) (head : (u.pool.ds obj).dsNextSnapObj = 0)
      (referenced : b ∈ (u.pool.ds obj).dsBlocks) : UsageStep u (u.blockKill bpSpace obj b)
  | create {u : Usage} {ddobj dsobj cloneParent : ℕ} (nonzero : dsobj ≠ 0) (unused : dsobj ∉ u.pool.objs)
      (fresh : ∀ o ∈ u.pool.objs, u.pool.dir o ≠ ddobj) (parent : cloneParent = 0 ∨ cloneParent ∈ u.pool.objs)
      (check : createCheck u.pool cloneParent) : UsageStep u (u.create ddobj dsobj cloneParent)
  | snapshot {u : Usage} {obj dsobj : ℕ} (live : obj ∈ u.pool.objs) (head : (u.pool.ds obj).dsNextSnapObj = 0)
      (nonzero : dsobj ≠ 0) (unused : dsobj ∉ u.pool.objs) (check : dslDatasetSnapshotCheck u.pool obj) :
      UsageStep u (u.snapshot obj dsobj)
  | rollback {u : Usage} {obj : ℕ} (live : obj ∈ u.pool.objs) (check : dslDatasetRollbackCheck u.pool obj) :
      UsageStep u (u.rollback bpSpace obj)
  | destroy {u : Usage} {obj : ℕ} (live : obj ∈ u.pool.objs) (check : dslDatasetDestroyCheck u.pool obj) :
      UsageStep u (u.destroy bpSpace obj)
  | promote {u : Usage} {havecomp : ℕ → Bool} {hds rounds : ℕ} {pa : Usage.PromoteArg} {snaps : List ℕ}
      (live : hds ∈ u.pool.objs) (head : (u.pool.ds hds).dsNextSnapObj = 0)
      (check : u.promoteCheck bpSpace havecomp rounds hds = some pa)
      (moves : promoteSnaps u.pool rounds (u.pool.dd (u.pool.ds hds).dsDirObj).ddCloneParentObj = some snaps) :
      UsageStep u (u.promote hds pa snaps)
  | next {u : Usage} : UsageStep u { u with pool := { u.pool with txg := u.pool.txg + 1 } }

def usageRuns (first : ℕ) : Runs.System Usage where
  init u := u.pool = emptyPool first ∧ (∀ o, u.ds o = 0) ∧ ∀ d, u.dd d = 0
  step := UsageStep bpSpace

end Ops

/-! ## Lists of blocks -/

section Totals

variable {bpSpace : Block → Space}

@[simp]
theorem total_nil : total bpSpace [] = 0 := rfl

@[simp]
theorem total_cons (b) (l) : total bpSpace (b :: l) = bpSpace b + total bpSpace l := by
  simp [total]

@[simp]
theorem total_append (l l' : List Block) : total bpSpace (l ++ l') = total bpSpace l + total bpSpace l' := by
  simp [total]

theorem total_perm (perm : l.Perm l') : total bpSpace l = total bpSpace l' :=
  (perm.map bpSpace).sum_eq

theorem total_erase (inside : b ∈ l) : total bpSpace (l.erase b) = total bpSpace l - bpSpace b := by
  rw [total_perm (List.perm_cons_erase inside), total_cons, add_sub_cancel_left]

theorem Bplist.space_enqueue (bpl : Bplist) (b : Block) :
    (bpl.enqueue bpSpace b).space bpSpace = bpl.space bpSpace + bpSpace b := by
  have shifted : ∀ (l : List Block) (first : Space) (extra : ℤ),
      l.foldl (fun sum b => (sum.1, sum.2.1 + (bpSpace b).2.1, sum.2.2 + (bpSpace b).2.2)) (first.1 + extra, first.2) =
        (l.foldl (fun sum b => (sum.1, sum.2.1 + (bpSpace b).2.1, sum.2.2 + (bpSpace b).2.2)) first) + (extra, 0, 0) := by
    intro l
    induction l with
    | nil => exact fun first extra => by simp [Prod.ext_iff]
    | cons x rest ih => exact fun first extra => ih (first.1, first.2.1 + (bpSpace x).2.1, first.2.2 + (bpSpace x).2.2) extra
  cases bpl with
  | mk entries bytes comp uncomp havecomp =>
    cases havecomp with
    | true => rfl
    | false =>
      have := shifted entries (bytes, 0, 0) (bpSpace b).1
      simp only [Bplist.enqueue, Bplist.space, Bool.false_eq_true, if_false, List.foldl_append, List.foldl_cons,
        List.foldl_nil] at this ⊢
      rw [this]
      simp [Prod.ext_iff]

theorem bplistSpace_eq (havecomp : Bool) (deadlist : List Block) :
    bplistSpace bpSpace havecomp deadlist = total bpSpace deadlist := by
  have sums : ∀ (l : List Block) (bpl : Bplist),
      (l.foldl (Bplist.enqueue bpSpace) bpl).space bpSpace = bpl.space bpSpace + total bpSpace l := by
    intro l
    induction l with
    | nil => simp
    | cons b rest ih => exact fun bpl => by rw [List.foldl_cons, ih, Bplist.space_enqueue, total_cons, add_assoc]
  rw [bplistSpace, sums]
  cases havecomp <;> exact zero_add _

end Totals

end MacZfs.Dsl
