import MacZfs.Dsl.Blocks

/-!
# Unique bytes

`ds_unique_bytes` of a snapshot is the space that destroying it gives back: the blocks on the deadlist
of the next snapshot that were born after the previous one. It is kept beside the datasets here. That of
a head dataset is not accurate and may fall below zero, so it is an integer.
-/

namespace MacZfs.Dsl

open Function Finset

/-- A pool with the `ds_unique_bytes` of its datasets. -/
structure Accounts where
  pool : Pool
  unique : ℕ → ℤ

section Ops

-- `bp_get_dasize`
variable (dasize : Block → ℤ)

/-- The space of the blocks of a list that were born in a txg that `born` accepts. -/
def space (blocks : List Block) (born : ℕ → Bool) : ℤ :=
  ((blocks.filter fun b => born b.blkBirth).map dasize).sum

namespace Accounts

def add (unique : ℕ → ℤ) (obj : ℕ) (used : ℤ) : ℕ → ℤ := Function.update unique obj (unique obj + used)

def blockBorn (a : Accounts) (obj : ℕ) (b : Block) : Accounts where
  pool := dslDatasetBlockBorn a.pool obj b
  unique := add a.unique obj (dasize b)

def blockKill (a : Accounts) (obj : ℕ) (b : Block) : Accounts where
  pool := dslDatasetBlockKill a.pool obj b
  unique :=
    let ds := a.pool.ds obj
    let prev := a.pool.ds ds.dsPrevSnapObj
    if b.blkBirth > ds.dsPrevSnapTxg then add a.unique obj (-dasize b)
    else if ds.dsPrevSnapObj ≠ 0 ∧ prev.dsNextSnapObj = obj ∧ b.blkBirth > prev.dsPrevSnapTxg then
      add a.unique ds.dsPrevSnapObj (dasize b)
    else a.unique

def create (a : Accounts) (ddobj dsobj cloneParent : ℕ) : Accounts where
  pool := dslDatasetCreateSync a.pool ddobj dsobj cloneParent
  unique := Function.update a.unique dsobj 0

def snapshot (a : Accounts) (obj dsobj : ℕ) : Accounts where
  pool := dslDatasetSnapshotSync a.pool obj dsobj
  unique := Function.update (Function.update a.unique dsobj 0) obj 0

def rollback (a : Accounts) (obj : ℕ) : Accounts where
  pool := dslDatasetRollbackSync a.pool obj
  unique :=
    let prevobj := (a.pool.ds obj).dsPrevSnapObj
    let unique := Function.update a.unique obj 0
    if (a.pool.ds prevobj).dsNextSnapObj = obj then Function.update unique prevobj 0 else unique

def destroyPrevUnique (a : Accounts) (obj : ℕ) : ℕ → ℤ :=
  let ds := a.pool.ds obj
  let prev := a.pool.ds ds.dsPrevSnapObj
  if ds.dsPrevSnapObj ≠ 0 ∧ prev.dsNextSnapObj = obj then
    add a.unique ds.dsPrevSnapObj (space dasize (a.pool.ds ds.dsNextSnapObj).dsDeadlist fun birth =>
      birth ≤ ds.dsPrevSnapTxg && birth > prev.dsPrevSnapTxg)
  else a.unique

def destroyUnique (a : Accounts) (obj : ℕ) : ℕ → ℤ :=
  let ds := a.pool.ds obj
  let next := a.pool.ds ds.dsNextSnapObj
  if ds.dsNextSnapObj = 0 then a.unique
  else if next.dsNextSnapObj ≠ 0 then
    add (a.destroyPrevUnique dasize obj) ds.dsNextSnapObj
      (space dasize (a.pool.ds next.dsNextSnapObj).dsDeadlist fun birth =>
        birth > ds.dsPrevSnapTxg && birth ≤ ds.dsCreationTxg)
  else a.destroyPrevUnique dasize obj

def destroy (a : Accounts) (obj : ℕ) : Accounts where
  pool := dslDatasetDestroySync a.pool obj
  unique := a.destroyUnique dasize obj

/-- What `dsl_dataset_destroy_sync` counts as `used` for a snapshot: the blocks of the next deadlist that it
    frees. -/
def destroyUsed (s : Pool) (obj : ℕ) : ℤ :=
  space dasize (s.ds (s.ds obj).dsNextSnapObj).dsDeadlist fun birth => birth > (s.ds obj).dsPrevSnapTxg

/-- The unique space of the pivot is computed by `dsl_dataset_promote_check`. -/
def promote (a : Accounts) (hds newnext : ℕ) (snaps : List ℕ) : Accounts where
  pool := dslDatasetPromoteSync a.pool hds newnext snaps
  unique :=
    let pivot := (a.pool.dd (a.pool.ds hds).dsDirObj).ddCloneParentObj
    Function.update a.unique pivot (space dasize (a.pool.ds newnext).dsDeadlist fun birth =>
      birth > (a.pool.ds pivot).dsPrevSnapTxg)

end Accounts

/-- The steps of a pool with its accounts, under the same conditions as those of `Step`. -/
inductive AccountStep : Accounts → Accounts → Prop
  | born {a : Accounts} {obj : ℕ} {b : Block} (live : obj ∈ a.pool.objs) (head : (a.pool.ds obj).dsNextSnapObj = 0)
      (unsnapped : (a.pool.ds obj).dsPrevSnapTxg < a.pool.txg) (birth : b.blkBirth = a.pool.txg)
      (fresh : b ∉ a.pool.born) : AccountStep a (a.blockBorn dasize obj b)
  | kill {a : Accounts} {obj : ℕ} {b : Block} (live : obj ∈ a.pool.objs) (head : (a.pool.ds obj).dsNextSnapObj = 0)
      (referenced : b ∈ (a.pool.ds obj).dsBlocks) : AccountStep a (a.blockKill dasize obj b)
  | create {a : Accounts} {ddobj dsobj cloneParent : ℕ} (nonzero : dsobj ≠ 0) (unused : dsobj ∉ a.pool.objs)
      (parent : cloneParent = 0 ∨ cloneParent ∈ a.pool.objs) (check : createCheck a.pool cloneParent) :
      AccountStep a (a.create ddobj dsobj cloneParent)
  | snapshot {a : Accounts} {obj dsobj : ℕ} (live : obj ∈ a.pool.objs) (head : (a.pool.ds obj).dsNextSnapObj = 0)
      (nonzero : dsobj ≠ 0) (unused : dsobj ∉ a.pool.objs) (check : dslDatasetSnapshotCheck a.pool obj) :
      AccountStep a (a.snapshot obj dsobj)
  | rollback {a : Accounts} {obj : ℕ} (live : obj ∈ a.pool.objs) (check : dslDatasetRollbackCheck a.pool obj) :
      AccountStep a (a.rollback obj)
  | destroy {a : Accounts} {obj : ℕ} (live : obj ∈ a.pool.objs) (check : dslDatasetDestroyCheck a.pool obj) :
      AccountStep a (a.destroy dasize obj)
  | promote {a : Accounts} {hds newnext rounds : ℕ} {snaps : List ℕ} (live : hds ∈ a.pool.objs)
      (head : (a.pool.ds hds).dsNextSnapObj = 0)
      (clone : (a.pool.dd (a.pool.ds hds).dsDirObj).ddCloneParentObj ≠ 0)
      (walk : promoteNewnext a.pool (a.pool.dd (a.pool.ds hds).dsDirObj).ddCloneParentObj rounds hds = some newnext)
      (moves : promoteSnaps a.pool rounds (a.pool.dd (a.pool.ds hds).dsDirObj).ddCloneParentObj = some snaps) :
      AccountStep a (a.promote dasize hds newnext snaps)
  | next {a : Accounts} : AccountStep a { a with pool := { a.pool with txg := a.pool.txg + 1 } }

def accountRuns (first : ℕ) : Runs.System Accounts where
  init a := a.pool = emptyPool first ∧ ∀ o, a.unique o = 0
  step := AccountStep dasize

end Ops

namespace Accounts

variable {dasize : Block → ℤ}

theorem space_append (l l' : List Block) (born : ℕ → Bool) :
    space dasize (l ++ l') born = space dasize l born + space dasize l' born := by
  simp [space]

theorem space_split (split : ∀ birth, born birth = (first birth || second birth))
    (apart : ∀ birth, ¬(first birth = true ∧ second birth = true)) :
    space dasize l born = space dasize l first + space dasize l second := by
  induction l with
  | nil => simp [space]
  | cons b rest ih =>
    have whole := split b.blkBirth
    simp only [space, List.filter_cons] at ih ⊢
    cases at_ : first b.blkBirth <;> cases at_' : second b.blkBirth <;>
      simp only [whole, Bool.false_eq_true, if_true, if_false, List.map_cons, List.sum_cons] <;> grind

def owed (dasize : Block → ℤ) (s : Pool) (o n : ℕ) : ℤ :=
  space dasize (s.ds n).dsDeadlist fun birth => birth > (s.ds o).dsPrevSnapTxg

theorem owed_congr (dead : (s'.ds n').dsDeadlist = (s.ds n).dsDeadlist)
    (since : (s'.ds o).dsPrevSnapTxg = (s.ds o).dsPrevSnapTxg) : owed dasize s' o n' = owed dasize s o n := by
  rw [owed, owed, dead, since]

/-- The accounts of a pool are right. A dataset's `ds_prev_snap_txg` is the txg of its previous snapshot. -/
structure Exact (dasize : Block → ℤ) (a : Accounts) : Prop where
  inv : a.pool.Inv
  stamped : ∀ o ∈ a.pool.objs, ∀ p, a.pool.lineage.parent o = some p →
    (a.pool.ds o).dsPrevSnapTxg = (a.pool.ds p).dsCreationTxg
  unique : ∀ o ∈ a.pool.objs, ∀ n, a.pool.next o = some n → a.unique o = owed dasize a.pool o n

namespace Exact

open Pool (Shape)

variable {a : Accounts} {obj : ℕ}

section

variable (exact_ : Exact dasize a)

include exact_

theorem shape : a.pool.Shape := exact_.inv.shape

theorem nonzero (live : obj ∈ a.pool.objs) : obj ≠ 0 :=
  fun none => exact_.shape.zero (none ▸ live)

theorem prev_of_next (live : o ∈ a.pool.objs) (at_ : a.pool.next o = some n) :
    (a.pool.ds n).dsPrevSnapObj ≠ 0 ∧ (a.pool.ds n).dsPrevSnapObj = o :=
  Shape.parent_eq.mp (exact_.shape.threaded.next_parent o live n at_)

theorem head {s'} {unique' : ℕ → ℤ} (inv : s'.Inv)
    (head : (a.pool.ds obj).dsNextSnapObj = 0) (objs : s'.objs = a.pool.objs)
    (kept : ∀ o ≠ obj, s'.ds o = a.pool.ds o) {blocks deadlist} {bpBirth : ℕ}
    (own : s'.ds obj = { a.pool.ds obj with dsDeadlist := deadlist, dsBpBirth := bpBirth, dsBlocks := blocks })
    (others : ∀ o, a.pool.next o ≠ some obj → o ≠ obj → unique' o = a.unique o)
    (prev : ∀ p ∈ a.pool.objs, a.pool.next p = some obj →
      unique' p = space dasize deadlist fun birth => birth > (a.pool.ds p).dsPrevSnapTxg) :
    Exact dasize ⟨s', unique'⟩ := by
  have links : ∀ o, (s'.ds o).dsPrevSnapObj = (a.pool.ds o).dsPrevSnapObj ∧
      (s'.ds o).dsPrevSnapTxg = (a.pool.ds o).dsPrevSnapTxg ∧ (s'.ds o).dsNextSnapObj = (a.pool.ds o).dsNextSnapObj ∧
      (s'.ds o).dsCreationTxg = (a.pool.ds o).dsCreationTxg := by
    intro o
    by_cases same : o = obj
    · rw [same, own]
      exact ⟨rfl, rfl, rfl, rfl⟩
    · rw [kept o same]
      exact ⟨rfl, rfl, rfl, rfl⟩
  refine ⟨inv, ?_, ?_⟩
  · intro o live p parent
    rw [(links o).2.1, (links p).2.2.2]
    refine exact_.stamped o (objs ▸ live) p ?_
    rw [Shape.parent_eq] at parent ⊢
    rwa [(links o).1] at parent
  · intro o live n at_
    have at_ : a.pool.next o = some n := by
      rw [Shape.next_eq] at at_ ⊢
      rwa [(links o).2.2.1] at at_
    have live : o ∈ a.pool.objs := objs ▸ live
    by_cases same : n = obj
    · subst same
      simp only [owed, own, (links o).2.1]
      exact prev o live at_
    · have other : o ≠ obj := by
        rintro rfl
        exact (Shape.next_eq.mp at_).1 head
      have different : a.pool.next o ≠ some obj := fun at_' => same (Option.some.inj (at_.symm.trans at_'))
      refine (others o different other).trans ((exact_.unique o live n at_).trans ?_)
      exact (owed_congr (by rw [kept n same]) (links o).2.1).symm

section

variable (live : obj ∈ a.pool.objs)

include live

theorem born (last : (a.pool.ds obj).dsNextSnapObj = 0) (unsnapped : (a.pool.ds obj).dsPrevSnapTxg < a.pool.txg)
    (birth : b.blkBirth = a.pool.txg) (fresh : b ∉ a.pool.born) : Exact dasize (a.blockBorn dasize obj b) := by
  refine exact_.head (exact_.inv.born live last unsnapped birth fresh) last rfl
    (fun o other => update_of_ne other _ _) (update_self _ _ _) ?_ ?_
  · exact fun o _ other => update_of_ne other _ _
  · intro p live' at_
    have other : p ≠ obj := by
      rintro rfl
      exact (Shape.next_eq.mp at_).1 last
    rw [add, update_of_ne other]
    exact exact_.unique p live' obj at_

theorem kill (last : (a.pool.ds obj).dsNextSnapObj = 0) (referenced : b ∈ (a.pool.ds obj).dsBlocks) :
    Exact dasize (a.blockKill dasize obj b) := by
  have inv := exact_.inv.kill live last referenced
  have not_self : ∀ p, a.pool.next p = some obj → p ≠ obj := by
    rintro p at_ rfl
    exact (Shape.next_eq.mp at_).1 last
  by_cases young : b.blkBirth > (a.pool.ds obj).dsPrevSnapTxg
  · have pool := Pool.dslDatasetBlockKill_young young
    simp only [blockKill, if_pos young]
    rw [pool] at inv ⊢
    refine exact_.head inv last rfl (fun o other => update_of_ne other _ _) (update_self _ _ _) ?_ ?_
    · exact fun o _ other => update_of_ne other _ _
    · intro p live' at_
      rw [add, update_of_ne (not_self p at_)]
      exact exact_.unique p live' obj at_
  · have pool := Pool.dslDatasetBlockKill_old young
    simp only [blockKill, if_neg young]
    rw [pool] at inv ⊢
    refine exact_.head inv last rfl (fun o other => update_of_ne other _ _) (update_self _ _ _) ?_ ?_
    · intro o different other
      split_ifs with counts
      · refine update_of_ne ?_ _ _
        rintro rfl
        exact different (Shape.next_eq.mpr ⟨by rw [counts.2.1]; exact exact_.nonzero live, counts.2.1⟩)
      · rfl
    · intro p live' at_
      obtain ⟨some_prev, rfl⟩ := exact_.prev_of_next live' at_
      have follows := (Shape.next_eq.mp at_).2
      have before := exact_.unique _ live' obj at_
      rw [owed] at before
      by_cases counts : b.blkBirth > (a.pool.ds (a.pool.ds obj).dsPrevSnapObj).dsPrevSnapTxg
      · rw [if_pos ⟨some_prev, follows, counts⟩, add, update_self, before]
        simp [space, counts]
      · rw [if_neg (fun all => counts all.2.2), before]
        simp [space, counts]

theorem rollback (check : dslDatasetRollbackCheck a.pool obj) : Exact dasize (a.rollback obj) := by
  have last : (a.pool.ds obj).dsNextSnapObj = 0 := by
    simp only [dslDatasetRollbackCheck, Bool.and_eq_true, beq_iff_eq] at check
    exact check.1.2
  refine exact_.head (exact_.inv.rollback live check) last rfl (fun o other => update_of_ne other _ _)
    (update_self _ _ _) ?_ ?_
  · intro o different other
    split_ifs with follows
    · have other' : o ≠ (a.pool.ds obj).dsPrevSnapObj := by
        rintro rfl
        exact different (Shape.next_eq.mpr ⟨by rw [follows]; exact exact_.nonzero live, follows⟩)
      rw [update_of_ne other', update_of_ne other]
    · rw [update_of_ne other]
  · intro p live' at_
    obtain ⟨_, rfl⟩ := exact_.prev_of_next live' at_
    rw [if_pos (Shape.next_eq.mp at_).2, update_self]
    simp [space]

end

end

def SameLinks (ds ds' : DsPhys) : Prop :=
  ds'.dsPrevSnapObj = ds.dsPrevSnapObj ∧ ds'.dsPrevSnapTxg = ds.dsPrevSnapTxg ∧
    ds'.dsNextSnapObj = ds.dsNextSnapObj ∧ ds'.dsCreationTxg = ds.dsCreationTxg ∧ ds'.dsDeadlist = ds.dsDeadlist

section

variable (exact_ : Exact dasize a)

include exact_

/-- Datasets that stay as they are, among a possibly new head dataset. -/
theorem frame (inv : s'.Inv) (objs : ∀ o ∈ s'.objs, o = x ∨ o ∈ a.pool.objs) (fresh : x ∉ a.pool.objs)
    (kept : ∀ o ≠ x, SameLinks (a.pool.ds o) (s'.ds o)) (last : x ∈ s'.objs → (s'.ds x).dsNextSnapObj = 0)
    (stamped : x ∈ s'.objs → ∀ p, s'.lineage.parent x = some p →
      p ∈ a.pool.objs ∧ (s'.ds x).dsPrevSnapTxg = (a.pool.ds p).dsCreationTxg)
    (unique : ∀ o ≠ x, unique' o = a.unique o) : Exact dasize ⟨s', unique'⟩ := by
  have apart : ∀ {o}, o ∈ a.pool.objs → o ≠ x := fun live same => fresh (same ▸ live)
  refine ⟨inv, ?_, ?_⟩
  · intro o live p parent
    rcases objs o live with rfl | old
    · obtain ⟨old, txg⟩ := stamped live p parent
      rw [txg, (kept p (apart old)).2.2.2.1]
    · have parent' : a.pool.lineage.parent o = some p := by
        rw [Shape.parent_eq] at parent ⊢
        rwa [(kept o (apart old)).1] at parent
      have old' : p ∈ a.pool.objs := exact_.shape.sound.parent_live o old p parent'
      rw [(kept o (apart old)).2.1, (kept p (apart old')).2.2.2.1]
      exact exact_.stamped o old p parent'
  · intro o live n at_
    dsimp only at live at_ ⊢
    rcases objs o live with rfl | old
    · exact absurd (last live) (Shape.next_eq.mp at_).1
    · have at_' : a.pool.next o = some n := by
        rw [Shape.next_eq] at at_ ⊢
        rwa [(kept o (apart old)).2.2.1] at at_
      have old' : n ∈ a.pool.objs := exact_.shape.threaded.next_live o old n at_'
      rw [unique o (apart old), exact_.unique o old n at_']
      exact (owed_congr (kept n (apart old')).2.2.2.2 (kept o (apart old)).2.1).symm

theorem create (nonzero : dsobj ≠ 0)
    (unused : dsobj ∉ a.pool.objs) (parent : cloneParent = 0 ∨ cloneParent ∈ a.pool.objs)
    (check : createCheck a.pool cloneParent) : Exact dasize (a.create ddobj dsobj cloneParent) := by
  have inv : (dslDatasetCreateSync a.pool ddobj dsobj cloneParent).Inv :=
    exact_.inv.create nonzero unused parent check
  have objs : ∀ o ∈ (dslDatasetCreateSync a.pool ddobj dsobj cloneParent).objs, o = dsobj ∨ o ∈ a.pool.objs := by
    intro o live
    rw [← mem_insert]
    simp only [dslDatasetCreateSync] at live
    split_ifs at live <;> exact live
  by_cases root : cloneParent = 0
  · subst root
    refine exact_.frame inv objs unused ?_ ?_ ?_ fun o other => update_of_ne other _ _
    · intro o other
      rw [Shape.create_kept other]
      exact ⟨rfl, rfl, rfl, rfl, rfl⟩
    · intro _
      rw [Shape.create_own]
    · intro _ p parent
      rw [Shape.parent_eq, Shape.create_own] at parent
      exact absurd rfl parent.1
  · have live := parent.resolve_left root
    have apart : dsobj ≠ cloneParent := fun same => unused (same ▸ live)
    refine exact_.frame inv objs unused ?_ ?_ ?_ fun o other => update_of_ne other _ _
    · intro o other
      rw [Shape.clone_kept root other]
      exact ⟨rfl, rfl, rfl, rfl, rfl⟩
    · intro _
      rw [Shape.clone_own root apart]
    · intro _ p parent
      rw [Shape.parent_eq, Shape.clone_own root apart] at parent
      rw [Shape.clone_own root apart, ← parent.2]
      exact ⟨live, rfl⟩

theorem snapshot (live : obj ∈ a.pool.objs)
    (last : (a.pool.ds obj).dsNextSnapObj = 0) (nonzero : dsobj ≠ 0) (unused : dsobj ∉ a.pool.objs)
    (check : dslDatasetSnapshotCheck a.pool obj) : Exact dasize (a.snapshot obj dsobj) := by
  have shape := exact_.shape
  have apart : ∀ {o}, o ∈ a.pool.objs → o ≠ dsobj := fun live same => unused (same ▸ live)
  have leaf := shape.leaf last
  have head := @Shape.snapshot_head a.pool obj dsobj
  have snap := Shape.snapshot_snap shape live unused
  have kept : ∀ o ≠ obj, o ≠ dsobj → (dslDatasetSnapshotSync a.pool obj dsobj).ds o = { a.pool.ds o with
      dsNextSnapObj := if a.pool.lineage.parent obj = some o ∧ a.pool.next o = some obj then dsobj
        else (a.pool.ds o).dsNextSnapObj } := fun o => Shape.snapshot_kept (exact_.nonzero live)
  refine ⟨exact_.inv.snapshot live last nonzero unused check, ?_, ?_⟩
  · intro o member p parent
    rw [Accounts.snapshot] at member parent ⊢
    rw [Shape.parent_eq] at parent
    rcases mem_insert.mp (Shape.snapshot_objs ▸ member) with rfl | old
    · -- the snapshot takes the previous snapshot of the dataset
      rw [snap] at parent ⊢
      have parent' := Shape.parent_eq.mpr parent
      have old' : p ∈ a.pool.objs := shape.sound.parent_live obj live p parent'
      have other : p ≠ obj := by
        rintro rfl
        exact Shape.parent_ne_self shape live parent'
      rw [kept p other (apart old')]
      exact exact_.stamped obj live p parent'
    · by_cases same : o = obj
      · subst same
        rw [head] at parent ⊢
        obtain ⟨_, rfl⟩ := parent
        rw [snap]
      · rw [kept o same (apart old)] at parent ⊢
        have parent' := Shape.parent_eq.mpr parent
        have old' : p ∈ a.pool.objs := shape.sound.parent_live o old p parent'
        have other : p ≠ obj := by
          rintro rfl
          exact leaf o old parent'
        rw [kept p other (apart old')]
        exact exact_.stamped o old p parent'
  · intro o member n at_
    rw [Accounts.snapshot] at member at_ ⊢
    dsimp only at member at_ ⊢
    rw [Shape.next_eq] at at_
    rcases mem_insert.mp (Shape.snapshot_objs ▸ member) with rfl | old
    · -- nothing is on the new deadlist
      rw [snap] at at_
      obtain ⟨_, rfl⟩ := at_
      rw [update_of_ne (apart live).symm, update_self, owed, head]
      simp [space]
    · by_cases same : o = obj
      · subst same
        rw [head] at at_
        exact absurd last at_.1
      · have links := kept o same (apart old)
        rw [update_of_ne same, update_of_ne (apart old)]
        rw [links] at at_
        split_ifs at at_ with before
        · -- the snapshot stands where the dataset stood
          obtain ⟨_, rfl⟩ := at_
          rw [exact_.unique o old obj before.2]
          exact (owed_congr (by rw [snap]) (by rw [links])).symm
        · have at_' := Shape.next_eq.mpr at_
          have other : n ≠ obj := by
            rintro rfl
            exact before ⟨shape.threaded.next_parent o old n at_', at_'⟩
          rw [exact_.unique o old n at_']
          exact (owed_congr (by rw [kept n other (apart (shape.threaded.next_live o old n at_'))])
            (by rw [links])).symm

theorem destroyHead (live : obj ∈ a.pool.objs) (last : (a.pool.ds obj).dsNextSnapObj = 0)
    (branch : ∀ p, a.pool.lineage.parent obj = some p → a.pool.next p ≠ some obj) (check : dslDatasetDestroyCheck a.pool obj) :
    Exact dasize (a.destroy dasize obj) := by
  have kept := Shape.destroyHead_kept exact_.shape live last branch
  have unique : a.destroyUnique dasize obj = a.unique := by
    exact if_pos last
  refine exact_.frame (exact_.inv.destroy live check) (x := 0) ?_ exact_.shape.zero ?_ ?_ ?_ ?_
  · intro o member
    exact Or.inr (mem_of_mem_erase (Shape.destroy_objs ▸ member))
  · intro o _
    rw [kept o]
    exact ⟨rfl, rfl, rfl, rfl, rfl⟩
  · exact fun member => absurd (mem_of_mem_erase (Shape.destroy_objs ▸ member)) exact_.shape.zero
  · exact fun member => absurd (mem_of_mem_erase (Shape.destroy_objs ▸ member)) exact_.shape.zero
  · intro o _
    rw [unique]

end

theorem add_apply {unique x o used} : add unique x used o = if o = x then unique o + used else unique o := by
  by_cases same : o = x
  · rw [same, add, update_self, if_pos rfl]
  · rw [add, update_of_ne same, if_neg same]

theorem destroyPrevUnique_eq (exact_ : Exact dasize a) (live : obj ∈ a.pool.objs) {n}
    (at_ : a.pool.next obj = some n) (o) : a.destroyPrevUnique dasize obj o =
      if a.pool.lineage.parent obj = some o ∧ a.pool.next o = some obj then
        a.unique o + space dasize (a.pool.ds n).dsDeadlist fun birth =>
          birth ≤ (a.pool.ds obj).dsPrevSnapTxg && birth > (a.pool.ds o).dsPrevSnapTxg else a.unique o := by
  obtain ⟨_, rfl⟩ := Shape.next_eq.mp at_
  have nonzero := exact_.nonzero live
  simp only [destroyPrevUnique, Shape.parent_eq, Shape.next_eq]
  by_cases same : o = (a.pool.ds obj).dsPrevSnapObj
  · subst same
    by_cases follows : (a.pool.ds obj).dsPrevSnapObj ≠ 0 ∧ (a.pool.ds (a.pool.ds obj).dsPrevSnapObj).dsNextSnapObj = obj
    · rw [if_pos follows, if_pos ⟨⟨follows.1, rfl⟩, by rw [follows.2]; exact nonzero, follows.2⟩, add_apply, if_pos rfl]
    · rw [if_neg follows, if_neg (fun all => follows ⟨all.1.1, all.2.2⟩)]
  · have apart : ¬(((a.pool.ds obj).dsPrevSnapObj ≠ 0 ∧ (a.pool.ds obj).dsPrevSnapObj = o) ∧
        (a.pool.ds o).dsNextSnapObj ≠ 0 ∧ (a.pool.ds o).dsNextSnapObj = obj) := fun all => same all.1.2.symm
    split_ifs
    · rw [add_apply, if_neg same]
    · rfl

theorem destroyUnique_eq {n} (at_ : a.pool.next obj = some n) (o) : a.destroyUnique dasize obj o =
    if o = n ∧ (a.pool.ds n).dsNextSnapObj ≠ 0 then
      a.destroyPrevUnique dasize obj o + space dasize (a.pool.ds (a.pool.ds n).dsNextSnapObj).dsDeadlist fun birth =>
        birth > (a.pool.ds obj).dsPrevSnapTxg && birth ≤ (a.pool.ds obj).dsCreationTxg
    else a.destroyPrevUnique dasize obj o := by
  obtain ⟨snap, rfl⟩ := Shape.next_eq.mp at_
  simp only [destroyUnique, if_neg snap]
  by_cases inner : (a.pool.ds (a.pool.ds obj).dsNextSnapObj).dsNextSnapObj ≠ 0
  · rw [if_pos inner, add_apply]
    exact if_congr (and_iff_left inner).symm rfl rfl
  · rw [if_neg inner, if_neg (fun all => inner all.2)]

section

variable (exact_ : Exact dasize a)

include exact_

/-- The accounts of a snapshot that is destroyed, of the one before it and of the one after it. -/
theorem destroySnap (live : obj ∈ a.pool.objs) (at_ : a.pool.next obj = some n)
    (check : dslDatasetDestroyCheck a.pool obj) : Exact dasize (a.destroy dasize obj) := by
  have shape := exact_.shape
  have live' : n ∈ a.pool.objs := shape.threaded.next_live obj live n at_
  have child := shape.threaded.next_parent obj live n at_
  have own := Shape.destroySnap_next shape live at_
  have kept : ∀ o ≠ n, (dslDatasetDestroySync a.pool obj).ds o = { a.pool.ds o with
      dsNextSnapObj := if a.pool.lineage.parent obj = some o ∧ a.pool.next o = some obj then n
        else (a.pool.ds o).dsNextSnapObj } := fun o => Shape.destroySnap_kept shape live at_
  have created : ∀ p, ((dslDatasetDestroySync a.pool obj).ds p).dsCreationTxg = (a.pool.ds p).dsCreationTxg := by
    intro p
    by_cases same : p = n
    · rw [same, own]
    · rw [kept p same]
  have snapped := (shape.dated obj live).snap_txg (Shape.next_eq.mp at_).1
  have after := exact_.stamped n live' obj child
  refine ⟨exact_.inv.destroy live check, ?_, ?_⟩
  · intro o member p parent
    dsimp only [destroy] at member parent ⊢
    obtain ⟨other, old⟩ := Finset.mem_erase.mp (Shape.destroy_objs ▸ member)
    rw [Shape.parent_eq] at parent
    rw [created p]
    by_cases same : o = n
    · subst same
      rw [own] at parent ⊢
      exact exact_.stamped obj live p (Shape.parent_eq.mpr parent)
    · rw [kept o same] at parent ⊢
      exact exact_.stamped o old p (Shape.parent_eq.mpr parent)
  · intro o member m at_'
    dsimp only [destroy] at member at_' ⊢
    obtain ⟨other, old⟩ := Finset.mem_erase.mp (Shape.destroy_objs ▸ member)
    rw [Shape.next_eq] at at_'
    by_cases same : o = n
    · -- what was born between the two snapshots before becomes its own
      subst same
      rw [own] at at_'
      have at_'' := Shape.next_eq.mpr at_'
      have inner : m ≠ o := fun same => Shape.parent_ne_self shape old
        (same ▸ shape.threaded.next_parent o old m at_'')
      have notPrev : ¬(a.pool.lineage.parent obj = some o ∧ a.pool.next o = some obj) := fun all =>
        Shape.parent_ne_next shape live at_ all.1
      rw [destroyUnique_eq at_, if_pos ⟨rfl, at_'.1⟩, exact_.destroyPrevUnique_eq live at_, if_neg notPrev,
        exact_.unique o old m at_'', owed, owed, own, kept m inner, at_'.2, after]
      refine Eq.symm (space_split ?_ ?_)
      · intro birth
        simp only [decide_eq_decide, ← Bool.decide_or, ← Bool.decide_and]
        omega
      · intro birth
        simp only [Bool.and_eq_true, decide_eq_true_eq]
        omega
    · have links := kept o same
      rw [links] at at_'
      dsimp only at at_'
      rw [destroyUnique_eq at_, if_neg (fun all => same all.1), exact_.destroyPrevUnique_eq live at_]
      split_ifs at at_' with before
      · -- its deadlist is followed by what moves to it
        obtain ⟨_, rfl⟩ := at_'
        rw [if_pos before, exact_.unique o old obj before.2, owed, owed, own, links, space_append]
        congr 1
        simp [space, Bool.and_comm]
      · have at_'' := Shape.next_eq.mpr at_'
        have notNext : m ≠ n := by
          rintro rfl
          have parent := shape.threaded.next_parent o old m at_''
          exact other (Option.some.inj (parent.symm.trans child))
        rw [if_neg before, exact_.unique o old m at_'']
        exact (owed_congr (by rw [kept m notNext]) (by rw [links])).symm

theorem destroy (live : obj ∈ a.pool.objs) (check : dslDatasetDestroyCheck a.pool obj) :
    Exact dasize (a.destroy dasize obj) := by
  by_cases last : (a.pool.ds obj).dsNextSnapObj = 0
  · exact exact_.destroyHead live last (Pool.destroyCheck_branch check last) check
  · exact exact_.destroySnap live (Shape.next_eq.mpr ⟨last, rfl⟩) check

theorem promote (live : hds ∈ a.pool.objs) (clone : (a.pool.dd (a.pool.ds hds).dsDirObj).ddCloneParentObj ≠ 0)
    (walk : promoteNewnext a.pool (a.pool.dd (a.pool.ds hds).dsDirObj).ddCloneParentObj rounds hds = some newnext) :
    Exact dasize (a.promote dasize hds newnext snaps) := by
  have kept := @Shape.promote_kept a.pool hds newnext snaps
  have inv : (dslDatasetPromoteSync a.pool hds newnext snaps).Inv := exact_.inv.promote live clone walk
  refine ⟨inv, ?_, ?_⟩
  · intro o member p parent
    dsimp only [Accounts.promote] at member parent ⊢
    obtain ⟨_, same⟩ := kept o
    obtain ⟨_, same'⟩ := kept p
    rw [Shape.lineage_promote] at parent
    rw [same, same']
    exact exact_.stamped o member p parent
  · intro o member n at_
    dsimp only [Accounts.promote] at member at_ ⊢
    obtain ⟨_, same⟩ := kept o
    obtain ⟨_, same'⟩ := kept n
    rw [Shape.next_eq, same] at at_
    dsimp only at at_
    by_cases pivot : o = (a.pool.dd (a.pool.ds hds).dsDirObj).ddCloneParentObj
    · rw [if_pos pivot] at at_
      rw [← pivot, update_self, owed, same', same, at_.2]
    · rw [if_neg pivot] at at_
      rw [update_of_ne pivot, exact_.unique o member n (Shape.next_eq.mpr at_)]
      exact (owed_congr (by rw [same']) (by rw [same])).symm

theorem step (step : AccountStep dasize a a') : Exact dasize a' := by
  cases step with
  | born live head unsnapped birth fresh => exact exact_.born live head unsnapped birth fresh
  | kill live head referenced => exact exact_.kill live head referenced
  | create nonzero unused parent check => exact exact_.create nonzero unused parent check
  | snapshot live head nonzero unused check => exact exact_.snapshot live head nonzero unused check
  | rollback live check => exact exact_.rollback live check
  | destroy live check => exact exact_.destroy live check
  | promote live head clone walk moves => exact exact_.promote live clone walk
  | next => exact ⟨exact_.inv.step .next, exact_.stamped, exact_.unique⟩

end

theorem first {first} (a) (init : (accountRuns dasize first).init a) : Exact dasize a := by
  obtain ⟨pool, _⟩ := init
  refine ⟨pool ▸ Pool.emptyPool_inv first, ?_, ?_⟩
  all_goals
    intro o live
    rw [pool] at live
    simp [emptyPool] at live

end Exact

end Accounts

/-- In every run from an empty pool, `ds_unique_bytes` of a snapshot is the space of the blocks on the deadlist of
    its next dataset that were born after its previous snapshot, and this is the space that destroying it
    frees. -/
theorem unique_bytes_exact (dasize : Block → ℤ) {first : ℕ} {a : Accounts}
    (reachable : (accountRuns dasize first).Reachable a) :
    (∀ o ∈ a.pool.objs, (a.pool.ds o).dsNextSnapObj ≠ 0 →
      a.unique o = (((a.pool.ds (a.pool.ds o).dsNextSnapObj).dsDeadlist.filter fun b =>
        b.blkBirth > (a.pool.ds o).dsPrevSnapTxg).map dasize).sum) ∧
    ∀ o ∈ a.pool.objs, (a.pool.ds o).dsNextSnapObj ≠ 0 → dslDatasetDestroyCheck a.pool o →
      Accounts.destroyUsed dasize a.pool o = a.unique o := by
  have exact_ := reachable.invariant Accounts.Exact.first fun _ _ exact_ step => exact_.step step
  have owed : ∀ o ∈ a.pool.objs, (a.pool.ds o).dsNextSnapObj ≠ 0 → a.unique o = _ := fun o live snap =>
    exact_.unique o live _ (Pool.Shape.next_eq.mpr ⟨snap, rfl⟩)
  exact ⟨owed, fun o live snap _ => (owed o live snap).symm⟩

/-- The accounts of a dataset with one block of 512 bytes that is snapshot, after which the block is
    overwritten. -/
def overwrittenAccounts : Accounts :=
  let b : Block := ⟨7, 4⟩
  let a := (Accounts.create ⟨emptyPool 4, fun _ => 0⟩ 1 2 0).blockBorn (fun _ => 512) 2 b
  (({ a with pool := { a.pool with txg := a.pool.txg + 1 } }).snapshot 2 3).blockKill (fun _ => 512) 2 b

theorem overwrittenAccounts_reachable : (accountRuns (fun _ => 512) 4).Reachable overwrittenAccounts := by
  refine .next ?_ (.kill (by decide) (by decide) (by decide))
  refine .next ?_ (.snapshot (by decide) (by decide) (by decide) (by decide) (by decide))
  refine .next ?_ .next
  refine .next ?_ (.born (by decide) (by decide) (by decide) (by decide) (by decide))
  refine .next ?_ (.create (by decide) (by decide) (by decide) (by decide))
  exact .first ⟨rfl, fun _ => rfl⟩

theorem unique_bytes_exact_overwritten : overwrittenAccounts.unique 3 = 512 ∧
    Accounts.destroyUsed (fun _ => 512) overwrittenAccounts.pool 3 = overwrittenAccounts.unique 3 :=
  ⟨(unique_bytes_exact _ overwrittenAccounts_reachable).1 3 (by decide) (by decide),
    (unique_bytes_exact _ overwrittenAccounts_reachable).2 3 (by decide) (by decide) (by decide)⟩

end MacZfs.Dsl
