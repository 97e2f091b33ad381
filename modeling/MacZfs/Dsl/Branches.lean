import MacZfs.Dsl.Blocks
import MacZfs.Lib.Branches

/-!
# Directories and their origins

A directory has a head dataset and the snapshots of it: a branch of the lineage. It begins with the dataset
whose previous snapshot is `dd_clone_parent_obj`, or with one that has none. The two walks of a promotion
follow the branch of the clone back to its origin, and the branch of the origin back to where it begins.
-/

namespace MacZfs.Dsl.Pool

open Function Shape

open Lineage (First UpTo)

def dir (s : Pool) (o : ℕ) : ℕ := (s.ds o).dsDirObj

def origin (s : Pool) (d : ℕ) : Option ℕ := link (s.dd d).ddCloneParentObj

abbrev Branched (s : Pool) : Prop := s.lineage.Branched s.next s.dir s.origin

namespace Branched

variable {s : Pool} {obj : ℕ}

section

variable (branched : s.Branched)

include branched

theorem frame {s' : Pool} (objs : s'.objs = s.objs) (links : ∀ o, (s'.ds o).dsPrevSnapObj = (s.ds o).dsPrevSnapObj ∧
      (s'.ds o).dsNextSnapObj = (s.ds o).dsNextSnapObj ∧ (s'.ds o).dsDirObj = (s.ds o).dsDirObj)
    (dd : s'.dd = s.dd) : s'.Branched := by
  have parent : s'.lineage.parent = s.lineage.parent := funext fun o => congrArg link (links o).1
  have next : s'.next = s.next := funext fun o => congrArg link (links o).2.1
  have dir : s'.dir = s.dir := funext fun o => (links o).2.2
  have origin : s'.origin = s.origin := funext fun d => by rw [Pool.origin, Pool.origin, dd]
  have old : ∀ o ∈ s'.objs, o ∈ s.objs := fun o live => objs ▸ live
  rw [Branched, next, dir, origin]
  refine branched.rename id ?_ ?_
  · exact fun o live => branched.next_branch o (old o live)
  · intro o live first
    exact ⟨o, old o live, fun p at_ => first p (by rw [parent, at_]), rfl, by rw [parent], rfl⟩

theorem setHead {s' : Pool} {blocks deadlist : List Block} {bpBirth : ℕ}
    (objs : s'.objs = s.objs) (ds : s'.ds = update s.ds obj { s.ds obj with
      dsDeadlist := deadlist, dsBpBirth := bpBirth, dsBlocks := blocks }) (dd : s'.dd = s.dd) : s'.Branched := by
  refine branched.frame objs (fun o => ?_) dd
  rw [ds]
  by_cases same : o = obj <;> simp [same]

theorem create (shape : s.Shape) (unused : dsobj ∉ s.objs)
    (parent : cloneParent = 0 ∨ cloneParent ∈ s.objs) (fresh : ∀ o ∈ s.objs, s.dir o ≠ ddobj) :
    (dslDatasetCreateSync s ddobj dsobj cloneParent).Branched := by
  by_cases root : cloneParent = 0
  · subst root
    have dir : (dslDatasetCreateSync s ddobj dsobj 0).dir = update s.dir dsobj ddobj := by
      funext o
      by_cases same : o = dsobj <;> simp [Pool.dir, same, create_own, create_kept]
    have origin : (dslDatasetCreateSync s ddobj dsobj 0).origin = update s.origin ddobj none := by
      funext d
      by_cases same : d = ddobj <;> simp [Pool.origin, dslDatasetCreateSync, setDs, same]
    rw [Branched, lineage_create, next_create, dir, origin]
    exact Lineage.Branched.add branched shape.sound shape.threaded unused fresh
  · have live := parent.resolve_left root
    have apart : dsobj ≠ cloneParent := fun same => unused (same ▸ live)
    have dir : (dslDatasetCreateSync s ddobj dsobj cloneParent).dir = update s.dir dsobj ddobj := by
      funext o
      by_cases same : o = dsobj <;> simp [Pool.dir, same, clone_own root apart, clone_kept root]
    have origin : (dslDatasetCreateSync s ddobj dsobj cloneParent).origin =
        update s.origin ddobj (some cloneParent) := by
      funext d
      by_cases same : d = ddobj <;> simp [Pool.origin, dslDatasetCreateSync, setDs, root, same]
    rw [Branched, lineage_clone root apart, next_clone root apart, dir, origin]
    exact Lineage.Branched.add branched shape.sound shape.threaded unused fresh

theorem snapshot (shape : s.Shape) (live : obj ∈ s.objs)
    (head : (s.ds obj).dsNextSnapObj = 0) (nonzero : dsobj ≠ 0) (unused : dsobj ∉ s.objs) :
    (dslDatasetSnapshotSync s obj dsobj).Branched := by
  have nonzero' : obj ≠ 0 := fun same => shape.zero (same ▸ live)
  have dir : (dslDatasetSnapshotSync s obj dsobj).dir = update s.dir dsobj (s.dir obj) := by
    funext o
    by_cases new : o = dsobj
    · simp [Pool.dir, new, snapshot_snap shape live unused]
    · by_cases same : o = obj
      · have apart : obj ≠ dsobj := same ▸ new
        simp [Pool.dir, same, snapshot_head, apart]
      · simp [Pool.dir, new, snapshot_kept nonzero' same new]
  have origin : (dslDatasetSnapshotSync s obj dsobj).origin = s.origin := by
    funext d
    rw [Pool.origin, Pool.origin, snapshot_dd]
  rw [Branched, lineage_snapshot shape live unused nonzero, dir, origin]
  exact branched.split shape.sound shape.threaded live (link_eq_none.mpr head) unused
    (snapshot_next shape live unused) fun o => next_snapshot nonzero' nonzero head

end

theorem destroy_origin : (dslDatasetDestroySync s obj).origin = s.origin := by
  have dd : (destroyNext (destroyPrev s obj) obj).dd = s.dd := by
    simp only [destroyNext, destroyPrev]
    split_ifs <;> rfl
  funext d
  simp only [Pool.origin, dslDatasetDestroySync, dd]
  split_ifs
  · by_cases same : d = (s.ds obj).dsDirObj <;> simp [same]
  · rfl

theorem destroy (branched : s.Branched) (shape : s.Shape) (live : obj ∈ s.objs)
    (check : dslDatasetDestroyCheck s obj) : (dslDatasetDestroySync s obj).Branched := by
  by_cases head : (s.ds obj).dsNextSnapObj = 0
  · have branch := destroyCheck_branch check head
    have dir : (dslDatasetDestroySync s obj).dir = s.dir := by
      funext o
      simp only [Pool.dir, destroyHead_kept shape live head branch]
    rw [Branched, lineage_destroyHead shape live head branch, next_destroyHead shape live head branch, dir,
      destroy_origin]
    exact branched.remove obj
  · have at_ : s.next obj = some (s.ds obj).dsNextSnapObj := next_eq.mpr ⟨head, rfl⟩
    have dir : (dslDatasetDestroySync s obj).dir = s.dir := by
      funext o
      by_cases same : o = (s.ds obj).dsNextSnapObj
      · simp only [Pool.dir, same, destroySnap_next shape live at_]
      · simp only [Pool.dir, destroySnap_kept shape live at_ same]
    rw [Branched, lineage_destroySnap shape live at_, dir, destroy_origin]
    exact branched.splice live at_ (next_destroySnap shape live at_)

/-! ## Promotion -/

variable {pivot : ℕ}

theorem prev_of_later (branched : s.Branched) (shape : s.Shape) (live : obj ∈ s.objs)
    (from_ : s.origin (s.dir obj) = some pivot) (other : (s.ds obj).dsPrevSnapObj ≠ pivot)
    (some_prev : (s.ds obj).dsPrevSnapObj ≠ 0) :
    s.next (s.ds obj).dsPrevSnapObj = some obj ∧ (s.ds obj).dsPrevSnapObj ∈ s.objs := by
  have parent : s.lineage.parent obj = some (s.ds obj).dsPrevSnapObj := parent_eq.mpr ⟨some_prev, rfl⟩
  refine ⟨?_, shape.sound.parent_live obj live _ parent⟩
  by_contra follows
  have first : s.lineage.First s.next obj := by
    intro p parent' at_
    exact follows ((Option.some.inj (parent'.symm.trans parent)) ▸ at_)
  have began := branched.origin_eq obj live first
  exact other (Option.some.inj (parent.symm.trans (began.symm.trans from_)))

variable {rounds newnext : ℕ}

section

variable (branched : s.Branched) (shape : s.Shape) (live : obj ∈ s.objs) (from_ : s.origin (s.dir obj) = some pivot)

include branched shape live from_

/-- The walk from a dataset of a clone ends where the clone begins. -/
theorem promoteNewnext_first (walk : promoteNewnext s pivot rounds obj = some newnext) :
    s.lineage.First s.next newnext ∧ s.dir newnext = s.dir obj := by
  induction rounds generalizing obj with
  | zero => simp [promoteNewnext] at walk
  | succ rounds ih =>
    simp only [promoteNewnext] at walk
    split_ifs at walk with reached last
    · obtain rfl := Option.some.inj walk
      refine ⟨fun p parent at_ => ?_, rfl⟩
      -- The origin of a directory is outside of it.
      obtain rfl : pivot = p := reached.symm.trans (parent_eq.mp parent).2
      obtain ⟨f, live', first, same, -⟩ := branched.exists_first shape.sound live
      have live'' := shape.sound.parent_live obj live pivot parent
      have began : s.lineage.parent f = some pivot := by
        rw [← branched.origin_eq f live' first, same, from_]
      exact branched.parent_branch shape.sound live' first began live'' le_rfl
        ((branched.next_branch pivot live'' obj at_).symm.trans same.symm)
    · obtain ⟨follows, live'⟩ := branched.prev_of_later shape live from_ reached last
      have at_ := branched.next_branch _ live' obj follows
      obtain ⟨first, same⟩ := ih live' (by rw [← at_, from_]) walk
      exact ⟨first, same.trans at_.symm⟩

theorem promoteNewnext_total (enough : s.lineage.since obj < rounds) :
    ∃ newnext, promoteNewnext s pivot rounds obj = some newnext := by
  induction rounds generalizing obj with
  | zero => omega
  | succ rounds ih =>
    simp only [promoteNewnext]
    split_ifs with reached last
    · exact ⟨obj, rfl⟩
    · have first : s.lineage.First s.next obj := fun p parent => absurd last (parent_eq.mp parent).1
      have began := branched.origin_eq obj live first
      exact absurd last (parent_eq.mp (began.symm.trans from_)).1
    · obtain ⟨follows, live'⟩ := branched.prev_of_later shape live from_ reached last
      have older := shape.sound.older obj live _ (parent_eq.mpr ⟨last, rfl⟩)
      exact ih live' (by rw [← branched.next_branch _ live' obj follows, from_]) (by omega)

end

variable {snaps : List ℕ}

/-- The snapshots that move with the one that a clone was made from are those of its directory up to it. -/
theorem promoteSnaps_upTo (branched : s.Branched) (shape : s.Shape)
    (live : obj ∈ s.objs) (moves : promoteSnaps s rounds obj = some snaps) :
    s.lineage.UpTo s.next s.dir obj (· ∈ snaps) ∧ snaps.Nodup := by
  induction rounds generalizing obj snaps with
  | zero => simp [promoteSnaps] at moves
  | succ rounds ih =>
    simp only [promoteSnaps] at moves
    split_ifs at moves with last
    · obtain rfl := Option.some.inj moves
      have first : s.lineage.First s.next obj := by
        intro p parent at_
        obtain ⟨some_prev, rfl⟩ := parent_eq.mp parent
        exact absurd last (not_or.mpr ⟨some_prev, fun elsewhere => elsewhere (next_eq.mp at_).2⟩)
      simp only [List.mem_singleton]
      exact ⟨first.upTo live, List.nodup_singleton obj⟩
    · obtain ⟨rest, walk, rfl⟩ := Option.map_eq_some_iff.mp moves
      obtain ⟨some_prev, follows⟩ := not_or.mp last
      have parent : s.lineage.parent obj = some (s.ds obj).dsPrevSnapObj := parent_eq.mpr ⟨some_prev, rfl⟩
      have nonzero : obj ≠ 0 := fun same => shape.zero (same ▸ live)
      have at_ : s.next (s.ds obj).dsPrevSnapObj = some obj := by
        rw [next_eq, not_not.mp follows]
        exact ⟨nonzero, rfl⟩
      obtain ⟨upTo, nodup⟩ := ih (shape.sound.parent_live obj live _ parent) walk
      simp only [List.mem_cons]
      refine ⟨upTo.extend branched shape.sound live parent at_, nodup.cons fun inside => ?_⟩
      have older := shape.sound.older obj live _ parent
      have := upTo.older obj inside
      omega

theorem promoteSnaps_total (shape : s.Shape) (live : obj ∈ s.objs)
    (enough : s.lineage.since obj < rounds) : ∃ snaps, promoteSnaps s rounds obj = some snaps := by
  induction rounds generalizing obj with
  | zero => omega
  | succ rounds ih =>
    simp only [promoteSnaps]
    split_ifs with last
    · exact ⟨_, rfl⟩
    · have parent : s.lineage.parent obj = some (s.ds obj).dsPrevSnapObj :=
        parent_eq.mpr ⟨(not_or.mp last).1, rfl⟩
      have older := shape.sound.older obj live _ parent
      obtain ⟨snaps, walk⟩ := ih (shape.sound.parent_live obj live _ parent) (by omega)
      exact ⟨obj :: snaps, by rw [walk, Option.map_some]⟩

variable {hds : ℕ}

theorem promote_dir (o) :
    (dslDatasetPromoteSync s hds newnext snaps).dir o = if o ∈ snaps then s.dir hds else s.dir o := by
  simp only [Pool.dir, dslDatasetPromoteSync, update_apply]
  generalize (s.dd (s.ds hds).dsDirObj).ddCloneParentObj = pivot
  by_cases at_pivot : o = pivot
  · subst at_pivot
    split_ifs <;> rfl
  · simp only [if_neg at_pivot]
    split_ifs <;> rfl

theorem promote_origin (clone : (s.dd (s.ds hds).dsDirObj).ddCloneParentObj ≠ 0) :
    (dslDatasetPromoteSync s hds newnext snaps).origin = let pivot := (s.dd (s.ds hds).dsDirObj).ddCloneParentObj
      update (update s.origin (s.dir hds) (s.origin (s.dir pivot))) (s.dir pivot) (some pivot) := by
  funext d
  simp only [Pool.origin, Pool.dir, dslDatasetPromoteSync, update_apply]
  split_ifs <;> simp_all

/-- Promotion: the directory of the clone takes over the snapshots up to its origin. -/
theorem promote (branched : s.Branched) (shape : s.Shape)
    (live : hds ∈ s.objs) (clone : (s.dd (s.ds hds).dsDirObj).ddCloneParentObj ≠ 0)
    (walk : promoteNewnext s (s.dd (s.ds hds).dsDirObj).ddCloneParentObj rounds hds = some newnext)
    (moves : promoteSnaps s rounds (s.dd (s.ds hds).dsDirObj).ddCloneParentObj = some snaps) :
    (dslDatasetPromoteSync s hds newnext snaps).Branched := by
  obtain ⟨live', prev⟩ := promoteNewnext_spec shape live walk
  have from_ : s.origin (s.dir hds) = some (s.dd (s.ds hds).dsDirObj).ddCloneParentObj :=
    link_eq_some.mpr ⟨clone, rfl⟩
  obtain ⟨first, same⟩ := branched.promoteNewnext_first shape live from_ walk
  have nonzero : newnext ≠ 0 := fun same => shape.zero (same ▸ live')
  have next := @next_promote s hds newnext snaps nonzero
  have parent : s.lineage.parent newnext = some (s.dd (s.ds hds).dsDirObj).ddCloneParentObj :=
    parent_eq.mpr ⟨prev ▸ clone, prev⟩
  obtain ⟨upTo, -⟩ := branched.promoteSnaps_upTo shape (shape.sound.parent_live newnext live' _ parent) moves
  have taken := branched.takeOver shape.sound shape.threaded live' first parent upTo
  rw [same] at taken
  have dir : (dslDatasetPromoteSync s hds newnext snaps).dir = fun o => if o ∈ snaps then s.dir hds else s.dir o :=
    funext promote_dir
  have origin : (dslDatasetPromoteSync s hds newnext snaps).origin = _ := promote_origin clone
  rwa [Branched, lineage_promote, next, dir, origin]

end Branched

end MacZfs.Dsl.Pool
