import MacZfs.Dsl.Usage

/-!
# Promotion moves the space that was born in the snapshots

The space of a dataset is that of its blocks, and the space of a directory that of the blocks born in its
datasets: each dataset has the blocks that its previous snapshot has, less those on its deadlist, and the
blocks that were born in it. So what promotion computes from the sizes of the snapshots is the space that was
born in them.
-/

namespace MacZfs.Dsl

open Function Finset Option

namespace Pool

variable {s : Pool} {obj : ℕ}

def own (s : Pool) (o : ℕ) : List Block := traverseDslDataset (s.ds o) (s.ds o).dsPrevSnapTxg

theorem mem_own : b ∈ s.own o ↔ b ∈ (s.ds o).dsBlocks ∧ (s.ds o).dsPrevSnapTxg < b.blkBirth := by
  simp [own, traverseDslDataset]

theorem own_congr {s' : Pool} {o o'} (blocks : (s'.ds o').dsBlocks = (s.ds o).dsBlocks)
    (since : (s'.ds o').dsPrevSnapTxg = (s.ds o).dsPrevSnapTxg) : s'.own o' = s.own o := by
  rw [own, own, traverseDslDataset, traverseDslDataset, blocks, since]

/-- A dataset and its deadlist have what the previous snapshot has and what was born since. -/
theorem blocks_perm (shape : s.Shape) (live : obj ∈ s.objs) (parent : s.lineage.parent obj = some p) :
    ((s.ds obj).dsBlocks ++ (s.ds obj).dsDeadlist).Perm ((s.ds p).dsBlocks ++ s.own obj) := by
  have listed := shape.listed obj live
  have dead := mem_deadlist shape live
  have live' := shape.sound.parent_live obj live p parent
  have before := shape.sound.before obj live p parent
  have inherit := shape.sound.inherit obj live
  refine (List.perm_ext_iff_of_nodup ?_ ?_).mpr fun b => ?_
  · refine listed.nodup.append listed.dead_nodup fun b inside gone => ?_
    exact ((dead b).mp gone).2 inside
  · refine (shape.listed p live').nodup.append (listed.nodup.filter _) fun b old young => ?_
    exact absurd (mem_own.mp young).2 (not_lt.mpr (before b old))
  · simp only [List.mem_append, dead, mem_own, parent, some.injEq, exists_eq_left']
    constructor
    · rintro (inside | gone)
      · by_cases young : (s.ds obj).dsPrevSnapTxg < b.blkBirth
        · exact .inr ⟨inside, young⟩
        · obtain ⟨p', parent', old⟩ := inherit b inside (not_lt.mp young)
          exact .inl (Option.some.inj (parent'.symm.trans parent) ▸ old)
      · exact .inl gone.1
    · rintro (old | young)
      · by_cases inside : b ∈ (s.ds obj).dsBlocks
        · exact .inl inside
        · exact .inr ⟨old, inside⟩
      · exact .inl young.1

theorem own_root (shape : s.Shape) (live : obj ∈ s.objs) (root : s.lineage.parent obj = none) :
    s.own obj = (s.ds obj).dsBlocks := by
  refine List.filter_eq_self.mpr fun b inside => decide_eq_true (not_le.mp fun old => ?_)
  obtain ⟨p, parent, -⟩ := shape.sound.inherit obj live b inside old
  exact absurd parent (by simp [root])

end Pool

namespace Usage

variable {bpSpace : Block → Space}

def share (bpSpace : Block → Space) (s : Pool) (d o : ℕ) : Space :=
  if s.dir o = d then total bpSpace (s.own o) else 0

theorem share_congr {s s'} {d o o'} (dir : s'.dir o' = s.dir o) (own : s'.own o' = s.own o) :
    share bpSpace s' d o' = share bpSpace s d o := by
  rw [share, share, dir, own]

theorem diduse_apply {dd dir d used} : diduse dd dir used d = dd d + if dir = d then used else 0 := by
  by_cases same : d = dir
  · rw [same, diduse, update_self, if_pos rfl]
  · rw [diduse, update_of_ne same, if_neg (Ne.symm same), add_zero]

theorem sum_change {objs : Finset ℕ} {f g : ℕ → Space} {x : ℕ} (inside : x ∈ objs)
    (others : ∀ o ∈ objs, o ≠ x → g o = f o) : ∑ o ∈ objs, g o = ∑ o ∈ objs, f o + (g x - f x) := by
  rw [← add_sum_erase objs f inside, ← add_sum_erase objs g inside]
  have rest : ∑ o ∈ objs.erase x, g o = ∑ o ∈ objs.erase x, f o :=
    sum_congr rfl fun o member => others o (mem_of_mem_erase member) (ne_of_mem_erase member)
  rw [rest]
  abel

structure Exact (bpSpace : Block → Space) (u : Usage) : Prop where
  inv : u.pool.Inv
  branched : u.pool.Branched
  ds_eq : ∀ o ∈ u.pool.objs, u.ds o = total bpSpace (u.pool.ds o).dsBlocks
  dd_eq : ∀ d, u.dd d = ∑ o ∈ u.pool.objs, share bpSpace u.pool d o

namespace Exact

open Pool (Shape)

variable {u : Usage} {obj : ℕ}

section

variable (exact_ : Exact bpSpace u)

include exact_

theorem shape : u.pool.Shape := exact_.inv.shape

theorem head {s' : Pool} {dd' : ℕ → Space} {blocks deadlist : List Block} {bpBirth : ℕ}
    (inv : s'.Inv) (live : obj ∈ u.pool.objs) (objs : s'.objs = u.pool.objs)
    (ds : s'.ds = Function.update u.pool.ds obj { u.pool.ds obj with
      dsDeadlist := deadlist, dsBpBirth := bpBirth, dsBlocks := blocks }) (dd : s'.dd = u.pool.dd) {space : Space}
    (space_eq : space = total bpSpace blocks)
    (change : ∀ d, dd' d = u.dd d + if u.pool.dir obj = d then
      total bpSpace (s'.own obj) - total bpSpace (u.pool.own obj) else 0) :
    Exact bpSpace ⟨s', Function.update u.ds obj space, dd'⟩ := by
  have kept : ∀ {o}, o ≠ obj → s'.ds o = u.pool.ds o := fun other => by rw [ds, update_of_ne other]
  have own : s'.ds obj = { u.pool.ds obj with
      dsDeadlist := deadlist, dsBpBirth := bpBirth, dsBlocks := blocks } := by rw [ds, update_self]
  refine ⟨inv, exact_.branched.setHead objs ds dd, ?_, ?_⟩
  · intro o live'
    dsimp only at live' ⊢
    by_cases same : o = obj
    · rw [same, update_self, own, space_eq]
    · rw [update_of_ne same, kept same]
      exact exact_.ds_eq o (objs ▸ live')
  · intro d
    dsimp only
    have parts : ∑ o ∈ u.pool.objs, share bpSpace s' d o = ∑ o ∈ u.pool.objs, share bpSpace u.pool d o +
        (share bpSpace s' d obj - share bpSpace u.pool d obj) := by
      refine sum_change live fun o _ other => share_congr (by rw [Pool.dir, Pool.dir, kept other]) ?_
      exact Pool.own_congr (by rw [kept other]) (by rw [kept other])
    have dir : s'.dir obj = u.pool.dir obj := by rw [Pool.dir, Pool.dir, own]
    rw [change, exact_.dd_eq, objs, parts, share, share, dir]
    by_cases at_ : u.pool.dir obj = d <;> simp [at_]

section

variable (live : obj ∈ u.pool.objs)

include live

theorem born {b} (last : (u.pool.ds obj).dsNextSnapObj = 0) (unsnapped : (u.pool.ds obj).dsPrevSnapTxg < u.pool.txg)
    (birth : b.blkBirth = u.pool.txg) (fresh : b ∉ u.pool.born) : Exact bpSpace (u.blockBorn bpSpace obj b) := by
  have inv : (dslDatasetBlockBorn u.pool obj b).Inv := exact_.inv.born live last unsnapped birth fresh
  refine exact_.head inv live rfl rfl rfl ?_ fun d => ?_
  · rw [exact_.ds_eq obj live, total_cons, add_comm]
  · have own : (dslDatasetBlockBorn u.pool obj b).own obj = b :: u.pool.own obj := by
      simp [Pool.own, traverseDslDataset, dslDatasetBlockBorn, Pool.setDs, birth, unsnapped]
    rw [diduse_apply, own, total_cons, add_sub_cancel_right]

theorem kill (last : (u.pool.ds obj).dsNextSnapObj = 0) (referenced : b ∈ (u.pool.ds obj).dsBlocks) :
    Exact bpSpace (u.blockKill bpSpace obj b) := by
  have inv : (dslDatasetBlockKill u.pool obj b).Inv := exact_.inv.kill live last referenced
  have left : u.ds obj - bpSpace b = total bpSpace ((u.pool.ds obj).dsBlocks.erase b) := by
    rw [exact_.ds_eq obj live, total_erase referenced]
  have nodup := (exact_.shape.listed obj live).nodup
  have own : (dslDatasetBlockKill u.pool obj b).own obj = (u.pool.own obj).erase b := by
    have blocks : ((dslDatasetBlockKill u.pool obj b).ds obj).dsBlocks = (u.pool.ds obj).dsBlocks.erase b ∧
        ((dslDatasetBlockKill u.pool obj b).ds obj).dsPrevSnapTxg = (u.pool.ds obj).dsPrevSnapTxg := by
      simp only [dslDatasetBlockKill]
      split_ifs <;> simp [Pool.setDs, Pool.arcFree]
    rw [Pool.own, traverseDslDataset, blocks.1, blocks.2, nodup.erase_eq_filter, List.filter_filter, Pool.own,
      traverseDslDataset, (nodup.filter _).erase_eq_filter, List.filter_filter]
    simp only [Bool.and_comm]
  by_cases young : b.blkBirth > (u.pool.ds obj).dsPrevSnapTxg
  · have pool := Pool.dslDatasetBlockKill_young young
    simp only [blockKill, if_pos young]
    rw [pool] at inv own ⊢
    refine exact_.head inv live rfl rfl rfl left fun d => ?_
    rw [diduse_apply, own, total_erase (Pool.mem_own.mpr ⟨referenced, young⟩), sub_sub_cancel_left]
  · have pool := Pool.dslDatasetBlockKill_old young
    simp only [blockKill, if_neg young]
    rw [pool] at inv own ⊢
    refine exact_.head inv live rfl rfl rfl left fun d => ?_
    rw [own, List.erase_of_not_mem fun inside => young (Pool.mem_own.mp inside).2, sub_self, ite_self, add_zero]

theorem rollback (check : dslDatasetRollbackCheck u.pool obj) : Exact bpSpace (u.rollback bpSpace obj) := by
  have inv : (dslDatasetRollbackSync u.pool obj).Inv := exact_.inv.rollback live check
  have parent : u.pool.lineage.parent obj = some (u.pool.ds obj).dsPrevSnapObj := by
    simp only [dslDatasetRollbackCheck, Bool.and_eq_true, bne_iff_ne] at check
    exact Shape.parent_eq.mpr ⟨fun none => check.1.1 ((exact_.shape.dated obj live).first_txg none), rfl⟩
  have own : (dslDatasetRollbackSync u.pool obj).own obj = [] := by
    have before := exact_.shape.sound.before obj live _ parent
    refine List.filter_eq_nil_iff.mpr fun b inside => ?_
    have at_ : (dslDatasetRollbackSync u.pool obj).ds obj = { u.pool.ds obj with
        dsDeadlist := [], dsBpBirth := (u.pool.ds (u.pool.ds obj).dsPrevSnapObj).dsBpBirth
        dsBlocks := (u.pool.ds (u.pool.ds obj).dsPrevSnapObj).dsBlocks } := update_self _ _ _
    rw [at_] at inside ⊢
    exact fun young => absurd (of_decide_eq_true young) (not_lt.mpr (before b inside))
  refine exact_.head inv live rfl rfl rfl ?_ fun d => ?_
  · exact exact_.ds_eq _ (exact_.shape.sound.parent_live obj live _ parent)
  · rw [diduse_apply, own, total_nil, zero_sub]
    rfl

end

end

variable {dsobj : ℕ}

theorem create_own (shape : u.pool.Shape) (unused : dsobj ∉ u.pool.objs)
    (parent : cloneParent = 0 ∨ cloneParent ∈ u.pool.objs) (check : createCheck u.pool cloneParent) :
    (dslDatasetCreateSync u.pool ddobj dsobj cloneParent).own dsobj = [] := by
  by_cases root : cloneParent = 0
  · subst root
    rw [Pool.own, Shape.create_own]
    rfl
  · have live := parent.resolve_left root
    have counted : u.pool.count cloneParent ≠ 0 := by
      simpa [createCheck, root, Pool.count] using check
    have snap : (u.pool.ds cloneParent).dsNextSnapObj ≠ 0 := by
      simpa [Pool.next] using (shape.threaded.count_pos live).mp counted
    have apart : dsobj ≠ cloneParent := fun same => unused (same ▸ live)
    rw [Pool.own, Shape.clone_own root apart]
    refine List.filter_eq_nil_iff.mpr fun b inside young => ?_
    exact absurd (of_decide_eq_true young) (not_lt.mpr ((shape.dated cloneParent live).birth_snap snap b inside))

section

variable (exact_ : Exact bpSpace u)

include exact_

theorem create (nonzero : dsobj ≠ 0) (unused : dsobj ∉ u.pool.objs) (fresh : ∀ o ∈ u.pool.objs, u.pool.dir o ≠ ddobj)
    (parent : cloneParent = 0 ∨ cloneParent ∈ u.pool.objs) (check : createCheck u.pool cloneParent) :
    Exact bpSpace (u.create ddobj dsobj cloneParent) := by
  have objs : (dslDatasetCreateSync u.pool ddobj dsobj cloneParent).objs = insert dsobj u.pool.objs := by
    simp only [dslDatasetCreateSync]
    split_ifs <;> rfl
  have kept : ∀ o ≠ dsobj, ∃ n, (dslDatasetCreateSync u.pool ddobj dsobj cloneParent).ds o =
      { u.pool.ds o with dsNumChildren := n } := by
    intro o other
    by_cases root : cloneParent = 0
    · subst root
      exact ⟨_, Shape.create_kept other⟩
    · exact ⟨_, Shape.clone_kept root other⟩
  have apart : ∀ {o}, o ∈ u.pool.objs → o ≠ dsobj := fun live same => unused (same ▸ live)
  refine ⟨exact_.inv.create nonzero unused parent check,
    exact_.branched.create exact_.shape unused parent fresh, ?_, ?_⟩
  · intro o member
    rw [Usage.create] at member ⊢
    dsimp only at member ⊢
    rcases Finset.mem_insert.mp (objs ▸ member) with rfl | old
    · rw [update_self]
      by_cases root : cloneParent = 0
      · subst root
        rw [if_pos rfl, Shape.create_own, total_nil]
      · have live := parent.resolve_left root
        rw [if_neg root, Shape.clone_own root (apart live).symm]
        exact exact_.ds_eq cloneParent live
    · obtain ⟨n, same⟩ := kept o (apart old)
      rw [update_of_ne (apart old), same]
      exact exact_.ds_eq o old
  · intro d
    rw [Usage.create]
    dsimp only
    have shares : ∑ o ∈ u.pool.objs, share bpSpace (dslDatasetCreateSync u.pool ddobj dsobj cloneParent) d o =
        ∑ o ∈ u.pool.objs, share bpSpace u.pool d o := by
      refine sum_congr rfl fun o old => ?_
      obtain ⟨n, same⟩ := kept o (apart old)
      exact share_congr (by rw [Pool.dir, same, Pool.dir]) (Pool.own_congr (by rw [same]) (by rw [same]))
    rw [objs, sum_insert unused, shares, share, create_own exact_.shape unused parent check, total_nil, ite_self,
      zero_add, ← exact_.dd_eq d]
    by_cases new : d = ddobj
    · -- nothing is in the directory yet
      rw [new, update_self, exact_.dd_eq, sum_eq_zero]
      exact fun o old => if_neg (fresh o old)
    · rw [update_of_ne new]

section

variable (live : obj ∈ u.pool.objs)

include live

theorem snapshot (last : (u.pool.ds obj).dsNextSnapObj = 0) (nonzero : dsobj ≠ 0) (unused : dsobj ∉ u.pool.objs)
    (check : dslDatasetSnapshotCheck u.pool obj) : Exact bpSpace (u.snapshot obj dsobj) := by
  have shape := exact_.shape
  have apart : ∀ {o}, o ∈ u.pool.objs → o ≠ dsobj := fun live same => unused (same ▸ live)
  have nonzero' : obj ≠ 0 := fun same => shape.zero (same ▸ live)
  have head := @Shape.snapshot_head u.pool obj dsobj
  have snap := Shape.snapshot_snap shape live unused
  refine ⟨exact_.inv.snapshot live last nonzero unused check,
    exact_.branched.snapshot shape live last nonzero unused, ?_, ?_⟩
  · intro o member
    rw [Usage.snapshot] at member ⊢
    dsimp only at member ⊢
    rcases Finset.mem_insert.mp (Shape.snapshot_objs ▸ member) with rfl | old
    · rw [update_self, snap]
      exact exact_.ds_eq obj live
    · rw [update_of_ne (apart old), Shape.snapshot_blocks nonzero' (apart old)]
      exact exact_.ds_eq o old
  · intro d
    rw [Usage.snapshot]
    -- all that was born in the dataset was born in the snapshot now
    have moved : share bpSpace (dslDatasetSnapshotSync u.pool obj dsobj) d dsobj = share bpSpace u.pool d obj :=
      share_congr (by rw [Pool.dir, snap, Pool.dir]) (Pool.own_congr (by rw [snap]) (by rw [snap]))
    have none : (dslDatasetSnapshotSync u.pool obj dsobj).own obj = [] := by
      rw [Pool.own, head]
      refine List.filter_eq_nil_iff.mpr fun b inside young => ?_
      exact absurd (of_decide_eq_true young) (not_lt.mpr ((shape.dated obj live).birth_le b inside))
    have parts : ∑ o ∈ u.pool.objs, share bpSpace (dslDatasetSnapshotSync u.pool obj dsobj) d o =
        ∑ o ∈ u.pool.objs, share bpSpace u.pool d o +
          (share bpSpace (dslDatasetSnapshotSync u.pool obj dsobj) d obj - share bpSpace u.pool d obj) := by
      refine sum_change live fun o old other => ?_
      have kept := @Shape.snapshot_kept u.pool obj dsobj nonzero' o other (apart old)
      exact share_congr (by rw [Pool.dir, kept, Pool.dir]) (Pool.own_congr (by rw [kept]) (by rw [kept]))
    rw [Shape.snapshot_objs, sum_insert unused, moved, parts, ← exact_.dd_eq d]
    rw [share.eq_def bpSpace (dslDatasetSnapshotSync u.pool obj dsobj), none, total_nil, ite_self]
    abel

theorem destroyHead (last : (u.pool.ds obj).dsNextSnapObj = 0) (check : dslDatasetDestroyCheck u.pool obj) :
    Exact bpSpace (u.destroy bpSpace obj) := by
  have kept := Shape.destroyHead_kept exact_.shape live last (Pool.destroyCheck_branch check last)
  refine ⟨exact_.inv.destroy live check, exact_.branched.destroy exact_.shape live check, ?_, ?_⟩
  · intro o member
    rw [Usage.destroy] at member ⊢
    rw [kept o]
    exact exact_.ds_eq o (mem_of_mem_erase (Shape.destroy_objs ▸ member))
  · intro d
    rw [Usage.destroy]
    dsimp only
    have shares : ∀ o, share bpSpace (dslDatasetDestroySync u.pool obj) d o = share bpSpace u.pool d o := fun o =>
      share_congr (by rw [Pool.dir, kept o, Pool.dir]) (Pool.own_congr (by rw [kept o]) (by rw [kept o]))
    have freed : destroyed u.pool obj = u.pool.own obj := if_neg (not_not.mpr last)
    rw [Shape.destroy_objs, sum_congr rfl fun o _ => shares o, sum_erase_eq_sub live, ← exact_.dd_eq d,
      diduse_apply, freed, share, sub_eq_add_neg]
    split_ifs <;> simp

theorem destroySnap {n : ℕ} (at_ : u.pool.next obj = some n)
    (check : dslDatasetDestroyCheck u.pool obj) : Exact bpSpace (u.destroy bpSpace obj) := by
  have shape := exact_.shape
  have live' : n ∈ u.pool.objs := shape.threaded.next_live obj live n at_
  have child := shape.threaded.next_parent obj live n at_
  have own := Shape.destroySnap_next shape live at_
  have kept : ∀ o ≠ n, (dslDatasetDestroySync u.pool obj).ds o = { u.pool.ds o with
      dsNextSnapObj := if u.pool.lineage.parent obj = some o ∧ u.pool.next o = some obj then n
        else (u.pool.ds o).dsNextSnapObj } := fun o => Shape.destroySnap_kept shape live at_
  refine ⟨exact_.inv.destroy live check, exact_.branched.destroy shape live check, ?_, ?_⟩
  · intro o member
    rw [Usage.destroy] at member ⊢
    have old := mem_of_mem_erase (Shape.destroy_objs ▸ member)
    by_cases same : o = n
    · rw [same, own]
      exact exact_.ds_eq n live'
    · rw [kept o same]
      exact exact_.ds_eq o old
  · intro d
    rw [Usage.destroy]
    dsimp only
    have apart : n ≠ obj := fun same => Shape.parent_ne_self shape live' (same ▸ child)
    have parts : ∑ o ∈ u.pool.objs.erase obj, share bpSpace (dslDatasetDestroySync u.pool obj) d o =
        ∑ o ∈ u.pool.objs.erase obj, share bpSpace u.pool d o +
          (share bpSpace (dslDatasetDestroySync u.pool obj) d n - share bpSpace u.pool d n) := by
      refine sum_change (mem_erase.mpr ⟨apart, live'⟩) fun o _ other => ?_
      exact share_congr (by rw [Pool.dir, kept o other, Pool.dir])
        (Pool.own_congr (by rw [kept o other]) (by rw [kept o other]))
    have freed : destroyed u.pool obj =
        (u.pool.ds n).dsDeadlist.filter fun b => b.blkBirth > (u.pool.ds obj).dsPrevSnapTxg := by
      obtain ⟨snap, rfl⟩ := Shape.next_eq.mp at_
      exact if_pos snap
    -- the next dataset has what was born in either, but for the blocks that are freed
    have taken : total bpSpace ((dslDatasetDestroySync u.pool obj).own n) + total bpSpace (destroyed u.pool obj) =
        total bpSpace (u.pool.own obj) + total bpSpace (u.pool.own n) := by
      have older := shape.sound.older n live' obj child
      have young : (u.pool.own n).filter (fun b => b.blkBirth > (u.pool.ds obj).dsPrevSnapTxg) = u.pool.own n := by
        refine List.filter_eq_self.mpr fun b inside => decide_eq_true ?_
        exact lt_trans older (Pool.mem_own.mp inside).2
      have perm := (Pool.blocks_perm shape live' child).filter fun b => b.blkBirth > (u.pool.ds obj).dsPrevSnapTxg
      rw [List.filter_append, List.filter_append, young] at perm
      rw [freed, Pool.own, own, ← total_append, ← total_append]
      exact total_perm perm
    have dir : (dslDatasetDestroySync u.pool obj).dir n = u.pool.dir obj := by
      rw [Pool.dir, own]
      exact exact_.branched.next_branch obj live n at_
    have dir' : u.pool.dir n = u.pool.dir obj := exact_.branched.next_branch obj live n at_
    rw [Shape.destroy_objs, parts, sum_erase_eq_sub live, ← exact_.dd_eq d, diduse_apply, share, share, share,
      dir, dir', eq_sub_of_add_eq taken]
    split_ifs
    · abel
    · simp

theorem destroy (check : dslDatasetDestroyCheck u.pool obj) : Exact bpSpace (u.destroy bpSpace obj) := by
  by_cases last : (u.pool.ds obj).dsNextSnapObj = 0
  · exact exact_.destroyHead live last check
  · exact exact_.destroySnap live (Shape.next_eq.mpr ⟨last, rfl⟩) check

end

end

/-! ## Promotion -/

theorem born_eq (exact_ : Exact bpSpace u) (live : obj ∈ u.pool.objs) (havecomp : Bool)
    (some_prev : (u.pool.ds obj).dsPrevSnapObj ≠ 0) :
    u.ds obj + (bplistSpace bpSpace havecomp (u.pool.ds obj).dsDeadlist - u.ds (u.pool.ds obj).dsPrevSnapObj) =
      total bpSpace (u.pool.own obj) := by
  have parent : u.pool.lineage.parent obj = some (u.pool.ds obj).dsPrevSnapObj :=
    Shape.parent_eq.mpr ⟨some_prev, rfl⟩
  have live' := exact_.shape.sound.parent_live obj live _ parent
  have perm : total bpSpace _ = total bpSpace _ := total_perm (Pool.blocks_perm exact_.shape live parent)
  rw [total_append, total_append] at perm
  rw [bplistSpace_eq, exact_.ds_eq obj live, exact_.ds_eq _ live', ← add_sub_assoc, perm, add_sub_cancel_left]

variable {havecomp : ℕ → Bool} {rounds : ℕ}

/-- The walk of the check over the snapshots that move, which is that of the promotion. -/
theorem promoteSpace_eq (exact_ : Exact bpSpace u) (live : obj ∈ u.pool.objs) :
    u.promoteSpace bpSpace havecomp rounds obj =
      (promoteSnaps u.pool rounds obj).map fun snaps => (snaps.map fun o => total bpSpace (u.pool.own o)).sum := by
  induction rounds generalizing obj with
  | zero => rfl
  | succ rounds ih =>
    simp only [promoteSpace, promoteSnaps]
    by_cases first : (u.pool.ds obj).dsPrevSnapObj = 0
    · have root : u.pool.lineage.parent obj = none := link_eq_none.mpr first
      rw [if_pos first, if_pos (.inl first), exact_.ds_eq obj live, ← Pool.own_root exact_.shape live root]
      simp
    · rw [if_neg first, exact_.born_eq live _ first]
      by_cases branch : (u.pool.ds (u.pool.ds obj).dsPrevSnapObj).dsNextSnapObj ≠ obj
      · rw [if_pos branch, if_pos (.inr branch)]
        simp
      · have live' := exact_.shape.sound.parent_live obj live _ (Shape.parent_eq.mpr ⟨first, rfl⟩)
        rw [if_neg branch, if_neg (not_or.mpr ⟨first, branch⟩), ih live', Option.map_map, Option.map_map]
        simp [comp_def]

variable {hds : ℕ}

section

variable (exact_ : Exact bpSpace u) (live : hds ∈ u.pool.objs)

include exact_ live

theorem promoteCheck_spec (check : u.promoteCheck bpSpace havecomp rounds hds = some pa) :
    let pivot := (u.pool.dd (u.pool.ds hds).dsDirObj).ddCloneParentObj
    pivot ≠ 0 ∧ pivot ∈ u.pool.objs ∧ promoteNewnext u.pool pivot rounds hds = some pa.newnextObj ∧
      ∃ snaps, promoteSnaps u.pool rounds pivot = some snaps ∧
        pa.space = (snaps.map fun o => total bpSpace (u.pool.own o)).sum := by
  intro pivot
  simp only [promoteCheck] at check
  split_ifs at check with clone
  obtain ⟨newnext, walk, check⟩ := bind_eq_some_iff.mp check
  obtain ⟨space, sums, check⟩ := bind_eq_some_iff.mp check
  obtain rfl := Option.some.inj check
  obtain ⟨live', prev⟩ := Pool.promoteNewnext_spec exact_.shape live walk
  have pivot_live : pivot ∈ u.pool.objs :=
    exact_.shape.sound.parent_live newnext live' pivot (Shape.parent_eq.mpr ⟨prev ▸ clone, prev⟩)
  rw [exact_.promoteSpace_eq pivot_live] at sums
  obtain ⟨snaps, moves, rfl⟩ := map_eq_some_iff.mp sums
  exact ⟨clone, pivot_live, walk, snaps, moves, rfl⟩

theorem promoteCheck_total (clone : (u.pool.dd (u.pool.ds hds).dsDirObj).ddCloneParentObj ≠ 0) :
    ∃ rounds, (u.promoteCheck bpSpace havecomp rounds hds).isSome := by
  set pivot := (u.pool.dd (u.pool.ds hds).dsDirObj).ddCloneParentObj with at_pivot
  have shape := exact_.shape
  let rounds := max (u.pool.lineage.since hds) (u.pool.lineage.since pivot) + 1
  obtain ⟨newnext, walk⟩ : ∃ newnext, promoteNewnext u.pool pivot rounds hds = some newnext :=
    exact_.branched.promoteNewnext_total shape live (link_eq_some.mpr ⟨clone, rfl⟩)
      (show u.pool.lineage.since hds < rounds by omega)
  obtain ⟨live', prev⟩ := Pool.promoteNewnext_spec shape live walk
  have pivot_live : pivot ∈ u.pool.objs :=
    shape.sound.parent_live newnext live' pivot (Shape.parent_eq.mpr ⟨prev ▸ clone, prev⟩)
  obtain ⟨snaps, moves⟩ := Pool.Branched.promoteSnaps_total shape pivot_live
    (show u.pool.lineage.since pivot < rounds by omega)
  refine ⟨rounds, ?_⟩
  simp only [promoteCheck, ← at_pivot, if_neg clone, walk, exact_.promoteSpace_eq pivot_live, moves]
  rfl

theorem promote (check : u.promoteCheck bpSpace havecomp rounds hds = some pa)
    (moves : promoteSnaps u.pool rounds (u.pool.dd (u.pool.ds hds).dsDirObj).ddCloneParentObj = some snaps) :
    Exact bpSpace (u.promote hds pa snaps) := by
  obtain ⟨clone, pivot_live, walk, snaps', moves', space⟩ := exact_.promoteCheck_spec live check
  obtain rfl := Option.some.inj (moves.symm.trans moves')
  obtain ⟨upTo, nodup⟩ := exact_.branched.promoteSnaps_upTo exact_.shape pivot_live moves
  have kept := @Shape.promote_kept u.pool hds pa.newnextObj snaps
  refine ⟨exact_.inv.promote live clone walk, exact_.branched.promote exact_.shape live clone walk moves, ?_, ?_⟩
  · intro o member
    rw [Usage.promote] at member ⊢
    obtain ⟨dir, same⟩ := kept o
    rw [same]
    exact exact_.ds_eq o member
  · intro d
    rw [Usage.promote]
    dsimp only
    set pivot := (u.pool.dd (u.pool.ds hds).dsDirObj).ddCloneParentObj
    -- a snapshot that moves takes its part from one directory to the other
    have shares : ∀ o, share bpSpace (dslDatasetPromoteSync u.pool hds pa.newnextObj snaps) d o =
        share bpSpace u.pool d o + if o ∈ snaps.toFinset then
          (if u.pool.dir hds = d then total bpSpace (u.pool.own o) else 0) -
            (if u.pool.dir pivot = d then total bpSpace (u.pool.own o) else 0) else 0 := by
      intro o
      have own : (dslDatasetPromoteSync u.pool hds pa.newnextObj snaps).own o = u.pool.own o := by
        obtain ⟨dir, same⟩ := kept o
        exact Pool.own_congr (by rw [same]) (by rw [same])
      rw [share, share, own, Pool.Branched.promote_dir]
      by_cases inside : o ∈ snaps
      · rw [if_pos inside, if_pos (List.mem_toFinset.mpr inside), upTo.along o inside]
        abel
      · rw [if_neg inside, if_neg fun member => inside (List.mem_toFinset.mp member), add_zero]
    have inside : u.pool.objs ∩ snaps.toFinset = snaps.toFinset :=
      inter_eq_right.mpr fun o member => upTo.live o (List.mem_toFinset.mp member)
    have moved : ∑ o ∈ snaps.toFinset, total bpSpace (u.pool.own o) = pa.space := by
      rw [space, List.sum_toFinset _ nodup]
    have objs : (dslDatasetPromoteSync u.pool hds pa.newnextObj snaps).objs = u.pool.objs := rfl
    rw [objs, sum_congr rfl fun o _ => shares o, sum_add_distrib, sum_ite_mem, inside,
      sum_sub_distrib, ← exact_.dd_eq d, diduse_apply, diduse_apply, ← moved]
    split_ifs <;> simp

end

theorem step (exact_ : Exact bpSpace u) (step : UsageStep bpSpace u u') : Exact bpSpace u' := by
  cases step with
  | born live head unsnapped birth fresh => exact exact_.born live head unsnapped birth fresh
  | kill live head referenced => exact exact_.kill live head referenced
  | create nonzero unused fresh parent check => exact exact_.create nonzero unused fresh parent check
  | snapshot live head nonzero unused check => exact exact_.snapshot live head nonzero unused check
  | rollback live check => exact exact_.rollback live check
  | destroy live check => exact exact_.destroy live check
  | promote live head check moves => exact exact_.promote live check moves
  | next => exact ⟨exact_.inv.step .next, exact_.branched.frame rfl (fun o => ⟨rfl, rfl, rfl⟩) rfl, exact_.ds_eq, exact_.dd_eq⟩

theorem first {first} (u) (init : (usageRuns bpSpace first).init u) : Exact bpSpace u := by
  obtain ⟨pool, -, dd⟩ := init
  have none : ∀ o, o ∉ u.pool.objs := fun o => by rw [pool]; exact notMem_empty o
  refine ⟨pool ▸ Pool.emptyPool_inv first, ⟨?_, ?_, ?_⟩, ?_, fun d => ?_⟩
  · exact fun o live => absurd live (none o)
  · exact fun o live => absurd live (none o)
  · exact fun o live => absurd live (none o)
  · exact fun o live => absurd live (none o)
  · rw [dd, eq_empty_of_forall_notMem none, sum_empty]

end Exact

end Usage

namespace Pool

variable {s : Pool}

def allocated (s : Pool) : Finset Block := s.born.toFinset \ s.freed.toFinset

def bornSpace (bpSpace : Block → Space) (s : Pool) (objs : Finset ℕ) : Space :=
  ∑ b ∈ s.allocated with ∃ o ∈ objs, b ∈ s.own o, bpSpace b

theorem bornSpace_eq {bpSpace} (inv : s.Inv) {objs} (live : objs ⊆ s.objs) :
    s.bornSpace bpSpace objs = ∑ o ∈ objs, total bpSpace (s.own o) := by
  have owned : s.allocated.filter (fun b => ∃ o ∈ objs, b ∈ s.own o) = objs.biUnion fun o => (s.own o).toFinset := by
    ext b
    simp only [allocated, mem_filter, mem_sdiff, List.mem_toFinset, mem_biUnion]
    refine and_iff_right_of_imp ?_
    rintro ⟨o, inside, held⟩
    have referenced : s.Referenced b := ⟨o, live inside, (mem_own.mp held).1⟩
    exact ⟨inv.books.born b referenced, fun freed => ((inv.books.mem_freed b).mp freed).2 referenced⟩
  rw [bornSpace, owned, sum_biUnion]
  · refine sum_congr rfl fun o inside => ?_
    exact List.sum_toFinset _ ((inv.shape.listed o (live inside)).nodup.filter _)
  · intro o inside o' inside' other
    refine Finset.disjoint_left.mpr fun b held held' => other ?_
    have held := mem_own.mp (List.mem_toFinset.mp held)
    have held' := mem_own.mp (List.mem_toFinset.mp held')
    exact inv.shape.sound.origin o (live inside) o' (live inside') b held.1 held'.1 held.2 held'.2

end Pool

/-- In every run from an empty pool, the walks of `dsl_dataset_promote_check` from a clone end. The space that
    moves with an accepted promotion is that of the allocated blocks born in the snapshots that move, and after it
    each directory has the space of the allocated blocks born in its datasets. There are the same datasets with
    the same previous snapshots, and the next ones and the directories again are the branches of this tree. -/
theorem promote_moves_born_space (bpSpace : Block → Space) {first : ℕ} {u : Usage}
    (reachable : (usageRuns bpSpace first).Reachable u) (havecomp : ℕ → Bool) (hds : ℕ) (live : hds ∈ u.pool.objs)
    (head : (u.pool.ds hds).dsNextSnapObj = 0)
    (clone : (u.pool.dd (u.pool.ds hds).dsDirObj).ddCloneParentObj ≠ 0) :
    (∃ rounds, (u.promoteCheck bpSpace havecomp rounds hds).isSome) ∧
    ∀ rounds pa, u.promoteCheck bpSpace havecomp rounds hds = some pa →
      ∃ snaps, promoteSnaps u.pool rounds (u.pool.dd (u.pool.ds hds).dsDirObj).ddCloneParentObj = some snaps ∧
        pa.space = u.pool.bornSpace bpSpace snaps.toFinset ∧
        (let u' := u.promote hds pa snaps
         (usageRuns bpSpace first).Reachable u' ∧
         (∀ d, u'.dd d = u'.pool.bornSpace bpSpace (u'.pool.objs.filter fun o => u'.pool.dir o = d)) ∧
         u'.pool.objs = u.pool.objs ∧ u'.pool.lineage = u.pool.lineage ∧
         u'.pool.lineage.Sound Block.blkBirth ∧ u'.pool.lineage.Threaded u'.pool.next u'.pool.count ∧
         u'.pool.lineage.Branched u'.pool.next u'.pool.dir u'.pool.origin) := by
  have exact_ := reachable.invariant Usage.Exact.first fun _ _ exact_ step => exact_.step step
  refine ⟨exact_.promoteCheck_total live clone, fun rounds pa check => ?_⟩
  obtain ⟨-, pivot_live, -, snaps, moves, space⟩ := exact_.promoteCheck_spec live check
  obtain ⟨upTo, nodup⟩ := exact_.branched.promoteSnaps_upTo exact_.shape pivot_live moves
  have after := exact_.promote live check moves
  refine ⟨snaps, moves, ?_, .next reachable (.promote live head check moves), fun d => ?_, rfl, Pool.Shape.lineage_promote,
    after.shape.sound, after.shape.threaded, after.branched⟩
  · rw [Pool.bornSpace_eq exact_.inv fun o member => upTo.live o (List.mem_toFinset.mp member), space,
      List.sum_toFinset _ nodup]
  · rw [Pool.bornSpace_eq after.inv (filter_subset _ _), after.dd_eq d, sum_filter]
    rfl

def clonedUsage : Usage :=
  let bpSpace : Block → Space := fun _ => (512, 256, 512)
  let u := (Usage.create ⟨emptyPool 4, fun _ => 0, fun _ => 0⟩ 10 1 0).blockBorn bpSpace 1 ⟨7, 4⟩
  let u := ((Usage.snapshot { u with pool := { u.pool with txg := u.pool.txg + 1 } } 1 2).create 11 3 2)
  Usage.blockBorn bpSpace { u with pool := { u.pool with txg := u.pool.txg + 1 } } 3 ⟨8, 6⟩

theorem clonedUsage_reachable : (usageRuns (fun _ => (512, 256, 512)) 4).Reachable clonedUsage := by
  refine .next ?_ (.born (by decide) (by decide) (by decide) (by decide) (by decide))
  refine .next ?_ .next
  refine .next ?_ (.create (by decide) (by decide) (by decide) (by decide) (by decide))
  refine .next ?_ (.snapshot (by decide) (by decide) (by decide) (by decide) (by decide))
  refine .next ?_ .next
  refine .next ?_ (.born (by decide) (by decide) (by decide) (by decide) (by decide))
  refine .next ?_ (.create (by decide) (by decide) (by decide) (by decide) (by decide))
  exact .first ⟨rfl, fun _ => rfl, fun _ => rfl⟩

theorem promote_moves_born_space_cloned :
    ∃ pa, clonedUsage.promoteCheck (fun _ => (512, 256, 512)) (fun _ => true) 9 3 = some pa ∧
      pa.space = clonedUsage.pool.bornSpace (fun _ => (512, 256, 512)) {2} := by
  refine ⟨⟨3, (512, 256, 512)⟩, by decide, ?_⟩
  obtain ⟨snaps, moves, space, -⟩ := (promote_moves_born_space _ clonedUsage_reachable (fun _ => true) 3
    (by decide) (by decide) (by decide)).2 9 ⟨3, (512, 256, 512)⟩ (by decide)
  obtain rfl : snaps = [2] := Option.some.inj (moves.symm.trans (by decide))
  exact space

end MacZfs.Dsl
