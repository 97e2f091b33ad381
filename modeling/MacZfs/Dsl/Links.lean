import MacZfs.Dsl.Shape

/-!
# Snapshots and the links between them

Taking and destroying snapshots, destroying clones, and promotion keep the shape of a pool. For each
there is what it leaves in every dataset, and what it does to the lineage.
-/

namespace MacZfs.Dsl.Pool.Shape

open Function Pool Lineage Finset

variable {s : Pool}

variable {o : ℕ}

theorem parent_eq {p} : s.lineage.parent o = some p ↔ (s.ds o).dsPrevSnapObj ≠ 0 ∧ (s.ds o).dsPrevSnapObj = p :=
  link_eq_some

theorem next_eq {n} : s.next o = some n ↔ (s.ds o).dsNextSnapObj ≠ 0 ∧ (s.ds o).dsNextSnapObj = n :=
  link_eq_some

theorem prevBlocks_congr {s' : Pool} {o'} (parent : s'.lineage.parent o' = s.lineage.parent o)
    (blocks : ∀ p, s.lineage.parent o = some p → (s'.ds p).dsBlocks = (s.ds p).dsBlocks) :
    s'.prevBlocks o' = s.prevBlocks o := by
  simp only [prevBlocks, parent]
  cases at_ : s.lineage.parent o with
  | none => rfl
  | some p => rw [Option.map_some, Option.map_some, blocks p at_]

/-! ## Taking snapshots -/

section Snapshot

variable {obj dsobj : ℕ}

@[simp]
theorem snapshotPrev_objs : (snapshotPrev s prevobj obj dsobj).objs = s.objs := by
  simp only [snapshotPrev]
  split_ifs <;> rfl

@[simp]
theorem snapshotPrev_txg : (snapshotPrev s prevobj obj dsobj).txg = s.txg := by
  simp only [snapshotPrev]
  split_ifs <;> rfl

@[simp]
theorem snapshotPrev_dd : (snapshotPrev s prevobj obj dsobj).dd = s.dd := by
  simp only [snapshotPrev]
  split_ifs <;> rfl

theorem snapshotPrev_ds (o) : (snapshotPrev s prevobj obj dsobj).ds o =
    if o = prevobj ∧ prevobj ≠ 0 ∧ (s.ds prevobj).dsNextSnapObj = obj then { s.ds o with dsNextSnapObj := dsobj }
    else s.ds o := by
  by_cases same : o = prevobj
  · subst same
    simp only [snapshotPrev, true_and]
    split_ifs <;> simp [setDs]
  · simp only [snapshotPrev, same, false_and, if_false]
    split_ifs <;> simp [setDs, same]

theorem snapshot_objs : (dslDatasetSnapshotSync s obj dsobj).objs = insert dsobj s.objs := by
  simp [dslDatasetSnapshotSync, setDs]

theorem snapshot_txg : (dslDatasetSnapshotSync s obj dsobj).txg = s.txg := by
  simp [dslDatasetSnapshotSync, setDs]

theorem snapshot_dd : (dslDatasetSnapshotSync s obj dsobj).dd = s.dd := by
  simp [dslDatasetSnapshotSync, setDs]

theorem snapshot_head : (dslDatasetSnapshotSync s obj dsobj).ds obj =
    { s.ds obj with dsPrevSnapObj := dsobj, dsPrevSnapTxg := s.txg, dsDeadlist := [] } := by
  simp [dslDatasetSnapshotSync, setDs]

theorem snapshot_snap (shape : s.Shape) (live : obj ∈ s.objs) (unused : dsobj ∉ s.objs) :
    (dslDatasetSnapshotSync s obj dsobj).ds dsobj =
      { s.ds obj with dsNextSnapObj := obj, dsNumChildren := 1, dsCreationTxg := s.txg } := by
  have apart : dsobj ≠ obj := fun same => unused (same ▸ live)
  have prev_apart : ¬ (dsobj = (s.ds obj).dsPrevSnapObj ∧ (s.ds obj).dsPrevSnapObj ≠ 0) := by
    rintro ⟨same, some_prev⟩
    exact unused (shape.sound.parent_live obj live dsobj (parent_eq.mpr ⟨some_prev, same.symm⟩))
  simp [dslDatasetSnapshotSync, setDs, update_of_ne apart, snapshotPrev_ds, ← and_assoc, prev_apart]

theorem snapshot_kept (nonzero : obj ≠ 0) {o} (other : o ≠ obj) (other' : o ≠ dsobj) :
    (dslDatasetSnapshotSync s obj dsobj).ds o = { s.ds o with
      dsNextSnapObj := if s.lineage.parent obj = some o ∧ s.next o = some obj then dsobj
        else (s.ds o).dsNextSnapObj } := by
  have step : (dslDatasetSnapshotSync s obj dsobj).ds o =
      if o = (s.ds obj).dsPrevSnapObj ∧ (s.ds obj).dsPrevSnapObj ≠ 0 ∧ (s.ds o).dsNextSnapObj = obj then
        { s.ds o with dsNextSnapObj := dsobj }
      else s.ds o := by
    simp only [dslDatasetSnapshotSync, setDs, update_of_ne other, snapshotPrev_ds, update_of_ne other']
    refine if_congr (and_congr_right fun same => ?_) rfl rfl
    rw [← same, update_of_ne other']
  rw [step]
  simp only [parent_eq, next_eq]
  split_ifs <;> grind

theorem snapshot_blocks (nonzero : obj ≠ 0) {o} (other : o ≠ dsobj) :
    ((dslDatasetSnapshotSync s obj dsobj).ds o).dsBlocks = (s.ds o).dsBlocks := by
  by_cases same : o = obj
  · rw [same, snapshot_head]
  · rw [snapshot_kept nonzero same other]

theorem lineage_snapshot (shape : s.Shape) (live : obj ∈ s.objs) (unused : dsobj ∉ s.objs)
    (nonzero : dsobj ≠ 0) : (dslDatasetSnapshotSync s obj dsobj).lineage =
      (s.lineage.add dsobj (s.lineage.parent obj) (s.lineage.since obj) (s.lineage.holds obj)).reparent obj
        (some dsobj) s.txg := by
  have apart : dsobj ≠ obj := fun same => unused (same ▸ live)
  have nonzero' : obj ≠ 0 := fun same => shape.zero (same ▸ live)
  simp only [Pool.lineage, Lineage.add, Lineage.reparent, Lineage.mk.injEq]
  refine ⟨snapshot_objs, ?_, ?_, ?_⟩ <;> funext o <;> by_cases same : o = obj <;>
    by_cases same' : o = dsobj <;>
    simp [same, same', snapshot_head, snapshot_snap shape live unused, snapshot_kept nonzero', nonzero, apart,
      apart.symm]

theorem snapshot_next (shape : s.Shape) (live : obj ∈ s.objs) (unused : dsobj ∉ s.objs) :
    (dslDatasetSnapshotSync s obj dsobj).next dsobj = some obj := by
  have nonzero : obj ≠ 0 := fun same => shape.zero (same ▸ live)
  exact next_eq.mpr (by simp [snapshot_snap shape live unused, nonzero])

theorem next_snapshot (nonzero : obj ≠ 0) (nonzero' : dsobj ≠ 0) (head : (s.ds obj).dsNextSnapObj = 0) {o}
    (other : o ≠ dsobj) : (dslDatasetSnapshotSync s obj dsobj).next o =
      if s.lineage.parent obj = some o ∧ s.next o = some obj then some dsobj else s.next o := by
  by_cases same : o = obj
  · subst same
    simp [next, snapshot_head, head]
  · rw [next, snapshot_kept nonzero same other, apply_ite link, link_eq_some.mpr ⟨nonzero', rfl⟩]
    rfl

theorem snapshot (shape : s.Shape) (live : obj ∈ s.objs)
    (head : (s.ds obj).dsNextSnapObj = 0) (nonzero : dsobj ≠ 0) (unused : dsobj ∉ s.objs)
    (check : (s.ds obj).dsPrevSnapTxg < s.txg) : (dslDatasetSnapshotSync s obj dsobj).Shape := by
  have apart : ∀ {o}, o ∈ s.objs → o ≠ dsobj := fun live same => unused (same ▸ live)
  have nonzero' : obj ≠ 0 := fun same => shape.zero (same ▸ live)
  have snap := snapshot_snap shape live unused
  have lineage := lineage_snapshot shape live unused nonzero
  have dated := shape.dated obj live
  have listed := shape.listed obj live
  refine ⟨?_, ?_, ?_, ?_, ?_⟩
  · rw [snapshot_objs, mem_insert]
    exact not_or.mpr ⟨nonzero.symm, shape.zero⟩
  · rw [lineage]
    exact shape.sound.split live (shape.leaf head) unused check dated.birth_le
  · have count : (dslDatasetSnapshotSync s obj dsobj).count = update s.count dsobj 1 := by
      funext o
      by_cases same' : o = dsobj
      · simp [Pool.count, same', snap]
      · by_cases same : o = obj
        · simp [Pool.count, same, snapshot_head, (apart live)]
        · simp [Pool.count, same', snapshot_kept nonzero' same]
    rw [lineage, count]
    exact shape.threaded.split shape.sound live (link_eq_none.mpr head) unused (snapshot_next shape live unused)
      fun o => next_snapshot nonzero' nonzero head
  · intro o live'
    rw [snapshot_txg]
    rw [snapshot_objs] at live'
    rcases mem_insert.mp live' with rfl | live'
    · rw [snap]
      exact ⟨dated.first_txg, fun _ => check, dated.birth_le, fun _ => dated.birth_le⟩
    · by_cases same : o = obj
      · subst same
        rw [snapshot_head]
        exact ⟨fun absent => absurd absent nonzero, fun snap => absurd head snap, dated.birth_le,
          fun snap => absurd head snap⟩
      · rw [snapshot_kept nonzero' same (apart live')]
        refine (shape.dated o live').relink ?_
        split_ifs with through
        · exact fun _ => (next_eq.mp through.2).1
        · exact id
  · intro o live'
    have blocks : ∀ {x p}, x ∈ s.objs → s.lineage.parent x = some p →
        ((dslDatasetSnapshotSync s obj dsobj).ds p).dsBlocks = (s.ds p).dsBlocks :=
      fun live parent => snapshot_blocks nonzero' (apart (shape.sound.parent_live _ live _ parent))
    rw [snapshot_objs] at live'
    rcases mem_insert.mp live' with rfl | live'
    · rw [prevBlocks_congr (s := s) (o := obj) (by simp [Pool.lineage, snap]) fun p parent => blocks live parent,
        snap]
      exact ⟨listed.nodup, listed.dead_nodup, listed.mem_dead⟩
    · by_cases same : o = obj
      · subst same
        rw [snapshot_head]
        refine ⟨listed.nodup, List.nodup_nil, ?_⟩
        simp [prevBlocks, lineage, reparent, snap]
      · have kept := @snapshot_kept s obj dsobj nonzero' o same (apart live')
        have listed := shape.listed o live'
        rw [prevBlocks_congr (by simp [Pool.lineage, kept]) fun p parent => blocks live' parent, kept]
        exact ⟨listed.nodup, listed.dead_nodup, listed.mem_dead⟩

end Snapshot

/-! ## Destroying -/

section Destroy

variable {obj : ℕ}

theorem destroyPrev_ds (o) : (destroyPrev s obj).ds o = if s.lineage.parent obj = some o then
      if (s.ds o).dsNextSnapObj = obj then { s.ds o with dsNextSnapObj := (s.ds obj).dsNextSnapObj }
      else if (s.ds obj).dsNextSnapObj = 0 then
        { s.ds o with dsNumChildren := (s.ds o).dsNumChildren - 1 }
      else s.ds o
    else s.ds o := by
  simp only [parent_eq]
  by_cases same : (s.ds obj).dsPrevSnapObj = o
  · simp only [destroyPrev, same, and_true]
    split_ifs <;> simp_all [setDs]
  · simp only [destroyPrev, same, and_false, if_false]
    split_ifs <;> simp [setDs, Ne.symm same]

theorem destroyPrev_kept {o} (apart : s.lineage.parent obj ≠ some o) : (destroyPrev s obj).ds o = s.ds o := by
  rw [destroyPrev_ds, if_neg apart]

theorem destroy_objs : (dslDatasetDestroySync s obj).objs = s.objs.erase obj := by
  simp only [dslDatasetDestroySync, destroyNext, destroyPrev]
  split_ifs <;> rfl

theorem destroy_txg : (dslDatasetDestroySync s obj).txg = s.txg := by
  simp only [dslDatasetDestroySync, destroyNext, destroyPrev]
  split_ifs <;> rfl

theorem parent_ne_self (shape : s.Shape) (live : obj ∈ s.objs) : s.lineage.parent obj ≠ some obj :=
  fun parent => shape.sound.parent_ne live parent rfl

variable {n}

section

variable (shape : s.Shape) (live : obj ∈ s.objs)

include shape live

theorem parent_ne_next (at_ : s.next obj = some n) : s.lineage.parent obj ≠ some n := by
  intro parent
  have live' : n ∈ s.objs := shape.threaded.next_live obj live n at_
  have up := shape.sound.older obj live n parent
  have down := shape.sound.older n live' obj (shape.threaded.next_parent obj live n at_)
  omega

theorem destroySnap_next (at_ : s.next obj = some n) :
    (dslDatasetDestroySync s obj).ds n = { s.ds n with
      dsPrevSnapObj := (s.ds obj).dsPrevSnapObj
      dsPrevSnapTxg := (s.ds obj).dsPrevSnapTxg
      dsDeadlist := (s.ds obj).dsDeadlist ++
        (s.ds n).dsDeadlist.filter fun b => b.blkBirth ≤ (s.ds obj).dsPrevSnapTxg } := by
  obtain ⟨snap, rfl⟩ := next_eq.mp at_
  simp [dslDatasetDestroySync, destroyNext, destroyPrev_kept (parent_ne_self shape live), if_pos snap, destroyPrev_kept (parent_ne_next shape live at_), setDs, arcFree]

theorem destroySnap_kept {n} (at_ : s.next obj = some n) {o}
    (other : o ≠ n) : (dslDatasetDestroySync s obj).ds o = { s.ds o with
      dsNextSnapObj := if s.lineage.parent obj = some o ∧ s.next o = some obj then n
        else (s.ds o).dsNextSnapObj } := by
  have nonzero : obj ≠ 0 := fun same => shape.zero (same ▸ live)
  obtain ⟨snap, rfl⟩ := next_eq.mp at_
  have step : (dslDatasetDestroySync s obj).ds o = (destroyPrev s obj).ds o := by
    simp [dslDatasetDestroySync, destroyNext, destroyPrev_kept (parent_ne_self shape live), if_pos snap, setDs, arcFree, update_of_ne other]
  rw [step, destroyPrev_ds]
  simp only [next_eq, if_neg snap]
  split_ifs <;> grind

section

variable (at_ : s.next obj = some n)

include at_

theorem lineage_destroySnap : (dslDatasetDestroySync s obj).lineage =
      (s.lineage.reparent n (s.lineage.parent obj) (s.lineage.since obj)).remove obj := by
  simp only [Pool.lineage, Lineage.remove, Lineage.reparent, Lineage.mk.injEq]
  refine ⟨destroy_objs, ?_, ?_, ?_⟩ <;> funext o <;> by_cases same : o = n <;>
    simp [same, destroySnap_next shape live at_, destroySnap_kept shape live at_]

theorem next_destroySnap (o) : (dslDatasetDestroySync s obj).next o =
      if s.lineage.parent obj = some o ∧ s.next o = some obj then some n else s.next o := by
  have nonzero : n ≠ 0 := fun same => shape.zero (same ▸ shape.threaded.next_live obj live n at_)
  by_cases same : o = n
  · subst same
    rw [if_neg fun both => parent_ne_next shape live at_ both.1, next, destroySnap_next shape live at_]
    rfl
  · rw [next, destroySnap_kept shape live at_ same, apply_ite link, link_eq_some.mpr ⟨nonzero, rfl⟩]
    rfl

theorem destroySnap_listed : Listed (s.prevBlocks obj) ((dslDatasetDestroySync s obj).ds n) := by
  have live' : n ∈ s.objs := shape.threaded.next_live obj live n at_
  have child : s.lineage.parent n = some obj := shape.threaded.next_parent obj live n at_
  have listed := shape.listed obj live
  have listed' := shape.listed n live'
  have early : ∀ b, (∃ held, s.prevBlocks obj = some held ∧ b ∈ held) → b.blkBirth ≤ (s.ds obj).dsPrevSnapTxg := by
    rintro b ⟨held, prev, inside⟩
    obtain ⟨p, parent, rfl⟩ := Option.map_eq_some_iff.mp prev
    exact shape.sound.before obj live p parent b inside
  have dead' : ∀ b, b ∈ (s.ds n).dsDeadlist ↔ b ∈ (s.ds obj).dsBlocks ∧ b ∉ (s.ds n).dsBlocks := by
    intro b
    rw [listed'.mem_dead]
    simp [prevBlocks, child]
  rw [destroySnap_next shape live at_]
  refine ⟨listed'.nodup, ?_, ?_⟩
  · refine List.Nodup.append listed.dead_nodup (listed'.dead_nodup.filter _) ?_
    intro b dead dead''
    exact ((listed.mem_dead b).mp dead).2 ((dead' b).mp (List.mem_of_mem_filter dead'')).1
  · intro b
    simp only [List.mem_append, List.mem_filter, decide_eq_true_eq, dead', listed.mem_dead]
    constructor
    · rintro (⟨before, gone⟩ | ⟨⟨inside, gone⟩, old⟩)
      · refine ⟨before, fun inside => gone ?_⟩
        -- A block of the snapshot before is too old to be born after this one.
        have older := shape.sound.older n live' obj child
        obtain ⟨p, parent, inside⟩ := shape.sound.inherit n live' b inside
          (le_trans (early b before) (le_of_lt older))
        rw [child, Option.some.injEq] at parent
        exact parent ▸ inside
      · obtain ⟨p, parent, inside⟩ := shape.sound.inherit obj live b inside old
        exact ⟨⟨_, by rw [prevBlocks, parent]; rfl, inside⟩, gone⟩
    · rintro ⟨before, gone⟩
      by_cases inside : b ∈ (s.ds obj).dsBlocks
      · exact .inr ⟨⟨inside, gone⟩, early b before⟩
      · exact .inl ⟨before, inside⟩

theorem destroySnap (single : (s.ds obj).dsNumChildren ≤ 1) : (dslDatasetDestroySync s obj).Shape := by
  have live' : n ∈ s.objs := shape.threaded.next_live obj live n at_
  have child : s.lineage.parent n = some obj := shape.threaded.next_parent obj live n at_
  have own := destroySnap_next shape live at_
  have kept := @destroySnap_kept s obj shape live n at_
  have lineage := lineage_destroySnap shape live at_
  have blocks : ∀ p, ((dslDatasetDestroySync s obj).ds p).dsBlocks = (s.ds p).dsBlocks := by
    intro p
    by_cases same : p = n
    · rw [same, own]
    · rw [kept same]
  refine ⟨?_, ?_, ?_, ?_, ?_⟩
  · rw [destroy_objs]
    exact fun member => shape.zero (mem_of_mem_erase member)
  · rw [lineage]
    exact shape.sound.splice live live' child (shape.threaded.only_child live at_ single)
  · have count : (dslDatasetDestroySync s obj).count = s.count := by
      funext o
      by_cases same : o = n
      · rw [Pool.count, same, own]
        rfl
      · rw [Pool.count, kept same]
        rfl
    rw [lineage, count]
    exact shape.threaded.splice live at_ (next_destroySnap shape live at_)
  · intro o member
    rw [destroy_txg]
    obtain ⟨-, live''⟩ := mem_erase.mp (destroy_objs ▸ member)
    by_cases same : o = n
    · subst same
      have dated := shape.dated o live'
      rw [own]
      refine ⟨(shape.dated obj live).first_txg, fun snap => ?_, dated.birth_le, dated.birth_snap⟩
      exact lt_trans (shape.sound.older o live' obj child) (dated.snap_txg snap)
    · rw [kept same]
      refine (shape.dated o live'').relink ?_
      split_ifs with through
      · exact fun _ => (next_eq.mp through.2).1
      · exact id
  · intro o member
    obtain ⟨-, live''⟩ := mem_erase.mp (destroy_objs ▸ member)
    by_cases same : o = n
    · subst same
      rw [prevBlocks_congr (s := s) (o := obj) (by simp [Pool.lineage, own]) fun p _ => blocks p]
      exact destroySnap_listed shape live at_
    · have listed := shape.listed o live''
      rw [prevBlocks_congr (s := s) (o := o) (by simp [Pool.lineage, kept same]) fun p _ => blocks p, kept same]
      exact ⟨listed.nodup, listed.dead_nodup, listed.mem_dead⟩

end

section

variable (head : (s.ds obj).dsNextSnapObj = 0) (branch : ∀ p, s.lineage.parent obj = some p → s.next p ≠ some obj)

include head branch

theorem destroyHead_kept (o) :
    (dslDatasetDestroySync s obj).ds o = { s.ds o with
      dsNumChildren := if s.lineage.parent obj = some o then (s.ds o).dsNumChildren - 1
        else (s.ds o).dsNumChildren } := by
  have nonzero : obj ≠ 0 := fun same => shape.zero (same ▸ live)
  have step : (dslDatasetDestroySync s obj).ds o = (destroyPrev s obj).ds o := by
    simp [dslDatasetDestroySync, destroyNext, destroyPrev_kept (parent_ne_self shape live), head, arcFree]
  rw [step, destroyPrev_ds]
  by_cases parent : s.lineage.parent obj = some o
  · have other : (s.ds o).dsNextSnapObj ≠ obj := by
      rintro same
      exact branch o parent (next_eq.mpr ⟨same ▸ nonzero, same⟩)
    simp [parent, if_neg other, if_pos head]
  · simp [parent]

theorem lineage_destroyHead : (dslDatasetDestroySync s obj).lineage = s.lineage.remove obj := by
  simp only [Pool.lineage, Lineage.remove, Lineage.mk.injEq]
  refine ⟨destroy_objs, ?_, ?_, ?_⟩ <;> funext o <;> rw [destroyHead_kept shape live head branch]

theorem next_destroyHead : (dslDatasetDestroySync s obj).next = s.next := by
  funext o
  simp only [next, destroyHead_kept shape live head branch]

theorem destroyHead : (dslDatasetDestroySync s obj).Shape := by
  have kept := destroyHead_kept shape live head branch
  have lineage := lineage_destroyHead shape live head branch
  refine ⟨?_, ?_, ?_, ?_, ?_⟩
  · rw [destroy_objs]
    exact fun member => shape.zero (mem_of_mem_erase member)
  · rw [lineage]
    exact shape.sound.remove_leaf (shape.leaf head)
  · rw [lineage, next_destroyHead shape live head branch]
    refine shape.threaded.remove_leaf live branch fun o => ?_
    simp only [count, kept]
  · intro o member
    have dated := shape.dated o (mem_of_mem_erase (destroy_objs ▸ member))
    rw [destroy_txg, kept]
    exact ⟨dated.first_txg, dated.snap_txg, dated.birth_le, dated.birth_snap⟩
  · intro o member
    have listed := shape.listed o (mem_of_mem_erase (destroy_objs ▸ member))
    rw [prevBlocks_congr (s := s) (o := o) (by rw [lineage]; rfl) fun p _ => by rw [kept], kept]
    exact ⟨listed.nodup, listed.dead_nodup, listed.mem_dead⟩

end

end

end Destroy

/-! ## Promotion -/

section Promote

variable {hds newnext : ℕ} {snaps : List ℕ}

theorem promote_kept (o : ℕ) : ∃ dir, (dslDatasetPromoteSync s hds newnext snaps).ds o = { s.ds o with
    dsDirObj := dir
    dsNextSnapObj := if o = (s.dd (s.ds hds).dsDirObj).ddCloneParentObj then newnext
      else (s.ds o).dsNextSnapObj } := by
  refine ⟨if o ∈ snaps then (s.ds hds).dsDirObj else (s.ds o).dsDirObj, ?_⟩
  simp only [dslDatasetPromoteSync, update_apply]
  generalize (s.dd (s.ds hds).dsDirObj).ddCloneParentObj = pivot
  by_cases at_pivot : o = pivot
  · subst at_pivot
    split_ifs <;> rfl
  · simp only [if_neg at_pivot]
    split_ifs <;> rfl

theorem lineage_promote : (dslDatasetPromoteSync s hds newnext snaps).lineage = s.lineage := by
  simp only [Pool.lineage, Lineage.mk.injEq]
  refine ⟨rfl, ?_, ?_, ?_⟩ <;> funext o <;>
    obtain ⟨dir, same⟩ := @promote_kept s hds newnext snaps o <;> rw [same]

theorem next_promote (nonzero : newnext ≠ 0) : (dslDatasetPromoteSync s hds newnext snaps).next =
    Function.update s.next (s.dd (s.ds hds).dsDirObj).ddCloneParentObj (some newnext) := by
  funext o
  obtain ⟨dir, same⟩ := @promote_kept s hds newnext snaps o
  rw [next, same]
  generalize (s.dd (s.ds hds).dsDirObj).ddCloneParentObj = pivot
  by_cases at_pivot : o = pivot <;> simp [next, at_pivot, nonzero]

/-- A clone is promoted: the snapshot that it was cloned from goes on with the datasets of the clone. -/
theorem promote (shape : s.Shape) (live : newnext ∈ s.objs) (clone : (s.dd (s.ds hds).dsDirObj).ddCloneParentObj ≠ 0)
    (prev : (s.ds newnext).dsPrevSnapObj = (s.dd (s.ds hds).dsDirObj).ddCloneParentObj) :
    (dslDatasetPromoteSync s hds newnext snaps).Shape := by
  have nonzero : newnext ≠ 0 := fun same => shape.zero (same ▸ live)
  have kept := @promote_kept s hds newnext snaps
  have lineage := @lineage_promote s hds newnext snaps
  have next := @next_promote s hds newnext snaps nonzero
  generalize (s.dd (s.ds hds).dsDirObj).ddCloneParentObj = pivot at *
  have parent : s.lineage.parent newnext = some pivot := parent_eq.mpr ⟨prev ▸ clone, prev⟩
  have inner : (s.ds pivot).dsNextSnapObj ≠ 0 := by
    simpa [Pool.next] using shape.threaded.parent_next newnext live pivot parent
  refine ⟨shape.zero, ?_, ?_, ?_, ?_⟩
  · rw [lineage]
    exact shape.sound
  · have count : (dslDatasetPromoteSync s hds newnext snaps).count = s.count := by
      funext o
      obtain ⟨dir, same⟩ := kept o
      rw [Pool.count, same]
      rfl
    rw [lineage, next, count]
    exact shape.threaded.rethread live parent
  · intro o live'
    obtain ⟨dir, same⟩ := kept o
    have snap : (if o = pivot then newnext else (s.ds o).dsNextSnapObj) ≠ 0 → (s.ds o).dsNextSnapObj ≠ 0 := by
      split_ifs with at_pivot
      · exact fun _ => at_pivot ▸ inner
      · exact id
    have dated := (shape.dated o live').relink snap
    rw [same]
    exact ⟨dated.first_txg, dated.snap_txg, dated.birth_le, dated.birth_snap⟩
  · intro o live'
    have listed := shape.listed o live'
    obtain ⟨dir, same⟩ := kept o
    have prevs : (dslDatasetPromoteSync s hds newnext snaps).prevBlocks o = s.prevBlocks o := by
      refine prevBlocks_congr (by rw [lineage]) fun p _ => ?_
      obtain ⟨dir, same⟩ := kept p
      rw [same]
    rw [prevs, same]
    exact ⟨listed.nodup, listed.dead_nodup, listed.mem_dead⟩

end Promote

end MacZfs.Dsl.Pool.Shape
