import MacZfs.Dsl.Dataset
import MacZfs.Lib.Lineage

/-!
# The shape of a pool

The datasets of a pool are a lineage: the parent of a dataset is its previous snapshot, taken in the
txg `ds_prev_snap_txg`, and `ds_next_snap_obj` and `ds_num_children` thread it. The deadlist of a
dataset has the blocks that its parent has and it has not.
-/

namespace MacZfs.Dsl

open Pool Function

open Lineage (Sound Threaded Leaf)

def link (obj : ℕ) : Option ℕ := if obj = 0 then none else some obj

@[simp]
theorem link_eq_none : link obj = none ↔ obj = 0 := by simp [link]

@[simp]
theorem link_eq_some : link obj = some o ↔ obj ≠ 0 ∧ obj = o := by simp [link]

namespace Pool

def lineage (s : Pool) : Lineage ℕ Block where
  live := s.objs
  parent o := link (s.ds o).dsPrevSnapObj
  since o := (s.ds o).dsPrevSnapTxg
  holds o := {b | b ∈ (s.ds o).dsBlocks}

def next (s : Pool) (o : ℕ) : Option ℕ := link (s.ds o).dsNextSnapObj

def count (s : Pool) (o : ℕ) : ℕ := (s.ds o).dsNumChildren

structure Dated (txg : ℕ) (ds : DsPhys) : Prop where
  first_txg : ds.dsPrevSnapObj = 0 → ds.dsPrevSnapTxg = 0
  snap_txg : ds.dsNextSnapObj ≠ 0 → ds.dsPrevSnapTxg < ds.dsCreationTxg
  birth_le : ∀ b ∈ ds.dsBlocks, b.blkBirth ≤ txg
  birth_snap : ds.dsNextSnapObj ≠ 0 → ∀ b ∈ ds.dsBlocks, b.blkBirth ≤ ds.dsCreationTxg

theorem Dated.relink {txg next ds} (dated : Dated txg ds)
    (snap : next ≠ 0 → ds.dsNextSnapObj ≠ 0) : Dated txg { ds with dsNextSnapObj := next } :=
  ⟨dated.first_txg, fun inner => dated.snap_txg (snap inner), dated.birth_le,
    fun inner => dated.birth_snap (snap inner)⟩

structure Listed (prev : Option (List Block)) (ds : DsPhys) : Prop where
  nodup : ds.dsBlocks.Nodup
  dead_nodup : ds.dsDeadlist.Nodup
  mem_dead : ∀ b, b ∈ ds.dsDeadlist ↔ (∃ held, prev = some held ∧ b ∈ held) ∧ b ∉ ds.dsBlocks

def prevBlocks (s : Pool) (o : ℕ) : Option (List Block) :=
  (s.lineage.parent o).map fun p => (s.ds p).dsBlocks

structure Shape (s : Pool) : Prop where
  zero : 0 ∉ s.objs
  sound : s.lineage.Sound Block.blkBirth
  threaded : s.lineage.Threaded s.next s.count
  dated : ∀ o ∈ s.objs, Dated s.txg (s.ds o)
  listed : ∀ o ∈ s.objs, Listed (s.prevBlocks o) (s.ds o)

namespace Shape

variable {s : Pool}

theorem leaf (shape : s.Shape) (head : (s.ds o).dsNextSnapObj = 0) : s.lineage.Leaf o :=
  shape.threaded.leaf (link_eq_none.mpr head)

theorem frame (shape : s.Shape) {s' : Pool} (objs : s'.objs = s.objs) (ds : s'.ds = s.ds)
    (later : s.txg ≤ s'.txg) : s'.Shape := by
  have lineage : s'.lineage = s.lineage := by simp only [Pool.lineage, objs, ds]
  have next : s'.next = s.next := by funext o; simp only [Pool.next, ds]
  have count : s'.count = s.count := by funext o; simp only [Pool.count, ds]
  have prev : s'.prevBlocks = s.prevBlocks := by funext o; simp only [prevBlocks, lineage, ds]
  refine ⟨objs ▸ shape.zero, lineage ▸ shape.sound, ?_, ?_, ?_⟩
  · rw [lineage, next, count]
    exact shape.threaded
  · rw [objs, ds]
    intro o live
    have dated := shape.dated o live
    exact ⟨dated.first_txg, dated.snap_txg, fun b inside => le_trans (dated.birth_le b inside) later,
      dated.birth_snap⟩
  · rw [objs, ds, prev]
    exact shape.listed

theorem lineage_setHead :
    (s.setDs obj { s.ds obj with
      dsDeadlist := deadlist, dsBpBirth := bpBirth, dsBlocks := blocks }).lineage =
        s.lineage.update obj {b | b ∈ blocks} := by
  simp only [lineage, setDs, Lineage.update, Lineage.mk.injEq, true_and]
  refine ⟨?_, ?_, ?_⟩ <;> funext o <;> by_cases same : o = obj <;> simp [same]

theorem setHead (shape : s.Shape) (live : obj ∈ s.objs) (head : (s.ds obj).dsNextSnapObj = 0)
 (allowed : ∀ b ∈ blocks, (∃ p, s.lineage.parent obj = some p ∧ b ∈ (s.ds p).dsBlocks) ∨
      (s.ds obj).dsPrevSnapTxg < b.blkBirth ∧ ∀ o ∈ s.objs, b ∈ (s.ds o).dsBlocks → o = obj)
    (births : ∀ b ∈ blocks, b.blkBirth ≤ s.txg) (nodup : blocks.Nodup) (dead_nodup : deadlist.Nodup)
    (mem_dead : ∀ b, b ∈ deadlist ↔ (∃ p, s.lineage.parent obj = some p ∧ b ∈ (s.ds p).dsBlocks) ∧ b ∉ blocks) :
    (s.setDs obj { s.ds obj with
      dsDeadlist := deadlist, dsBpBirth := bpBirth, dsBlocks := blocks }).Shape := by
  set phys : DsPhys := { s.ds obj with dsDeadlist := deadlist, dsBpBirth := bpBirth, dsBlocks := blocks }
  have leaf := shape.leaf head
  have lineage : (s.setDs obj phys).lineage = s.lineage.update obj {b | b ∈ blocks} := lineage_setHead
  have next : (s.setDs obj phys).next = s.next := by
    funext o
    by_cases same : o = obj <;> simp [Pool.next, setDs, same, phys]
  have count : (s.setDs obj phys).count = s.count := by
    funext o
    by_cases same : o = obj <;> simp [Pool.count, setDs, same, phys]
  have kept : ∀ {o}, o ≠ obj → (s.setDs obj phys).ds o = s.ds o := fun other => update_of_ne other _ _
  have own : (s.setDs obj phys).ds obj = phys := update_self _ _ _
  have prev : ∀ o ∈ s.objs, (s.setDs obj phys).prevBlocks o = s.prevBlocks o := by
    intro o live'
    simp only [prevBlocks, lineage, Lineage.update]
    cases parent : s.lineage.parent o with
    | none => rfl
    | some p => simp [kept fun same => leaf o live' (same ▸ parent)]
  refine ⟨shape.zero, ?_, ?_, ?_, ?_⟩
  · rw [lineage]
    exact shape.sound.update live leaf allowed
  · rw [lineage, next, count]
    exact ⟨shape.threaded.parent_next, shape.threaded.next_live, shape.threaded.next_parent, shape.threaded.count_eq⟩
  · intro o live'
    by_cases same : o = obj
    · subst same
      rw [own]
      exact ⟨(shape.dated o live).first_txg, fun snap => absurd head snap, births, fun snap => absurd head snap⟩
    · rw [kept same]
      exact shape.dated o live'
  · intro o live'
    rw [prev o live']
    by_cases same : o = obj
    · subst same
      rw [own]
      refine ⟨nodup, dead_nodup, fun b => (mem_dead b).trans ?_⟩
      simp [phys, prevBlocks]
    · rw [kept same]
      exact shape.listed o live'

/-- A new head dataset that has the blocks of its previous snapshot, where nothing else changes but the
    counts. -/
theorem created (shape : s.Shape) {s' : Pool} {dsobj} (nonzero : dsobj ≠ 0) (unused : dsobj ∉ s.objs)
    (objs : s'.objs = insert dsobj s.objs) (txg : s'.txg = s.txg)
    (kept : ∀ o ≠ dsobj, ∃ n, s'.ds o = { s.ds o with dsNumChildren := n })
    (sound : s'.lineage.Sound Block.blkBirth) (threaded : s'.lineage.Threaded s'.next s'.count)
    (dated : Dated s.txg (s'.ds dsobj)) (listed : Listed (s'.prevBlocks dsobj) (s'.ds dsobj)) :
    s'.Shape := by
  have apart : ∀ {o}, o ∈ s.objs → o ≠ dsobj := fun live same => unused (same ▸ live)
  refine ⟨?_, sound, threaded, ?_, ?_⟩
  · rw [objs, Finset.mem_insert]
    exact not_or.mpr ⟨nonzero.symm, shape.zero⟩
  · intro o live
    rw [txg]
    rcases Finset.mem_insert.mp (objs ▸ live) with rfl | live
    · exact dated
    · obtain ⟨n, same⟩ := kept o (apart live)
      rw [same]
      exact ⟨(shape.dated o live).1, (shape.dated o live).2, (shape.dated o live).3, (shape.dated o live).4⟩
  · intro o live
    rcases Finset.mem_insert.mp (objs ▸ live) with rfl | live
    · exact listed
    · have prev : s'.prevBlocks o = s.prevBlocks o := by
        obtain ⟨n, same⟩ := kept o (apart live)
        have parent : s'.lineage.parent o = s.lineage.parent o := by simp [lineage, same]
        simp only [prevBlocks, parent]
        cases at_ : s.lineage.parent o with
        | none => rfl
        | some p =>
          obtain ⟨m, same⟩ := kept p (apart (shape.sound.parent_live o live p at_))
          simp [same]
      obtain ⟨n, same⟩ := kept o (apart live)
      rw [prev, same]
      exact ⟨(shape.listed o live).1, (shape.listed o live).2, (shape.listed o live).3⟩

section Create

variable {ddobj dsobj : ℕ}

theorem create_own : (dslDatasetCreateSync s ddobj dsobj 0).ds dsobj = ⟨ddobj, 0, 0, 0, 0, s.txg, [], 0, []⟩ := by
  simp [dslDatasetCreateSync, setDs]

theorem create_kept {o} (other : o ≠ dsobj) : (dslDatasetCreateSync s ddobj dsobj 0).ds o = s.ds o := by
  simp [dslDatasetCreateSync, setDs, other]

theorem lineage_create : (dslDatasetCreateSync s ddobj dsobj 0).lineage = s.lineage.add dsobj none 0 ∅ := by
  simp only [lineage, Lineage.add, Lineage.mk.injEq]
  refine ⟨rfl, ?_, ?_, ?_⟩ <;> funext o <;> by_cases same : o = dsobj <;>
    simp [same, create_own, create_kept]

theorem next_create : (dslDatasetCreateSync s ddobj dsobj 0).next = update s.next dsobj none := by
  funext o
  by_cases same : o = dsobj <;> simp [next, same, create_own, create_kept]

theorem create (shape : s.Shape) (nonzero : dsobj ≠ 0) (unused : dsobj ∉ s.objs) :
    (dslDatasetCreateSync s ddobj dsobj 0).Shape := by
  have count : (dslDatasetCreateSync s ddobj dsobj 0).count = update s.count dsobj 0 := by
    funext o
    by_cases same : o = dsobj <;> simp [Pool.count, same, create_own, create_kept]
  refine shape.created nonzero unused rfl rfl (fun o other => ⟨_, create_kept other⟩) ?_ ?_ ?_ ?_
  · rw [lineage_create]
    exact shape.sound.add unused (by simp) (by simp)
  · rw [lineage_create, next_create, count]
    exact shape.threaded.add_root shape.sound unused
  · rw [create_own]
    constructor <;> simp
  · rw [create_own]
    constructor <;> simp [prevBlocks, lineage_create, Lineage.add]

end Create

section Clone

variable {ddobj dsobj cloneParent : ℕ}

section

variable (nonzero : cloneParent ≠ 0)

include nonzero

theorem clone_own (apart : dsobj ≠ cloneParent) : (dslDatasetCreateSync s ddobj dsobj cloneParent).ds dsobj =
      ⟨ddobj, cloneParent, (s.ds cloneParent).dsCreationTxg, 0, 0, s.txg, [],
        (s.ds cloneParent).dsBpBirth, (s.ds cloneParent).dsBlocks⟩ := by
  simp [dslDatasetCreateSync, setDs, nonzero, apart]

theorem clone_kept {o} (other : o ≠ dsobj) :
    (dslDatasetCreateSync s ddobj dsobj cloneParent).ds o = { s.ds o with
      dsNumChildren := if o = cloneParent then (s.ds o).dsNumChildren + 1 else (s.ds o).dsNumChildren } := by
  by_cases same : o = cloneParent <;> simp [dslDatasetCreateSync, setDs, nonzero, other, same]

theorem lineage_clone (apart : dsobj ≠ cloneParent) : (dslDatasetCreateSync s ddobj dsobj cloneParent).lineage =
      s.lineage.add dsobj (some cloneParent) (s.ds cloneParent).dsCreationTxg
        {b | b ∈ (s.ds cloneParent).dsBlocks} := by
  simp only [lineage, Lineage.add, Lineage.mk.injEq]
  refine ⟨by simp [dslDatasetCreateSync, setDs, nonzero], ?_, ?_, ?_⟩ <;> funext o <;>
    by_cases same : o = dsobj <;>
    simp [same, clone_own nonzero apart, clone_kept nonzero, nonzero]

theorem next_clone (apart : dsobj ≠ cloneParent) :
    (dslDatasetCreateSync s ddobj dsobj cloneParent).next = update s.next dsobj none := by
  funext o
  by_cases same : o = dsobj <;> simp [next, same, clone_own nonzero apart, clone_kept nonzero]

end

theorem clone (shape : s.Shape) (nonzero : dsobj ≠ 0) (unused : dsobj ∉ s.objs)
    (live : cloneParent ∈ s.objs) (snap : (s.ds cloneParent).dsNextSnapObj ≠ 0) :
    (dslDatasetCreateSync s ddobj dsobj cloneParent).Shape := by
  have nonzero' : cloneParent ≠ 0 := fun same => shape.zero (same ▸ live)
  have apart : dsobj ≠ cloneParent := fun same => unused (same ▸ live)
  have dated := shape.dated cloneParent live
  have own := @clone_own s ddobj dsobj cloneParent nonzero' apart
  have count : (dslDatasetCreateSync s ddobj dsobj cloneParent).count =
      update (update s.count dsobj 0) cloneParent (s.count cloneParent + 1) := by
    funext o
    by_cases same : o = dsobj
    · simp [Pool.count, same, own, apart]
    · by_cases same' : o = cloneParent <;> simp [Pool.count, same, same', clone_kept nonzero', apart.symm]
  refine shape.created nonzero unused ?_ ?_ (fun o other => ⟨_, clone_kept nonzero' other⟩) ?_ ?_ ?_ ?_
  · simp [dslDatasetCreateSync, setDs, nonzero']
  · simp [dslDatasetCreateSync, setDs, nonzero']
  · rw [lineage_clone nonzero' apart]
    refine shape.sound.add unused ?_ fun b inside => ⟨cloneParent, rfl, inside⟩
    rintro p ⟨⟩
    exact ⟨live, dated.snap_txg snap, dated.birth_snap snap⟩
  · rw [lineage_clone nonzero' apart, next_clone nonzero' apart, count]
    exact shape.threaded.add_child shape.sound unused live (by simpa [next] using snap)
  · rw [own]
    exact ⟨fun absent => absurd absent nonzero', by simp, dated.birth_le, by simp⟩
  · rw [own]
    refine ⟨(shape.listed cloneParent live).nodup, List.nodup_nil, ?_⟩
    simp [prevBlocks, lineage_clone nonzero' apart, Lineage.add, clone_kept nonzero' apart.symm]

end Clone

end Shape

end Pool

end MacZfs.Dsl
