import MacZfs.Dsl.Links

/-!
# No block is freed too early, twice, or never

Over a whole run, the blocks passed to `arc_free` are exactly those that were born and that no dataset
references any more, each of them once. So the deadlists hold nothing but blocks that the previous
snapshot still has.
-/

namespace MacZfs.Dsl

open List

namespace Pool

def Referenced (s : Pool) (b : Block) : Prop := ∃ o ∈ s.objs, b ∈ (s.ds o).dsBlocks

structure Books (s : Pool) : Prop where
  born : ∀ b, s.Referenced b → b ∈ s.born
  nodup : s.freed.Nodup
  mem_freed : ∀ b, b ∈ s.freed ↔ b ∈ s.born ∧ ¬ s.Referenced b

namespace Books

variable {s s' : Pool}

theorem free (books : s.Books) (lost : List Block) (born : s'.born = s.born)
    (freed : s'.freed = s.freed ++ lost) (nodup : lost.Nodup) (held : ∀ b ∈ lost, s.Referenced b)
    (referenced : ∀ b, s'.Referenced b ↔ s.Referenced b ∧ b ∉ lost) : s'.Books := by
  refine ⟨?_, ?_, ?_⟩
  · intro b inside
    rw [born]
    exact books.born b ((referenced b).mp inside).1
  · rw [freed]
    refine List.Nodup.append books.nodup nodup fun b old new => ?_
    exact ((books.mem_freed b).mp old).2 (held b new)
  · intro b
    have known := books.born b
    rw [freed, born, mem_append, books.mem_freed, referenced]
    tauto

theorem keep (books : s.Books) (born : s'.born = s.born) (freed : s'.freed = s.freed)
    (referenced : ∀ b, s'.Referenced b ↔ s.Referenced b) : s'.Books :=
  books.free [] born (by simpa using freed) nodup_nil (by simp) (by simpa using referenced)

end Books

/-! ## The steps -/

section Steps

variable {s : Pool} {obj}

section

variable (shape : s.Shape) (live : obj ∈ s.objs)

include shape live

theorem referenced_setHead (head : (s.ds obj).dsNextSnapObj = 0) :
    (s.setDs obj { s.ds obj with
      dsDeadlist := deadlist, dsBpBirth := bpBirth, dsBlocks := blocks }).Referenced b ↔ b ∈ blocks ∨ s.Referenced b ∧
          ¬ (b ∈ (s.ds obj).dsBlocks ∧ b ∉ blocks ∧ (s.ds obj).dsPrevSnapTxg < b.blkBirth) := by
  refine (iff_of_eq (congrArg (Lineage.Referenced · b) Shape.lineage_setHead)).trans ?_
  exact shape.sound.referenced_update live (shape.leaf head)

theorem inherited (inside : b ∈ (s.ds obj).dsBlocks)
    (old : b.blkBirth ≤ (s.ds obj).dsPrevSnapTxg) : ∃ p, s.lineage.parent obj = some p ∧ b ∈ (s.ds p).dsBlocks :=
  shape.sound.inherit obj live b inside old

theorem may_keep (head : (s.ds obj).dsNextSnapObj = 0) (inside : b ∈ (s.ds obj).dsBlocks) :
    (∃ p, s.lineage.parent obj = some p ∧ b ∈ (s.ds p).dsBlocks) ∨
      (s.ds obj).dsPrevSnapTxg < b.blkBirth ∧ ∀ o ∈ s.objs, b ∈ (s.ds o).dsBlocks → o = obj := by
  rcases le_or_gt b.blkBirth (s.ds obj).dsPrevSnapTxg with old | young
  · exact .inl (inherited shape live inside old)
  · exact .inr ⟨young, fun o live' inside' =>
      shape.sound.leaf_owner live (shape.leaf head) inside young live' inside'⟩

theorem mem_deadlist (b : Block) : b ∈ (s.ds obj).dsDeadlist ↔
      (∃ p, s.lineage.parent obj = some p ∧ b ∈ (s.ds p).dsBlocks) ∧ b ∉ (s.ds obj).dsBlocks := by
  rw [(shape.listed obj live).mem_dead]
  simp [prevBlocks]

end

structure Inv (s : Pool) : Prop where
  shape : s.Shape
  books : s.Books

theorem dslDatasetBlockKill_young (young : b.blkBirth > (s.ds obj).dsPrevSnapTxg) :
    dslDatasetBlockKill s obj b = (s.setDs obj { s.ds obj with
      dsBlocks := (s.ds obj).dsBlocks.erase b, dsBpBirth := s.txg }).arcFree [b] := by
  exact if_pos young

theorem dslDatasetBlockKill_old (old : ¬b.blkBirth > (s.ds obj).dsPrevSnapTxg) :
    dslDatasetBlockKill s obj b = s.setDs obj { s.ds obj with
      dsBlocks := (s.ds obj).dsBlocks.erase b, dsBpBirth := s.txg
      dsDeadlist := (s.ds obj).dsDeadlist ++ [b] } := by
  exact if_neg old

section

variable (inv : s.Inv) (live : obj ∈ s.objs)

include inv live

theorem Inv.born (head : (s.ds obj).dsNextSnapObj = 0)
    (unsnapped : (s.ds obj).dsPrevSnapTxg < s.txg) (birth : b.blkBirth = s.txg) (fresh : b ∉ s.born) :
    (dslDatasetBlockBorn s obj b).Inv := by
  have unheld : ∀ o ∈ s.objs, b ∉ (s.ds o).dsBlocks :=
    fun o live held => fresh (inv.books.born b ⟨o, live, held⟩)
  have listed := inv.shape.listed obj live
  have shape : (s.setDs obj { s.ds obj with
      dsDeadlist := (s.ds obj).dsDeadlist, dsBpBirth := s.txg, dsBlocks := b :: (s.ds obj).dsBlocks }).Shape := by
    refine inv.shape.setHead live head ?_ ?_ (listed.nodup.cons (unheld obj live)) listed.dead_nodup ?_
    · intro x inside
      rcases List.mem_cons.mp inside with rfl | inside
      · exact .inr ⟨birth ▸ unsnapped, fun o live held => absurd held (unheld o live)⟩
      · exact may_keep inv.shape live head inside
    · intro x inside
      rcases List.mem_cons.mp inside with rfl | inside
      · exact birth.le
      · exact (inv.shape.dated obj live).birth_le x inside
    · intro x
      rw [mem_deadlist inv.shape live, mem_cons, not_or]
      refine and_congr_right ?_
      rintro ⟨p, parent, held⟩
      refine (and_iff_right ?_).symm
      rintro rfl
      exact unheld p (inv.shape.sound.parent_live obj live p parent) held
  have referenced : ∀ x, (dslDatasetBlockBorn s obj b).Referenced x ↔ x = b ∨ s.Referenced x := by
    intro x
    refine (referenced_setHead inv.shape live head).trans ?_
    rw [mem_cons]
    tauto
  refine ⟨shape.frame rfl rfl le_rfl, ?_, inv.books.nodup, ?_⟩
  · intro x held
    exact List.mem_cons.mpr (((referenced x).mp held).imp_right (inv.books.born x))
  · intro x
    have known := inv.books.mem_freed x
    rw [referenced]
    simp only [dslDatasetBlockBorn, setDs, mem_cons]
    rw [known]
    constructor
    · rintro ⟨old, unreferenced⟩
      exact ⟨.inr old, not_or.mpr ⟨fun same => fresh (same ▸ old), unreferenced⟩⟩
    · rintro ⟨old, unreferenced⟩
      obtain ⟨other, unreferenced⟩ := not_or.mp unreferenced
      exact ⟨old.resolve_left other, unreferenced⟩

theorem Inv.kill (head : (s.ds obj).dsNextSnapObj = 0)
    (inside : b ∈ (s.ds obj).dsBlocks) : (dslDatasetBlockKill s obj b).Inv := by
  have listed := inv.shape.listed obj live
  have mem_erase : ∀ {x}, x ∈ (s.ds obj).dsBlocks.erase b ↔ x ≠ b ∧ x ∈ (s.ds obj).dsBlocks :=
    listed.nodup.mem_erase_iff
  have allowed := fun x (kept : x ∈ (s.ds obj).dsBlocks.erase b) =>
    may_keep inv.shape live head (mem_of_mem_erase kept)
  have births := fun x (kept : x ∈ (s.ds obj).dsBlocks.erase b) =>
    (inv.shape.dated obj live).birth_le x (mem_of_mem_erase kept)
  have known : ∀ {x}, x ∈ (s.ds obj).dsBlocks → s.Referenced x := fun held => ⟨obj, live, held⟩
  simp only [dslDatasetBlockKill]
  split_ifs with young
  · have shape : (s.setDs obj { s.ds obj with
        dsDeadlist := (s.ds obj).dsDeadlist, dsBpBirth := s.txg
        dsBlocks := (s.ds obj).dsBlocks.erase b }).Shape := by
      refine inv.shape.setHead live head allowed births (listed.nodup.erase b) listed.dead_nodup fun x => ?_
      rw [mem_deadlist inv.shape live, mem_erase]
      refine and_congr_right ?_
      rintro ⟨p, parent, held⟩
      have other : x ≠ b := by
        rintro rfl
        exact absurd (inv.shape.sound.before obj live p parent x held) (not_le.mpr young)
      tauto
    refine ⟨shape.frame rfl rfl le_rfl, inv.books.free [b] rfl rfl (by simp) (by simp [known inside]) ?_⟩
    intro x
    refine (referenced_setHead inv.shape live head).trans ?_
    rw [mem_erase, mem_singleton]
    by_cases same : x = b
    · subst same
      tauto
    · tauto
  · have old : b.blkBirth ≤ (s.ds obj).dsPrevSnapTxg := not_lt.mp young
    have behind := inherited inv.shape live inside old
    refine ⟨inv.shape.setHead live head allowed births (listed.nodup.erase b) ?_ ?_,
      inv.books.keep rfl rfl fun x => ?_⟩
    · refine List.Nodup.append listed.dead_nodup (nodup_singleton b) ?_
      intro x dead new
      rw [List.mem_singleton.mp new] at dead
      exact ((mem_deadlist inv.shape live b).mp dead).2 inside
    · intro x
      simp only [mem_append, mem_singleton, mem_deadlist inv.shape live, mem_erase]
      by_cases same : x = b
      · subst same
        tauto
      · simp [same]
    · refine (referenced_setHead inv.shape live head).trans ?_
      rw [mem_erase]
      by_cases same : x = b
      · subst same
        tauto
      · tauto

theorem Inv.rollback (check : dslDatasetRollbackCheck s obj) : (dslDatasetRollbackSync s obj).Inv := by
  simp only [dslDatasetRollbackCheck, Bool.and_eq_true, bne_iff_ne, beq_iff_eq, decide_eq_true_eq] at check
  obtain ⟨⟨snapped, head⟩, -⟩ := check
  have parent : s.lineage.parent obj = some (s.ds obj).dsPrevSnapObj :=
    Shape.parent_eq.mpr ⟨fun none => snapped ((inv.shape.dated obj live).first_txg none), rfl⟩
  set p := (s.ds obj).dsPrevSnapObj
  have live' : p ∈ s.objs := inv.shape.sound.parent_live obj live p parent
  have early := inv.shape.sound.before obj live p parent
  have listed := inv.shape.listed obj live
  have shape : (s.setDs obj { s.ds obj with
      dsDeadlist := [], dsBpBirth := (s.ds p).dsBpBirth, dsBlocks := (s.ds p).dsBlocks }).Shape := by
    refine inv.shape.setHead live head (fun b held => .inl ⟨p, parent, held⟩)
      (inv.shape.dated p live').birth_le (inv.shape.listed p live').nodup nodup_nil ?_
    simp [parent]
  refine ⟨shape.frame rfl rfl le_rfl, inv.books.free _ rfl rfl (listed.nodup.filter _) ?_ ?_⟩
  · intro b lost
    exact ⟨obj, live, mem_of_mem_filter lost⟩
  · intro b
    refine (referenced_setHead inv.shape live head).trans ?_
    simp only [traverseDslDataset, mem_filter, decide_eq_true_eq]
    have old : b ∈ (s.ds p).dsBlocks → ¬ (s.ds obj).dsPrevSnapTxg < b.blkBirth :=
      fun held => not_lt.mpr (early b held)
    tauto

end

theorem Inv.create (inv : s.Inv) (nonzero : dsobj ≠ 0) (unused : dsobj ∉ s.objs)
    (parent : cloneParent = 0 ∨ cloneParent ∈ s.objs) (check : createCheck s cloneParent) :
    (dslDatasetCreateSync s ddobj dsobj cloneParent).Inv := by
  by_cases root : cloneParent = 0
  · subst root
    refine ⟨inv.shape.create nonzero unused, inv.books.keep rfl rfl fun b => ?_⟩
    refine (iff_of_eq (congrArg (Lineage.Referenced · b) Shape.lineage_create)).trans ?_
    exact Lineage.referenced_add unused (by simp)
  · have live := parent.resolve_left root
    have counted : s.count cloneParent ≠ 0 := by
      simpa [createCheck, root, Pool.count] using check
    have snap : (s.ds cloneParent).dsNextSnapObj ≠ 0 := by
      simpa [Pool.next] using (inv.shape.threaded.count_pos live).mp counted
    have apart : dsobj ≠ cloneParent := fun same => unused (same ▸ live)
    refine ⟨inv.shape.clone nonzero unused live snap, inv.books.keep ?_ ?_ fun b => ?_⟩
    · simp [dslDatasetCreateSync, setDs, root]
    · simp [dslDatasetCreateSync, setDs, root]
    · refine (iff_of_eq (congrArg (Lineage.Referenced · b) (Shape.lineage_clone root apart))).trans ?_
      exact Lineage.referenced_add unused fun x held => ⟨cloneParent, live, held⟩

theorem Inv.snapshot (inv : s.Inv) (live : obj ∈ s.objs) (head : (s.ds obj).dsNextSnapObj = 0)
    (nonzero : dsobj ≠ 0) (unused : dsobj ∉ s.objs) (check : dslDatasetSnapshotCheck s obj) :
    (dslDatasetSnapshotSync s obj dsobj).Inv := by
  have later : (s.ds obj).dsPrevSnapTxg < s.txg := by simpa [dslDatasetSnapshotCheck] using check
  refine ⟨inv.shape.snapshot live head nonzero unused later, inv.books.keep ?_ ?_ fun b => ?_⟩
  · simp only [dslDatasetSnapshotSync, snapshotPrev]
    split_ifs <;> rfl
  · simp only [dslDatasetSnapshotSync, snapshotPrev]
    split_ifs <;> rfl
  · have lineage := Shape.lineage_snapshot inv.shape live unused nonzero
    refine (iff_of_eq (congrArg (Lineage.Referenced · b) lineage)).trans ?_
    rw [Lineage.referenced_reparent]
    exact Lineage.referenced_add unused fun x held => ⟨obj, live, held⟩

theorem destroy_born : (dslDatasetDestroySync s obj).born = s.born := by
  simp only [dslDatasetDestroySync, destroyNext, destroyPrev]
  split_ifs <;> rfl

theorem destroyPrev_freed : (destroyPrev s obj).freed = s.freed := by
  simp only [destroyPrev]
  split_ifs <;> rfl

theorem destroySnap_freed (shape : s.Shape) (live : obj ∈ s.objs) (at_ : s.next obj = some n) :
    (dslDatasetDestroySync s obj).freed =
      s.freed ++ (s.ds n).dsDeadlist.filter fun b => b.blkBirth > (s.ds obj).dsPrevSnapTxg := by
  obtain ⟨snap, rfl⟩ := Shape.next_eq.mp at_
  simp [dslDatasetDestroySync, destroyNext, Shape.destroyPrev_kept (Shape.parent_ne_self shape live), if_pos snap, Shape.destroyPrev_kept (Shape.parent_ne_next shape live at_), setDs, arcFree, destroyPrev_freed]

theorem destroyHead_freed (shape : s.Shape) (live : obj ∈ s.objs) (head : (s.ds obj).dsNextSnapObj = 0) :
    (dslDatasetDestroySync s obj).freed = s.freed ++ traverseDslDataset (s.ds obj) (s.ds obj).dsPrevSnapTxg := by
  simp [dslDatasetDestroySync, destroyNext, Shape.destroyPrev_kept (Shape.parent_ne_self shape live), head, arcFree, destroyPrev_freed]

theorem Inv.destroySnap (inv : s.Inv) (live : obj ∈ s.objs) (at_ : s.next obj = some n)
    (single : (s.ds obj).dsNumChildren ≤ 1) : (dslDatasetDestroySync s obj).Inv := by
  have live' : n ∈ s.objs := inv.shape.threaded.next_live obj live n at_
  have child : s.lineage.parent n = some obj := inv.shape.threaded.next_parent obj live n at_
  have only := inv.shape.threaded.only_child live at_ single
  have dead : ∀ {b}, b ∈ (s.ds n).dsDeadlist ↔ b ∈ (s.ds obj).dsBlocks ∧ b ∉ (s.ds n).dsBlocks := by
    intro b
    rw [mem_deadlist inv.shape live']
    simp [child]
  refine ⟨inv.shape.destroySnap live at_ single, inv.books.free _ destroy_born
    (destroySnap_freed inv.shape live at_) ((inv.shape.listed n live').dead_nodup.filter _) ?_ ?_⟩
  · intro b lost
    exact ⟨obj, live, (dead.mp (mem_of_mem_filter lost)).1⟩
  · intro b
    have lineage := Shape.lineage_destroySnap inv.shape live at_
    refine (iff_of_eq (congrArg (Lineage.Referenced · b) lineage)).trans ?_
    have removed := inv.shape.sound.referenced_remove live (s.lineage.holds n) (b := b)
      (fun c live parent => by rw [only c live parent])
      fun x held _ => ⟨n, live', (inv.shape.sound.parent_ne live' child).symm, held⟩
    refine removed.trans ?_
    simp only [mem_filter, dead, decide_eq_true_eq, and_assoc]
    rfl

theorem Inv.destroyHead (inv : s.Inv) (live : obj ∈ s.objs) (head : (s.ds obj).dsNextSnapObj = 0)
    (branch : ∀ p, s.lineage.parent obj = some p → s.next p ≠ some obj) : (dslDatasetDestroySync s obj).Inv := by
  refine ⟨inv.shape.destroyHead live head branch, inv.books.free _ destroy_born
    (destroyHead_freed inv.shape live head) ((inv.shape.listed obj live).nodup.filter _) ?_ ?_⟩
  · intro b lost
    exact ⟨obj, live, mem_of_mem_filter lost⟩
  · intro b
    have lineage := Shape.lineage_destroyHead inv.shape live head branch
    refine (iff_of_eq (congrArg (Lineage.Referenced · b) lineage)).trans ?_
    have removed := inv.shape.sound.referenced_remove live ∅ (b := b)
      (fun c live parent => absurd parent (inv.shape.leaf head c live)) (by simp)
    refine removed.trans ?_
    simp only [traverseDslDataset, mem_filter, decide_eq_true_eq, Set.mem_empty_iff_false, not_false_eq_true,
      true_and]
    rfl

theorem destroyCheck_single (check : dslDatasetDestroyCheck s obj) : (s.ds obj).dsNumChildren ≤ 1 := by
  simp only [dslDatasetDestroyCheck, Bool.and_eq_true, decide_eq_true_eq] at check
  exact check.1.1

theorem destroyCheck_branch (check : dslDatasetDestroyCheck s obj) (head : (s.ds obj).dsNextSnapObj = 0) (p : ℕ)
    (parent : s.lineage.parent obj = some p) : s.next p ≠ some obj := by
  intro next
  obtain ⟨some_prev, rfl⟩ := Shape.parent_eq.mp parent
  simp [dslDatasetDestroyCheck, head, some_prev, (Shape.next_eq.mp next).2] at check

theorem Inv.destroy (inv : s.Inv) (live : obj ∈ s.objs) (check : dslDatasetDestroyCheck s obj) :
    (dslDatasetDestroySync s obj).Inv := by
  by_cases head : (s.ds obj).dsNextSnapObj = 0
  · exact inv.destroyHead live head (destroyCheck_branch check head)
  · exact inv.destroySnap live (Shape.next_eq.mpr ⟨head, rfl⟩) (destroyCheck_single check)

theorem promoteNewnext_spec (shape : s.Shape) (live : obj ∈ s.objs)
    (walk : promoteNewnext s pivot rounds obj = some newnext) :
    newnext ∈ s.objs ∧ (s.ds newnext).dsPrevSnapObj = pivot := by
  induction rounds generalizing obj with
  | zero => simp [promoteNewnext] at walk
  | succ rounds ih =>
    simp only [promoteNewnext] at walk
    split_ifs at walk with reached first
    · obtain rfl := Option.some.inj walk
      exact ⟨live, reached⟩
    · exact ih (shape.sound.parent_live obj live _ (Shape.parent_eq.mpr ⟨first, rfl⟩)) walk

theorem Inv.promote (inv : s.Inv) (live : hds ∈ s.objs) (clone : (s.dd (s.ds hds).dsDirObj).ddCloneParentObj ≠ 0)
    (walk : promoteNewnext s (s.dd (s.ds hds).dsDirObj).ddCloneParentObj rounds hds = some newnext) :
    (dslDatasetPromoteSync s hds newnext snaps).Inv := by
  obtain ⟨live', prev⟩ := promoteNewnext_spec inv.shape live walk
  refine ⟨inv.shape.promote live' clone prev, inv.books.keep rfl rfl fun b => ?_⟩
  exact iff_of_eq (congrArg (Lineage.Referenced · b) Shape.lineage_promote)

theorem Inv.step {s'} (inv : s.Inv) (step : Step s s') : s'.Inv := by
  cases step with
  | born live head unsnapped birth fresh => exact inv.born live head unsnapped birth fresh
  | kill live head referenced => exact inv.kill live head referenced
  | create nonzero unused parent check => exact inv.create nonzero unused parent check
  | snapshot live head nonzero unused check => exact inv.snapshot live head nonzero unused check
  | rollback live check => exact inv.rollback live check
  | destroy live check => exact inv.destroy live check
  | promote live head clone walk moves => exact inv.promote live clone walk
  | next => exact ⟨inv.shape.frame rfl rfl (Nat.le_succ _), inv.books.keep rfl rfl fun _ => Iff.rfl⟩

theorem emptyPool_inv (txg : ℕ) : (emptyPool txg).Inv := by
  refine ⟨⟨?_, ?_, ?_, ?_, ?_⟩, ?_, ?_, ?_⟩
  · simp [emptyPool]
  · constructor <;> simp [emptyPool, lineage]
  · constructor <;> simp [emptyPool, lineage]
  · simp [emptyPool]
  · simp [emptyPool]
  · simp [emptyPool, Referenced]
  · simp [emptyPool]
  · simp [emptyPool]

end Steps

end Pool

/-- In every run from an empty pool: no block of a dataset was passed to `arc_free`, no block was passed
    to it twice, and every block that was born and that no dataset has any more was. -/
theorem blocks_freed_exactly {first : ℕ} {s : Pool} (reachable : (runs first).Reachable s) :
    (∀ o ∈ s.objs, ∀ b ∈ (s.ds o).dsBlocks, b ∉ s.freed) ∧ s.freed.Nodup ∧
      ∀ b ∈ s.born, (∀ o ∈ s.objs, b ∉ (s.ds o).dsBlocks) → b ∈ s.freed := by
  have inv : s.Inv := by
    refine reachable.invariant ?_ fun s s' inv step => inv.step step
    rintro s rfl
    exact Pool.emptyPool_inv first
  refine ⟨?_, inv.books.nodup, ?_⟩
  · intro o live b inside freed
    exact ((inv.books.mem_freed b).mp freed).2 ⟨o, live, inside⟩
  · intro b born unreferenced
    refine (inv.books.mem_freed b).mpr ⟨born, ?_⟩
    rintro ⟨o, live, inside⟩
    exact unreferenced o live inside

def overwritten : Pool :=
  let b : Block := ⟨7, 4⟩
  let s := dslDatasetBlockBorn (dslDatasetCreateSync (emptyPool 4) 1 2 0) 2 b
  dslDatasetBlockKill (dslDatasetSnapshotSync { s with txg := 5 } 2 3) 2 b

theorem overwritten_reachable : (runs 4).Reachable { overwritten with txg := 6 } := by
  refine .next ?_ .next
  unfold overwritten
  refine .next ?_ (.kill (by decide) (by decide) (by decide))
  refine .next ?_ (.snapshot (by decide) (by decide) (by decide) (by decide) (by decide))
  refine .next ?_ .next
  refine .next ?_ (.born (by decide) (by decide) (by decide) (by decide) (by decide))
  refine .next ?_ (.create (by decide) (by decide) (by decide) (by decide))
  exact .first rfl

/-- The block stays on the deadlist until the snapshot is destroyed, and is freed then. -/
theorem blocks_freed_exactly_overwritten :
    overwritten.freed = [] ∧ (dslDatasetDestroySync { overwritten with txg := 6 } 3).freed = [⟨7, 4⟩] ∧
      (dslDatasetDestroySync { overwritten with txg := 6 } 3).freed.Nodup :=
  ⟨by decide, by decide, (blocks_freed_exactly
    (.next overwritten_reachable (.destroy (by decide) (by decide)))).2.1⟩

end MacZfs.Dsl
