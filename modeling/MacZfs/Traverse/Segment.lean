import MacZfs.Traverse.Steps

/-!
# A segment from the root of the pool

`traverse_segment` goes from the root of the pool to the dataset and from there to the object of the bookmark. Each
time it finds the place again where it was.
-/

namespace MacZfs.Traverse

open Preorder Option Stage

variable {disk : Disk} {th : Handle} {depth : Depth} {bp : Blkptr} {objset : ℕ}

theorem Handle.readOsphys_same : th.Same (th.readOsphys disk depth objset bp) := ⟨rfl, rfl, rfl, rfl⟩

/-- The meta-dnode of an `objset_phys_t` that was read. -/
theorem Handle.Coherent.readOsphys_holds (coherent : th.Coherent disk) (whole : bp.isHole = false) :
    ((th.readOsphys disk depth objset bp).thCache depth (zbMaxlevel - 1)).Holds ⟨objset, 0, -1, 0⟩ bp
      (disk bp).osMetaDnode := by
  have read := coherent.read_data depth (zbMaxlevel - 1) ⟨objset, 0, -1, 0⟩ bp default whole (.inl (by decide))
  have holds : ((th.read disk depth (zbMaxlevel - 1) ⟨objset, 0, -1, 0⟩ bp default).thCache depth (zbMaxlevel - 1)).Holds
      ⟨objset, 0, -1, 0⟩ bp default := Handle.read_holds _ _ _ _ _
  simp only [Handle.read, and_self, if_true] at read holds
  simp only [Handle.readOsphys, and_self, if_true]
  exact ⟨holds.bookmark, holds.blkptr, by rw [read]⟩

theorem Handle.Coherent.readOsphys (coherent : th.Coherent disk) : (th.readOsphys disk depth objset bp).Coherent disk := by
  refine coherent.set (fun old young at_ => ?_) fun other => ?_
  · dsimp only at young at_ ⊢
    rw [traverseRead_blkptr] at young ⊢
    exact @traverseRead_data disk bp default
      { th.thCache depth (zbMaxlevel - 1) with bcBookmark := ⟨objset, 0, -1, 0⟩ }
      (coherent.data depth (zbMaxlevel - 1)) old young at_
  · exact traverseRead_buffer (coherent.buffer depth _ other)

theorem Allocated.isDnode {mdn dn o} (allocated : Allocated disk mdn o dn) (sane : mdn.Sane disk) :
    IsDnode disk mdn 0 o dn := by
  obtain ⟨bp, at_, whole, rest⟩ := allocated
  have young : 0 < bp.blkBirth := by
    simp [Blkptr.isHole] at whole
    omega
  exact ⟨bp, sane.visited_of_young (Nat.zero_le _) at_ young, rest⟩

structure Dataset.Root (ds : Dataset disk) (mosbp : Blkptr) : Prop where
  whole : mosbp.isHole = false
  sane : (disk mosbp).osMetaDnode.Sane disk
  few : (disk mosbp).osMetaDnode.dnMaxblkid < zbMaxblkid
  dataset : ∃ dn, Allocated disk (disk mosbp).osMetaDnode ds.objset dn ∧ dn.dnType = .dslDataset ∧ dn.dnBonus = ds.dsp

namespace Dataset

variable {ds : Dataset disk} {mintxg maxtxg o l b rounds : ℕ} {dn : DnodePhys} {advance : Advance}
  {stage : Stage} {bc : BlkCache} (again wants : ℕ → Bool)

variable {again} in
theorem Outcome.of_same
    (outcome : ds.Outcome mintxg maxtxg advance again stage th₁ rc zseg th') (same : th.Same th₁) :
    ds.Outcome mintxg maxtxg advance again stage th rc zseg th' := by
  cases outcome with
  | goes stage' _ at_ later progress => exact .goes stage' th' at_ later progress
  | waits _ asked count progress =>
    exact .waits th' (same.callbacks ▸ asked) (by rw [count, same.callbacks]) progress
  | ends _ _ progress => exact .ends zseg th' progress

theorem Progress.enter (progress : ds.Progress mintxg maxtxg advance (object o).Past th) :
    ds.Progress mintxg maxtxg advance (block o dn dn.maxlevel 0).Past th := by
  refine progress.congr fun e _ => ?_
  have first : rank dn.wshift dn.maxlevel dn.maxlevel 0 = 0 := by simp [rank, start]
  simp [Stage.Past, first]

theorem front_top : Front disk dn mintxg dn.maxlevel 0 :=
  ⟨le_rfl, fun m lt top => by omega, by simp [start]⟩

theorem object_spec (pre : advance.pre = true) (dnode : ds.Dn mintxg o dn)
    (progress : ds.Progress mintxg maxtxg advance (object o).Past th) :
    ∃ rc zseg th', traverseBlocks disk again wants dn 100 th (ds.seg mintxg maxtxg (.block o dn dn.maxlevel 0)) =
      (rc, zseg, th') ∧ ds.Outcome mintxg maxtxg advance again (.object o) th rc zseg th' := by
  have at_ : ds.At mintxg (.block o dn dn.maxlevel 0) := ⟨dnode, front_top⟩
  obtain ⟨rc, zseg, th', result, outcome⟩ := traverseBlocks_spec again wants pre at_ progress.enter 99
  refine ⟨rc, zseg, th', result, outcome.after at_ (Prod.Lex.toLex_lt_toLex.mpr (.inl (by omega)))⟩

/-- From the `objset_phys_t` to the meta-dnode. -/
theorem advanceFromOsphys_spec (th) (progress : ds.Progress mintxg maxtxg advance (object 0).Past th') :
    ∃ rc zseg, advanceFromOsphys (ds.seg mintxg maxtxg .osphys) true = (rc, zseg) ∧
      ds.Outcome mintxg maxtxg advance again .osphys th rc zseg th' := by
  have within : (ds.seg mintxg maxtxg .osphys).Beyond ds.objset 0 := ⟨rfl, le_rfl, (by decide : 0 < zbMaxobject)⟩
  have move := @moved_within (ds.seg mintxg maxtxg .osphys) ⟨ds.objset, 0, zbMaxlevel, 0⟩ none (Int.natCast_nonneg _) within
  refine ⟨_, _, move, .goes (.object 0) th' ⟨Nat.zero_le _, by decide⟩ ?_ progress⟩
  exact Prod.Lex.toLex_lt_toLex.mpr (.inl (by omega))

theorem Visit.past_meta (visit : ds.Visit mintxg maxtxg holes e) :
    (object 0).Past e ↔ mintxg < ds.dsp.dsBp.blkBirth ∧ ds.dsp.dsBp.blkBirth < maxtxg ∧
      e = ⟨⟨ds.objset, 0, -1, 0⟩, ds.dsp.dsBp, ds.mdn⟩ := by
  cases visit with
  | osphys young old => exact iff_of_true (.inl (by norm_num)) ⟨young, old, rfl⟩
  | block o dn l b bp dnode visited old =>
    refine iff_of_false (fun before => ?_) fun same => ?_
    · rcases before with negative | before
      · exact absurd negative (not_lt.mpr (Int.natCast_nonneg l))
      · exact absurd before (Nat.not_lt_zero o)
    · have level : (l : ℤ) = -1 := congrArg (·.bookmark.zbLevel) same.2.2
      omega

/-- The callback for the `objset_phys_t`. -/
theorem osphys_spec (pre : advance.pre = true) (holds : bc.Holds ⟨ds.objset, 0, -1, 0⟩ ds.dsp.dsBp ds.mdn)
    (progress : ds.Progress mintxg maxtxg advance osphys.Past th) :
    ∃ rc zseg th', traverseObjset disk again wants th rounds (ds.seg mintxg maxtxg .osphys) bc = some (rc, zseg, th') ∧
      ds.Outcome mintxg maxtxg advance again .osphys th rc zseg th' := by
  have flag : th.thAdvance.pre = true := by rw [progress.flags, pre]
  have place : (ds.seg mintxg maxtxg .osphys).segStart.zbLevel = -1 := rfl
  have mintxg_eq : (ds.seg mintxg maxtxg .osphys).segMintxg = mintxg := rfl
  have maxtxg_eq : (ds.seg mintxg maxtxg .osphys).segMaxtxg = maxtxg := rfl
  simp only [traverseObjset, place, if_true, flag, holds.blkptr, mintxg_eq, traverseCallback, maxtxg_eq, holds.bookmark,
    holds.dnode]
  by_cases skip : mintxg < ds.dsp.dsBp.blkBirth ∧ ds.dsp.dsBp.blkBirth < maxtxg
  · simp only [gt_iff_lt, if_pos skip.1, if_neg (not_le.mpr skip.2), ge_iff_le]
    by_cases asks : again th.thCallbacks
    · simp only [if_pos asks, ne_eq, reduceCtorEq, not_false_eq_true, if_true]
      exact ⟨_, _, _, rfl, .waits _ asks rfl (progress.called _)⟩
    · simp only [if_neg asks, ne_eq, not_true_eq_false, if_false]
      have finish := (progress.called (th.thCallbacks + 1)).finish (.osphys skip.1 skip.2) fun e' _ before => before.elim
      obtain ⟨rc, zseg, result, outcome⟩ := advanceFromOsphys_spec again th (finish.congr fun e visit => by
        rw [visit.past_meta]
        simp [skip, Stage.Past])
      exact ⟨rc, zseg, _, by rw [result], outcome⟩
  · obtain ⟨rc, zseg, result, outcome⟩ := advanceFromOsphys_spec again th (progress.congr fun e visit => by
      rw [visit.past_meta]
      exact iff_of_false (fun past => skip ⟨past.1, past.2.1⟩) id)
    by_cases young : mintxg < ds.dsp.dsBp.blkBirth
    · have new : maxtxg ≤ ds.dsp.dsBp.blkBirth := not_lt.mp fun old => skip ⟨young, old⟩
      simp only [gt_iff_lt, if_pos young, ge_iff_le, if_pos new, ne_eq, not_true_eq_false, if_false]
      exact ⟨rc, zseg, th, by rw [result], outcome⟩
    · simp only [gt_iff_lt, if_neg young, ne_eq, not_true_eq_false, if_false]
      exact ⟨rc, zseg, th, by rw [result], outcome⟩

theorem few_blocks (ds : Dataset disk) : ds.mdn.dnMaxblkid < zbMaxblkid := by
  have := ds.few
  simp only [dnodesPerBlock, zbMaxobject, zbMaxblkid] at this ⊢
  omega

/-- Nothing to finish is between an object and the one that `get_dnode` finds. -/
theorem picked_past (picked : Picked disk ds.mdn mintxg none o rc o' dn) (object : o ≠ 0)
    (at_ : ds.At mintxg (.object o)) (e) (visit : ds.Visit mintxg maxtxg holes e) :
    (Stage.object o').Past e ↔ (Stage.object o).Past e := by
  have ge : o ≤ o' := by
    obtain ⟨-, found, -⟩ | ⟨-, rfl, -⟩ := picked
    · exact found.ge
    · exact at_.2.le
  cases visit with
  | osphys => exact iff_of_true (.inl (by norm_num)) (.inl (by norm_num))
  | block o₁ dn₁ l b bp dnode visited old =>
    refine or_congr_right ⟨fun before => ?_, fun before => lt_of_lt_of_le before ge⟩
    by_contra after
    have after : o ≤ o₁ := not_lt.mp after
    have sought : Sought disk ds.mdn mintxg none o o₁ dn₁ := ⟨after, (dn_object (by omega)).mp dnode, rfl⟩
    obtain ⟨-, -, least⟩ | ⟨-, -, none⟩ := picked
    · exact absurd before (not_lt.mpr (least o₁ dn₁ sought))
    · exact none o₁ dn₁ sought

theorem picked_later (picked : Picked disk ds.mdn mintxg none o rc o' dn)
    (other : o' ≠ o) (few : o' < zbMaxobject) : o' ≤ ds.room ∧ ds.left (.object o') < ds.left (.object o) := by
  obtain ⟨-, found, -⟩ | ⟨-, rfl, -⟩ := picked
  · have ge := found.ge
    have inside := ((dn_object (by omega)).mpr found.dnode).lt_room
    exact ⟨inside.le, Prod.Lex.toLex_lt_toLex.mpr (.inl (by omega))⟩
  · exact absurd few (lt_irrefl _)

/-- The part of `traverse_segment` below the `objset_phys_t`. -/
theorem traverseObjset_spec (pre : advance.pre = true) (holds : bc.Holds ⟨ds.objset, 0, -1, 0⟩ ds.dsp.dsBp ds.mdn)
    (enough : (ds.mdn.dnMaxblkid + 1) * (ds.mdn.maxlevel + 1) < rounds) (at_ : ds.At mintxg stage)
    (progress : ds.Progress mintxg maxtxg advance stage.Past th) :
    ∃ rc zseg th', traverseObjset disk again wants th rounds (ds.seg mintxg maxtxg stage) bc = some (rc, zseg, th') ∧
      ds.Outcome mintxg maxtxg advance again stage th rc zseg th' := by
  have few := ds.few_blocks
  cases stage with
  | osphys => exact osphys_spec again wants pre holds progress
  | object o =>
    have place : (ds.seg mintxg maxtxg (.object o)).segStart = ⟨ds.objset, o, zbMaxlevel, 0⟩ := rfl
    have down : ((zbMaxlevel : ℕ) : ℤ) ≠ -1 := by decide
    simp only [traverseObjset, place, if_neg down, if_true, holds.dnode]
    by_cases zero : o = 0
    · subst zero
      obtain ⟨rc, zseg, th', result, outcome⟩ := object_spec again wants pre dn_zero progress
      exact ⟨rc, zseg, th', congrArg some result, outcome⟩
    · rw [if_neg zero]
      obtain ⟨rc, o', dn, th₁, result, coherent, same, picked⟩ := getDnode_spec ds.sane few (by decide : Depth.mdn ≠ .dn)
        ds.objset mintxg o none progress.coherent enough
      have mintxg_eq : (ds.seg mintxg maxtxg (.object o)).segMintxg = mintxg := rfl
      rw [mintxg_eq, result]
      have progress₁ := progress.of_same coherent same
      dsimp only [bind_eq_bind, bind_some]
      by_cases here : o' = o
      · subst here
        obtain ⟨rfl, found, -⟩ | ⟨-, beyond, -⟩ := picked
        · simp only [ne_eq, not_true_eq_false, if_false]
          obtain ⟨rc, zseg, th', result, outcome⟩ :=
            object_spec again wants pre ((dn_object zero).mpr found.dnode) progress₁
          exact ⟨rc, zseg, th', congrArg some result, outcome.of_same same⟩
        · exact absurd beyond at_.2.ne
      · rw [if_pos here]
        have flag : th.thAdvance.pre = true := by rw [progress.flags, pre]
        obtain ⟨rc', zseg, move, outcome⟩ := advanceObject_spec again th (.object o) (.object o)
          (progress₁.congr (picked_past picked zero at_)) (picked_later picked here)
        exact ⟨rc', zseg, th₁, by rw [flag, move], outcome⟩
  | block o dn l b =>
    obtain ⟨dnode, front⟩ := at_
    have place : (ds.seg mintxg maxtxg (.block o dn l b)).segStart = ⟨ds.objset, o, l, b⟩ := rfl
    have levels := dnode.sane.levels
    have low := front.low
    have down : (l : ℤ) ≠ -1 := by omega
    have below : (l : ℤ) ≠ (zbMaxlevel : ℕ) := by
      simp only [DnodePhys.maxlevel] at low
      simp only [zbMaxlevel]
      omega
    simp only [traverseObjset, place, if_neg down, if_neg below, holds.dnode]
    by_cases zero : o = 0
    · rw [if_pos zero]
      subst zero
      obtain rfl := dnode.unique dn_zero
      obtain ⟨rc, zseg, th', result, outcome⟩ := traverseBlocks_spec again wants pre ⟨dnode, front⟩ progress 99
      exact ⟨rc, zseg, th', congrArg some result, outcome⟩
    · rw [if_neg zero]
      obtain ⟨rc₁, o', dn', th₁, result₁, coherent, same, picked⟩ := getDnode_spec ds.sane few
        (by decide : Depth.mdn ≠ .dn) ds.objset mintxg o none progress.coherent enough
      have mintxg_eq : (ds.seg mintxg maxtxg (.block o dn l b)).segMintxg = mintxg := rfl
      rw [mintxg_eq, result₁]
      dsimp only [bind_eq_bind, bind_some]
      have itself : Sought disk ds.mdn mintxg none o o dn := ⟨le_rfl, (dn_object zero).mp dnode, rfl⟩
      obtain ⟨rfl, found, least⟩ | ⟨-, -, none⟩ := picked
      · obtain rfl := le_antisymm (least o dn itself) found.ge
        obtain rfl := found.dnode.unique itself.dnode
        obtain ⟨rc, zseg, th', result, outcome⟩ :=
          traverseBlocks_spec again wants pre ⟨dnode, front⟩ (progress.of_same coherent same) 99
        simp only [ne_eq, not_true_eq_false, if_false]
        exact ⟨rc, zseg, th', congrArg some result, outcome.of_same same⟩
      · exact absurd itself (none o dn)

/-- `mintxg` as `traverse_segment` has it for the dataset. -/
def startTxg (ds : Dataset disk) (advance : Advance) (mintxg : ℕ) : ℕ :=
  if advance.prune then max mintxg ds.dsp.dsPrevSnapTxg else mintxg

def Enough (rounds : ℕ) : Prop := zbMaxblkid * zbMaxlevel < rounds

theorem enough_rounds {mdn : DnodePhys} (sane : mdn.Sane disk) (few : mdn.dnMaxblkid < zbMaxblkid) (enough : Enough rounds) :
    (mdn.dnMaxblkid + 1) * (mdn.maxlevel + 1) < rounds := by
  have levels := sane.levels
  refine lt_of_le_of_lt (Nat.mul_le_mul few ?_) enough
  simp only [DnodePhys.maxlevel, zbMaxlevel]
  omega

/-- `traverse_segment` at any stage. -/
theorem traverseSegment_spec (root : ds.Root mosbp) (pre : advance.pre = true) (enough : Enough rounds)
    (at_ : ds.At (ds.startTxg advance mintxg) stage)
    (progress : ds.Progress (ds.startTxg advance mintxg) maxtxg advance stage.Past th) :
    ∃ rc zseg th', traverseSegment disk again wants th rounds (ds.seg mintxg maxtxg stage) mosbp = some (rc, zseg, th') ∧
      ds.Outcome (ds.startTxg advance mintxg) maxtxg advance again stage th rc zseg th' := by
  have objset : (ds.seg mintxg maxtxg stage).segStart.zbObjset = ds.objset := bookmark_objset stage
  have coherent₁ : (th.readOsphys disk .mos 0 mosbp).Coherent disk := progress.coherent.readOsphys
  have same₁ : th.Same (th.readOsphys disk .mos 0 mosbp) := Handle.readOsphys_same
  have holds : ((th.readOsphys disk .mos 0 mosbp).thCache .mos (zbMaxlevel - 1)).Holds ⟨0, 0, -1, 0⟩ mosbp
      (disk mosbp).osMetaDnode := progress.coherent.readOsphys_holds root.whole
  obtain ⟨dn, allocated, type, bonus⟩ := root.dataset
  obtain ⟨rc, o, dn', th₂, result, coherent₂, same₂, picked⟩ := getDnode_spec root.sane root.few
    (by decide : Depth.mos ≠ .dn) 0 0 ds.objset (some .dslDataset) coherent₁ (enough_rounds root.sane root.few enough)
  have itself : Sought disk (disk mosbp).osMetaDnode 0 (some .dslDataset) ds.objset ds.objset dn :=
    ⟨le_rfl, allocated.isDnode root.sane, by simp [type]⟩
  obtain ⟨rfl, found, least⟩ | ⟨-, -, none⟩ := picked
  · obtain rfl := le_antisymm (least ds.objset dn itself) found.ge
    obtain rfl := found.dnode.unique itself.dnode
    have coherent₃ : (th₂.readOsphys disk .mdn ds.objset ds.dsp.dsBp).Coherent disk := coherent₂.readOsphys
    have same₃ : th.Same (th₂.readOsphys disk .mdn ds.objset ds.dsp.dsBp) := (same₁.trans same₂).trans Handle.readOsphys_same
    have holds₃ : ((th₂.readOsphys disk .mdn ds.objset ds.dsp.dsBp).thCache .mdn (zbMaxlevel - 1)).Holds ⟨ds.objset, 0, -1, 0⟩
        ds.dsp.dsBp ds.mdn := ds.metadnode ▸ coherent₂.readOsphys_holds ds.whole
    obtain ⟨rc, zseg, th', rest, outcome⟩ := traverseObjset_spec again wants pre holds₃
      (enough_rounds ds.sane ds.few_blocks enough) at_ (progress.of_same coherent₃ same₃)
    have start_txg : (if (th₂.readOsphys disk .mdn ds.objset ds.dsp.dsBp).thAdvance.prune then max mintxg ds.dsp.dsPrevSnapTxg
        else mintxg) = ds.startTxg advance mintxg := by rw [same₃.advance, progress.flags, startTxg]
    refine ⟨rc, zseg, th', ?_, outcome.of_same same₃⟩
    simp only [traverseSegment, objset, if_neg ds.number, holds.dnode]
    rw [result]
    simp only [bind_eq_bind, bind_some, ne_eq, not_true_eq_false, if_false, bonus]
    rw [← rest, ← start_txg]
    rfl
  · exact absurd itself (none ds.objset dn)

end Dataset

end MacZfs.Traverse
