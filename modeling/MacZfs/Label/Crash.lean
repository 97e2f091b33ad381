import MacZfs.Label.Basic

/-!
# A crash while labels and uberblocks are written

The even labels of all dirty vdevs are on disk before the first uberblock is written, and the
uberblocks before the first odd label. So whichever uberblock is found after a crash, one half of
the labels belongs to it.
-/

namespace MacZfs.Label

open List WriteCache Script

variable {κ α : Type}

/-! ## Trees -/

mutual

theorem mem_forLeaves (f) (vd : Vdev) : x ∈ vd.forLeaves f ↔ ∃ leaf ∈ vd.leaves, x ∈ f leaf := by
  cases vd with
  | leaf leaf => simp [Vdev.leaves, Vdev.forLeaves]
  | interior children =>
    exact mem_forChildren f children

theorem mem_forChildren (f) (children : List Vdev) :
    x ∈ forChildren f children ↔ ∃ leaf ∈ forChildren (fun leaf => [leaf]) children, x ∈ f leaf := by
  cases children with
  | nil => simp [forChildren]
  | cons child rest =>
    simp only [forChildren, mem_append, or_and_right, exists_or]
    exact or_congr (mem_forLeaves f child) (mem_forChildren f rest)

end

def Leaf.Labelled (spa : Spa κ) (leaf : Leaf) (config : κ) : Prop :=
  leaf.vdevIsDead = false ∧ spa.configGenerate leaf.vdevGuid = some config

variable {e : IoEvent κ}

theorem mem_vdevSyncLabel {spa l txg vd} :
    e ∈ vdevSyncLabel spa l txg vd ↔ ∃ leaf ∈ vd.leaves, ∃ config, leaf.Labelled spa config ∧
      e = .write (.phys leaf.vdevGuid l) (.label txg config) := by
  rw [vdevSyncLabel, mem_forLeaves]
  refine exists_congr fun leaf => and_congr_right fun _ => ?_
  cases dead : leaf.vdevIsDead <;> cases label : spa.configGenerate leaf.vdevGuid <;>
    simp [Leaf.Labelled, dead, label]

theorem mem_flushWriteCache : e ∈ flushWriteCache vd ↔ ∃ leaf ∈ vd.leaves, e = .flush leaf.vdevGuid := by
  simp [flushWriteCache, mem_forLeaves]

/-! ## Scripts -/

variable {a b : Script κ}

theorem Script.cut_andThen {done} (cut : done <+: (a.andThen b).events) :
    done <+: a.events ∨ a.error = none ∧ ∃ rest, done = a.events ++ rest ∧ rest <+: b.events := by
  unfold andThen at cut
  split at cut
  · exact .inl cut
  · rename_i none
    rcases prefix_or_prefix_of_prefix cut (prefix_append _ _) with inside | ⟨rest, rfl⟩
    · exact .inl inside
    · exact .inr ⟨none, rest, rfl, (prefix_append_right_inj _).mp cut⟩

theorem Script.mem_andThen (member : e ∈ (a.andThen b).events) : e ∈ a.events ∨ e ∈ b.events := by
  unfold andThen at member
  split at member
  · exact .inl member
  · exact mem_append.mp member

theorem Script.error_andThen (good : (a.andThen b).error = none) : a.error = none ∧ b.error = none := by
  unfold andThen at good
  split at good
  · simp at good
  · exact ⟨‹_›, good⟩

theorem Script.events_andThen (good : a.error = none) : (a.andThen b).events = a.events ++ b.events := by
  simp [andThen, good]

section Writes

variable {spa : Spa κ} {txg : ℕ} {uvd : Vdev} {labels : List (Top × Fin vdevLabels)} {e : IoEvent κ}

theorem mem_dirtyLabels : (vd, l) ∈ dirtyLabels spa parity ↔ vd ∈ spa.dirtyList ∧ l.val % 2 = parity := by
  simp [dirtyLabels]

theorem mem_syncLabels (member : e ∈ (syncLabels spa txg labels).events) :
    ∃ label ∈ labels, e ∈ vdevSyncLabel spa label.2 txg label.1.vdevTree := by
  induction labels with
  | nil => simp [syncLabels] at member
  | cons label rest ih =>
    rcases mem_andThen member with own | later
    · exact ⟨label, by simp, own⟩
    · obtain ⟨label', inside, found⟩ := ih later
      exact ⟨label', by simp [inside], found⟩

/-- A loop over labels that has no error has written all of them, and each of them somewhere unless
    it is one of a log. -/
theorem syncLabels_complete (good : (syncLabels spa txg labels).error = none) (member : label ∈ labels) :
    (∀ e ∈ vdevSyncLabel spa label.2 txg label.1.vdevTree, e ∈ (syncLabels spa txg labels).events) ∧
      (vdevSyncLabels spa label.1 label.2 txg).error = none := by
  induction labels with
  | nil => simp at member
  | cons head rest ih =>
    obtain ⟨first, later⟩ := error_andThen good
    have events : (syncLabels spa txg (head :: rest)).events =
        (vdevSyncLabels spa head.1 head.2 txg).events ++ (syncLabels spa txg rest).events :=
      events_andThen first
    rcases mem_cons.mp member with rfl | member
    · exact ⟨fun e own => events ▸ mem_append_left _ own, first⟩
    · obtain ⟨written, fine⟩ := ih later member
      exact ⟨fun e own => events ▸ mem_append_right _ (written e own), fine⟩

/-- The writes of `vdev_uberblock_sync_tree`. -/
theorem mem_vdevUberblockSyncTree (member : e ∈ (vdevUberblockSyncTree spa ub txg uvd).events) :
    ∃ leaf ∈ uvd.leaves, leaf.vdevIsDead = false ∧ ∃ l,
      e = .write (.uber leaf.vdevGuid l (txg &&& (vdevUberblockCount leaf - 1))) (.uberblock ub) := by
  simp only [vdevUberblockSyncTree, mem_map, vdevUberblockSync] at member
  obtain ⟨w, member, rfl⟩ := member
  obtain ⟨leaf, inside, own⟩ := (mem_forLeaves _ _).mp member
  cases dead : leaf.vdevIsDead with
  | true => simp [dead] at own
  | false =>
    simp only [dead, Bool.false_eq_true, if_false, mem_map] at own
    obtain ⟨l, -, rfl⟩ := own
    exact ⟨leaf, inside, dead, l, rfl⟩

theorem groupError_none (good : groupError failed goodWrites noWrites = none) : goodWrites ≠ 0 := by
  rintro rfl
  cases failed <;> simp [groupError] at good

theorem vdevUberblockSyncTree_some (good : (vdevUberblockSyncTree spa ub txg uvd).error = none) :
    ∃ e, e ∈ (vdevUberblockSyncTree spa ub txg uvd).events := by
  have some := pos_of_ne_zero (groupError_none good)
  obtain ⟨w, member, -⟩ := countP_pos_iff.mp some
  exact ⟨w.2, mem_map_of_mem member⟩

theorem vdevSyncLabels_some (main : vd.vdevIslog = false) (good : (vdevSyncLabels spa vd l txg).error = none) :
    ∃ leaf ∈ vd.vdevTree.leaves, ∃ config, leaf.Labelled spa config := by
  simp only [vdevSyncLabels, main, Bool.false_eq_true, if_false] at good
  have some := pos_of_ne_zero (groupError_none good)
  obtain ⟨e, member, -⟩ := countP_pos_iff.mp some
  obtain ⟨leaf, inside, config, labelled, -⟩ := mem_vdevSyncLabel.mp member
  exact ⟨leaf, inside, config, labelled⟩

end Writes

/-! ## The newest uberblock -/

section Load

variable {disk disk' : Disk κ} {order : List Loc}

theorem vdevUberblockCompare_gt (newer : vdevUberblockCompare ub1 ub2 = .gt) : ub2.ubTxg ≤ ub1.ubTxg := by
  by_contra older
  have : compare ub1.ubTxg ub2.ubTxg = .lt := Nat.compare_eq_lt.mpr (by omega)
  simp [vdevUberblockCompare, this] at newer

theorem vdevUberblockCompare_le (notNewer : vdevUberblockCompare ub1 ub2 ≠ .gt) : ub1.ubTxg ≤ ub2.ubTxg := by
  by_contra older
  have : compare ub1.ubTxg ub2.ubTxg = .gt := Nat.compare_eq_gt.mpr (by omega)
  simp [vdevUberblockCompare, this] at notNewer

theorem vdevUberblockLoadDone_spec (best : Uberblock) (content : Content κ) :
    (vdevUberblockLoadDone best content = best ∨ content.readUberblock = some (vdevUberblockLoadDone best content)) ∧
      best.ubTxg ≤ (vdevUberblockLoadDone best content).ubTxg ∧
      ∀ ub, content.readUberblock = some ub → ub.ubTxg ≤ (vdevUberblockLoadDone best content).ubTxg := by
  unfold vdevUberblockLoadDone
  cases read : content.readUberblock with
  | none => simp
  | some ub =>
    simp only [Option.some.injEq, forall_eq']
    split
    · rename_i newer
      exact ⟨.inr rfl, vdevUberblockCompare_gt newer, le_refl _⟩
    · rename_i notNewer
      exact ⟨.inl rfl, le_refl _, vdevUberblockCompare_le notNewer⟩

theorem foldl_loadDone_spec (disk : Disk κ) (order : List Loc) (best : Uberblock) :
    let found := order.foldl (fun best loc => vdevUberblockLoadDone best (disk loc)) best
    (found = best ∨ ∃ loc ∈ order, (disk loc).readUberblock = some found) ∧ best.ubTxg ≤ found.ubTxg ∧
      ∀ loc ∈ order, ∀ ub, (disk loc).readUberblock = some ub → ub.ubTxg ≤ found.ubTxg := by
  induction order generalizing best with
  | nil => simp
  | cons loc rest ih =>
    obtain ⟨step, le, here⟩ := vdevUberblockLoadDone_spec best (disk loc)
    obtain ⟨found, le', there⟩ := ih (vdevUberblockLoadDone best (disk loc))
    refine ⟨?_, le.trans le', ?_⟩
    · rcases found with same | ⟨loc', member, read⟩
      · rcases step with old | read
        · exact .inl (same.trans old)
        · exact .inr ⟨loc, by simp, read.trans (congrArg some same.symm)⟩
      · exact .inr ⟨loc', by simp [member], read⟩
    · intro loc' member ub read
      rcases mem_cons.mp member with rfl | member
      · exact (here ub read).trans le'
      · exact there loc' member ub read

theorem load_same (same : ∀ loc ∈ order, disk' loc = disk loc) :
    vdevUberblockLoad disk' order = vdevUberblockLoad disk order := by
  refine foldl_ext _ _ _ ?_
  intro best loc member
  rw [same loc member]

theorem le_load (loc : Loc) (member : loc ∈ order)
    (read : (disk loc).readUberblock = some ub) : ub.ubTxg ≤ (vdevUberblockLoad disk order).ubTxg :=
  (foldl_loadDone_spec disk order _).2.2 loc member ub read

theorem load_new (verified : uberblockVerify new = some new)
    (older : (vdevUberblockLoad disk order).ubTxg < new.ubTxg)
    (places : ∀ loc ∈ order, disk' loc = disk loc ∨ disk' loc = .uberblock new) {loc}
    (member : loc ∈ order) (there : disk' loc = .uberblock new) : vdevUberblockLoad disk' order = new := by
  have read : (disk' loc).readUberblock = some new := by
    rw [there]
    exact verified
  have least := le_load loc member read
  rcases (foldl_loadDone_spec disk' order ⟨0, 0, 0, 0, 0, ⟨0, []⟩⟩).1 with zero | ⟨loc', member', read'⟩
  · rw [vdevUberblockLoad, zero] at least
    simp only at least
    omega
  · rcases places loc' member' with same | same
    · have := le_load loc' member' (same ▸ read')
      exact absurd (least.trans this) (not_le.mpr older)
    · rw [same] at read'
      exact Option.some.inj (read'.symm.trans verified)

end Load

/-! ## The phases -/

section Phases

variable {spa : Spa κ} {txg : ℕ} {uvd : Vdev} {done : List (IoEvent κ)}

def evenEvents (spa : Spa κ) (txg : ℕ) : List (IoEvent κ) :=
  spa.vdevTxgList.flatMap flushWriteCache ++ (syncLabels spa txg (dirtyLabels spa 0)).events

def flushDirty (spa : Spa κ) : List (IoEvent κ) :=
  spa.dirtyList.flatMap fun vd => flushWriteCache vd.vdevTree

def uberEvents (spa : Spa κ) (uvd : Vdev) (txg : ℕ) : List (IoEvent κ) :=
  (vdevUberblockSyncTree spa (syncUberblock spa txg) txg uvd).events

def oddEvents (spa : Spa κ) (txg : ℕ) : List (IoEvent κ) :=
  (syncLabels spa txg (dirtyLabels spa 1)).events

inductive Phase (spa : Spa κ) (uvd : Vdev) (txg : ℕ) (done : List (IoEvent κ)) : Prop
  | even (inside : ∀ e ∈ done, e ∈ evenEvents spa txg ++ flushDirty spa)
  | uber (good : (syncLabels spa txg (dirtyLabels spa 0)).error = none) (rest : List (IoEvent κ))
      (eq : done = evenEvents spa txg ++ flushDirty spa ++ rest)
      (inside : ∀ e ∈ rest, e ∈ uberEvents spa uvd txg ++ flushWriteCache uvd)
  | odd (good : (syncLabels spa txg (dirtyLabels spa 0)).error = none)
      (written : (vdevUberblockSyncTree spa (syncUberblock spa txg) txg uvd).error = none)
      (rest : List (IoEvent κ))
      (eq : done = evenEvents spa txg ++ flushDirty spa ++
        (uberEvents spa uvd txg ++ flushWriteCache uvd ++ rest))
      (inside : ∀ e ∈ rest, e ∈ oddEvents spa txg ++ flushDirty spa)

theorem phase_of_cut (cut : done <+: (configSyncScript spa uvd txg).events) : Phase spa uvd txg done := by
  rcases cut_andThen cut with first | ⟨-, rest, rfl, afterFlush⟩
  · exact .even fun e member => by simp [evenEvents, first.subset member]
  rcases cut_andThen afterFlush with even | ⟨good, rest, rfl, afterEven⟩
  · refine .even fun e member => ?_
    rcases List.mem_append.mp member with member | member
    · simp only [evenEvents, mem_append]
      exact .inl (.inl member)
    · simp [evenEvents, even.subset member]
  rcases cut_andThen afterEven with flush | ⟨-, rest, rfl, afterDirty⟩
  · refine .even fun e member => ?_
    simp only [mem_append] at member ⊢
    rcases member with member | member | member
    · exact .inl (mem_append_left _ member)
    · exact .inl (mem_append_right _ member)
    · exact .inr (flush.subset member)
  rcases cut_andThen afterDirty with uber | ⟨written, rest, rfl, afterUber⟩
  · refine .uber good rest (by simp [evenEvents, flushDirty]) fun e member => ?_
    exact mem_append_left _ (uber.subset member)
  rcases cut_andThen afterUber with flush | ⟨-, rest, rfl, afterAll⟩
  · refine .uber good (uberEvents spa uvd txg ++ rest)
      (by simp [evenEvents, flushDirty, uberEvents]) fun e member => ?_
    rcases List.mem_append.mp member with member | member
    · exact mem_append_left _ member
    · exact mem_append_right _ (flush.subset member)
  · refine .odd good written rest (by simp [evenEvents, flushDirty, uberEvents]) fun e member => ?_
    rcases mem_andThen (afterAll.subset member) with odd | flush
    · exact mem_append_left _ odd
    · exact mem_append_right _ flush

/-! ## What each phase writes -/

variable {loc : Loc}

theorem write_not_mem_flushWriteCache : .write loc content ∉ flushWriteCache vd := by
  simp [mem_flushWriteCache]

theorem write_not_mem_flushDirty : .write loc content ∉ flushDirty spa := by
  simp [flushDirty, write_not_mem_flushWriteCache]

theorem write_mem_syncLabels (member : .write loc content ∈ (syncLabels spa txg (dirtyLabels spa parity)).events) :
    ∃ guid l config, loc = .phys guid l ∧ l.val % 2 = parity ∧
      spa.configGenerate guid = some config ∧ content = .label txg config := by
  obtain ⟨label, inside, write⟩ := mem_syncLabels member
  obtain ⟨leaf, -, config, labelled, same⟩ := mem_vdevSyncLabel.mp write
  injection same with loc content
  exact ⟨_, _, config, loc, (mem_dirtyLabels.mp inside).2, labelled.2, content⟩

theorem write_mem_evenEvents (member : .write loc content ∈ evenEvents spa txg) :
    ∃ guid l config, loc = .phys guid l ∧ l.val % 2 = 0 ∧
      spa.configGenerate guid = some config ∧ content = .label txg config := by
  rcases mem_append.mp member with flush | label
  · simp [write_not_mem_flushWriteCache] at flush
  · exact write_mem_syncLabels label

theorem write_mem_uberEvents (member : .write loc content ∈ uberEvents spa uvd txg) :
    (∃ guid l n, loc = .uber guid l n) ∧ content = .uberblock (syncUberblock spa txg) := by
  obtain ⟨leaf, -, -, l, same⟩ := mem_vdevUberblockSyncTree member
  injection same with loc content
  exact ⟨⟨_, _, _, loc⟩, content⟩

variable {disk disk' : Disk κ}

/-- Without an error in the even labels, those of a labelled leaf are on disk once the flush that
    follows is over. -/
theorem even_label_durable (good : (syncLabels spa txg (dirtyLabels spa 0)).error = none)
    (dirty : vd ∈ spa.dirtyList) (inside : leaf ∈ vd.vdevTree.leaves) {config}
    (labelled : leaf.Labelled spa config) (even : l.val % 2 = 0) (kept : ∀ x, .write (.phys leaf.vdevGuid l) x ∉ rest)
    (survived : disk' (.phys leaf.vdevGuid l) ∈ survivors Loc.guid disk
      (evenEvents spa txg ++ flushDirty spa ++ rest) (.phys leaf.vdevGuid l)) :
    disk' (.phys leaf.vdevGuid l) = .label txg config := by
  have written := (syncLabels_complete good (mem_dirtyLabels.mpr ⟨dirty, even⟩)).1 _
    (mem_vdevSyncLabel.mpr ⟨leaf, inside, config, labelled, rfl⟩)
  refine eq_of_flushed (mem_append_right _ written) ?_ ?_ ?_ survived
  · intro x member
    obtain ⟨guid, l', config', same, -, label, rfl⟩ := write_mem_evenEvents member
    injection same with same
    rw [← same, labelled.2, Option.some.injEq] at label
    rw [label]
  · exact mem_flatMap.mpr ⟨vd, dirty, mem_flushWriteCache.mpr ⟨leaf, inside, rfl⟩⟩
  · intro x member
    rcases mem_append.mp member with flush | late
    · exact write_not_mem_flushDirty flush
    · exact kept x late

theorem uberblock_durable (good : (vdevUberblockSyncTree spa (syncUberblock spa txg) txg uvd).error = none)
    (earlier : ∀ e ∈ before, e ∈ evenEvents spa txg ++ flushDirty spa)
    (later : ∀ e ∈ rest, e ∈ oddEvents spa txg ++ flushDirty spa)
    (survived : ∀ loc, disk' loc ∈ survivors Loc.guid disk
      (before ++ (uberEvents spa uvd txg ++ flushWriteCache uvd ++ rest)) loc) :
    ∃ leaf ∈ uvd.leaves, leaf.vdevIsDead = false ∧ ∃ l,
      disk' (.uber leaf.vdevGuid l (txg &&& (vdevUberblockCount leaf - 1))) = .uberblock (syncUberblock spa txg) := by
  obtain ⟨e, written⟩ := vdevUberblockSyncTree_some good
  obtain ⟨leaf, inside, alive, l, rfl⟩ := mem_vdevUberblockSyncTree written
  refine ⟨leaf, inside, alive, l, ?_⟩
  have here := survived (.uber leaf.vdevGuid l (txg &&& (vdevUberblockCount leaf - 1)))
  rw [← append_assoc, ← append_assoc] at here
  refine eq_of_flushed (mem_append_right _ written) ?_
    (mem_flushWriteCache.mpr ⟨leaf, inside, rfl⟩) ?_ here
  · intro x member
    rcases mem_append.mp member with early | uber
    · rcases mem_append.mp (earlier _ early) with label | flush
      · obtain ⟨_, _, _, same, _⟩ := write_mem_evenEvents label
        simp at same
      · exact absurd flush write_not_mem_flushDirty
    · exact (write_mem_uberEvents uber).2
  · intro x member
    rcases mem_append.mp member with flush | late
    · exact write_not_mem_flushWriteCache flush
    · rcases mem_append.mp (later _ late) with label | flush
      · obtain ⟨_, _, _, same, _⟩ := write_mem_syncLabels label
        simp at same
      · exact write_not_mem_flushDirty flush

theorem Phase.write_mem (phase : Phase spa uvd txg done)
    (member : .write loc content ∈ done) : .write loc content ∈ evenEvents spa txg ∨
      .write loc content ∈ uberEvents spa uvd txg ∨ .write loc content ∈ oddEvents spa txg := by
  cases phase with
  | even inside =>
    exact .inl ((List.mem_append.mp (inside _ member)).resolve_right write_not_mem_flushDirty)
  | uber _ rest eq inside =>
    subst eq
    simp only [mem_append, write_not_mem_flushDirty, or_false] at member
    refine member.imp_right fun late => .inl ?_
    exact (List.mem_append.mp (inside _ late)).resolve_right write_not_mem_flushWriteCache
  | odd _ _ rest eq inside =>
    subst eq
    simp only [mem_append, write_not_mem_flushDirty, write_not_mem_flushWriteCache, or_false] at member
    refine member.imp_right fun late => late.imp_right fun last => ?_
    exact (List.mem_append.mp (inside _ last)).resolve_right write_not_mem_flushDirty

end Phases

/-! ## Crashes -/

section Crash

variable {spa : Spa κ} {txg : ℕ} {uvd : Vdev} {disk disk' : Disk κ} {order : List Loc}
  {config : ℕ → Option κ}

/-- The labels of one parity on a leaf are intact, not newer than the uberblock, and describe the
    configuration. -/
def LabelSet (disk : Disk κ) (leaf : Leaf) (parity : Fin 2) (ub : Uberblock) (config : ℕ → Option κ) :
    Prop :=
  ∀ l : Fin vdevLabels, l.val % 2 = parity.val → ∃ txg c, disk (.phys leaf.vdevGuid l) = .label txg c ∧
    txg ≤ ub.ubTxg ∧ config leaf.vdevGuid = some c

/-- What is assumed of the disks before `vdev_config_sync`: `config` is the configuration that the
    last durable uberblock belongs to, and `order` the order in which the uberblocks will be read. -/
structure Before (spa : Spa κ) (uvd : Vdev) (txg : ℕ) (disk : Disk κ) (order : List Loc)
    (config : ℕ → Option κ) : Prop where
  reads : order.Perm (uberblockLocs spa.rvd)
  within : ∀ leaf ∈ uvd.leaves, leaf ∈ spa.rvd.leaves
  succeed : ∀ e, spa.io e = true
  older : (vdevUberblockLoad disk order).ubTxg < txg
  /-- `spa_uberblock` is that of a txg up to this one, and was updated if it is that of this one. -/
  current : spa.spaUberblock.ubTxg < txg ∨
    spa.spaUberblock.ubTxg = txg ∧ spa.spaUberblock.ubMagic = uberblockMagic
  labels : ∀ vd ∈ spa.dirtyList, ∀ leaf ∈ vd.vdevTree.leaves, ∀ parity,
    LabelSet disk leaf parity (vdevUberblockLoad disk order) config

theorem Before.txg_eq (before : Before spa uvd txg disk order config) : (syncUberblock spa txg).ubTxg = txg := by
  unfold syncUberblock
  rcases before.current with older | ⟨same, -⟩
  · rw [if_pos older]
    rfl
  · rw [if_neg (by omega), same]

theorem Before.verified (before : Before spa uvd txg disk order config) :
    uberblockVerify (syncUberblock spa txg) = some (syncUberblock spa txg) := by
  have magic : (syncUberblock spa txg).ubMagic = uberblockMagic := by
    unfold syncUberblock
    rcases before.current with older | ⟨same, magic⟩
    · rw [if_pos older]
      rfl
    · rw [if_neg (by omega), magic]
  have native : uberblockMagic ≠ bswap64 uberblockMagic := by decide
  simp [uberblockVerify, magic, native]

theorem vdevUberblockCount_eq (leaf) :
    vdevUberblockCount leaf = 2 ^ (17 - max leaf.vdevTopAshift uberblockShift) := by
  rw [vdevUberblockCount, Nat.shiftRight_eq_div_pow, show 128 <<< 10 = 2 ^ 17 from rfl,
    Nat.pow_div (max_le leaf.ashift_le (by decide)) (by decide)]

theorem slot_mem_uberblockLocs (inside : leaf ∈ vd.leaves)
    (alive : leaf.vdevIsDead = false) (l : Fin vdevLabels) (txg) :
    .uber leaf.vdevGuid l (txg &&& (vdevUberblockCount leaf - 1)) ∈ uberblockLocs vd := by
  rw [uberblockLocs, mem_forLeaves]
  refine ⟨leaf, inside, ?_⟩
  have slot : txg &&& (vdevUberblockCount leaf - 1) < vdevUberblockCount leaf := by
    rw [vdevUberblockCount_eq, Nat.and_two_pow_sub_one_eq_mod]
    exact Nat.mod_lt _ (Nat.two_pow_pos _)
  simp [alive, slot]

theorem phase_of_crash (crash : Crash Loc.guid disk (vdevConfigSync spa uvd txg).events disk') :
    ∃ done, Phase spa uvd txg done ∧ ∀ loc, disk' loc ∈ survivors Loc.guid disk done loc := by
  obtain ⟨done, cut, survived⟩ := crash
  refine ⟨done, ?_, survived⟩
  unfold vdevConfigSync at cut
  split at cut
  · exact .even (by simp [prefix_nil.mp cut])
  · split at cut
    · exact .even (by simp [prefix_nil.mp cut])
    · exact phase_of_cut cut

theorem Before.order_uber (before : Before spa uvd txg disk order config) {loc}
    (member : loc ∈ order) : ∃ guid l n, loc = .uber guid l n := by
  obtain ⟨leaf, -, read⟩ := (mem_forLeaves _ _).mp (before.reads.subset member)
  split at read
  · simp at read
  · simp only [mem_flatMap, mem_map] at read
    obtain ⟨l, -, n, -, rfl⟩ := read
    exact ⟨_, _, _, rfl⟩

section

variable {done : List (IoEvent κ)} (phase : Phase spa uvd txg done)
  (survived : ∀ loc, disk' loc ∈ survivors Loc.guid disk done loc)

include phase survived

theorem Phase.place (before : Before spa uvd txg disk order config) (loc : Loc)
    (member : loc ∈ order) : disk' loc = disk loc ∨
      disk' loc = .uberblock (syncUberblock spa txg) ∧ .write loc (disk' loc) ∈ done := by
  obtain ⟨guid, l, n, rfl⟩ := before.order_uber member
  rcases mem_survivors (survived _) with same | written
  · exact .inl same
  · refine .inr ⟨?_, written⟩
    rcases phase.write_mem written with even | uber | odd
    · obtain ⟨_, _, _, same, _⟩ := write_mem_evenEvents even
      simp at same
    · exact (write_mem_uberEvents uber).2
    · obtain ⟨_, _, _, same, _⟩ := write_mem_syncLabels odd
      simp at same

/-- Once an uberblock has been written, the even labels are on disk. -/
theorem Phase.even_labels {guid n l content}
    (started : .write (.uber guid l n) content ∈ done) (dirty : vd ∈ spa.dirtyList) :
    (syncLabels spa txg (dirtyLabels spa 0)).error = none ∧
      ∀ leaf ∈ vd.vdevTree.leaves, ∀ c, leaf.Labelled spa c → ∀ l : Fin vdevLabels, l.val % 2 = 0 →
        disk' (.phys leaf.vdevGuid l) = .label txg c := by
  cases phase with
  | even inside =>
    rcases List.mem_append.mp (inside _ started) with even | flush
    · obtain ⟨_, _, _, same, _⟩ := write_mem_evenEvents even
      simp at same
    · exact absurd flush write_not_mem_flushDirty
  | uber good rest eq inside =>
    subst eq
    refine ⟨good, fun leaf member c labelled l even =>
      even_label_durable good dirty member labelled even (fun x late => ?_) (survived _)⟩
    rcases List.mem_append.mp (inside _ late) with uber | flush
    · obtain ⟨⟨_, _, _, same⟩, -⟩ := write_mem_uberEvents uber
      simp at same
    · exact write_not_mem_flushWriteCache flush
  | odd good _ rest eq inside =>
    subst eq
    refine ⟨good, fun leaf member c labelled l even =>
      even_label_durable good dirty member labelled even (fun x late => ?_) (survived _)⟩
    simp only [mem_append, write_not_mem_flushWriteCache, or_false] at late
    rcases late with uber | late
    · obtain ⟨⟨_, _, _, same⟩, -⟩ := write_mem_uberEvents uber
      simp at same
    · rcases List.mem_append.mp (inside _ late) with odd | flush
      · obtain ⟨_, _, _, same, isOdd, _⟩ := write_mem_syncLabels odd
        injection same with _ same
        omega
      · exact write_not_mem_flushDirty flush

/-- As long as no new uberblock is found, the odd labels have not been touched. -/
theorem Phase.odd_labels (before : Before spa uvd txg disk order config)
    (absent : ∀ loc ∈ order, disk' loc ≠ .uberblock (syncUberblock spa txg)) (guid)
    (odd : l.val % 2 = 1) : disk' (.phys guid l) = disk (.phys guid l) := by
  refine (mem_survivors (survived _)).resolve_right fun written => ?_
  have notEven : ∀ content : Content κ, .write (.phys guid l) content ∉ evenEvents spa txg := by
    intro content even
    obtain ⟨_, _, _, same, isEven, _⟩ := write_mem_evenEvents even
    injection same with _ same
    omega
  cases phase with
  | even inside =>
    rcases List.mem_append.mp (inside _ written) with even | flush
    · exact notEven _ even
    · exact write_not_mem_flushDirty flush
  | uber _ rest eq inside =>
    subst eq
    simp only [mem_append, notEven, write_not_mem_flushDirty, false_or] at written
    rcases List.mem_append.mp (inside _ written) with uber | flush
    · obtain ⟨⟨_, _, _, same⟩, -⟩ := write_mem_uberEvents uber
      simp at same
    · exact write_not_mem_flushWriteCache flush
  | odd _ good rest eq inside =>
    subst eq
    obtain ⟨leaf, member, alive, l, there⟩ :=
      uberblock_durable good (fun _ member => member) inside survived
    exact absent _ (before.reads.mem_iff.mpr
      (slot_mem_uberblockLocs (before.within leaf member) alive l txg)) there

end

/-- A crash at any point of `vdev_config_sync` leaves the previous uberblock or the new one to be
    found, and on every dirty vdev that can get labels, or has to, a set of labels for that one. -/
theorem config_sync_crash (before : Before spa uvd txg disk order config)
    (crash : Crash Loc.guid disk (vdevConfigSync spa uvd txg).events disk') :
    let selected := vdevUberblockLoad disk' order
    (selected = vdevUberblockLoad disk order ∨ selected = syncUberblock spa txg) ∧
      ∀ vd ∈ spa.dirtyList, vd.vdevTree.leaves ≠ [] →
        (vd.vdevIslog = false ∨ ∃ leaf ∈ vd.vdevTree.leaves, ∃ c, leaf.Labelled spa c) →
        ∃ parity : Fin 2, ∃ leaf ∈ vd.vdevTree.leaves, LabelSet disk' leaf parity selected
          (if selected = syncUberblock spa txg then spa.configGenerate else config) := by
  obtain ⟨done, phase, survived⟩ := phase_of_crash crash
  have txg_eq := before.txg_eq
  have older := before.older
  have place := phase.place survived before
  by_cases found : ∃ loc ∈ order, disk' loc = .uberblock (syncUberblock spa txg)
  · obtain ⟨loc, member, there⟩ := found
    have new := load_new before.verified (txg_eq.symm ▸ older)
      (fun loc member => (place loc member).imp_right And.left) member there
    have started : .write loc (disk' loc) ∈ done := by
      refine ((place loc member).resolve_left fun same => ?_).2
      have read : (disk loc).readUberblock = some (syncUberblock spa txg) := by
        rw [← same, there]
        exact before.verified
      have := le_load loc member read
      omega
    obtain ⟨guid, l, n, rfl⟩ := before.order_uber member
    refine ⟨.inr new, fun vd dirty _ able => ?_⟩
    obtain ⟨good, labels⟩ := phase.even_labels survived started dirty
    have labelled : ∃ leaf ∈ vd.vdevTree.leaves, ∃ c, leaf.Labelled spa c := by
      rcases able with main | labelled
      · have inside : (vd, (0 : Fin vdevLabels)) ∈ dirtyLabels spa 0 :=
          mem_dirtyLabels.mpr ⟨dirty, rfl⟩
        exact vdevSyncLabels_some main (syncLabels_complete good inside).2
      · exact labelled
    obtain ⟨leaf, inside, c, labelled⟩ := labelled
    rw [if_pos new]
    exact ⟨0, leaf, inside, fun l even =>
      ⟨txg, c, labels leaf inside c labelled l even, by rw [new, txg_eq], labelled.2⟩⟩
  · have absent : ∀ loc ∈ order, disk' loc ≠ .uberblock (syncUberblock spa txg) :=
      fun loc member there => found ⟨loc, member, there⟩
    have previous : vdevUberblockLoad disk' order = vdevUberblockLoad disk order :=
      load_same fun loc member =>
        (place loc member).resolve_right fun new => absent loc member new.1
    have different : vdevUberblockLoad disk order ≠ syncUberblock spa txg := by
      intro same
      rw [same] at older
      omega
    refine ⟨.inl previous, fun vd dirty nonempty _ => ?_⟩
    obtain ⟨leaf, inside⟩ := exists_mem_of_ne_nil _ nonempty
    rw [previous, if_neg different]
    refine ⟨1, leaf, inside, fun l odd => ?_⟩
    rw [phase.odd_labels survived before absent leaf.vdevGuid odd]
    exact before.labels vd dirty leaf inside 1 l odd

end Crash

/-! ## A log that is gone -/

def logSpa (logIsDead : Bool) : Spa ℕ where
  rootVdev := [⟨.leaf ⟨1, false, 17, 1, by decide⟩, false⟩, ⟨.leaf ⟨2, logIsDead, 17, 1, by decide⟩, true⟩]
  dirtyList := [⟨.leaf ⟨1, false, 17, 1, by decide⟩, false⟩, ⟨.leaf ⟨2, logIsDead, 17, 1, by decide⟩, true⟩]
  vdevTxgList := []
  spaUberblock := ⟨uberblockMagic, 1, 4, 3, 0, ⟨4, []⟩⟩
  guidSum := 3
  freezeTxg := 100
  now := 1
  configGenerate _ := some 1
  io _ := true

def logDisk : Disk ℕ
  | .phys _ _ => .label 4 0
  | .uber _ _ _ => .uberblock ⟨uberblockMagic, 1, 4, 3, 0, ⟨4, []⟩⟩

theorem logSpa_before (logIsDead : Bool) : Before (logSpa logIsDead) (logSpa logIsDead).rvd 5 logDisk
    (uberblockLocs (logSpa logIsDead).rvd) fun _ => some 0 where
  reads := .refl _
  within _ member := member
  succeed _ := rfl
  older := by cases logIsDead <;> decide
  current := .inl (by cases logIsDead <;> decide)
  labels vd _ leaf _ parity l _ := ⟨4, 0, rfl, by cases logIsDead <;> decide, rfl⟩

/-- The disks when `vdev_config_sync` has run to its end. -/
def logDisk' (logIsDead : Bool) : Disk ℕ :=
  latest Loc.guid logDisk (vdevConfigSync (logSpa logIsDead) (logSpa logIsDead).rvd 5).events

/-- When all leaves of a log are dead, the new uberblock is written all the same, and the log has no
    label for it. -/
theorem config_sync_crash_dead_log :
    Before (logSpa true) (logSpa true).rvd 5 logDisk (uberblockLocs (logSpa true).rvd)
        (fun _ => some 0) ∧
      Crash Loc.guid logDisk (vdevConfigSync (logSpa true) (logSpa true).rvd 5).events
        (logDisk' true) ∧
      vdevUberblockLoad (logDisk' true) (uberblockLocs (logSpa true).rvd) =
        syncUberblock (logSpa true) 5 ∧
      ∃ vd ∈ (logSpa true).dirtyList, vd.vdevTree.leaves ≠ [] ∧
        ¬ ∃ parity : Fin 2, ∃ leaf ∈ vd.vdevTree.leaves, LabelSet (logDisk' true) leaf parity
          (syncUberblock (logSpa true) 5) (logSpa true).configGenerate := by
  refine ⟨logSpa_before true, crash_latest _ _, by decide +kernel, _,
    mem_cons_of_mem _ mem_cons_self, by simp [Vdev.leaves, Vdev.forLeaves], ?_⟩
  rintro ⟨parity, leaf, member, labels⟩
  simp only [Vdev.leaves, Vdev.forLeaves, mem_singleton] at member
  subst member
  obtain ⟨txg, c, label, -, config⟩ := labels
    ⟨parity.val, parity.isLt.trans (by decide)⟩ (Nat.mod_eq_of_lt parity.isLt)
  injection label with _ old
  simp [logSpa, ← old] at config

theorem config_sync_crash_live_log :
    let spa := logSpa false
    let selected := vdevUberblockLoad (logDisk' false) (uberblockLocs spa.rvd)
    (selected = vdevUberblockLoad logDisk (uberblockLocs spa.rvd) ∨ selected = syncUberblock spa 5) ∧
      ∀ vd ∈ spa.dirtyList, vd.vdevTree.leaves ≠ [] →
        (vd.vdevIslog = false ∨ ∃ leaf ∈ vd.vdevTree.leaves, ∃ c, leaf.Labelled spa c) →
        ∃ parity : Fin 2, ∃ leaf ∈ vd.vdevTree.leaves,
          LabelSet (logDisk' false) leaf parity selected
            (if selected = syncUberblock spa 5 then spa.configGenerate else fun _ => some 0) :=
  config_sync_crash (logSpa_before false) (crash_latest _ _)

end MacZfs.Label
