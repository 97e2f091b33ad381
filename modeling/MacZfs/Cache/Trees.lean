import MacZfs.Cache.Basic

/-!
# The trees of the cache

Both trees hold the same entries, the offset tree in the order of the lines and no line twice.
Hits and evictions change nothing in an entry that matters to a read.
-/

namespace MacZfs.Cache

open List Alignment

variable {t : Tunables} {vc vc' : VdevCache} {id : ℕ}

structure VdevCache.Wf (t : Tunables) (vc : VdevCache) : Prop where
  fresh : ∀ id ∈ vc.vcOffsetTree, id < vc.next
  sorted : vc.vcOffsetTree.Pairwise fun i j => (vc.ve i).veOffset < (vc.ve j).veOffset
  same : vc.vcLastusedTree.Perm vc.vcOffsetTree
  aligned : ∀ id ∈ vc.vcOffsetTree, vcbs t ∣ (vc.ve id).veOffset

theorem vcbs_pos (t) : 0 < vcbs t := Nat.two_pow_pos _

theorem VdevCache.Wf.nodup (wf : vc.Wf t) : vc.vcOffsetTree.Nodup :=
  wf.sorted.imp fun {i j} less same => by simp [same] at less

structure Like (ve ve' : CacheEntry) : Prop where
  data : ve'.veData = ve.veData
  offset : ve'.veOffset = ve.veOffset
  missed : ve'.veMissedUpdate = ve.veMissedUpdate
  fill : ve'.veFillIo = ve.veFillIo

theorem Like.rfl {ve} : Like ve ve := ⟨Eq.refl _, Eq.refl _, Eq.refl _, Eq.refl _⟩

theorem Like.trans {ve₁ ve₂ ve₃} (first : Like ve₁ ve₂) (second : Like ve₂ ve₃) : Like ve₁ ve₃ :=
  ⟨second.data.trans first.data, second.offset.trans first.offset, second.missed.trans first.missed,
    second.fill.trans first.fill⟩

def Fewer (vc vc' : VdevCache) : Prop :=
  ∀ id ∈ vc'.vcOffsetTree, id ∈ vc.vcOffsetTree ∧ Like (vc.ve id) (vc'.ve id)

theorem Fewer.rfl : Fewer vc vc := fun _ member => ⟨member, .rfl⟩

theorem Fewer.trans {vc₁ vc₂ vc₃} (first : Fewer vc₁ vc₂) (second : Fewer vc₂ vc₃) : Fewer vc₁ vc₃ :=
  fun id member =>
    have ⟨member₂, like₂⟩ := second id member
    have ⟨member₁, like₁⟩ := first id member₂
    ⟨member₁, like₁.trans like₂⟩

/-! ## Single changes -/

theorem modify_ve (f : CacheEntry → CacheEntry) (i : ℕ) :
    (vc.modify id f).ve i = if i = id then f (vc.ve id) else vc.ve i :=
  Function.update_apply _ _ _ _

variable {f}

theorem VdevCache.Wf.modify (wf : vc.Wf t)
    (sameOffset : (f (vc.ve id)).veOffset = (vc.ve id).veOffset) : (vc.modify id f).Wf t := by
  have offsets : ∀ i, ((vc.modify id f).ve i).veOffset = (vc.ve i).veOffset := by
    intro i
    rw [modify_ve]
    split
    · rename_i this
      rw [this, sameOffset]
    · rfl
  refine ⟨wf.fresh, ?_, wf.same, fun i member => ?_⟩
  · refine wf.sorted.imp fun {i j} less => ?_
    rwa [offsets, offsets]
  · rw [offsets]
    exact wf.aligned i member

theorem fewer_modify (like : Like (vc.ve id) (f (vc.ve id))) : Fewer vc (vc.modify id f) := by
  intro i member
  refine ⟨member, ?_⟩
  rw [modify_ve]
  split
  · rename_i this
    rwa [this]
  · exact .rfl

theorem vdevCacheEvict_wf (wf : vc.Wf t) (id) : (vdevCacheEvict vc id).Wf t where
  fresh i member := wf.fresh i (mem_of_mem_erase member)
  sorted := wf.sorted.sublist erase_sublist
  same := wf.same.erase id
  aligned i member := wf.aligned i (mem_of_mem_erase member)

theorem vdevCacheEvict_fewer (vc) (id) : Fewer vc (vdevCacheEvict vc id) :=
  fun _ member => ⟨mem_of_mem_erase member, .rfl⟩

/-! ## Hits -/

theorem relink_wf (wf : vc.Wf t) (member : id ∈ vc.vcOffsetTree)
    (sameOffset : (f (vc.ve id)).veOffset = (vc.ve id).veOffset) :
    (({ vc with vcLastusedTree := vc.vcLastusedTree.erase id }.modify id f).addLastused id).Wf t := by
  obtain ⟨fresh, sorted, -, aligned⟩ := wf.modify sameOffset
  refine ⟨fresh, sorted, ?_, aligned⟩
  exact (perm_orderedInsert _ _ _).trans
    ((perm_cons_erase (wf.same.mem_iff.mpr member)).symm.trans wf.same)

theorem vdevCacheHit_wf (wf : vc.Wf t) (member : id ∈ vc.vcOffsetTree) (lbolt) :
    (vdevCacheHit vc id lbolt).Wf t := by
  unfold vdevCacheHit
  split
  · refine VdevCache.Wf.modify ?_ rfl
    exact relink_wf wf member rfl
  · exact wf.modify rfl

theorem vdevCacheHit_tree (vc) (id lbolt) : (vdevCacheHit vc id lbolt).vcOffsetTree = vc.vcOffsetTree := by
  unfold vdevCacheHit
  split <;> rfl

theorem vdevCacheHit_fewer (vc) (id lbolt) : Fewer vc (vdevCacheHit vc id lbolt) := by
  unfold vdevCacheHit
  split
  · have relinked : Fewer vc (vc.modify id fun ve => { ve with veLastused := lbolt }) :=
      fewer_modify ⟨rfl, rfl, rfl, rfl⟩
    exact @Fewer.trans vc (({ vc with vcLastusedTree := vc.vcLastusedTree.erase id }.modify id
      fun ve => { ve with veLastused := lbolt }).addLastused id) _ relinked (fewer_modify ⟨rfl, rfl, rfl, rfl⟩)
  · exact fewer_modify ⟨rfl, rfl, rfl, rfl⟩

theorem foldl_hit (reads : List ReadZio) (lbolt) (wf : vc.Wf t) (member : id ∈ vc.vcOffsetTree) :
    let vc' := reads.foldl (fun vc _ => vdevCacheHit vc id lbolt) vc
    vc'.Wf t ∧ Fewer vc vc' ∧ vc'.vcOffsetTree = vc.vcOffsetTree := by
  induction reads generalizing vc with
  | nil => exact ⟨wf, .rfl, rfl⟩
  | cons dio reads ih =>
    have tree := vdevCacheHit_tree vc id lbolt
    obtain ⟨wf', fewer, tree'⟩ := ih (vdevCacheHit_wf wf member lbolt) (tree ▸ member)
    exact ⟨wf', (vdevCacheHit_fewer vc id lbolt).trans fewer, tree'.trans tree⟩

/-! ## New entries -/

theorem find_some (found : vc.find offset = some id) : id ∈ vc.vcOffsetTree ∧ (vc.ve id).veOffset = offset :=
  ⟨mem_of_find?_eq_some found, by simpa using find?_some found⟩

theorem find_none (missing : vc.find offset = none) : ∀ id ∈ vc.vcOffsetTree, (vc.ve id).veOffset ≠ offset :=
  fun id member => by simpa using find?_eq_none.mp missing id member

theorem makeRoom_spec (wf : vc.Wf t) (room : makeRoom t vc = some vc') : vc'.Wf t ∧ Fewer vc vc' := by
  unfold makeRoom at room
  split at room
  · split at room
    · cases room
      exact ⟨wf, .rfl⟩
    · split at room
      · cases room
      · cases room
        exact ⟨vdevCacheEvict_wf wf _, vdevCacheEvict_fewer vc _⟩
  · cases room
    exact ⟨wf, .rfl⟩

theorem addEntry_spec {offset lbolt buffer fio} (wf : vc.Wf t)
    (isLine : vcbs t ∣ offset) (absent : ∀ id ∈ vc.vcOffsetTree, (vc.ve id).veOffset ≠ offset) :
    (addEntry vc offset lbolt buffer fio).Wf t ∧ ∀ id ∈ (addEntry vc offset lbolt buffer fio).vcOffsetTree,
        (id ∈ vc.vcOffsetTree ∧ (addEntry vc offset lbolt buffer fio).ve id = vc.ve id) ∨
        (addEntry vc offset lbolt buffer fio).ve id = ⟨buffer, offset, lbolt, 0, false, some fio⟩ := by
  have notNext : ∀ id ∈ vc.vcOffsetTree, id ≠ vc.next := fun id member => (wf.fresh id member).ne
  have kept : ∀ id ∈ vc.vcOffsetTree, (addEntry vc offset lbolt buffer fio).ve id = vc.ve id :=
    fun id member => Function.update_of_ne (notNext id member) _ _
  have new : (addEntry vc offset lbolt buffer fio).ve vc.next = ⟨buffer, offset, lbolt, 0, false, some fio⟩ :=
    Function.update_self _ _ _
  have perm : (addEntry vc offset lbolt buffer fio).vcOffsetTree.Perm (vc.next :: vc.vcOffsetTree) :=
    perm_orderedInsert _ _ _
  have members : ∀ id ∈ (addEntry vc offset lbolt buffer fio).vcOffsetTree, id = vc.next ∨ id ∈ vc.vcOffsetTree :=
    fun id member => mem_cons.mp (perm.mem_iff.mp member)
  constructor
  · refine ⟨fun id member => ?_, ?_, ?_, fun id member => ?_⟩
    · rcases members id member with rfl | before
      · exact Nat.lt_succ_self _
      · exact (wf.fresh id before).trans (Nat.lt_succ_self _)
    · -- the order is kept by the insertion, and no other entry has the offset
      have sorted : (addEntry vc offset lbolt buffer fio).vcOffsetTree.Pairwise fun i j =>
          ((addEntry vc offset lbolt buffer fio).ve i).veOffset ≤ ((addEntry vc offset lbolt buffer fio).ve j).veOffset := by
        refine Pairwise.orderedInsert
          (r := fun i j => ((addEntry vc offset lbolt buffer fio).ve i).veOffset ≤
            ((addEntry vc offset lbolt buffer fio).ve j).veOffset) _ _ ?_
        refine wf.sorted.imp_of_mem fun {i j} inI inJ less => ?_
        rw [kept i inI, kept j inJ]
        exact less.le
      have distinct : (addEntry vc offset lbolt buffer fio).vcOffsetTree.Pairwise fun i j =>
          ((addEntry vc offset lbolt buffer fio).ve i).veOffset ≠ ((addEntry vc offset lbolt buffer fio).ve j).veOffset := by
        refine perm.symm.pairwise (pairwise_cons.mpr ⟨fun id member => ?_, ?_⟩) fun different => different.symm
        · rw [new, kept id member]
          exact (absent id member).symm
        · refine wf.sorted.imp_of_mem fun {i j} inI inJ less => ?_
          rw [kept i inI, kept j inJ]
          exact less.ne
      exact (sorted.and distinct).imp fun both => lt_of_le_of_ne both.1 both.2
    · exact (perm_orderedInsert _ _ _).trans ((wf.same.cons _).trans perm.symm)
    · rcases members id member with rfl | before
      · rwa [new]
      · rw [kept id before]
        exact wf.aligned id before
  · intro id member
    rcases members id member with rfl | before
    · exact .inr new
    · exact .inl ⟨before, kept id before⟩

/-! ## Writes -/

theorem foldl_modify (sameOffset : ∀ ve, (f ve).veOffset = ve.veOffset) {ids : List ℕ}
    (nodup : ids.Nodup) (wf : vc.Wf t) :
    let vc' := ids.foldl (fun vc id => vc.modify id f) vc
    vc'.Wf t ∧ vc'.vcOffsetTree = vc.vcOffsetTree ∧ ∀ i, vc'.ve i = if i ∈ ids then f (vc.ve i) else vc.ve i := by
  induction ids generalizing vc with
  | nil => exact ⟨wf, rfl, by simp⟩
  | cons id ids ih =>
    obtain ⟨notLater, nodup⟩ := nodup_cons.mp nodup
    obtain ⟨wf', tree, entries⟩ := ih nodup (wf.modify (sameOffset (vc.ve id)))
    refine ⟨wf', tree, fun i => ?_⟩
    rw [foldl_cons, entries i, modify_ve]
    by_cases this : i = id
    · subst this
      simp [notLater]
    · simp [this]

/-- In the order of the offsets, the loop visits what lies between its bounds. -/
theorem mem_between {ids : List ℕ} {offset : ℕ → ℕ} (sorted : ids.Pairwise fun i j => offset i < offset j) (low high : ℕ) :
    ∀ i, i ∈ (ids.dropWhile fun i => offset i < low).takeWhile (fun i => offset i < high) ↔
      i ∈ ids ∧ low ≤ offset i ∧ offset i < high := by
  intro i
  have drop : ids.dropWhile (fun i => offset i < low) = ids.filter fun i => low ≤ offset i := by
    induction ids with
    | nil => rfl
    | cons head tail ih =>
      obtain ⟨least, sorted⟩ := pairwise_cons.mp sorted
      by_cases below : offset head < low
      · rw [dropWhile_cons_of_pos (by simpa using below), ih sorted, filter_cons_of_neg (by simpa using below)]
      · rw [dropWhile_cons_of_neg (by simpa using below), filter_eq_self.mpr]
        intro j member
        rcases mem_cons.mp member with rfl | later
        · simpa using below
        · have := least j later
          simp only [decide_eq_true_eq]
          omega
  have take : ∀ js : List ℕ, (js.Pairwise fun i j => offset i < offset j) →
      js.takeWhile (fun i => offset i < high) = js.filter fun i => offset i < high := by
    intro js sorted
    induction js with
    | nil => rfl
    | cons head tail ih =>
      obtain ⟨least, sorted⟩ := pairwise_cons.mp sorted
      by_cases below : offset head < high
      · rw [takeWhile_cons_of_pos (by simpa using below), ih sorted, filter_cons_of_pos (by simpa using below)]
      · rw [takeWhile_cons_of_neg (by simpa using below), eq_comm, filter_eq_nil_iff]
        intro j member
        rcases mem_cons.mp member with rfl | later
        · simpa using below
        · have := least j later
          simp only [decide_eq_true_eq]
          omega
  rw [drop, take _ (sorted.filter _)]
  simp only [mem_filter, decide_eq_true_eq, and_assoc]

theorem vdevCacheWrite_spec (wf : vc.Wf t) (zio : WriteZio) :
    (vdevCacheWrite t vc zio).Wf t ∧ (vdevCacheWrite t vc zio).vcOffsetTree = vc.vcOffsetTree ∧
      ∀ id ∈ vc.vcOffsetTree, (vdevCacheWrite t vc zio).ve id =
        if p2align zio.ioOffset (vcbs t) ≤ (vc.ve id).veOffset ∧
            (vc.ve id).veOffset < roundUp (zio.ioOffset + zio.ioSize) (vcbs t)
          then writeEntry t zio (vc.ve id) else vc.ve id := by
  have sameOffset : ∀ ve, (writeEntry t zio ve).veOffset = ve.veOffset := by
    intro ve
    unfold writeEntry
    split <;> rfl
  have nodup : (writeIds t vc zio).Nodup :=
    wf.nodup.sublist ((takeWhile_sublist _).trans (dropWhile_sublist _))
  obtain ⟨wf', tree, entries⟩ := foldl_modify sameOffset nodup wf
  refine ⟨wf', tree, fun id member => (entries id).trans ?_⟩
  have visited : id ∈ writeIds t vc zio ↔ p2align zio.ioOffset (vcbs t) ≤ (vc.ve id).veOffset ∧
      (vc.ve id).veOffset < roundUp (zio.ioOffset + zio.ioSize) (vcbs t) := by
    rw [writeIds, mem_between wf.sorted]
    simp [member]
  simp only [visited]

/-! ## Purges -/

theorem foldl_evict_wf (ids : List ℕ) (wf : vc.Wf t) : (ids.foldl vdevCacheEvict vc).Wf t ∧
    Fewer vc (ids.foldl vdevCacheEvict vc) := by
  induction ids generalizing vc with
  | nil => exact ⟨wf, .rfl⟩
  | cons id ids ih =>
    obtain ⟨wf', fewer⟩ := ih (vdevCacheEvict_wf wf id)
    exact ⟨wf', (vdevCacheEvict_fewer vc id).trans fewer⟩

end MacZfs.Cache
