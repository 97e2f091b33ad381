import MacZfs.Dnode.Children

/-! # A range of blocks is freed

The pointers in the dnode lead to every block of the range, so `dnode_sync_free_range` frees what is in it, and the
object ends before the range if it ended in it.
-/

namespace MacZfs.Dnode

open List

/-- What `dnode_sync_free_range` leaves, and the places of the blocks that it frees. -/
structure RangeFreed (dn : Syncing) (blkid nblks : ℕ) (dn' : Syncing) (new : List (ℕ × ℕ)) : Prop where
  /-- Each of these blocks is killed once, and none was a hole. -/
  killed : dn'.killed = dn.killed ++ new.map fun x => ⟨x.1, x.2, dn.phys.blkptr x.1 x.2⟩
  once : new.Nodup
  held : ∀ x ∈ new, ¬dn.Hole x
  /-- Their pointers, and no others, become holes. -/
  cleared : ∀ l i, dn'.phys.blkptr l i = if (l, i) ∈ new then .zero else dn.phys.blkptr l i
  /-- The data blocks are those of the range. -/
  data : ∀ j, (0, j) ∈ new ↔ ¬dn.Hole (0, j) ∧ blkid ≤ j ∧ j < blkid + nblks
  /-- An indirect block has nothing left, -/
  empty : ∀ l j, (l + 1, j) ∈ new → ∀ c, c >>> dn.phys.epbs = j → dn'.Hole (l, c)
  /-- and goes at least if the range holds all of it, up to the last block of the object. -/
  whole : ∀ l j, ¬dn.Hole (l + 1, j) → blkid ≤ j <<< ((l + 1) * dn.phys.epbs) →
    (j + 1) <<< ((l + 1) * dn.phys.epbs) ≤ blkid + nblks ∨ dn.phys.dnMaxblkid < blkid + nblks → (l + 1, j) ∈ new
  /-- The object ends before the range if it ended in it. -/
  maxblkid : dn'.phys.dnMaxblkid =
    if blkid ≤ dn.phys.dnMaxblkid ∧ dn.phys.dnMaxblkid < blkid + nblks then blkid - 1 else dn.phys.dnMaxblkid
  wf : dn'.phys.Wf
  /-- The space that is used is less by what the blocks took. -/
  space : dn'.dnUsedBytes + dn.bytes new = dn.dnUsedBytes

def Syncing.Accounted (dn : Syncing) : Prop :=
  ∀ places : List (ℕ × ℕ), places.Nodup → (∀ x ∈ places, ¬dn.Hole x) → dn.bytes places ≤ dn.dnUsedBytes

section Whole

variable {blkid nblks : ℕ} {trunc : Bool} {dn : Syncing}

theorem DnodePhys.Wf.hole_last (wf : dn.phys.Wf) (beyond : dn.phys.dnMaxblkid < j <<< (l * dn.phys.epbs)) :
    dn.Hole (l, j) := by
  apply wf.last
  have small := up_eq_iff (e := dn.phys.epbs) (n := l) (i := dn.phys.dnMaxblkid) |>.mp rfl
  by_contra more
  have le : j <<< (l * dn.phys.epbs) ≤ up dn.phys.epbs l dn.phys.dnMaxblkid <<< (l * dn.phys.epbs) := by
    simp only [Nat.shiftLeft_eq]
    exact Nat.mul_le_mul_right _ (not_lt.mp more)
  omega

def rangeBlocks (dn : Syncing) (blkid nblks : ℕ) : ℕ :=
  if dn.phys.dnMaxblkid < blkid + nblks then dn.phys.dnMaxblkid - blkid + 1 else nblks

theorem rangeBlocks_last (inside : blkid ≤ dn.phys.dnMaxblkid) (positive : 0 < nblks) :
    blkid + rangeBlocks dn blkid nblks - 1 = min dn.phys.dnMaxblkid (blkid + nblks - 1) := by
  rw [rangeBlocks]
  split_ifs <;> omega

theorem rangeBlocks_pos (dn : Syncing) (blkid) (positive : 0 < nblks) : 0 < rangeBlocks dn blkid nblks := by
  rw [rangeBlocks]
  split_ifs <;> omega

theorem DnodePhys.Wf.sane (wf : dn.phys.Wf) (inside : blkid ≤ dn.phys.dnMaxblkid) (positive : 0 < nblks) :
    Sane dn.phys.epbs (blkid + rangeBlocks dn blkid nblks - 1) (decide (dn.phys.dnMaxblkid < blkid + nblks))
      dn.phys.dnNlevels dn where
  shift := rfl
  beyond isTrunc l i more := by
    rw [decide_eq_true_iff] at isTrunc
    rw [rangeBlocks_last inside positive, min_eq_left (by omega)] at more
    exact wf.last l i more
  below := wf.below

theorem truncated_eq (dn : Syncing) (trunc) (blkid) : truncated dn trunc blkid =
    if trunc then { dn with phys := { dn.phys with dnMaxblkid := blkid - 1 } } else dn := by
  cases blkid <;> rfl

abbrev RangeFrees (dn : Syncing) (blkid nblks : ℕ) : Syncing → List (ℕ × ℕ) → Prop :=
  FreesIn dn.phys.epbs blkid (blkid + rangeBlocks dn blkid nblks - 1)
    (decide (dn.phys.dnMaxblkid < blkid + nblks)) (fun _ => True) dn

theorem RangeFreed.wf_truncated (wf : dn.phys.Wf)
    (inside : blkid ≤ dn.phys.dnMaxblkid) (positive : 0 < nblks) (frees : RangeFrees dn blkid nblks dn₁ new) :
    (truncated dn₁ (decide (dn.phys.dnMaxblkid < blkid + nblks)) blkid).phys.Wf := by
  have sane := frees.sane (wf.sane inside positive)
  have kept : ∀ x, dn.Hole x → dn₁.Hole x := fun x hole => (frees.frees.hole_iff x).mpr (.inr hole)
  have nlevels : dn₁.phys.dnNlevels = dn.phys.dnNlevels := by
    rw [frees.frees.phys]
    rfl
  have maxblkid : dn₁.phys.dnMaxblkid = dn.phys.dnMaxblkid := by
    rw [frees.frees.phys]
    rfl
  have nblkptr : dn₁.phys.dnNblkptr = dn.phys.dnNblkptr := by
    rw [frees.frees.phys]
    rfl
  have wf₁ : dn₁.phys.Wf := by
    refine ⟨nlevels ▸ wf.levels, ?_, fun l i high => kept (l, i) (wf.top l i (nlevels ▸ high)), fun l i beyond => ?_, ?_⟩
    · rw [maxblkid, nlevels, nblkptr, sane.shift]
      exact wf.reach
    · rw [maxblkid, sane.shift] at beyond
      exact kept (l, i) (wf.last l i beyond)
    · intro l i inTree
      rw [sane.shift]
      exact sane.below l i (nlevels ▸ inTree)
  rw [truncated_eq]
  split_ifs with isTrunc
  · refine ⟨wf₁.levels, lt_of_le_of_lt (up_mono ?_) wf₁.reach, wf₁.top, fun l i beyond => ?_, wf₁.below⟩
    · show blkid - 1 ≤ dn₁.phys.dnMaxblkid
      omega
    · -- what is beyond the new end is in the range
      change (blkid - 1) >>> (l * dn₁.phys.epbs) < i at beyond
      rw [sane.shift] at beyond
      have start : blkid ≤ i <<< (l * dn.phys.epbs) := by
        by_contra before
        have := up_mono (e := dn.phys.epbs) (n := l) (show i <<< (l * dn.phys.epbs) ≤ blkid - 1 by omega)
        rw [up_shiftLeft, up] at this
        omega
      cases l with
      | zero =>
        rw [zero_mul, Nat.shiftLeft_zero] at start
        by_cases within : i ≤ blkid + rangeBlocks dn blkid nblks - 1
        · exact frees.data i trivial start within
        · exact sane.beyond isTrunc 0 i (by simpa using within)
      | succ l => exact frees.covered l i trivial ⟨start, .inl isTrunc⟩
  · exact wf₁

theorem RangeFreed.of_freesIn (wf : dn.phys.Wf) (counts : dn.Counts)
    (accounted : dn.Accounted) (inside : blkid ≤ dn.phys.dnMaxblkid) (positive : 0 < nblks)
    (frees : RangeFrees dn blkid nblks dn₁ new) :
    RangeFreed dn blkid nblks (truncated dn₁ (decide (dn.phys.dnMaxblkid < blkid + nblks)) blkid) new := by
  have last := rangeBlocks_last inside positive
  have phys := frees.frees.phys
  have hole : ∀ x, (truncated dn₁ (decide (dn.phys.dnMaxblkid < blkid + nblks)) blkid).Hole x ↔ dn₁.Hole x := by
    intro x
    rw [truncated_eq]
    split_ifs <;> rfl
  have data : ∀ j, (0, j) ∈ new ↔ ¬dn.Hole (0, j) ∧ blkid ≤ j ∧ j < blkid + nblks := by
    intro j
    constructor
    · intro member
      have := frees.range j member
      exact ⟨frees.frees.held _ member, by omega, by omega⟩
    · rintro ⟨held, low, high⟩
      have notBeyond : j ≤ dn.phys.dnMaxblkid := by
        by_contra beyond
        exact held (wf.hole_last (by simpa using beyond))
      exact ((frees.frees.hole_iff _).mp (frees.data j trivial low (by omega))).resolve_right held
  obtain ⟨space, _⟩ := frees.frees.space counts (accounted new frees.frees.nodup frees.frees.held)
  have enough := accounted new frees.frees.nodup frees.frees.held
  refine ⟨?_, frees.frees.nodup, frees.frees.held, fun l i => ?_, data, fun l j member c child => ?_,
    fun l j held low high => ?_, ?_, ?_, ?_⟩
  · rw [← frees.frees.log, truncated_eq]
    split_ifs <;> rfl
  · rw [← frees.frees.blkptr, truncated_eq]
    split_ifs <;> rfl
  · exact (hole _).mpr (frees.empty l j member c child)
  · refine ((frees.frees.hole_iff _).mp (frees.covered l j trivial ⟨low, ?_⟩)).resolve_right held
    rw [decide_eq_true_iff]
    omega
  · rw [truncated_eq]
    by_cases isTrunc : dn.phys.dnMaxblkid < blkid + nblks
    · rw [if_pos (decide_eq_true isTrunc), if_pos ⟨inside, isTrunc⟩]
    · rw [if_neg (by simpa using isTrunc), if_neg (by omega), phys]
      rfl
  · exact RangeFreed.wf_truncated wf inside positive frees
  · have used : (truncated dn₁ (decide (dn.phys.dnMaxblkid < blkid + nblks)) blkid).dnUsedBytes = dn₁.dnUsedBytes := by
      rw [truncated_eq]
      split_ifs <;> rfl
    omega

theorem freeFromDnode_frees (wf : dn.phys.Wf) (inside : blkid ≤ dn.phys.dnMaxblkid) (positive : 0 < nblks) :
    ∃ new, RangeFrees dn blkid nblks
      (freeFromDnode dn blkid (rangeBlocks dn blkid nblks) (decide (dn.phys.dnMaxblkid < blkid + nblks))) new := by
  have blocks := rangeBlocks_pos dn blkid positive
  have sane := wf.sane inside positive
  rw [freeFromDnode]
  split
  next levels =>
    have within : ∀ i ∈ range' blkid (rangeBlocks dn blkid nblks),
        blkid ≤ i ∧ i ≤ blkid + rangeBlocks dn blkid nblks - 1 := by
      intro i member
      have := List.mem_range'_1.mp member
      omega
    obtain ⟨new, frees⟩ := freeData_frees (decide (dn.phys.dnMaxblkid < blkid + nblks)) within
    refine ⟨new, frees.widen (fun _ _ => trivial) (fun j _ low high => .inl ⟨le_rfl, ?_⟩) fun l j _ _ =>
      .inr (wf.top _ _ (by omega))⟩
    show up dn.phys.epbs 0 j ∈ _
    rw [up_zero, mem_range'_1]
    omega
  next n levels =>
    obtain ⟨⟨new, frees⟩, _⟩ := foldl_freeIndirect (show n + 1 < dn.phys.dnNlevels by omega)
      (freeChildren_frees n (by omega)) (range' (up dn.phys.epbs (n + 1) blkid)
        (up dn.phys.epbs (n + 1) (blkid + rangeBlocks dn blkid nblks - 1) + 1 - up dn.phys.epbs (n + 1) blkid)) dn
      true sane
    refine ⟨new, frees.widen (fun _ _ => trivial) (fun j _ low high => .inl ⟨Nat.zero_le _, ?_⟩) fun l j _ whole => ?_⟩
    · have first := up_mono (e := dn.phys.epbs) (n := n + 1) low
      have final := up_mono (e := dn.phys.epbs) (n := n + 1) high
      refine List.mem_range'_1.mpr ⟨first, ?_⟩
      show up dn.phys.epbs (n + 1) j < _
      omega
    · by_cases inTree : l + 1 ≤ n + 1
      · refine (sane.hole_or_under inTree whole).imp_left fun ⟨first, final⟩ =>
          ⟨inTree, List.mem_range'_1.mpr ⟨first, ?_⟩⟩
        show up dn.phys.epbs (n + 1 - (l + 1)) j < _
        omega
      · exact .inr (wf.top _ _ (by omega))

/-- For every tree of blocks and every range of block ids, `dnode_sync_free_range` frees the data blocks of the range
    and the indirect blocks that it empties. -/
theorem dnodeSyncFreeRange_freed (wf : dn.phys.Wf) (counts : dn.Counts) (accounted : dn.Accounted)
    (positive : 0 < nblks) (small : blkid + nblks < 2 ^ 64) :
    ∃ new, RangeFreed dn blkid nblks (dnodeSyncFreeRange dn blkid nblks) new := by
  by_cases past : blkid > dn.phys.dnMaxblkid
  · have same : dnodeSyncFreeRange dn blkid nblks = dn := if_pos past
    rw [same]
    refine ⟨[], by simp, nodup_nil, forall_mem_nil _, by simp, fun j => ?_, by simp, fun l j held low _ => ?_,
      ?_, wf, by simp [Syncing.bytes]⟩
    · simp only [not_mem_nil, false_iff]
      rintro ⟨held, low, _⟩
      exact held (wf.hole_last (by simpa using past.trans_le low))
    · exact absurd (wf.hole_last (past.trans_le low)) held
    · rw [if_neg (by omega)]
  · have inside : blkid ≤ dn.phys.dnMaxblkid := not_lt.mp past
    have persistent : ¬(dn.phys.dnNlevels = 1 ∧ blkid ≥ dn.phys.dnNblkptr) := by
      rintro ⟨flat, beyond⟩
      have reach := wf.reach
      rw [flat, Nat.sub_self, zero_mul, Nat.shiftRight_zero] at reach
      omega
    have unfolded : dnodeSyncFreeRange dn blkid nblks =
        truncated (freeFromDnode dn blkid (rangeBlocks dn blkid nblks) (decide (dn.phys.dnMaxblkid < blkid + nblks)))
          (decide (dn.phys.dnMaxblkid < blkid + nblks)) blkid := by
      simp only [dnodeSyncFreeRange, past, persistent, if_false, u64_of_lt small, gt_iff_lt, rangeBlocks,
        decide_eq_true_eq]
    obtain ⟨new, frees⟩ := freeFromDnode_frees wf inside positive
    exact ⟨new, unfolded ▸ RangeFreed.of_freesIn wf counts accounted inside positive frees⟩

end Whole

def sparse : Syncing where
  phys := ⟨2, 10, 2, 15, fun l i => if l = 0 ∧ (i = 0 ∨ i = 15) ∨ l = 1 ∧ (i = 0 ∨ i = 1) then ⟨5, 1, 512⟩ else .zero⟩
  dnUsed := 2048
  usedBytes := true
  dnodeBytes := true
  killed := []

theorem sparse_hole (x : ℕ × ℕ) : sparse.Hole x ↔ x ∉ [(0, 0), (0, 15), (1, 0), (1, 1)] := by
  obtain ⟨l, i⟩ := x
  have held : ¬Blkptr.IsHole ⟨5, 1, 512⟩ := by decide
  simp only [Syncing.Hole, sparse, mem_cons, Prod.mk.injEq, not_mem_nil, or_false]
  split_ifs with here
  · simp only [held, false_iff, not_not]
    omega
  · simp only [Blkptr.zero_isHole, true_iff]
    omega

theorem sparse_wf : sparse.phys.Wf := by
  have hole : ∀ l i, (sparse.phys.blkptr l i).IsHole ↔ ¬(l = 0 ∧ (i = 0 ∨ i = 15) ∨ l = 1 ∧ (i = 0 ∨ i = 1)) := by
    intro l i
    refine (sparse_hole (l, i)).trans (not_congr ?_)
    simp only [mem_cons, Prod.mk.injEq, not_mem_nil, or_false]
    omega
  have shift : sparse.phys.epbs = 3 := rfl
  refine ⟨by decide, by decide, fun l i high => ?_, fun l i beyond => ?_, fun l i inTree above => ?_⟩
  · rw [hole]
    have : 2 ≤ l := high
    omega
  · rw [hole]
    change 15 >>> (l * 3) < i at beyond
    rintro (⟨rfl, here⟩ | ⟨rfl, here⟩) <;> simp at beyond <;> omega
  · have : l + 1 < 2 := inTree
    rw [shift, hole, Nat.shiftRight_eq_div_pow] at above
    rw [hole]
    omega

theorem sparse_counts : sparse.Counts := ⟨by decide, fun old => absurd old (by decide)⟩

theorem sparse_accounted : sparse.Accounted := by
  intro places nodup held
  have inside : places ⊆ [(0, 0), (0, 15), (1, 0), (1, 1)] := fun x member =>
    not_not.mp ((not_congr (sparse_hole x)).mp (held x member))
  have few : places.length ≤ 4 := (subperm_of_subset nodup inside).length_le
  have size : ∀ n ∈ places.map fun x => (sparse.phys.blkptr x.1 x.2).dasize, n ≤ 512 := by
    intro n member
    obtain ⟨x, _, rfl⟩ := mem_map.mp member
    simp only [sparse]
    split_ifs <;> decide
  have total := sum_le_card_nsmul _ _ size
  rw [length_map, smul_eq_mul] at total
  show sparse.bytes places ≤ 2048
  rw [Syncing.bytes]
  omega

/-- The second half of an object is cut off. -/
theorem dnodeSyncFreeRange_freed_half : ∃ new, RangeFreed sparse 8 8 (dnodeSyncFreeRange sparse 8 8) new ∧
    (dnodeSyncFreeRange sparse 8 8).phys.dnMaxblkid = 7 := by
  obtain ⟨new, freed⟩ := dnodeSyncFreeRange_freed sparse_wf sparse_counts sparse_accounted
    (show 0 < 8 by decide) (show 8 + 8 < 2 ^ 64 by decide)
  exact ⟨new, freed, freed.maxblkid⟩

/-- An indirect block whose only data block is freed stays if the range holds only a part of it. -/
theorem freed_child_leaves_indirect :
    sparse.phys.Wf ∧ sparse.Counts ∧ sparse.Accounted ∧ ¬sparse.Hole (0, 0) ∧ ¬sparse.Hole (1, 0) ∧
      (∀ c, c >>> sparse.phys.epbs = 0 → (dnodeSyncFreeRange sparse 0 1).Hole (0, c)) ∧
      ¬(dnodeSyncFreeRange sparse 0 1).Hole (1, 0) := by
  refine ⟨sparse_wf, sparse_counts, sparse_accounted, by decide, by decide, fun c child => ?_, by decide⟩
  change c >>> 3 = 0 at child
  have small : c < 8 := by
    omega
  interval_cases c <;> decide

end MacZfs.Dnode
