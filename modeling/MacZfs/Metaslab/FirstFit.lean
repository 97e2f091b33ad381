import MacZfs.Metaslab.Basic
import MacZfs.SpaceMap.Set

/-!
# The first-fit picker

`metaslab_ff_alloc` searches from a cursor on, and from the beginning if that fails. Wherever the cursor
points and whichever of several overlapping segments the descent meets, it finds an aligned range if there
is one. This rests on the sums in it: rounding the start of a segment up and adding the size must not wrap
around.
-/

namespace MacZfs

open List Extents Alignment

/-- `metaslab_ff_alloc` as the source has it, calling itself with the cursor at zero. The number is that of
    the searches made. -/
def ffSearch (meets : List SpaceSeg → ℕ) (size : ℕ) : ℕ → SpaceMap → Option (Option ℕ × SpaceMap × ℕ)
  | 0, _ => none
  | rounds + 1, sm => do
      let align := size &&& u64Sub 0 size
      guard (0 < highbit align)
      let index := highbit align - 1
      let cursor ← sm.smPpd[index]?
      match ffScan align size (ffStart meets sm.smRoot cursor size) with
      | some offset => return (some offset, { sm with smPpd := sm.smPpd.set index (u64 (offset + size)) }, 1)
      | none =>
        if cursor = 0 then return (none, sm, 1)
        else do
          let (res, sm, searches) ← ffSearch meets size rounds { sm with smPpd := sm.smPpd.set index 0 }
          return (res, sm, searches + 1)

/-! ## The alignment -/

def naturalAlign (size : ℕ) : ℕ := 2 ^ padicValNat 2 size

theorem naturalAlign_pos (size) : 0 < naturalAlign size := Nat.two_pow_pos _

/-- `size & -size`. -/
theorem and_neg_eq {size} (positive : 0 < size) (small : size < 2 ^ 64) :
    size &&& u64Sub 0 size = naturalAlign size := by
  obtain ⟨odd, split⟩ : ∃ odd, size = 2 ^ padicValNat 2 size * (2 * odd + 1) := by
    obtain ⟨rest, factor⟩ := @pow_padicValNat_dvd 2 size
    have notEven : ¬2 ∣ rest := by
      rintro ⟨half, rfl⟩
      apply pow_succ_padicValNat_not_dvd (p := 2) positive.ne'
      exact ⟨half, by rw [pow_succ, mul_assoc]; exact factor⟩
    exact ⟨rest / 2, by rw [show 2 * (rest / 2) + 1 = rest by omega]; exact factor⟩
  have negated : u64Sub 0 size = 2 ^ 64 - size := by
    rw [u64Sub, u64, Nat.mod_eq_of_lt small]
    omega
  rw [negated, naturalAlign]
  generalize padicValNat 2 size = k at split
  subst split
  exact and_neg small

theorem highbit_bounds (nonzero : i ≠ 0) : 0 < highbit i ∧ highbit i ≤ 32 := by
  simp only [highbit, nonzero, if_false]
  split_ifs <;> simp

/-! ## Scanning -/

variable {meets : List SpaceSeg → ℕ} {size cursor : ℕ}

theorem ffScan_some (found : ffScan align size segs = some offset) :
    ∃ ss ∈ segs, offset = p2roundup ss.start align ∧ u64 (offset + size) ≤ ss.stop := by
  induction segs with
  | nil => cases found
  | cons head tail ih =>
    rw [ffScan] at found
    split_ifs at found with room
    · cases found
      exact ⟨head, by simp, rfl, room⟩
    · obtain ⟨ss, member, at_, room⟩ := ih found
      exact ⟨ss, mem_cons_of_mem head member, at_, room⟩

theorem ffScan_none (failed : ffScan align size segs = none) :
    ∀ ss ∈ segs, ss.stop < u64 (p2roundup ss.start align + size) := by
  induction segs with
  | nil => simp
  | cons head tail ih =>
    rw [ffScan] at failed
    split_ifs at failed with room
    intro ss member
    rcases mem_cons.mp member with rfl | inside
    · exact Nat.lt_of_not_le room
    · exact ih failed ss inside

theorem ffStart_subset (meets) (root : List SpaceSeg) (cursor size : ℕ) :
    ∀ ss ∈ ffStart meets root cursor size, ss ∈ root := by
  intro ss member
  rw [ffStart] at member
  split_ifs at member
  · rw [avlFind_split spaceMapSegCompare ⟨cursor, u64 (cursor + size)⟩ root]
    exact mem_append_right _ (mem_append_right _ member)
  · exact mem_of_mem_drop member

/-- Several segments meet `[0, size)`: all but the last of them end before `size`. -/
theorem stop_lt_of_skipped (separated : Separated root)
    (few : skipped < (root.filter fun ss => decide (ss.start < size)).length) :
    ∀ ss ∈ root.take skipped, ss.stop < size := by
  induction root generalizing skipped with
  | nil => simp
  | cons head tail ih =>
    have gaps := pairwise_cons.mp separated.gaps
    cases skipped with
    | zero => simp
    | succ skipped =>
      by_cases low : head.start < size
      · rw [filter_cons_of_pos (by simpa using low), length_cons] at few
        -- a later segment starts below `size` too
        obtain ⟨next, member⟩ := exists_mem_of_length_pos (Nat.lt_of_le_of_lt (Nat.zero_le skipped)
          (Nat.lt_of_succ_lt_succ few))
        rw [mem_filter, decide_eq_true_eq] at member
        intro ss inside
        rcases mem_cons.mp inside with rfl | inside
        · exact (gaps.1 next member.1).trans member.2
        · exact ih separated.tail (Nat.lt_of_succ_lt_succ few) ss inside
      · have none : (head :: tail).filter (fun ss => decide (ss.start < size)) = [] := by
          rw [filter_eq_nil_iff]
          intro ss member
          rcases mem_cons.mp member with rfl | inside
          · simpa using low
          · have := gaps.1 ss inside
            have := separated.nonempty head (by simp)
            simp
            omega
        rw [none] at few
        cases few

/-- A search from the beginning leaves out only segments that are too short. -/
theorem ffStart_zero (separated : Separated root) (positive : 0 < size) (small : size < 2 ^ 64) :
    ∀ ss ∈ root, ss ∈ ffStart meets root 0 size ∨ ss.stop < size := by
  have overlaps : ∀ ss ∈ root, spaceMapSegCompare ⟨0, size⟩ ss = .eq ↔ ss.start < size := by
    intro ss member
    have nonempty := separated.nonempty ss member
    rw [spaceMapSegCompare_eq positive nonempty]
    exact ⟨fun both => both.2, fun low => ⟨Nat.zero_lt_of_lt nonempty, low⟩⟩
  have same : root.filter (fun ss => spaceMapSegCompare ⟨0, size⟩ ss = .eq) =
      root.filter fun ss => decide (ss.start < size) := by
    apply filter_congr
    intro ss member
    simp only [decide_eq_decide]
    exact overlaps ss member
  have split := avlFind_split spaceMapSegCompare ⟨0, size⟩ root
  have before : (avlFind spaceMapSegCompare ⟨0, size⟩ root).before = [] := by
    apply eq_nil_iff_forall_not_mem.mpr
    intro b member
    have inside : b ∈ root := by
      rw [split]
      exact mem_append_left _ member
    have nonempty := separated.nonempty b inside
    have after := (spaceMapSegCompare_gt nonempty).mp (avlFind_before root b member)
    dsimp only at after
    omega
  intro ss member
  rw [ffStart]
  simp only [zero_add, u64_of_lt small, same, before, length_nil]
  split_ifs with none
  · -- nothing overlaps, so the search starts at the first segment
    left
    cases node : (avlFind spaceMapSegCompare ⟨0, size⟩ root).node with
    | none =>
      rw [before, node, nil_append, Option.toList_none, nil_append] at split
      rwa [← split]
    | some found =>
      have inside : found ∈ root := by
        rw [split, node]
        simp
      have low := (overlaps found inside).mp (avlFind_node node)
      have listed : found ∈ root.filter fun ss => decide (ss.start < size) :=
        mem_filter.mpr ⟨inside, decide_eq_true low⟩
      rw [none] at listed
      cases listed
  · have some : 0 < (root.filter fun ss => decide (ss.start < size)).length := length_pos_of_ne_nil none
    rw [← take_append_drop (min (meets (root.filter fun ss => decide (ss.start < size)))
      ((root.filter fun ss => decide (ss.start < size)).length - 1)) root] at member
    rcases mem_append.mp member with skipped | reached
    · exact .inr (stop_lt_of_skipped separated (by omega) ss skipped)
    · exact .inl reached

/-! ## The search -/

/-- Where the recursion ends: after one search, or after two if the first one did not start at zero. -/
theorem ffSearch_eq (meets) (sm) (size rounds) :
    ∃ searches ≤ 2, ffSearch meets size (rounds + 2) sm =
      (metaslabFfAlloc meets sm size).map fun picked => (picked.1, picked.2, searches) := by
  generalize alignEq : size &&& u64Sub 0 size = align
  by_cases aligned : 0 < highbit align
  swap
  · exact ⟨1, by decide, by simp [ffSearch, metaslabFfAlloc, alignEq, aligned]⟩
  cases at_ : sm.smPpd[highbit align - 1]? with
  | none => exact ⟨1, by decide, by simp [ffSearch, metaslabFfAlloc, alignEq, at_]⟩
  | some cursor =>
    cases first : ffScan align size (ffStart meets sm.smRoot cursor size) with
    | some offset => exact ⟨1, by decide, by simp [ffSearch, metaslabFfAlloc, alignEq, aligned, at_, first]⟩
    | none =>
      by_cases start : cursor = 0
      · subst start
        exact ⟨1, by decide, by simp [ffSearch, metaslabFfAlloc, alignEq, aligned, at_, first]⟩
      · have reset : (sm.smPpd.set (highbit align - 1) 0)[highbit align - 1]? = some 0 := by
          rw [getElem?_set_self]
          exact (List.getElem?_eq_some_iff.mp at_).1
        cases second : ffScan align size (ffStart meets sm.smRoot 0 size) with
        | some offset | none =>
          exact ⟨2, le_rfl, by simp [ffSearch, metaslabFfAlloc, alignEq, aligned, at_, first, start, reset, second]⟩

def FirstFit (sm : SpaceMap) (size : ℕ) : Option ℕ → Prop
  | some offset => naturalAlign size ∣ offset ∧ ∃ ss ∈ sm.smRoot, ss.start ≤ offset ∧ offset + size ≤ ss.stop
  | none => ∀ ss ∈ sm.smRoot, ∀ offset, naturalAlign size ∣ offset → ss.start ≤ offset → ss.stop < offset + size

section Search

variable {sm : SpaceMap} (wf : sm.Wf) (positive : 0 < size) (small : size < 2 ^ 64)
  (room : ∀ ss ∈ sm.smRoot, roundUp ss.start (naturalAlign size) + size < 2 ^ 64)

include wf positive small room

theorem p2roundup_start (member : ss ∈ sm.smRoot) :
    p2roundup ss.start (naturalAlign size) = roundUp ss.start (naturalAlign size) ∧
      u64 (p2roundup ss.start (naturalAlign size) + size) = roundUp ss.start (naturalAlign size) + size := by
  have upper := (wf.upper ss member).1
  have bounded := wf.bounded
  have nonempty := wf.separated.nonempty ss member
  have fits := room ss member
  have shift : padicValNat 2 size < 64 := by
    have divides := Nat.le_of_dvd positive (@pow_padicValNat_dvd 2 size)
    exact (Nat.pow_lt_pow_iff_right (by decide : 1 < 2)).mp (divides.trans_lt small)
  have rounded : p2roundup ss.start (naturalAlign size) = roundUp ss.start (naturalAlign size) := by
    rw [naturalAlign, p2roundup_eq (by omega) shift]
    exact u64_of_lt (by rw [← naturalAlign]; omega)
  exact ⟨rounded, by rw [rounded, u64_of_lt fits]⟩

theorem ffScan_right {offset segs} (part : ∀ ss ∈ segs, ss ∈ sm.smRoot)
    (found : ffScan (naturalAlign size) size segs = some offset) : FirstFit sm size (some offset) := by
  obtain ⟨ss, member, rfl, fits⟩ := ffScan_some found
  obtain ⟨rounded, sum⟩ := p2roundup_start wf positive small room (part ss member)
  rw [sum] at fits
  rw [rounded]
  exact ⟨dvd_roundUp _ _, ss, part ss member, le_roundUp (naturalAlign_pos size), fits⟩

theorem ffScan_zero_complete (failed : ffScan (naturalAlign size) size (ffStart meets sm.smRoot 0 size) = none) :
    FirstFit sm size none := by
  intro ss member offset aligned after
  rcases ffStart_zero wf.separated positive small ss member with reached | short
  · have full := ffScan_none failed ss reached
    rw [(p2roundup_start wf positive small room member).2] at full
    have least := roundUp_le (naturalAlign_pos size) aligned after
    omega
  · omega

theorem metaslabFfAlloc_spec (meets) (cursors : sm.smPpd.length = 64) :
    ∃ res, (metaslabFfAlloc meets sm size).map Prod.fst = some res ∧ FirstFit sm size res := by
  have bounds := highbit_bounds (naturalAlign_pos size).ne'
  obtain ⟨cursor, at_⟩ : ∃ cursor, sm.smPpd[highbit (naturalAlign size) - 1]? = some cursor :=
    ⟨_, getElem?_eq_getElem (by omega)⟩
  have right := fun cursor offset => @ffScan_right size sm wf positive small room offset _
    (ffStart_subset meets sm.smRoot cursor size)
  have align := and_neg_eq positive small
  cases first : ffScan (naturalAlign size) size (ffStart meets sm.smRoot cursor size) with
  | some offset =>
    exact ⟨some offset, by simp [metaslabFfAlloc, align, bounds.1, at_, first], right cursor offset first⟩
  | none =>
    by_cases start : cursor = 0
    · subst start
      refine ⟨none, by simp [metaslabFfAlloc, align, bounds.1, at_, first], ?_⟩
      exact ffScan_zero_complete wf positive small room first
    · cases second : ffScan (naturalAlign size) size (ffStart meets sm.smRoot 0 size) with
      | some offset =>
        refine ⟨some offset, by simp [metaslabFfAlloc, align, bounds.1, at_, first, start, second], ?_⟩
        exact right 0 offset second
      | none =>
        refine ⟨none, by simp [metaslabFfAlloc, align, bounds.1, at_, first, start, second], ?_⟩
        exact ffScan_zero_complete wf positive small room second

end Search

/-- Any map, any cursors, any choice of the descent among overlapping segments, and any size with which no rounded
    start of a segment wraps around. -/
theorem metaslab_ff_alloc_first_fit (meets : List SpaceSeg → ℕ) (sm : SpaceMap) (size rounds : ℕ) (wf : sm.Wf)
    (cursors : sm.smPpd.length = 64) (positive : 0 < size) (small : size < 2 ^ 64)
    (room : ∀ ss ∈ sm.smRoot, roundUp ss.start (naturalAlign size) + size < 2 ^ 64) :
    ∃ res sm' searches, ffSearch meets size (rounds + 2) sm = some (res, sm', searches) ∧
      metaslabFfAlloc meets sm size = some (res, sm') ∧ searches ≤ 2 ∧
      match res with
      | some offset => naturalAlign size ∣ offset ∧
          ∃ ss ∈ sm.smRoot, ss.start ≤ offset ∧ offset + size ≤ ss.stop
      | none => ∀ ss ∈ sm.smRoot, ∀ offset, naturalAlign size ∣ offset →
          ¬(ss.start ≤ offset ∧ offset + size ≤ ss.stop) := by
  obtain ⟨res, picked, right⟩ := metaslabFfAlloc_spec wf positive small room meets cursors
  obtain ⟨⟨res, sm'⟩, alloc, rfl⟩ := Option.map_eq_some_iff.mp picked
  obtain ⟨searches, few, searched⟩ := ffSearch_eq meets sm size rounds
  rw [alloc, Option.map_some] at searched
  refine ⟨res, sm', searches, searched, alloc, few, ?_⟩
  cases res with
  | some offset => exact right
  | none => exact fun ss member offset aligned fits => absurd (right ss member offset aligned fits.1) (by omega)

def holedMap : SpaceMap :=
  { spaceMapCreate 0 16384 9 with
    smRoot := [⟨512, 1536⟩, ⟨4096, 8192⟩], smSpace := 5120, smLoaded := true, smOps := true
    smPpd := List.replicate 64 16384 }

theorem holedMap_wf : holedMap.Wf where
  separated := ⟨by decide, by decide⟩
  lower := by decide
  upper := by decide
  space := rfl
  bounded := by decide

theorem metaslab_ff_alloc_first_fit_restart :
    ∃ sm', ffSearch (fun _ => 0) 1024 2 holedMap = some (some 4096, sm', 2) ∧ naturalAlign 1024 ∣ 4096 ∧
      ∃ ss ∈ holedMap.smRoot, ss.start ≤ 4096 ∧ 4096 + 1024 ≤ ss.stop := by
  have align : naturalAlign 1024 = 1024 := by
    rw [← and_neg_eq (by decide) (by decide)]
    rfl
  obtain ⟨res, sm', searches, searched, -, -, right⟩ := metaslab_ff_alloc_first_fit (fun _ => 0) holedMap 1024 0
    holedMap_wf rfl (by decide) (by decide) (by rw [align]; decide)
  obtain ⟨sm'', run⟩ : ∃ sm'', ffSearch (fun _ => 0) 1024 2 holedMap = some (some 4096, sm'', 2) := ⟨_, rfl⟩
  cases run.symm.trans searched
  exact ⟨_, searched, right⟩

/-- With a size close to `2 ^ 64` the sum wraps around, and a range is picked that no segment has. -/
theorem metaslab_ff_alloc_wraps :
    holedMap.Wf ∧ (∃ sm', ffSearch (fun _ => 0) (2 ^ 64 - 512) 2 holedMap = some (some 512, sm', 2)) ∧
      ¬∃ ss ∈ holedMap.smRoot, ss.start ≤ 512 ∧ 512 + (2 ^ 64 - 512) ≤ ss.stop :=
  ⟨holedMap_wf, ⟨_, rfl⟩, by decide⟩

end MacZfs
