import MacZfs.SpaceMap.Basic

/-!
# Space maps as sets

A well-formed space map is a finite set of byte offsets in canonical form. `space_map_add`
and `space_map_remove` are union and difference with one interval; they run to the end
exactly on the arguments for which this makes sense.
-/

namespace MacZfs

open Extents Checked Finset Option Nat

def SpaceMap.offsets (sm : SpaceMap) : Finset ℕ := cover sm.smRoot

def SpaceMap.range (sm : SpaceMap) : Finset ℕ := Finset.Ico sm.smStart (sm.smStart + sm.smSize)

structure SpaceMap.Wf (sm : SpaceMap) : Prop where
  separated : Separated sm.smRoot
  lower : ∀ ss ∈ sm.smRoot, sm.smStart ≤ ss.start ∧ 2 ^ sm.smShift ∣ ss.start
  upper : ∀ ss ∈ sm.smRoot, ss.stop ≤ sm.smStart + sm.smSize ∧ 2 ^ sm.smShift ∣ ss.stop
  space : sm.smSpace = total sm.smRoot
  bounded : sm.smStart + sm.smSize < 2 ^ 64

/-- The arguments `space_map_add` and `space_map_remove` are meant for. -/
structure SpaceMap.Takes (sm : SpaceMap) (start size : ℕ) : Prop where
  nonempty : 0 < size
  lower : sm.smStart ≤ start
  upper : start + size ≤ sm.smStart + sm.smSize
  alignedStart : 2 ^ sm.smShift ∣ start
  alignedSize : 2 ^ sm.smShift ∣ size

/-! ## Searching the tree -/

section Find

variable {α : Type} {cmp : α → α → Ordering} {key : α}

theorem avlFind_split (cmp : α → α → Ordering) (key : α) (nodes : List α) :
    nodes = (avlFind cmp key nodes).before ++ ((avlFind cmp key nodes).node.toList ++
      (avlFind cmp key nodes).after) := by
  induction nodes with
  | nil => rfl
  | cons head tail ih =>
    simp only [avlFind]
    split
    · rfl
    · rfl
    · simpa using ih

theorem avlFind_before (nodes : List α) : ∀ b ∈ (avlFind cmp key nodes).before, cmp key b = .gt := by
  induction nodes with
  | nil => simp [avlFind]
  | cons head tail ih =>
    simp only [avlFind]
    split
    · simp
    · simp
    · simpa [*] using ih

theorem avlFind_node (found : (avlFind cmp key nodes).node = some node) : cmp key node = .eq := by
  induction nodes with
  | nil => simp [avlFind] at found
  | cons head tail ih =>
    simp only [avlFind] at found
    split at found
    · simp at found
    · simp_all
    · exact ih found

theorem avlFind_after (absent : (avlFind cmp key nodes).node = none) :
    ∀ a ∈ (avlFind cmp key nodes).after.head?, cmp key a = .lt := by
  induction nodes with
  | nil => simp [avlFind]
  | cons head tail ih =>
    simp only [avlFind] at absent ⊢
    split at absent
    · simp [*]
    · simp at absent
    · simpa [*] using ih absent

end Find

section Compare

theorem spaceMapSegCompare_gt (nonempty : s2.start < s2.stop) :
    spaceMapSegCompare s1 s2 = .gt ↔ s2.stop ≤ s1.start := by
  unfold spaceMapSegCompare
  split_ifs <;> simp <;> omega

theorem spaceMapSegCompare_lt (nonempty : s1.start < s1.stop) :
    spaceMapSegCompare s1 s2 = .lt ↔ s1.stop ≤ s2.start := by
  unfold spaceMapSegCompare
  split_ifs <;> simp <;> omega

theorem spaceMapSegCompare_eq (left : s1.start < s1.stop) (right : s2.start < s2.stop) :
    spaceMapSegCompare s1 s2 = .eq ↔ s1.start < s2.stop ∧ s2.start < s1.stop := by
  unfold spaceMapSegCompare
  split_ifs <;> simp <;> omega

theorem spaceMapSegCompare_start (equal : spaceMapSegCompare s1 s2 = .eq) (low : s2.start ≤ s1.start)
    (nonempty : s2.start < s2.stop) : s1.start < s2.stop := by
  unfold spaceMapSegCompare at equal
  split_ifs at equal <;> omega

end Compare

theorem avlFind_absent (separated : Separated nodes) {key : SpaceSeg} (nonempty : key.start < key.stop)
    (absent : (avlFind spaceMapSegCompare key nodes).node = none) :
    ∃ before after, (avlFind spaceMapSegCompare key nodes).before = before ∧
      (avlFind spaceMapSegCompare key nodes).after = after ∧ nodes = before ++ after ∧
      (∀ b ∈ before, b.stop ≤ key.start) ∧ ∀ a ∈ after, key.stop ≤ a.start := by
  have split := avlFind_split spaceMapSegCompare key nodes
  rw [absent, toList_none, List.nil_append] at split
  refine ⟨_, _, rfl, rfl, split, ?_, ?_⟩
  · intro b member
    have inside : b ∈ nodes := by
      rw [split]
      exact List.mem_append_left _ member
    exact (spaceMapSegCompare_gt (separated.nonempty b inside)).mp (avlFind_before nodes b member)
  · intro a member
    have first := avlFind_after absent
    -- Only the first node above the key was compared; the others follow in order.
    cases listed : (avlFind spaceMapSegCompare key nodes).after with
    | nil => simp [listed] at member
    | cons head tail =>
      rw [listed] at first member split
      have low := (spaceMapSegCompare_lt nonempty).mp (first head rfl)
      rcases List.mem_cons.mp member with rfl | member
      · exact low
      · rw [split] at separated
        have ⟨_, _, _, _, above⟩ := separated.around
        have := above a member
        omega

theorem avlFind_present (separated : Separated nodes) {key ss : SpaceSeg} (nonempty : key.start < key.stop)
    (found : (avlFind spaceMapSegCompare key nodes).node = some ss) :
    ∃ before after, (avlFind spaceMapSegCompare key nodes).before = before ∧
      (avlFind spaceMapSegCompare key nodes).after = after ∧ nodes = before ++ ss :: after ∧
      key.start < ss.stop ∧ ss.start < key.stop := by
  have split := avlFind_split spaceMapSegCompare key nodes
  rw [found, toList_some, List.singleton_append] at split
  have inside : ss ∈ nodes := by
    rw [split]
    simp
  exact ⟨_, _, rfl, rfl, split,
    (spaceMapSegCompare_eq nonempty (separated.nonempty ss inside)).mp (avlFind_node found)⟩

/-! ## Inserting and cutting -/

/-- The new segment with the neighbours it swallows: each end is the new one or that of the
    neighbour it touches. -/
theorem insertMerged_eq (before after : List SpaceSeg) (start stop : ℕ) :
    ∃ before' after' start' stop', insertMerged before start stop after = before' ++ ⟨start', stop'⟩ :: after' ∧
      ((before' = before ∧ start' = start ∧ ∀ b ∈ before.getLast?, b.stop ≠ start) ∨
        before = before' ++ [⟨start', start⟩]) ∧
      ((after' = after ∧ stop' = stop ∧ ∀ a ∈ after.head?, a.start ≠ stop) ∨ after = ⟨stop, stop'⟩ :: after') := by
  unfold insertMerged
  rcases List.eq_nil_or_concat before with rfl | ⟨init, ⟨low, high⟩, rfl⟩
  · cases after with
    | nil => exact ⟨[], [], start, stop, by simp⟩
    | cons head tail =>
      by_cases touches : head.start = stop
      · exact ⟨[], tail, start, head.stop, by simp [Option.filter, touches], by simp, by simp [← touches]⟩
      · exact ⟨[], head :: tail, start, stop, by simp [Option.filter, touches], by simp, by simp [touches]⟩
  · cases after with
    | nil =>
      by_cases touches : high = start
      · exact ⟨init, [], low, stop, by simp [Option.filter, touches], by simp [touches], by simp⟩
      · exact ⟨init ++ [⟨low, high⟩], [], start, stop, by simp [Option.filter, touches], by simp [touches], by simp⟩
    | cons head tail =>
      by_cases left : high = start <;> by_cases right : head.start = stop
      · exact ⟨init, tail, low, head.stop, by simp [Option.filter, left, right], by simp [left], by simp [← right]⟩
      · exact ⟨init, head :: tail, low, stop, by simp [Option.filter, left, right], by simp [left], by simp [right]⟩
      · exact ⟨init ++ [⟨low, high⟩], tail, start, head.stop, by simp [Option.filter, left, right],
          by simp [left], by simp [← right]⟩
      · exact ⟨init ++ [⟨low, high⟩], head :: tail, start, stop, by simp [Option.filter, left, right],
          by simp [left], by simp [right]⟩

section Insert

variable {before after : List SpaceSeg} {start stop : ℕ}

theorem insertMerged_cover (nonempty : start < stop) (separated : Separated (before ++ after)) :
    cover (insertMerged before start stop after) = cover (before ++ after) ∪ Finset.Ico start stop := by
  obtain ⟨before', after', start', stop', result, left, right⟩ :=
    insertMerged_eq before after start stop
  rw [result]
  have leftNonempty : start' ≤ start := by
    rcases left with ⟨-, rfl, -⟩ | rfl
    · exact le_refl _
    · exact (separated.nonempty ⟨start', start⟩ (by simp)).le
  have rightNonempty : stop ≤ stop' := by
    rcases right with ⟨-, rfl, -⟩ | rfl
    · exact le_refl _
    · exact (separated.nonempty ⟨stop, stop'⟩ (by simp)).le
  have coverLeft : cover before = cover before' ∪ Finset.Ico start' start := by
    rcases left with ⟨rfl, rfl, -⟩ | rfl
    · simp
    · simp [Extent.toFinset]
  have coverRight : cover after = cover after' ∪ Finset.Ico stop stop' := by
    rcases right with ⟨rfl, rfl, -⟩ | rfl
    · simp
    · simp [Extent.toFinset, union_comm]
  have whole : Finset.Ico start' stop' =
      Finset.Ico start' start ∪ (Finset.Ico start stop ∪ Finset.Ico stop stop') := by
    rw [Finset.Ico_union_Ico_eq_Ico nonempty.le rightNonempty,
      Finset.Ico_union_Ico_eq_Ico leftNonempty (nonempty.le.trans rightNonempty)]
  simp only [cover_append, cover_cons, Extent.toFinset, coverLeft, coverRight, whole]
  ac_rfl

theorem insertMerged_separated (nonempty : start < stop)
    (separated : Separated (before ++ after)) (below : ∀ b ∈ before, b.stop ≤ start)
    (above : ∀ a ∈ after, stop ≤ a.start) : Separated (insertMerged before start stop after) := by
  obtain ⟨before', after', start', stop', result, left, right⟩ :=
    insertMerged_eq before after start stop
  have sepBefore := separated.sublist (List.sublist_append_left before after)
  have sepAfter := separated.sublist (List.sublist_append_right before after)
  have leftOk : Separated before' ∧ start' ≤ start ∧ ∀ b ∈ before', b.stop < start' := by
    rcases left with ⟨rfl, rfl, apart⟩ | rfl
    · refine ⟨sepBefore, le_refl _, ?_⟩
      rcases List.eq_nil_or_concat before' with rfl | ⟨init, last, rfl⟩
      · simp
      · rw [List.concat_eq_append] at *
        intro b member
        have lastOk := below last (by simp)
        have lastNe : last.stop ≠ start' := apart last (by simp)
        rcases List.mem_append.mp member with member | member
        · have ⟨_, _, ordered, gap, _⟩ := sepBefore.around
          have := gap b member
          omega
        · simp only [List.mem_singleton] at member
          subst member
          omega
    · have ⟨sep, _, ordered, gap, _⟩ := sepBefore.around
      exact ⟨sep, ordered.le, gap⟩
  have rightOk : Separated after' ∧ stop ≤ stop' ∧ ∀ a ∈ after', stop' < a.start := by
    rcases right with ⟨rfl, rfl, apart⟩ | rfl
    · refine ⟨sepAfter, le_refl _, ?_⟩
      cases after' with
      | nil => simp
      | cons head tail =>
        intro a member
        have headOk := above head (by simp)
        have headNe : head.start ≠ stop' := apart head rfl
        rcases List.mem_cons.mp member with rfl | member
        · omega
        · have := (List.pairwise_cons.mp sepAfter.gaps).1 a member
          have := sepAfter.nonempty head (by simp)
          omega
    · have bounds := (List.pairwise_cons.mp sepAfter.gaps).1
      exact ⟨sepAfter.tail, (sepAfter.nonempty ⟨stop, stop'⟩ (by simp)).le, bounds⟩
  rw [result]
  exact separated_insert leftOk.1 rightOk.1 (by simp only; omega) leftOk.2.2 rightOk.2.2

/-- Every end of a segment of the new tree is an old one or that of the new segment. -/
theorem insertMerged_ends (low high : ℕ → Prop) (lows : ∀ ss ∈ before ++ after, low ss.start)
    (highs : ∀ ss ∈ before ++ after, high ss.stop) (lowStart : low start) (highStop : high stop) :
    (∀ ss ∈ insertMerged before start stop after, low ss.start) ∧
      ∀ ss ∈ insertMerged before start stop after, high ss.stop := by
  obtain ⟨before', after', start', stop', result, left, right⟩ :=
    insertMerged_eq before after start stop
  rw [result]
  have leftOk : low start' ∧ ∀ b ∈ before', b ∈ before := by
    rcases left with ⟨rfl, rfl, -⟩ | rfl
    · exact ⟨lowStart, fun b member => member⟩
    · exact ⟨lows ⟨start', start⟩ (by simp), fun b member => List.mem_append_left _ member⟩
  have rightOk : high stop' ∧ ∀ a ∈ after', a ∈ after := by
    rcases right with ⟨rfl, rfl, -⟩ | rfl
    · exact ⟨highStop, fun a member => member⟩
    · exact ⟨highs ⟨stop, stop'⟩ (by simp), fun a member => List.mem_cons_of_mem _ member⟩
  have old : ∀ ss ∈ before' ++ ⟨start', stop'⟩ :: after', ss ∈ before ++ after ∨ ss = ⟨start', stop'⟩ := by
    intro ss member
    rcases List.mem_append.mp member with member | member
    · exact .inl (List.mem_append_left _ (leftOk.2 ss member))
    · rcases List.mem_cons.mp member with rfl | member
      · exact .inr rfl
      · exact .inl (List.mem_append_right _ (rightOk.2 ss member))
  constructor <;> intro ss member <;> rcases old ss member with member | rfl
  · exact lows ss member
  · exact leftOk.1
  · exact highs ss member
  · exact rightOk.1

end Insert

section Cut

variable {before after : List SpaceSeg} {ss : SpaceSeg} {start stop : ℕ}

section

variable (separated : Separated (before ++ ss :: after)) (nonempty : start < stop) (lower : ss.start ≤ start) (upper : stop ≤ ss.stop)

include separated nonempty lower upper

theorem cutSeg_cover :
    cover (before ++ cutSeg ss start stop ++ after) = cover (before ++ ss :: after) \ Finset.Ico start stop := by
  obtain ⟨-, -, -, below, above⟩ := separated.around
  have cut : cover (cutSeg ss start stop) = ss.toFinset \ Finset.Ico start stop := by
    unfold cutSeg
    dsimp only
    ext x
    split_ifs <;> simp <;> omega
  have left : Disjoint (cover before) (Finset.Ico start stop) := by
    rw [disjoint_left]
    intro x inside
    obtain ⟨b, member, -, high⟩ := mem_cover.mp inside
    have := below b member
    simp only [mem_Ico]
    omega
  have right : Disjoint (cover after) (Finset.Ico start stop) := by
    rw [disjoint_left]
    intro x inside
    obtain ⟨a, member, low, -⟩ := mem_cover.mp inside
    have := above a member
    simp only [mem_Ico]
    omega
  simp [cut, union_sdiff_distrib, sdiff_eq_self_of_disjoint left, sdiff_eq_self_of_disjoint right]

theorem cutSeg_separated : Separated (before ++ cutSeg ss start stop ++ after) := by
  obtain ⟨left, right, -, below, above⟩ := separated.around
  unfold cutSeg
  dsimp only
  split_ifs with both onlyLeft onlyRight
  · rw [List.append_assoc]
    refine separated_insert left ?_ (by simp only; omega) (fun b member => below b member) ?_
    · exact separated_insert separated_nil right (by simp only; omega) (by simp) above
    · intro a member
      rcases List.mem_cons.mp member with rfl | member
      · exact nonempty
      · have := above a member
        simp only
        omega
  · rw [List.append_assoc]
    refine separated_insert left right (by simp only; omega) below ?_
    intro a member
    have := above a member
    simp only
    omega
  · rw [List.append_assoc]
    refine separated_insert left right (by simp only; omega) ?_ above
    intro b member
    have := below b member
    simp only
    omega
  · rw [List.append_nil]
    exact separated.sublist (List.Sublist.append_left (List.sublist_cons_self _ _) _)

end

theorem cutSeg_ends (low high : ℕ → Prop) (lows : ∀ s ∈ before ++ ss :: after, low s.start)
    (highs : ∀ s ∈ before ++ ss :: after, high s.stop) (highStart : high start)
    (lowStop : low stop) :
    (∀ s ∈ before ++ cutSeg ss start stop ++ after, low s.start) ∧
      ∀ s ∈ before ++ cutSeg ss start stop ++ after, high s.stop := by
  have cut : ∀ s ∈ cutSeg ss start stop, low s.start ∧ high s.stop := by
    unfold cutSeg
    dsimp only
    split_ifs <;> simp [*]
  have old : ∀ s ∈ before ++ cutSeg ss start stop ++ after, s ∈ before ++ ss :: after ∨ s ∈ cutSeg ss start stop := by
    intro s member
    simp only [List.mem_append, List.mem_cons] at member ⊢
    tauto
  constructor <;> intro s member <;> rcases old s member with member | member
  · exact lows s member
  · exact (cut s member).1
  · exact highs s member
  · exact (cut s member).2

end Cut

/-! ## Adding and removing -/

namespace SpaceMap

/-- The map `sm'` is `sm` with another set of offsets. -/
structure Becomes (sm sm' : SpaceMap) (offsets : Finset ℕ) : Prop where
  wf : sm'.Wf
  offsets_eq : sm'.offsets = offsets
  frame : sm'.vacated = sm.vacated

variable {sm sm' : SpaceMap} {start size : ℕ}

theorem Becomes.smLoaded_eq {offsets} (becomes : sm.Becomes sm' offsets) : sm'.smLoaded = sm.smLoaded := by
  have frame := becomes.frame
  injection frame

theorem Wf.space_eq_card (wf : sm.Wf) : sm.smSpace = sm.offsets.card := by
  rw [wf.space, offsets, card_cover wf.separated.scattered]

theorem Wf.subset_range (wf : sm.Wf) : sm.offsets ⊆ sm.range := by
  intro x inside
  obtain ⟨ss, member, low, high⟩ := mem_cover.mp inside
  have := (wf.lower ss member).1
  have := (wf.upper ss member).1
  simp only [range, mem_Ico]
  omega

theorem card_range (sm : SpaceMap) : sm.range.card = sm.smSize := by
  simp [range]

theorem Wf.space_le (wf : sm.Wf) : sm.smSpace ≤ sm.smSize := by
  rw [wf.space_eq_card, ← card_range]
  exact card_le_card wf.subset_range

theorem Wf.vacated (wf : sm.Wf) : sm.vacated.Wf where
  separated := separated_nil
  lower := by simp [SpaceMap.vacated]
  upper := by simp [SpaceMap.vacated]
  space := rfl
  bounded := wf.bounded

theorem add_spec (wf : sm.Wf) (takes : sm.Takes start size)
    (fresh : Disjoint sm.offsets (Finset.Ico start (start + size))) :
    ∃ sm', spaceMapAdd sm start size = some sm' ∧ sm.Becomes sm' (sm.offsets ∪ Finset.Ico start (start + size)) := by
  have bounded := wf.bounded
  have upper := takes.upper
  have nonempty := takes.nonempty
  have stopEq : u64 (start + size) = start + size := u64_of_lt (by omega)
  have absent : (avlFind spaceMapSegCompare ⟨start, start + size⟩ sm.smRoot).node = none := by
    cases found : (avlFind spaceMapSegCompare ⟨start, start + size⟩ sm.smRoot).node with
    | none => rfl
    | some ss =>
      obtain ⟨before, after, -, -, split, low, high⟩ :=
        avlFind_present wf.separated (by simp only; omega) found
      simp only at low high
      -- The later of the two starts lies in both.
      have member : ss ∈ sm.smRoot := by simp [split]
      have ordered := wf.separated.nonempty ss member
      exact absurd (mem_Ico.mpr ⟨le_max_left start ss.start, by omega⟩)
        (disjoint_left.mp fresh
          (mem_cover.mpr ⟨ss, member, le_max_right start ss.start, by omega⟩))
  obtain ⟨before, after, eqBefore, eqAfter, split, below, above⟩ :=
    avlFind_absent wf.separated (by simp only; omega) absent
  have separated : Separated (before ++ after) := split ▸ wf.separated
  have sepNew : Separated (insertMerged before start (start + size) after) :=
    insertMerged_separated (by omega) separated below above
  have coverNew : cover (insertMerged before start (start + size) after) = sm.offsets ∪ Ico start (start + size) := by
    rw [insertMerged_cover (by omega) separated, offsets, split]
  have ends := insertMerged_ends (fun x => sm.smStart ≤ x ∧ 2 ^ sm.smShift ∣ x)
    (fun x => x ≤ sm.smStart + sm.smSize ∧ 2 ^ sm.smShift ∣ x)
    (split ▸ wf.lower) (split ▸ wf.upper) ⟨takes.lower, takes.alignedStart⟩
    ⟨upper, takes.alignedStart.add takes.alignedSize⟩
  have totalNew : sm.smSpace + size = total (insertMerged before start (start + size) after) := by
    rw [← card_cover sepNew.scattered, coverNew, card_union_of_disjoint fresh, wf.space_eq_card]
    simp
  have wfNew : Wf { sm with
      smRoot := insertMerged before start (start + size) after
      smSpace := sm.smSpace + size } := ⟨sepNew, ends.1, ends.2, totalNew, bounded⟩
  have spaceEq : u64 (sm.smSpace + size) = sm.smSpace + size :=
    u64_of_lt (by have := wfNew.space_le; simp only at this; omega)
  refine ⟨_, ?_, wfNew, coverNew, rfl⟩
  have fits := wfNew.space_le
  simp [spaceMapAdd, stopEq, spaceEq, absent, eqBefore, eqAfter, nonempty.ne', takes.lower, upper, u64_of_lt bounded, fits, p2phase_shift, mod_eq_zero_of_dvd takes.alignedStart, mod_eq_zero_of_dvd takes.alignedSize]

theorem add_takes (bounded : sm.smStart + sm.smSize < 2 ^ 64) (small : start + size < 2 ^ 64)
    (added : spaceMapAdd sm start size = some sm') : sm.Takes start size := by
  simp only [spaceMapAdd, u64_of_lt small, u64_of_lt bounded, p2phase_shift, bind_eq_bind,
    bind_eq_some_iff, guard_eq_some, exists_const] at added
  obtain ⟨nonzero, lower, upper, -, alignedStart, alignedSize, -⟩ := added
  exact ⟨pos_of_ne_zero nonzero, lower, upper, dvd_of_mod_eq_zero alignedStart, dvd_of_mod_eq_zero alignedSize⟩

theorem Takes.subset_range (takes : sm.Takes start size) : Finset.Ico start (start + size) ⊆ sm.range :=
  Ico_subset_Ico takes.lower takes.upper

theorem takes_of_subset (nonempty : 0 < size) (alignedStart : 2 ^ sm.smShift ∣ start)
    (alignedSize : 2 ^ sm.smShift ∣ size)
    (inside : Finset.Ico start (start + size) ⊆ sm.range) : sm.Takes start size where
  nonempty := nonempty
  lower := by
    have := inside (Finset.mem_Ico.mpr ⟨le_refl start, by omega⟩)
    simp only [range, mem_Ico] at this
    exact this.1
  upper := by
    have := inside (Finset.mem_Ico.mpr ⟨by omega, by omega⟩ : start + size - 1 ∈ _)
    simp only [range, mem_Ico] at this
    omega
  alignedStart := alignedStart
  alignedSize := alignedSize

variable {ss : SpaceSeg}

/-- The search for an interval that lies inside a segment finds that segment. -/
theorem find_of_inside (wf : sm.Wf) {key : SpaceSeg} (nonempty : key.start < key.stop)
    (member : ss ∈ sm.smRoot) (lower : ss.start ≤ key.start) (upper : key.stop ≤ ss.stop) :
    (avlFind spaceMapSegCompare key sm.smRoot).node = some ss := by
  cases found : (avlFind spaceMapSegCompare key sm.smRoot).node with
  | none =>
    obtain ⟨before, after, -, -, split, below, above⟩ :=
      avlFind_absent wf.separated nonempty found
    rw [split] at member
    rcases List.mem_append.mp member with member | member
    · have := below ss member
      omega
    · have := above ss member
      omega
  | some ss' =>
    obtain ⟨before, after, -, -, split, low, high⟩ :=
      avlFind_present wf.separated nonempty found
    have separated : Separated (before ++ ss' :: after) := split ▸ wf.separated
    obtain ⟨-, -, -, below, above⟩ := separated.around
    rw [split] at member
    rcases List.mem_append.mp member with member | member
    · have := below ss member
      omega
    · rcases List.mem_cons.mp member with rfl | member
      · rfl
      · have := above ss member
        omega

theorem remove_spec (wf : sm.Wf) (nonempty : 0 < size) (alignedStart : 2 ^ sm.smShift ∣ start)
    (alignedSize : 2 ^ sm.smShift ∣ size)
    (held : Finset.Ico start (start + size) ⊆ sm.offsets) :
    ∃ sm', spaceMapRemove sm start size = some sm' ∧
      sm.Becomes sm' (sm.offsets \ Finset.Ico start (start + size)) := by
  have bounded := wf.bounded
  have takes := takes_of_subset nonempty alignedStart alignedSize (held.trans wf.subset_range)
  have upper := takes.upper
  have stopEq : u64 (start + size) = start + size := u64_of_lt (by omega)
  obtain ⟨ss, member, segLow, segHigh⟩ := wf.separated.exists_extent (by omega) held
  have found : (avlFind spaceMapSegCompare ⟨start, start + size⟩ sm.smRoot).node = some ss :=
    find_of_inside wf (by simp only; omega) member segLow segHigh
  obtain ⟨before, after, eqBefore, eqAfter, split, -, -⟩ :=
    avlFind_present wf.separated (by simp only; omega) found
  have separated : Separated (before ++ ss :: after) := split ▸ wf.separated
  have sepNew : Separated (before ++ cutSeg ss start (start + size) ++ after) :=
    cutSeg_separated separated (by omega) segLow segHigh
  have coverNew : cover (before ++ cutSeg ss start (start + size) ++ after) =
      sm.offsets \ Ico start (start + size) := by
    rw [cutSeg_cover separated (by omega) segLow segHigh, offsets, split]
  have ends := cutSeg_ends (fun x => sm.smStart ≤ x ∧ 2 ^ sm.smShift ∣ x)
    (fun x => x ≤ sm.smStart + sm.smSize ∧ 2 ^ sm.smShift ∣ x)
    (split ▸ wf.lower) (split ▸ wf.upper) ⟨by omega, alignedStart⟩
    ⟨by have := takes.lower; omega, alignedStart.add alignedSize⟩
  have sizeLe : size ≤ sm.smSpace := by
    have := card_le_card held
    simpa [wf.space_eq_card] using this
  have spaceLe := wf.space_le
  have spaceEq : u64Sub sm.smSpace size = sm.smSpace - size :=
    u64Sub_of_le sizeLe (by omega)
  have totalNew : sm.smSpace - size = total (before ++ cutSeg ss start (start + size) ++ after) := by
    rw [← card_cover sepNew.scattered, coverNew, card_sdiff_of_subset held, wf.space_eq_card]
    simp
  have wfNew : Wf { sm with
      smRoot := before ++ cutSeg ss start (start + size) ++ after
      smSpace := sm.smSpace - size } := ⟨sepNew, ends.1, ends.2, totalNew, bounded⟩
  refine ⟨_, ?_, wfNew, coverNew, rfl⟩
  simp [spaceMapRemove, stopEq, spaceEq, found, eqBefore, eqAfter, nonempty.ne', segLow, segHigh, p2phase_shift, mod_eq_zero_of_dvd alignedStart, mod_eq_zero_of_dvd alignedSize, show sm.smSpace - size ≤ sm.smSize by omega]

theorem remove_held (wf : sm.Wf) (small : start + size < 2 ^ 64) (removed : spaceMapRemove sm start size = some sm') :
    0 < size ∧ 2 ^ sm.smShift ∣ start ∧ 2 ^ sm.smShift ∣ size ∧ Finset.Ico start (start + size) ⊆ sm.offsets := by
  simp only [spaceMapRemove, u64_of_lt small, p2phase_shift, bind_eq_bind,
    bind_eq_some_iff, guard_eq_some, exists_const] at removed
  obtain ⟨nonzero, alignedStart, alignedSize, ss, found, low, high, -⟩ := removed
  refine ⟨pos_of_ne_zero nonzero, dvd_of_mod_eq_zero alignedStart, dvd_of_mod_eq_zero alignedSize, ?_⟩
  obtain ⟨before, after, -, -, split, -, -⟩ :=
    avlFind_present wf.separated (by simp only; omega) found
  intro x inside
  have bounds := mem_Ico.mp inside
  exact mem_cover.mpr ⟨ss, by simp [split], by omega, by omega⟩

theorem remove_start_lt (wf : sm.Wf) (removed : spaceMapRemove sm start size = some sm') :
    start < sm.smStart + sm.smSize := by
  simp only [spaceMapRemove, bind_eq_bind, bind_eq_some_iff, guard_eq_some, exists_const] at removed
  obtain ⟨-, -, -, ss, found, low, -⟩ := removed
  have split := avlFind_split spaceMapSegCompare ⟨start, u64 (start + size)⟩ sm.smRoot
  rw [found] at split
  have member : ss ∈ sm.smRoot := by
    rw [split]
    simp
  have before := spaceMapSegCompare_start (avlFind_node found) low (wf.separated.nonempty ss member)
  exact before.trans_le (wf.upper ss member).1

theorem remove_becomes (wf : sm.Wf) (small : start + size < 2 ^ 64)
    (removed : spaceMapRemove sm start size = some sm') :
    sm.Becomes sm' (sm.offsets \ Finset.Ico start (start + size)) := by
  obtain ⟨nonempty, alignedStart, alignedSize, held⟩ := remove_held wf small removed
  obtain ⟨sm'', removed', becomes⟩ := remove_spec wf nonempty alignedStart alignedSize held
  rw [removed, some.injEq] at removed'
  exact removed' ▸ becomes

/-! ## Whole lists of segments -/

structure Fits (sm : SpaceMap) (ss : SpaceSeg) : Prop where
  ordered : ss.start < ss.stop
  lower : sm.smStart ≤ ss.start ∧ 2 ^ sm.smShift ∣ ss.start
  upper : ss.stop ≤ sm.smStart + sm.smSize ∧ 2 ^ sm.smShift ∣ ss.stop

theorem Fits.takes (fits : sm.Fits ss) : sm.Takes ss.start (ss.stop - ss.start) where
  nonempty := Nat.sub_pos_of_lt fits.ordered
  lower := fits.lower.1
  upper := by
    have := fits.ordered
    have := fits.upper.1
    omega
  alignedStart := fits.lower.2
  alignedSize := (dvd_sub fits.upper.2 fits.lower.2)

theorem Fits.callOn_eq (fits : sm.Fits ss) (bounded : sm.smStart + sm.smSize < 2 ^ 64)
    (func : SpaceMap → ℕ → ℕ → Option SpaceMap) (mdest : SpaceMap) :
    callOn func mdest ss = func mdest ss.start (ss.stop - ss.start) := by
  have := fits.upper.1
  rw [callOn, u64Sub_of_le fits.ordered.le (by omega)]

theorem Fits.congr (fits : sm.Fits ss) (frame : sm'.vacated = sm.vacated) : sm'.Fits ss := by
  injection frame with _ _ start size shift
  exact ⟨fits.ordered, by rw [start, shift]; exact fits.lower, by rw [start, size, shift]; exact fits.upper⟩

theorem Wf.fits (wf : sm.Wf) : ∀ ss ∈ sm.smRoot, sm.Fits ss := fun ss member =>
  ⟨wf.separated.nonempty ss member, wf.lower ss member, wf.upper ss member⟩

theorem Becomes.refl (wf : sm.Wf) : sm.Becomes sm sm.offsets := ⟨wf, rfl, rfl⟩

theorem toFinset_eq_Ico (ordered : ss.start < ss.stop) :
    Finset.Ico ss.start (ss.start + (ss.stop - ss.start)) = ss.toFinset := by
  rw [Extent.toFinset, Nat.add_sub_cancel' ordered.le]

section

variable (segs : List SpaceSeg) (wf : sm.Wf) (fits : ∀ ss ∈ segs, sm.Fits ss) (scattered : Scattered segs)

include segs wf fits scattered

theorem foldlM_add (fresh : Disjoint sm.offsets (cover segs)) :
    ∃ sm', segs.foldlM (callOn spaceMapAdd) sm = some sm' ∧ sm.Becomes sm' (sm.offsets ∪ cover segs) := by
  induction segs generalizing sm with
  | nil => exact ⟨sm, rfl, by simpa using Becomes.refl wf⟩
  | cons head tail ih =>
    have headFits := fits head (by simp)
    have headFresh : Disjoint sm.offsets head.toFinset :=
      fresh.mono_right subset_union_left
    obtain ⟨next, added, becomes⟩ := add_spec wf headFits.takes
      (by rwa [toFinset_eq_Ico headFits.ordered])
    rw [toFinset_eq_Ico headFits.ordered] at becomes
    obtain ⟨final, folded, becomes'⟩ := ih becomes.wf
      (fun ss member => (fits ss (by simp [member])).congr becomes.frame)
      (List.pairwise_cons.mp scattered).2
      (by
        rw [becomes.offsets_eq, disjoint_union_left]
        exact ⟨fresh.mono_right subset_union_right, scattered.head_disjoint⟩)
    refine ⟨final, ?_, becomes'.wf, ?_, becomes'.frame.trans becomes.frame⟩
    · simp [headFits.callOn_eq wf.bounded, added, folded]
    · rw [becomes'.offsets_eq, becomes.offsets_eq, cover_cons, union_assoc]

theorem foldlM_remove (held : cover segs ⊆ sm.offsets) :
    ∃ sm', segs.foldlM (callOn spaceMapRemove) sm = some sm' ∧ sm.Becomes sm' (sm.offsets \ cover segs) := by
  induction segs generalizing sm with
  | nil => exact ⟨sm, rfl, by simpa using Becomes.refl wf⟩
  | cons head tail ih =>
    have headFits := fits head (by simp)
    have takes := headFits.takes
    have headHeld : head.toFinset ⊆ sm.offsets := subset_union_left.trans held
    obtain ⟨next, removed, becomes⟩ := remove_spec wf takes.nonempty takes.alignedStart
      takes.alignedSize (by rwa [toFinset_eq_Ico headFits.ordered])
    rw [toFinset_eq_Ico headFits.ordered] at becomes
    obtain ⟨final, folded, becomes'⟩ := ih becomes.wf
      (fun ss member => (fits ss (by simp [member])).congr becomes.frame)
      (List.pairwise_cons.mp scattered).2
      (by
        rw [becomes.offsets_eq, subset_sdiff]
        exact ⟨subset_union_right.trans held, scattered.head_disjoint.symm⟩)
    refine ⟨final, ?_, becomes'.wf, ?_, becomes'.frame.trans becomes.frame⟩
    · simp [headFits.callOn_eq wf.bounded, removed, folded]
    · rw [becomes'.offsets_eq, becomes.offsets_eq, cover_cons, sdiff_sdiff_left, sup_eq_union]

end

end SpaceMap

end MacZfs
