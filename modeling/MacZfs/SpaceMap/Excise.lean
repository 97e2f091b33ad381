import MacZfs.SpaceMap.Set

/-!
# Excising and uniting

`space_map_excise` takes whatever lies in a range out of a map, one segment after another;
`space_map_union` excises each segment of the source from the destination and then adds it. Both
end: every round of the excising loop takes at least one offset out of the range.
-/

namespace MacZfs

open Finset Extents Checked

/-- The segment at `start`, or the first one after it. -/
def exciseNext (root : List SpaceSeg) (start : ℕ) : Option SpaceSeg :=
  let pos := avlFind spaceMapSegCompare ⟨start, start⟩ root
  match pos.node with
  | some ss => some ss
  | none => pos.after.head?

/-- The loop of `space_map_excise`, of so many rounds at most. -/
def exciseLoop (start stop : ℕ) : ℕ → SpaceMap → Option SpaceMap
  | 0, _ => none
  | rounds + 1, sm =>
    match exciseNext sm.smRoot start with
    | none => some sm
    | some ss =>
      if ss.start ≥ stop then some sm
      else do
        let rmStart := max ss.start start
        let rmEnd := min ss.stop stop
        let sm ← spaceMapRemove sm rmStart (u64Sub rmEnd rmStart)
        exciseLoop start stop rounds sm

/-- `space_map_excise`. The map has `sm_space` offsets, so one more round than that is enough. -/
def spaceMapExcise (sm : SpaceMap) (start size : ℕ) : Option SpaceMap :=
  exciseLoop start (u64 (start + size)) (sm.smSpace + 1) sm

/-- One round of `space_map_union`. -/
def uniteSeg (smd : SpaceMap) (ss : SpaceSeg) : Option SpaceMap := do
  let smd ← callOn spaceMapExcise smd ss
  callOn spaceMapAdd smd ss

/-- `space_map_union`. -/
def spaceMapUnion (smd sms : SpaceMap) : Option SpaceMap := sms.smRoot.foldlM uniteSeg smd

/-! ## The next segment -/

section Next

variable (separated : Separated root) {start : ℕ} {ss : SpaceSeg}

theorem spaceMapSegCompare_point (nonempty : ss.start < ss.stop) :
    (spaceMapSegCompare ⟨start, start⟩ ss = .eq → ss.start ≤ start ∧ start < ss.stop) ∧
      (spaceMapSegCompare ⟨start, start⟩ ss = .lt → start < ss.start) := by
  unfold spaceMapSegCompare
  dsimp only
  split_ifs <;> simp <;> omega

include separated

theorem exciseNext_none (last : exciseNext root start = none) : ∀ seg ∈ root, seg.stop ≤ start := by
  have split := avlFind_split spaceMapSegCompare ⟨start, start⟩ root
  rw [exciseNext] at last
  cases node : (avlFind spaceMapSegCompare ⟨start, start⟩ root).node with
  | some found => simp only [node, reduceCtorEq] at last
  | none =>
    simp only [node, List.head?_eq_none_iff] at last
    rw [node, last, Option.toList_none, List.append_nil, List.append_nil] at split
    intro seg member
    have nonempty := separated.nonempty seg member
    rw [split] at member
    exact (spaceMapSegCompare_gt nonempty).mp (avlFind_before root seg member)

theorem exciseNext_some (next : exciseNext root start = some ss) :
    ss ∈ root ∧ start < ss.stop ∧ ∀ seg ∈ root, seg.stop ≤ start ∨ ss.start ≤ seg.start := by
  have split := avlFind_split spaceMapSegCompare ⟨start, start⟩ root
  have below : ∀ seg ∈ (avlFind spaceMapSegCompare ⟨start, start⟩ root).before, seg.stop ≤ start := by
    intro seg member
    have inside : seg ∈ root := by
      rw [split]
      exact List.mem_append_left _ member
    exact (spaceMapSegCompare_gt (separated.nonempty seg inside)).mp (avlFind_before root seg member)
  have shape : ∃ after, root = (avlFind spaceMapSegCompare ⟨start, start⟩ root).before ++ ss :: after ∧
      start < ss.stop := by
    rw [exciseNext] at next
    cases node : (avlFind spaceMapSegCompare ⟨start, start⟩ root).node with
    | some found =>
      simp only [node, Option.some.injEq] at next
      subst next
      rw [node] at split
      have inside : found ∈ root := by
        rw [split]
        simp
      exact ⟨_, split, ((spaceMapSegCompare_point (separated.nonempty found inside)).1 (avlFind_node node)).2⟩
    | none =>
      simp only [node] at next
      obtain ⟨rest, after⟩ := List.head?_eq_some_iff.mp next
      rw [node, after] at split
      have inside : ss ∈ root := by
        rw [split]
        simp
      have nonempty := separated.nonempty ss inside
      have later := (spaceMapSegCompare_point nonempty).2 (avlFind_after node ss (by rw [next]; rfl))
      exact ⟨rest, split, later.trans nonempty⟩
  obtain ⟨after, shape, overlaps⟩ := shape
  rw [shape] at separated
  obtain ⟨-, -, nonempty, -, above⟩ := separated.around
  rw [shape]
  refine ⟨by simp, overlaps, ?_⟩
  intro seg member
  rcases List.mem_append.mp member with old | new
  · exact .inl (below seg old)
  · rcases List.mem_cons.mp new with rfl | new
    · exact .inr le_rfl
    · exact .inr ((nonempty.trans (above seg new)).le)

end Next

/-! ## Excising -/

/-- What the checks of `space_map_remove` ask of a range to be excised from a set: a piece must be cut from a segment
    at a multiple of the unit, and must not be empty. -/
def Excisable (offsets : Finset ℕ) (unit start size : ℕ) : Prop :=
  (0 < start → start - 1 ∈ offsets → start ∈ offsets → 0 < size ∧ unit ∣ start) ∧
    (0 < size → start + size - 1 ∈ offsets → start + size ∈ offsets → unit ∣ start + size)

theorem Excisable.mono {offsets offsets' unit start size} (excisable : Excisable offsets unit start size)
    (sub : offsets' ⊆ offsets) : Excisable offsets' unit start size :=
  ⟨fun positive low high => excisable.1 positive (sub low) (sub high),
    fun positive low high => excisable.2 positive (sub low) (sub high)⟩

namespace SpaceMap

variable {sm : SpaceMap} {start size : ℕ}

theorem Becomes.smShift_eq {sm' offsets} (becomes : sm.Becomes sm' offsets) : sm'.smShift = sm.smShift := by
  have frame := becomes.frame
  injection frame

theorem excise_piece (wf : sm.Wf) (excisable : Excisable sm.offsets (2 ^ sm.smShift) start size) {ss}
    (member : ss ∈ sm.smRoot) (overlaps : start < ss.stop) (before : ss.start < start + size) :
    max ss.start start < min ss.stop (start + size) ∧ 2 ^ sm.smShift ∣ max ss.start start ∧
      2 ^ sm.smShift ∣ min ss.stop (start + size) ∧
      Finset.Ico (max ss.start start) (min ss.stop (start + size)) ⊆ sm.offsets := by
  have nonempty := wf.separated.nonempty ss member
  have held : ∀ x, ss.start ≤ x → x < ss.stop → x ∈ sm.offsets := fun x low high => mem_cover.mpr ⟨ss, member, low, high⟩
  have positive : 0 < size := by
    by_contra zero
    exact zero (excisable.1 (by omega) (held _ (by omega) (by omega)) (held _ (by omega) overlaps)).1
  refine ⟨by omega, ?_, ?_, ?_⟩
  · rcases le_or_gt start ss.start with whole | cut
    · rw [max_eq_left whole]
      exact (wf.lower ss member).2
    · rw [max_eq_right cut.le]
      exact (excisable.1 (by omega) (held _ (by omega) (by omega)) (held _ (by omega) overlaps)).2
  · rcases le_or_gt ss.stop (start + size) with whole | cut
    · rw [min_eq_left whole]
      exact (wf.upper ss member).2
    · rw [min_eq_right cut.le]
      exact excisable.2 positive (held _ (by omega) (by omega)) (held _ (by omega) cut)
  · intro x inside
    rw [mem_Ico] at inside
    exact held x (by omega) (by omega)

/-- The loop ends within a round more than there are offsets in the range, and takes them all out. -/
theorem exciseLoop_spec (rounds : ℕ) (wf : sm.Wf) (excisable : Excisable sm.offsets (2 ^ sm.smShift) start size)
    (enough : (sm.offsets ∩ Finset.Ico start (start + size)).card < rounds) :
    ∃ sm', exciseLoop start (start + size) rounds sm = some sm' ∧
      sm.Becomes sm' (sm.offsets \ Finset.Ico start (start + size)) := by
  induction rounds generalizing sm with
  | zero => omega
  | succ rounds ih =>
    -- nothing of the range is left when the next segment starts behind it
    have done : (∀ seg ∈ sm.smRoot, seg.stop ≤ start ∨ start + size ≤ seg.start) →
        sm.Becomes sm (sm.offsets \ Finset.Ico start (start + size)) := by
      intro apart
      have outside : Disjoint sm.offsets (Finset.Ico start (start + size)) := by
        rw [disjoint_left]
        intro x held inside
        obtain ⟨seg, member, low, high⟩ := mem_cover.mp held
        rw [mem_Ico] at inside
        have := apart seg member
        omega
      rw [sdiff_eq_self_of_disjoint outside]
      exact Becomes.refl wf
    rw [exciseLoop]
    cases next : exciseNext sm.smRoot start with
    | none =>
      exact ⟨sm, rfl, done fun seg member => .inl (exciseNext_none wf.separated next seg member)⟩
    | some ss =>
      obtain ⟨member, overlaps, first⟩ := exciseNext_some wf.separated next
      dsimp only
      split_ifs with behind
      · refine ⟨sm, rfl, done fun seg inside => ?_⟩
        exact (first seg inside).imp_right behind.trans
      obtain ⟨nonempty, alignedStart, alignedStop, held⟩ := excise_piece wf excisable member overlaps (by omega)
      have bounded := wf.bounded
      have upper := (wf.upper ss member).1
      rw [u64Sub_of_le nonempty.le (by omega)]
      generalize rmStartEq : max ss.start start = rmStart at nonempty alignedStart held ⊢
      generalize rmEndEq : min ss.stop (start + size) = rmEnd at nonempty alignedStop held ⊢
      have piece : rmStart + (rmEnd - rmStart) = rmEnd := by omega
      obtain ⟨next, removed, becomes⟩ := @remove_spec sm rmStart (rmEnd - rmStart) wf (by omega) alignedStart
        (Nat.dvd_sub alignedStop alignedStart) (by rwa [piece])
      rw [piece] at becomes
      have inRange : Finset.Ico rmStart rmEnd ⊆ Finset.Ico start (start + size) :=
        Finset.Ico_subset_Ico (by omega) (by omega)
      obtain ⟨final, looped, becomes'⟩ := ih becomes.wf
        (by
          rw [becomes.offsets_eq, becomes.smShift_eq]
          exact excisable.mono sdiff_subset)
        (by
          -- the first offset of the piece is gone
          refine lt_of_lt_of_le (card_lt_card ?_) (Nat.lt_succ_iff.mp enough)
          rw [becomes.offsets_eq, ssubset_iff_of_subset
            (inter_subset_inter_right sdiff_subset)]
          have at_ : rmStart ∈ Finset.Ico rmStart rmEnd := Finset.mem_Ico.mpr ⟨le_rfl, nonempty⟩
          refine ⟨rmStart, Finset.mem_inter.mpr ⟨held at_, inRange at_⟩, ?_⟩
          rw [mem_inter, mem_sdiff]
          exact fun both => both.1.2 at_)
      refine ⟨final, by rw [removed]; exact looped, becomes'.wf, ?_, becomes'.frame.trans becomes.frame⟩
      rw [becomes'.offsets_eq, becomes.offsets_eq, sdiff_sdiff_left, sup_eq_union, Finset.union_eq_right.mpr inRange]

theorem excise_spec (wf : sm.Wf) (inside : start + size ≤ sm.smStart + sm.smSize)
    (excisable : Excisable sm.offsets (2 ^ sm.smShift) start size) :
    ∃ sm', spaceMapExcise sm start size = some sm' ∧
      sm.Becomes sm' (sm.offsets \ Finset.Ico start (start + size)) := by
  have bounded := wf.bounded
  rw [spaceMapExcise, u64_of_lt (by omega)]
  refine exciseLoop_spec _ wf excisable (Nat.lt_succ_of_le ?_)
  rw [wf.space_eq_card]
  exact card_le_card inter_subset_left

/-! ## Uniting -/

theorem unite_spec {ss} (wf : sm.Wf) (fits : sm.Fits ss) :
    ∃ sm', uniteSeg sm ss = some sm' ∧ sm.Becomes sm' (sm.offsets ∪ ss.toFinset) := by
  have takes := fits.takes
  obtain ⟨excised, isExcised, becomes⟩ := excise_spec wf takes.upper
    ⟨fun _ _ _ => ⟨takes.nonempty, takes.alignedStart⟩, fun _ _ _ => dvd_add takes.alignedStart takes.alignedSize⟩
  have fits' := fits.congr becomes.frame
  rw [toFinset_eq_Ico fits.ordered] at becomes
  obtain ⟨final, added, becomes'⟩ := add_spec becomes.wf fits'.takes (by
    rw [toFinset_eq_Ico fits.ordered, becomes.offsets_eq]
    exact sdiff_disjoint)
  rw [toFinset_eq_Ico fits.ordered] at becomes'
  refine ⟨final, ?_, becomes'.wf, ?_, becomes'.frame.trans becomes.frame⟩
  · rw [uniteSeg, fits.callOn_eq wf.bounded, isExcised]
    simp only [Option.bind_eq_bind, Option.bind_some]
    rw [fits'.callOn_eq becomes.wf.bounded, added]
  · rw [becomes'.offsets_eq, becomes.offsets_eq, sdiff_union_self_eq_union]

theorem union_spec (wf : sm.Wf) (fits : ∀ ss ∈ sms.smRoot, sm.Fits ss) :
    ∃ sm', spaceMapUnion sm sms = some sm' ∧ sm.Becomes sm' (sm.offsets ∪ sms.offsets) := by
  rw [spaceMapUnion, offsets, offsets]
  generalize sms.smRoot = segs at fits
  induction segs generalizing sm with
  | nil => exact ⟨sm, rfl, by simpa [offsets] using Becomes.refl wf⟩
  | cons head tail ih =>
    obtain ⟨next, united, becomes⟩ := unite_spec wf (fits head (by simp))
    obtain ⟨final, folded, becomes'⟩ := ih becomes.wf
      fun ss member => (fits ss (by simp [member])).congr becomes.frame
    refine ⟨final, ?_, becomes'.wf, ?_, becomes'.frame.trans becomes.frame⟩
    · simp [united, folded]
    · rw [becomes'.offsets_eq, ← offsets, becomes.offsets_eq, cover_cons, union_assoc, offsets]

end SpaceMap

end MacZfs
