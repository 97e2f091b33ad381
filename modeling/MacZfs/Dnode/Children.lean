import MacZfs.Dnode.Freed

/-! # Blocks below a block

`free_children` clears exactly the data blocks of the range below it, and with them the indirect blocks that have
nothing left. The induction is on the level of the block.
-/

namespace MacZfs.Dnode

open Nat List

/-! ## Ancestors -/

def up (e n i : ℕ) : ℕ := i >>> (n * e)

section Ancestors

variable {e i j : ℕ}

@[simp] theorem up_zero : up e 0 i = i := by simp [up]

theorem up_add : up e (m + n) i = up e m (up e n i) := by
  rw [up, up, up, ← shiftRight_add, add_mul, add_comm]

theorem up_one : up e 1 i = i >>> e := by simp [up]

theorem up_mono (le : i ≤ j) : up e n i ≤ up e n j := by
  simp only [up, shiftRight_eq_div_pow]
  exact Nat.div_le_div_right le

theorem up_shiftLeft : up e n (i <<< (n * e)) = i := shiftLeft_shiftRight ..

theorem up_eq_iff : up e n i = j ↔ j <<< (n * e) ≤ i ∧ i < (j + 1) <<< (n * e) := by
  simp only [up, shiftRight_eq_div_pow, shiftLeft_eq]
  rw [Nat.div_eq_iff (Nat.two_pow_pos _), succ_mul]
  have := Nat.two_pow_pos (n * e)
  omega

theorem shiftLeft_succ : (i <<< e) <<< (n * e) = i <<< ((n + 1) * e) := by
  rw [← shiftLeft_add, succ_mul, Nat.add_comm]

end Ancestors

/-! ## The blocks of a range -/

section Range

variable (e blkid last : ℕ) (trunc : Bool)

def Covered (l j : ℕ) : Prop := blkid ≤ j <<< (l * e) ∧ (trunc = true ∨ (j + 1) <<< (l * e) ≤ last + 1)

/-- What is freed at the places that satisfy `P`. -/
structure FreesIn (P : ℕ × ℕ → Prop) (dn dn' : Syncing) (new : List (ℕ × ℕ)) : Prop where
  frees : Frees dn dn' new
  inside : ∀ x ∈ new, P x
  /-- No data block outside of the range. -/
  range : ∀ j, (0, j) ∈ new → blkid ≤ j ∧ j ≤ last
  /-- Every data block in the range. -/
  data : ∀ j, P (0, j) → blkid ≤ j → j ≤ last → dn'.Hole (0, j)
  /-- No indirect block that has something left. -/
  empty : ∀ l j, (l + 1, j) ∈ new → ∀ c, c >>> e = j → dn'.Hole (l, c)
  /-- Every indirect block of which the whole is in the range. -/
  covered : ∀ l j, P (l + 1, j) → Covered e blkid last trunc (l + 1) j → dn'.Hole (l + 1, j)

variable {e blkid last trunc} {new : List (ℕ × ℕ)}

theorem Covered.start_le {l j} (covered : Covered e blkid last trunc l j) : up e l blkid ≤ j := by
  have := up_mono (e := e) (n := l) covered.1
  rwa [up_shiftLeft] at this

theorem Covered.le_stop {l j} (covered : Covered e blkid last trunc l j) (within : trunc = false) :
    j ≤ up e l last := by
  rcases covered.2 with isTrunc | le
  · simp [within] at isTrunc
  · have less : j <<< (l * e) < (j + 1) <<< (l * e) := by
      simp only [shiftLeft_eq]
      exact Nat.mul_lt_mul_of_pos_right (lt_succ_self j) (Nat.two_pow_pos _)
    have := up_mono (e := e) (n := l) (show j <<< (l * e) ≤ last by omega)
    rwa [up_shiftLeft] at this

theorem Covered.child (covered : Covered e blkid last trunc (l + 1) (c >>> e)) : Covered e blkid last trunc l c := by
  obtain ⟨first, stop⟩ := covered
  obtain ⟨low, high⟩ := up_eq_iff.mp (up_one (e := e) (i := c))
  rw [one_mul] at low high
  have scale : ∀ {a b : ℕ}, a ≤ b → a <<< (l * e) ≤ b <<< (l * e) := by
    intro a b le
    simp only [shiftLeft_eq]
    exact mul_le_mul_right _ le
  rw [← shiftLeft_succ] at first stop
  refine ⟨first.trans (scale low), stop.imp_right fun le => le_trans (scale high) le⟩

namespace FreesIn

theorem refl (dn : Syncing) (nothing : ∀ x, P x → dn.Hole x) : FreesIn e blkid last trunc P dn dn [] where
  frees := Frees.refl dn
  inside := forall_mem_nil _
  range j member := by simp at member
  data j inside _ _ := nothing _ inside
  empty l j member := by simp at member
  covered l j inside _ := nothing _ inside

theorem trans (first : FreesIn e blkid last trunc P dn dn₁ new₁) (second : FreesIn e blkid last trunc Q dn₁ dn₂ new₂) :
    FreesIn e blkid last trunc (fun x => P x ∨ Q x) dn dn₂ (new₁ ++ new₂) where
  frees := first.frees.trans second.frees
  inside x member := by
    rcases mem_append.mp member with early | late
    · exact .inl (first.inside x early)
    · exact .inr (second.inside x late)
  range j member := (mem_append.mp member).elim (first.range j) (second.range j)
  data j inside low high := by
    rcases inside with early | late
    · exact (second.frees.hole_iff _).mpr (.inr (first.data j early low high))
    · exact second.data j late low high
  empty l j member c child := by
    rcases mem_append.mp member with early | late
    · exact (second.frees.hole_iff _).mpr (.inr (first.empty l j early c child))
    · exact second.empty l j late c child
  covered l j inside all := by
    rcases inside with early | late
    · exact (second.frees.hole_iff _).mpr (.inr (first.covered l j early all))
    · exact second.covered l j late all

theorem widen (right : FreesIn e blkid last trunc P dn dn₁ new) (more : ∀ x, P x → Q x)
    (data : ∀ j, Q (0, j) → blkid ≤ j → j ≤ last → P (0, j) ∨ dn.Hole (0, j))
    (covered : ∀ l j, Q (l + 1, j) → Covered e blkid last trunc (l + 1) j → P (l + 1, j) ∨ dn.Hole (l + 1, j)) :
    FreesIn e blkid last trunc Q dn dn₁ new where
  frees := right.frees
  inside x member := more x (right.inside x member)
  range := right.range
  data j inside low high := by
    rcases data j inside low high with here | hole
    · exact right.data j here low high
    · exact (right.frees.hole_iff _).mpr (.inr hole)
  empty := right.empty
  covered l j inside all := by
    rcases covered l j inside all with here | hole
    · exact right.covered l j here all
    · exact (right.frees.hole_iff _).mpr (.inr hole)

end FreesIn

structure Sane (e last : ℕ) (trunc : Bool) (levels : ℕ) (dn : Syncing) : Prop where
  shift : dn.phys.epbs = e
  beyond : trunc = true → ∀ l i, up e l last < i → dn.Hole (l, i)
  below : ∀ l i, l + 1 < levels → dn.Hole (l + 1, i >>> e) → dn.Hole (l, i)

theorem FreesIn.sane {levels} (frees : FreesIn e blkid last trunc P dn dn₁ new)
    (sane : Sane e last trunc levels dn) : Sane e last trunc levels dn₁ where
  shift := frees.frees.epbs.trans sane.shift
  beyond isTrunc l i more := (frees.frees.hole_iff _).mpr (.inr (sane.beyond isTrunc l i more))
  below l i inTree hole := by
    rcases (frees.frees.hole_iff _).mp hole with freed | before
    · exact frees.empty l _ freed i rfl
    · exact (frees.frees.hole_iff _).mpr (.inr (sane.below l i inTree before))

end Range

/-! ## The pointers of one block -/

theorem child_iff {e b c} : c >>> e = b ↔ b <<< e ≤ c ∧ c < (b + 1) <<< e := by
  have := up_eq_iff (e := e) (n := 1) (i := c) (j := b)
  rwa [up_one, one_mul] at this

def childList (e blkid nblks : ℕ) (trunc : Bool) (dbLevel dbBlkid : ℕ) : List ℕ :=
  let (start, stop, _) := childRange e blkid nblks trunc dbLevel dbBlkid
  List.range' start (stop + 1 - start)

section ChildRange

variable {e blkid : ℕ} {trunc : Bool}

theorem mem_childList : c ∈ childList e blkid nblks trunc (n + 1) b ↔
    c >>> e = b ∧ up e n blkid ≤ c ∧ c ≤ up e n (blkid + nblks - 1) := by
  have less : b <<< e < (b + 1) <<< e := (child_iff (c := b <<< e)).mp (shiftLeft_shiftRight ..) |>.2
  simp only [childList, childRange, Nat.add_sub_cancel, child_iff, up]
  generalize b <<< e = dbstart, (b + 1) <<< e = dbend, blkid >>> (n * e) = start,
    (blkid + nblks - 1) >>> (n * e) = stop at *
  split_ifs <;> simp only [mem_range'_1] <;> omega

theorem childRange_all (all : (childRange e blkid nblks trunc (n + 1) b).2.2 = true) (child : c >>> e = b) :
    c ∈ childList e blkid nblks trunc (n + 1) b ∨ trunc = true ∧ up e n (blkid + nblks - 1) < c := by
  rw [mem_childList, child]
  rw [child_iff] at child
  simp only [childRange, Nat.add_sub_cancel, up] at all ⊢
  split_ifs at all <;> simp_all <;> omega

theorem childRange_covered (covered : Covered e blkid (blkid + nblks - 1) trunc (n + 1) b) :
    (childRange e blkid nblks trunc (n + 1) b).2.2 = true := by
  have less : b <<< e < (b + 1) <<< e := (child_iff (c := b <<< e)).mp (shiftLeft_shiftRight ..) |>.2
  obtain ⟨first, stop⟩ := covered
  rw [← shiftLeft_succ] at first stop
  have start : up e n blkid ≤ b <<< e := by
    have := up_mono (e := e) (n := n) first
    rwa [up_shiftLeft] at this
  have inside : trunc = true ∨ (b + 1) <<< e - 1 ≤ up e n (blkid + nblks - 1) := by
    refine stop.imp_right fun le => ?_
    have shorter : ((b + 1) <<< e - 1) <<< (n * e) < (b + 1) <<< e <<< (n * e) := by
      simp only [shiftLeft_eq _ (n * e)]
      exact Nat.mul_lt_mul_of_pos_right (by omega) (Nat.two_pow_pos _)
    have := up_mono (e := e) (n := n) (show ((b + 1) <<< e - 1) <<< (n * e) ≤ blkid + nblks - 1 by omega)
    rwa [up_shiftLeft] at this
  simp only [childRange, Nat.add_sub_cancel, up] at start inside ⊢
  have notBefore : ¬b <<< e < blkid >>> (n * e) := not_lt.mpr start
  rcases inside with isTrunc | le
  · simp only [notBefore, isTrunc, if_false, if_true]
    split_ifs <;> rfl
  · simp [notBefore, le]

end ChildRange

/-! ## Blocks below a block -/

def Below (e level : ℕ) (blocks : ℕ → Prop) (x : ℕ × ℕ) : Prop := x.1 < level ∧ blocks (up e (level - x.1) x.2)

def AtOrBelow (e level : ℕ) (blocks : ℕ → Prop) (x : ℕ × ℕ) : Prop :=
  x.1 ≤ level ∧ blocks (up e (level - x.1) x.2)

section Children

variable {e blkid last i : ℕ} {trunc : Bool}

theorem atOrBelow_iff : AtOrBelow e n (· = i) x ↔ Below e n (· = i) x ∨ x = (n, i) := by
  obtain ⟨l, j⟩ := x
  simp only [AtOrBelow, Below, Prod.mk.injEq]
  constructor
  · rintro ⟨le, same⟩
    rcases lt_or_eq_of_le le with less | rfl
    · exact .inl ⟨less, same⟩
    · rw [Nat.sub_self, up_zero] at same
      exact .inr ⟨rfl, same⟩
  · rintro (⟨less, same⟩ | ⟨rfl, rfl⟩)
    · exact ⟨less.le, same⟩
    · exact ⟨le_rfl, by rw [Nat.sub_self, up_zero]⟩

theorem Sane.hole_below (sane : Sane e last trunc levels dn) (inTree : level < levels)
    (hole : dn.Hole (level, i)) (under : AtOrBelow e level (· = i) x) : dn.Hole x := by
  obtain ⟨l, j⟩ := x
  obtain ⟨le, same⟩ := under
  obtain ⟨m, rfl⟩ := Nat.exists_eq_add_of_le le
  simp only [Nat.add_sub_cancel_left] at same
  clear le
  induction m generalizing i with
  | zero =>
    rw [up_zero] at same
    exact same ▸ hole
  | succ m ih =>
    rw [add_comm m 1, up_add, up_one] at same
    subst same
    exact ih (by omega) (sane.below _ _ (by omega) hole) rfl

/-- What `free_children` does below a block of level `n + 1`, and when it says that nothing is left there. -/
structure FreesBelow (e blkid last : ℕ) (trunc : Bool) (n b : ℕ) (dn : Syncing) (result : Syncing × Bool) : Prop where
  frees : ∃ new, FreesIn e blkid last trunc (Below e (n + 1) (· = b)) dn result.1 new
  empty : result.2 = true → ∀ c, c >>> e = b → result.1.Hole (n, c)
  covered : Covered e blkid last trunc (n + 1) b → result.2 = true

theorem freeOne_frees (blkid last) (trunc) (empty : ∀ c, c >>> e = i → dn.Hole (n, c)) :
    ∃ new, FreesIn e blkid last trunc (· = (n + 1, i)) dn (freeBlocks dn (n + 1) i 1) new := by
  have frees := freeBlocks_frees dn (n + 1) i 1
  have places : ∀ x ∈ heldAt dn (n + 1) (range' i 1), x = (n + 1, i) := by
    intro x member
    obtain ⟨⟨level, inside⟩, _⟩ := mem_heldAt.mp member
    exact Prod.ext level (by simpa using inside)
  refine ⟨_, frees, places, fun j member => ?_, fun j inside => ?_, fun l j member c child => ?_, fun l j inside _ => ?_⟩
  · simpa using places _ member
  · simp at inside
  · obtain ⟨rfl, rfl⟩ : l = n ∧ j = i := by simpa using places _ member
    exact (frees.hole_iff _).mpr (.inr (empty c child))
  · obtain ⟨rfl, rfl⟩ : l = n ∧ j = i := by simpa using inside
    exact freeBlocks_hole dn le_rfl (lt_succ_self _)

theorem freeData_frees (trunc) (within : ∀ i ∈ range' first num, blkid ≤ i ∧ i ≤ last) :
    ∃ new, FreesIn e blkid last trunc (AtOrBelow e 0 (· ∈ range' first num)) dn (freeBlocks dn 0 first num) new := by
  refine ⟨_, freeBlocks_frees dn 0 first num, fun x member => ?_, fun j member => ?_, fun j ⟨_, inside⟩ _ _ => ?_,
    fun l j member => ?_, fun l j ⟨le, _⟩ => ?_⟩
  · obtain ⟨⟨level, inside⟩, _⟩ := mem_heldAt.mp member
    exact ⟨level.le, by rwa [level, Nat.sub_self, up_zero]⟩
  · exact within j (mem_heldAt.mp member).1.2
  · rw [Nat.sub_self, up_zero] at inside
    obtain ⟨low, high⟩ := mem_range'_1.mp inside
    exact freeBlocks_hole dn low high
  · simpa using (mem_heldAt.mp member).1.1
  · simp at le

theorem freeIndirect_frees (all : Bool) (sane : Sane e last trunc levels dn)
    (inTree : n + 1 < levels) (spec : FreesBelow e blkid last trunc n i dn (children dn i)) :
    let result := freeIndirect children (n + 1) (dn, all) i
    (∃ new, FreesIn e blkid last trunc (AtOrBelow e (n + 1) (· = i)) dn result.1 new) ∧
      (result.2 = true → all = true ∧ result.1.Hole (n + 1, i)) ∧
      (all = true → Covered e blkid last trunc (n + 1) i → result.2 = true) := by
  intro result
  by_cases hole : dn.Hole (n + 1, i)
  · have same : result = (dn, all) := if_pos hole
    rw [same]
    exact ⟨⟨[], FreesIn.refl dn fun x under => sane.hole_below inTree hole under⟩, fun isAll => ⟨isAll, hole⟩,
      fun isAll _ => isAll⟩
  · obtain ⟨⟨new, frees⟩, empty, covered⟩ := spec
    cases done : children dn i with
    | mk dn₁ emptied =>
      rw [done] at frees empty covered
      cases emptied with
      | true =>
        have round : result = (freeBlocks dn₁ (n + 1) i 1, all) := (if_neg hole).trans (by rw [done])
        rw [round]
        obtain ⟨new₁, frees₁⟩ := freeOne_frees blkid last trunc (empty rfl)
        refine ⟨⟨new ++ new₁, ?_⟩, fun isAll => ⟨isAll, freeBlocks_hole dn₁ le_rfl (lt_succ_self _)⟩,
          fun isAll _ => isAll⟩
        exact (frees.trans frees₁).widen (fun x => atOrBelow_iff.mpr) (fun j inside _ _ => .inl (atOrBelow_iff.mp inside))
          fun l j inside _ => .inl (atOrBelow_iff.mp inside)
      | false =>
        have round : result = (dn₁, false) := (if_neg hole).trans (by rw [done])
        rw [round]
        refine ⟨⟨new, frees.widen (fun x under => atOrBelow_iff.mpr (.inl under)) (fun j inside _ _ => ?_)
          fun l j inside whole => ?_⟩, fun isAll => by simp at isAll, fun _ whole => covered whole⟩
        · exact (atOrBelow_iff.mp inside).elim .inl fun here => by simp at here
        · refine (atOrBelow_iff.mp inside).elim .inl fun here => ?_
          obtain ⟨rfl, rfl⟩ : l = n ∧ j = i := by simpa using here
          simpa using covered whole

theorem foldl_freeIndirect (inTree : n + 1 < levels)
    (spec : ∀ dn i, Sane e last trunc levels dn → FreesBelow e blkid last trunc n i dn (children dn i)) (blocks : List ℕ) :
    ∀ (dn : Syncing) (all : Bool), Sane e last trunc levels dn →
      let result := blocks.foldl (freeIndirect children (n + 1)) (dn, all)
      (∃ new, FreesIn e blkid last trunc (AtOrBelow e (n + 1) (· ∈ blocks)) dn result.1 new) ∧
        (result.2 = true → all = true ∧ ∀ i ∈ blocks, result.1.Hole (n + 1, i)) ∧
        (all = true → (∀ i ∈ blocks, Covered e blkid last trunc (n + 1) i) → result.2 = true) := by
  induction blocks with
  | nil =>
    intro dn all _
    refine ⟨⟨[], FreesIn.refl dn fun x under => ?_⟩, fun isAll => ⟨isAll, forall_mem_nil _⟩, fun isAll _ => isAll⟩
    simpa using under.2
  | cons i blocks ih =>
    intro dn all sane
    obtain ⟨⟨new, frees⟩, empty, covered⟩ := freeIndirect_frees all sane inTree (spec dn i sane)
    rw [foldl_cons]
    cases round : freeIndirect children (n + 1) (dn, all) i with
    | mk dn₁ all₁ =>
      simp only [round] at frees empty covered
      obtain ⟨⟨new₁, frees₁⟩, empty₁, covered₁⟩ := ih dn₁ all₁ (frees.sane sane)
      have split : ∀ x, AtOrBelow e (n + 1) (· ∈ i :: blocks) x ↔
          AtOrBelow e (n + 1) (· = i) x ∨ AtOrBelow e (n + 1) (· ∈ blocks) x := fun x => by
        simp [AtOrBelow, ← and_or_left]
      refine ⟨⟨new ++ new₁, ?_⟩, fun isAll => ?_, fun isAll whole => ?_⟩
      · exact (frees.trans frees₁).widen (fun x => (split x).mpr) (fun j inside _ _ => .inl ((split _).mp inside))
          fun l j inside _ => .inl ((split _).mp inside)
      · obtain ⟨before, rest⟩ := empty₁ isAll
        obtain ⟨first, hole⟩ := empty before
        exact ⟨first, forall_mem_cons.mpr ⟨(frees₁.frees.hole_iff _).mpr (.inr hole), rest⟩⟩
      · obtain ⟨here, rest⟩ := forall_mem_cons.mp whole
        exact covered₁ (covered isAll here) rest

theorem up_up {l i} (le : l ≤ n) : up e (n - l) (up e l i) = up e n i := by
  rw [← up_add, Nat.sub_add_cancel le]

theorem Sane.hole_or_under (sane : Sane e last trunc levels dn) {l j} (le : l ≤ n)
    (whole : Covered e blkid last trunc l j) :
    (up e n blkid ≤ up e (n - l) j ∧ up e (n - l) j ≤ up e n last) ∨ dn.Hole (l, j) := by
  by_cases within : j ≤ up e l last
  · exact .inl ⟨up_up (i := blkid) le ▸ up_mono whole.start_le, up_up (i := last) le ▸ up_mono within⟩
  · cases isTrunc : trunc with
    | true => exact .inr (sane.beyond isTrunc _ _ (not_le.mp within))
    | false => exact absurd (whole.le_stop isTrunc) within

/-- Below a block, what is in the range is below its children in the range. -/
theorem FreesIn.ofChildren {new} (sane : Sane e (blkid + nblks - 1) trunc levels dn)
    (frees : FreesIn e blkid (blkid + nblks - 1) trunc
      (AtOrBelow e n (· ∈ childList e blkid nblks trunc (n + 1) b)) dn dn' new) :
    FreesIn e blkid (blkid + nblks - 1) trunc (Below e (n + 1) (· = b)) dn dn' new := by
  have parent : ∀ l j, l ≤ n → up e (n + 1 - l) j = up e (n - l) j >>> e := by
    intro l j le
    rw [← up_one, ← up_add]
    congr 1
    omega
  refine frees.widen (fun x ⟨le, member⟩ => ?_) (fun j ⟨less, under⟩ low high => .inl ⟨zero_le _, ?_⟩)
    fun l j ⟨less, under⟩ whole => ?_
  · refine ⟨lt_succ_of_le le, ?_⟩
    rw [parent _ _ le]
    exact (mem_childList.mp member).1
  · refine mem_childList.mpr ⟨?_, up_mono low, up_mono high⟩
    rw [← parent _ _ (zero_le _)]
    exact under
  · have le : l + 1 ≤ n := Nat.lt_succ_iff.mp less
    refine (sane.hole_or_under le whole).imp_left fun within => ⟨le, mem_childList.mpr ⟨?_, within⟩⟩
    rw [← parent _ _ le]
    exact under

/-- `free_children` -/
theorem freeChildren_frees (n) (inTree : n + 1 < levels) : ∀ (dn : Syncing) (b : ℕ), Sane e (blkid + nblks - 1) trunc levels dn →
    FreesBelow e blkid (blkid + nblks - 1) trunc n b dn (freeChildren blkid nblks trunc n dn b) := by
  -- if nothing is left in the range, nothing is left at all
  have emptied : ∀ {n : ℕ} {dn dn' : Syncing} {b : ℕ} {new : List (ℕ × ℕ)} {P : ℕ × ℕ → Prop},
      Sane e (blkid + nblks - 1) trunc levels dn → FreesIn e blkid (blkid + nblks - 1) trunc P dn dn' new →
      (childRange e blkid nblks trunc (n + 1) b).2.2 = true →
      (∀ i ∈ childList e blkid nblks trunc (n + 1) b, dn'.Hole (n, i)) → ∀ c, c >>> e = b → dn'.Hole (n, c) := by
    intro n dn dn' b new P sane frees isAll holes c child
    rcases childRange_all isAll child with member | ⟨isTrunc, beyond⟩
    · exact holes c member
    · exact (frees.sane sane).beyond isTrunc _ _ beyond
  induction n with
  | zero =>
    intro dn b sane
    have unfolded : freeChildren blkid nblks trunc 0 dn b = (freeBlocks dn 0 (childRange e blkid nblks trunc 1 b).1
          ((childRange e blkid nblks trunc 1 b).2.1 + 1 - (childRange e blkid nblks trunc 1 b).1),
          (childRange e blkid nblks trunc 1 b).2.2) := by
      rw [freeChildren, sane.shift]
    have within : ∀ i ∈ childList e blkid nblks trunc 1 b, blkid ≤ i ∧ i ≤ blkid + nblks - 1 := fun i member => by
      simpa using (mem_childList.mp member).2
    obtain ⟨new, frees⟩ := freeData_frees trunc within
    rw [unfolded]
    refine ⟨⟨new, frees.ofChildren sane⟩, fun isAll => ?_, childRange_covered⟩
    refine emptied sane frees isAll fun i member => ?_
    obtain ⟨low, high⟩ := mem_range'_1.mp member
    exact freeBlocks_hole dn low high
  | succ n ih =>
    intro dn b sane
    have unfolded : freeChildren blkid nblks trunc (n + 1) dn b =
        (childList e blkid nblks trunc (n + 2) b).foldl (freeIndirect (freeChildren blkid nblks trunc n) (n + 1))
          (dn, (childRange e blkid nblks trunc (n + 2) b).2.2) := by
      rw [freeChildren, sane.shift]
      rfl
    obtain ⟨⟨new, frees⟩, empty, covered⟩ := foldl_freeIndirect (by omega) (ih (by omega)) (childList e blkid nblks trunc (n + 2) b) dn
      (childRange e blkid nblks trunc (n + 2) b).2.2 sane
    rw [unfolded]
    refine ⟨⟨new, frees.ofChildren sane⟩, fun isAll => ?_, fun whole => ?_⟩
    · obtain ⟨first, holes⟩ := empty isAll
      exact emptied sane frees first holes
    · refine covered (childRange_covered whole) fun i member => ?_
      have child := (mem_childList.mp member).1
      exact (child ▸ whole).child

end Children

end MacZfs.Dnode
