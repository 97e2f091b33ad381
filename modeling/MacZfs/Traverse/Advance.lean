import MacZfs.Traverse.Find

/-!
# Moving the bookmark on

From a block that was visited the bookmark goes to the first block below it, and from all others to what comes
after them in preorder. Between the two there is nothing to visit.
-/

namespace MacZfs.Traverse

open Preorder Nat DnodePhys

variable {disk : Disk} {dn : DnodePhys} {mintxg l b : ℕ} {holes : Bool} {bp : Blkptr}

theorem climb_eq (w room : ℕ) : climb w room l b = carry w room l b := by
  induction room generalizing l b with
  | zero => rfl
  | succ room ih =>
    rw [climb, carry, p2phase_shift]
    by_cases aligned : b % 2 ^ w = 0
    · rw [if_neg (not_not.mpr aligned), if_pos aligned, ih, shiftRight_eq_div_pow]
    · rw [if_pos aligned, if_neg aligned]

section

variable (sane : dn.Sane disk) (low : l ≤ dn.maxlevel) (at_ : dn.ptr disk l b = some bp)

include sane low at_

theorem DnodePhys.Sane.start_lt : start dn.wshift l (b + 1) < 2 ^ 64 := by
  have few := up_lt_nblkptr low at_
  have fits := sane.fits
  rw [up, Nat.div_lt_iff_lt_mul (Nat.two_pow_pos _)] at few
  calc start dn.wshift l (b + 1)
      ≤ dn.dnNblkptr * 2 ^ ((dn.maxlevel - l) * dn.wshift) * 2 ^ (l * dn.wshift) := Nat.mul_le_mul_right _ few
    _ = dn.dnNblkptr * 2 ^ (dn.maxlevel * dn.wshift) := (start_up low).symm
    _ < 2 ^ 64 := fits

theorem nextBlock_down (pos : 0 < l) : nextBlock dn l b .ok true = some (l - 1, b * 2 ^ dn.wshift) := by
  have wide : b * 2 ^ dn.wshift < 2 ^ 64 := by
    refine lt_of_le_of_lt ?_ (sane.start_lt low at_)
    exact Nat.mul_le_mul (le_succ b) (Nat.pow_le_pow_right (by decide) (Nat.le_mul_of_pos_left _ pos))
  rw [nextBlock, if_pos rfl, if_pos ⟨pos, rfl⟩, shiftLeft_eq, u64_of_lt wide]

theorem nextBlock_across (across : ¬(l > 0 ∧ rc = .ok)) : nextBlock dn l b rc true =
      if start dn.wshift l (b + 1) > dn.dnMaxblkid then none
      else some (carry dn.wshift (dn.maxlevel - l) l (b + 1)) := by
  have wide := sane.start_lt low at_
  rw [start] at wide
  rw [nextBlock, if_pos rfl, if_neg across]
  dsimp only
  rw [climb_eq, shiftLeft_eq, u64_of_lt wide, start]

end

theorem rank_le_of_closed (visited : dn.Visited disk mintxg holes m c bp') (low : l ≤ dn.maxlevel)
    (closed : l = 0 ∨ ¬dn.Inner disk mintxg l b) (next : carry dn.wshift (dn.maxlevel - l) l (b + 1) = (n, d))
    (after : rank dn.wshift dn.maxlevel l b < rank dn.wshift dn.maxlevel m c) :
    rank dn.wshift dn.maxlevel n d ≤ rank dn.wshift dn.maxlevel m c := by
  by_contra before
  obtain ⟨lt, above⟩ := between low visited.low after next (not_le.mp before)
  rcases closed with leaf | closed
  · omega
  · exact closed (above ▸ visited.opened l lt low)

structure Front (disk : Disk) (dn : DnodePhys) (mintxg l b : ℕ) : Prop where
  low : l ≤ dn.maxlevel
  opened : dn.Open disk mintxg l b
  inside : start dn.wshift l b ≤ dn.dnMaxblkid

def Leads (disk : Disk) (dn : DnodePhys) (mintxg : ℕ) (holes : Bool) (l b : ℕ) : Option (ℕ × ℕ) → Prop
  | none => ∀ m c bp, dn.Visited disk mintxg holes m c bp →
      rank dn.wshift dn.maxlevel m c ≤ rank dn.wshift dn.maxlevel l b
  | some (n, d) => Front disk dn mintxg n d ∧ rank dn.wshift dn.maxlevel l b < rank dn.wshift dn.maxlevel n d ∧
      ∀ m c bp, dn.Visited disk mintxg holes m c bp →
        rank dn.wshift dn.maxlevel l b < rank dn.wshift dn.maxlevel m c →
        rank dn.wshift dn.maxlevel n d ≤ rank dn.wshift dn.maxlevel m c

theorem leads_across (sane : dn.Sane disk) (low : l ≤ dn.maxlevel) (opened : dn.Open disk mintxg l b)
    (at_ : dn.ptr disk l b = some bp) (rc) (across : ¬(l > 0 ∧ rc = .ok)) (closed : l = 0 ∨ ¬dn.Inner disk mintxg l b) :
    Leads disk dn mintxg holes l b (nextBlock dn l b rc true) := by
  rw [nextBlock_across sane low at_ across]
  obtain ⟨n, d, next, above, high, -, same, -⟩ := carry_spec (w := dn.wshift) (l := l) (b := b + 1) (dn.maxlevel - l)
  have top : n ≤ dn.maxlevel := by omega
  have later : start dn.wshift l b < start dn.wshift n d := by
    rw [same]
    exact Nat.mul_lt_mul_of_pos_right (lt_succ_self b) (Nat.two_pow_pos _)
  split_ifs with beyond
  · intro m c bp' visited
    by_contra after
    have le := rank_le_of_closed visited low closed next (not_le.mp after)
    have inside := start_le_of_rank_le top visited.low le
    have := visited.inside
    omega
  · rw [next]
    refine ⟨⟨top, fun m lt high => ?_, by omega⟩, (rank_lt_iff low top).mpr (.inl later), fun m c bp' visited => ?_⟩
    · rw [up_carry next lt (by omega)]
      exact opened m (by omega) high
    · exact rank_le_of_closed visited low closed next

theorem Front.down (front : Front disk dn mintxg l b) (sane : dn.Sane disk) (at_ : dn.ptr disk l b = some bp)
    (young : mintxg < bp.blkBirth) (pos : 0 < l) : Leads disk dn mintxg holes l b (nextBlock dn l b .ok true) := by
  rw [nextBlock_down sane front.low at_ pos]
  obtain ⟨below, rfl⟩ : ∃ below, l = below + 1 := ⟨l - 1, by omega⟩
  have step : rank dn.wshift dn.maxlevel below (b * 2 ^ dn.wshift) = rank dn.wshift dn.maxlevel (below + 1) b + 1 :=
    rank_down front.low
  have above : up dn.wshift below (b * 2 ^ dn.wshift) (below + 1) = b := by
    rw [up_succ, Nat.mul_div_cancel _ (Nat.two_pow_pos _)]
  have low := front.low
  rw [Nat.add_sub_cancel]
  refine ⟨⟨by omega, ?_, ?_⟩, by omega, fun m c bp' _ after => by omega⟩
  · exact open_down (above.symm ▸ front.opened) (above.symm ▸ at_) young
  · have le := front.inside
    rw [start_up (le_succ below)] at le
    simpa [start] using le

theorem Front.leads (front : Front disk dn mintxg l b) (sane : dn.Sane disk) (visited : dn.Visited disk mintxg holes l b bp) :
    Leads disk dn mintxg holes l b (nextBlock dn l b (if bp.isHole then .enotblk else .ok) true) := by
  by_cases hole : bp.isHole
  · rw [if_pos hole]
    refine leads_across sane front.low front.opened visited.at_ .enotblk (by simp) (.inr ?_)
    rintro ⟨bp', at_, young⟩
    obtain rfl := Option.some.inj (visited.at_.symm.trans at_)
    exact absurd (not_hole young) (by simp [hole])
  · rw [if_neg hole]
    cases l with
    | zero => exact leads_across sane front.low front.opened visited.at_ .ok (by simp) (.inl rfl)
    | succ l => exact front.down sane visited.at_ (young_of_wanted visited.wanted (by simpa using hole)) (succ_pos l)

theorem leads_beyond (beyond : dn.dnNblkptr ≤ up dn.wshift l b dn.maxlevel) (low : l ≤ dn.maxlevel) :
    Leads disk dn mintxg holes l b none := by
  intro m c bp visited
  have few := up_lt_nblkptr visited.low visited.at_
  have before := start_lt_of_up_le (w := dn.wshift) (b := c) visited.low (le_sub_one_of_lt (lt_of_lt_of_le few beyond))
  refine le_of_lt ((rank_lt_iff visited.low low).mpr (.inl (lt_of_lt_of_le before ?_)))
  rw [Nat.sub_add_cancel (by omega), start_up low, start]
  exact Nat.mul_le_mul_right _ (div_mul_le_self _ _)

/-- The block that `find_block` ends at is at the level of the place. -/
theorem FoundAt.level_eq (found : FoundAt disk dn mintxg holes l b rc m c)
    (opened : dn.Open disk mintxg l b) : m = l := by
  by_contra other
  have lt : l < m := lt_of_le_of_ne found.le (Ne.symm other)
  obtain ⟨bp, at_, young⟩ := opened m lt found.low
  by_cases ok : rc = .ok
  · obtain ⟨rfl, bp', at_', -, same | hole⟩ := found.found ok
    · exact other same
    · obtain rfl := Option.some.inj (at_.symm.trans at_')
      exact absurd (not_hole young) (by simp [hole])
  · obtain ⟨-, le, -, none⟩ := found.passed ok
    obtain ⟨bp', at_', unwanted⟩ := none _ le_rfl le
    obtain rfl := Option.some.inj (at_.symm.trans at_')
    simp [wanted, young] at unwanted

/-- Blocks side by side that are passed over, and all that is below them. -/
theorem rank_lt_of_passed (visited : dn.Visited disk mintxg holes m c bp') (low : l ≤ dn.maxlevel)
    (after : rank dn.wshift dn.maxlevel l b ≤ rank dn.wshift dn.maxlevel m c) (j : ℕ)
    (aside : b % 2 ^ dn.wshift + j < 2 ^ dn.wshift)
    (none : ∀ i, b ≤ i → i ≤ b + j → ∃ bp, dn.ptr disk l i = some bp ∧ wanted mintxg holes bp = false) :
    rank dn.wshift dn.maxlevel l (b + j) < rank dn.wshift dn.maxlevel m c := by
  have unvisited : ∀ i, b ≤ i → i ≤ b + j → rank dn.wshift dn.maxlevel l i ≠ rank dn.wshift dn.maxlevel m c := by
    intro i ge le same
    obtain ⟨rfl, rfl⟩ := rank_inj low visited.low same
    obtain ⟨bp, at_, unwanted⟩ := none i ge le
    obtain rfl := Option.some.inj (visited.at_.symm.trans at_)
    exact absurd visited.wanted (by simp [unwanted])
  induction j with
  | zero => exact lt_of_le_of_ne after (unvisited b le_rfl le_rfl)
  | succ j ih =>
    have lt := ih (by omega) (fun i ge le => none i ge (by omega)) fun i ge le => unvisited i ge (by omega)
    have closed : ¬dn.Inner disk mintxg l (b + j) := by
      rintro ⟨bp, at_, young⟩
      obtain ⟨bp'', at_', unwanted⟩ := none (b + j) (by omega) (by omega)
      obtain rfl := Option.some.inj (at_.symm.trans at_')
      simp [wanted, young] at unwanted
    have inner : (b + j + 1) % 2 ^ dn.wshift ≠ 0 := by
      have split : b + j + 1 = 2 ^ dn.wshift * (b / 2 ^ dn.wshift) + (b % 2 ^ dn.wshift + (j + 1)) := by
        have := div_add_mod b (2 ^ dn.wshift)
        omega
      rw [split, mul_add_mod, mod_eq_of_lt aside]
      omega
    have le := rank_le_of_closed visited low (.inr closed) (carry_inner inner _) lt
    exact lt_of_le_of_ne le (unvisited (b + j + 1) (by omega) (by omega))

/-- From the last of some blocks side by side that are passed over. -/
theorem Front.passed (front : Front disk dn mintxg l b) (sane : dn.Sane disk) (le : b ≤ c)
    (aside : b % 2 ^ dn.wshift + (c - b) < 2 ^ dn.wshift)
    (none : ∀ i, b ≤ i → i ≤ c → ∃ bp, dn.ptr disk l i = some bp ∧ wanted mintxg holes bp = false) :
    Leads disk dn mintxg holes l b (nextBlock dn l c .enotblk true) ∧ ∀ bp, ¬dn.Visited disk mintxg holes l b bp := by
  obtain ⟨j, rfl⟩ := Nat.exists_eq_add_of_le le
  rw [Nat.add_sub_cancel_left] at aside
  have unvisited : ∀ bp, ¬dn.Visited disk mintxg holes l b bp := by
    intro bp visited
    exact lt_irrefl _ (rank_lt_of_passed visited front.low le_rfl 0 (by omega) fun i ge le' => none i ge (by omega))
  refine ⟨?_, unvisited⟩
  obtain ⟨bp, at_, unwanted⟩ := none (b + j) le le_rfl
  have opened : dn.Open disk mintxg l (b + j) := fun m lt top => by
    rw [up_aside aside lt]
    exact front.opened m lt top
  have closed : ¬dn.Inner disk mintxg l (b + j) := by
    rintro ⟨bp', at_', young⟩
    obtain rfl := Option.some.inj (at_.symm.trans at_')
    simp [wanted, young] at unwanted
  have leads : Leads disk dn mintxg holes l (b + j) _ :=
    leads_across sane front.low opened at_ .enotblk (by simp) (.inr closed)
  have same_level : rank dn.wshift dn.maxlevel l b ≤ rank dn.wshift dn.maxlevel l (b + j) := by
    refine Nat.add_le_add_right (Nat.mul_le_mul_right _ (Nat.mul_le_mul_right _ ?_)) _
    omega
  cases next : nextBlock dn l (b + j) .enotblk true with
  | none =>
    rw [next] at leads
    intro m c bp' visited
    by_contra after
    have := rank_lt_of_passed visited front.low (not_le.mp after).le j aside none
    have := leads m c bp' visited
    omega
  | some place =>
    rw [next] at leads
    refine ⟨leads.1, lt_of_le_of_lt same_level leads.2.1, fun m c bp' visited after => ?_⟩
    exact leads.2.2 m c bp' visited (rank_lt_of_passed visited front.low after.le j aside none)

/-! ## Bookmarks -/

section Bookmarks

variable {szb ezb : Zbookmark}

/-- An `objset_phys_t` is before all else of its objset. -/
theorem compare_osphys (same : szb.zbObjset = ezb.zbObjset) (osphys : szb.zbLevel = -1) (low : 0 ≤ ezb.zbLevel) :
    compareBookmark szb ezb dnp true < 0 := by
  simp only [compareBookmark, biased, biasedLevel, same, osphys, if_true, lt_irrefl, gt_iff_lt, if_false]
  omega

theorem compare_object (same : szb.zbObjset = ezb.zbObjset) (low : 0 ≤ szb.zbLevel) (low' : 0 ≤ ezb.zbLevel)
    (lt : szb.zbObject < ezb.zbObject) : compareBookmark szb ezb dnp true = -1 := by
  simp only [compareBookmark, biased, same, if_true, lt_irrefl, gt_iff_lt, if_false]
  rw [if_neg (not_or.mpr ⟨not_lt.mpr low, not_lt.mpr low'⟩), if_pos lt]

theorem blkoff_eq {w m : ℕ} {zb : Zbookmark} (at_level : zb.zbLevel = m) (fits : start w m zb.zbBlkid < 2 ^ 64) :
    blkoff true w zb = start w m zb.zbBlkid := by
  rw [start] at fits
  rw [blkoff, if_pos rfl, at_level, Int.toNat_natCast, shiftLeft_eq, u64_of_lt fits, start]

theorem compare_blkoff (same : szb.zbObjset = ezb.zbObjset) (same' : szb.zbObject = ezb.zbObject) (low : 0 ≤ szb.zbLevel)
    (low' : 0 ≤ ezb.zbLevel) (lt : blkoff true dn.wshift szb < blkoff true dn.wshift ezb) :
    compareBookmark szb ezb (some dn) true = -1 := by
  simp only [compareBookmark, biased, same, same', if_true, lt_irrefl, gt_iff_lt, if_false]
  rw [if_neg (not_or.mpr ⟨not_lt.mpr low, not_lt.mpr low'⟩), if_pos lt]

theorem compare_block {l m top : ℕ} (same : szb.zbObjset = ezb.zbObjset) (same' : szb.zbObject = ezb.zbObject)
    (at_level : szb.zbLevel = l) (at_level' : ezb.zbLevel = m) (low : l ≤ top) (low' : m ≤ top)
    (fits : start dn.wshift l szb.zbBlkid < 2 ^ 64) (fits' : start dn.wshift m ezb.zbBlkid < 2 ^ 64) :
    compareBookmark szb ezb (some dn) true < 0 ↔
      rank dn.wshift top l szb.zbBlkid < rank dn.wshift top m ezb.zbBlkid := by
  rw [rank_lt_iff low low']
  have levels : ¬(szb.zbLevel < 0 ∨ ezb.zbLevel < 0) := by omega
  simp only [compareBookmark, biased, same, same', if_true, lt_irrefl, gt_iff_lt, if_false, if_neg levels,
    blkoff_eq at_level fits, blkoff_eq at_level' fits', biasedLevel]
  split_ifs <;> omega

end Bookmarks

def Zseg.Beyond (zseg : Zseg) (objset object : ℕ) : Prop :=
  zseg.segEnd.zbObjset = objset ∧ 0 ≤ zseg.segEnd.zbLevel ∧ object < zseg.segEnd.zbObject

theorem moved_within {zseg} {zb} {dnp} (low : 0 ≤ zb.zbLevel) (beyond : zseg.Beyond zb.zbObjset zb.zbObject) :
    moved zseg zb dnp true = (.eagain, { zseg with segStart := zb }) := by
  rw [moved, compare_object beyond.1.symm low beyond.2.1 beyond.2.2, if_neg (by decide)]

end MacZfs.Traverse
