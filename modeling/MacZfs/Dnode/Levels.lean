import MacZfs.Dnode.Search

/-! # The levels of a search

The data blocks, the indirect blocks and the dnode are the levels of a search in the sense of `LevelSearch`, and
`dnode_next_offset_level` is its probe. The search is for data: `hole` is false.
-/

namespace MacZfs.Dnode

open Nat LevelSearch

/-! ## The loop over the entries of a block -/

section Scan

variable {wanted : ℕ → Bool} {step : ℕ}

theorem scan_skip (k m : ℕ) : ∀ (i offset : ℕ), (∀ j < k, wanted (i + j) = false) → offset + k * step < 2 ^ 64 →
    scan wanted step (k + m) i offset = scan wanted step m (i + k) (offset + k * step) := by
  induction k with
  | zero =>
    intro i offset _ _
    simp
  | succ k ih =>
    intro i offset none small
    have first := none 0 (succ_pos k)
    rw [add_zero] at first
    rw [succ_mul] at small ⊢
    have next := ih (i + 1) (offset + step)
      (fun j less => by simpa [add_comm, add_left_comm] using none (j + 1) (by omega)) (by omega)
    rw [add_right_comm, scan, first, u64_of_lt (by omega), if_neg (by decide), next]
    congr 1 <;> omega

theorem scan_hit (n i k offset : ℕ) (less : k < n) (hit : wanted (i + k) = true)
    (before : ∀ j < k, wanted (i + j) = false) (small : offset + k * step < 2 ^ 64) :
    scan wanted step n i offset = (true, offset + k * step) := by
  obtain ⟨m, rfl⟩ : ∃ m, n = k + (m + 1) := ⟨n - k - 1, by omega⟩
  rw [scan_skip k _ i offset before small, scan, hit]
  rfl

theorem scan_miss (n i offset) (none : ∀ j < n, wanted (i + j) = false) (small : offset + n * step < 2 ^ 64) :
    scan wanted step n i offset = (false, offset + n * step) := by
  exact scan_skip n 0 i offset none small

theorem scan_none (n) : ∀ (i offset : ℕ), (∀ j < n, wanted (i + j) = false) →
    (scan wanted step n i offset).1 = false := by
  induction n with
  | zero =>
    intro i offset _
    rfl
  | succ n ih =>
    intro i offset none
    have first := none 0 (succ_pos n)
    rw [add_zero] at first
    rw [scan, first]
    exact ih _ _ fun j less => by simpa [add_comm, add_left_comm] using none (j + 1) (by omega)

theorem scan_forward (n) : ∀ (i offset : ℕ), offset + n * step < 2 ^ 64 →
    offset ≤ (scan wanted step n i offset).2 ∧ (scan wanted step n i offset).2 < 2 ^ 64 := by
  induction n with
  | zero =>
    intro i offset small
    rw [zero_mul, add_zero] at small
    exact ⟨le_rfl, small⟩
  | succ n ih =>
    intro i offset small
    rw [succ_mul] at small
    rw [scan]
    split_ifs
    · exact ⟨le_rfl, by dsimp only; omega⟩
    · rw [u64_of_lt (by omega)]
      obtain ⟨after, bounded⟩ := ih (i + 1) (offset + step) (by omega)
      exact ⟨by omega, bounded⟩

theorem scan_mod (whole : d ∣ step) (word : d ∣ 2 ^ 64) (n) : ∀ (i offset : ℕ),
    (scan wanted step n i offset).2 % d = offset % d := by
  induction n with
  | zero => exact fun i offset => rfl
  | succ n ih =>
    intro i offset
    rw [scan]
    split_ifs
    · rfl
    · rw [ih, u64, mod_mod_of_dvd _ word, add_mod, mod_eq_zero_of_dvd whole, add_zero, mod_mod]

end Scan

/-! ## Regions and marks -/

namespace Searched

variable (dn : Searched) (blkfill txg : ℕ)

theorem span_le (pow : 9 ≤ dn.dnDatablkshift) (l) : dn.span l ≤ dn.span (l + 1) := by
  cases l with
  | zero => simpa [span] using pow
  | succ l =>
    simp only [span, succ_mul]
    omega

def shape (pow : 9 ≤ dn.dnDatablkshift) : Shape where
  size l := 2 ^ dn.span l
  fan l := 2 ^ (dn.span (l + 1) - dn.span l)
  size_pos _ := Nat.two_pow_pos _
  size_succ l := by rw [← Nat.pow_add, Nat.add_sub_cancel' (dn.span_le pow l)]

def entry : ℕ → ℕ → ℕ → Bool
  | 0, b, i => slotWanted false txg (dn.slot b i)
  | l + 1, b, i =>
    bpWanted false (u64 (blkfill <<< (l * dn.phys.epbs))) txg (dn.phys.blkptr l (b <<< dn.phys.epbs + i))

def Held (l b : ℕ) : Prop :=
  dbufHoldImpl dn.phys (dn.phys.dnNlevels - 1 - l) l b = true ∧ (txg = 0 ∨ txg < (dn.phys.blkptr l b).blkBirth)

def Marked (pow : 9 ≤ dn.dnDatablkshift) (l g : ℕ) : Prop :=
  dn.entry blkfill txg l (g / (dn.shape pow).fan l) (g % (dn.shape pow).fan l) = true

/-- The highest pointers are few, and what they lead to lies below `2 ^ 64`. -/
structure Fits : Prop where
  wf : dn.phys.Wf
  pow : 9 ≤ dn.dnDatablkshift
  few : dn.phys.dnNblkptr < 2 ^ dn.phys.epbs
  small : dn.phys.dnNblkptr * 2 ^ dn.span dn.phys.dnNlevels < 2 ^ 64

variable {dn blkfill txg} {l o b : ℕ}

section

variable (pow : 9 ≤ dn.dnDatablkshift)

include pow

theorem fan_succ (l) : (dn.shape pow).fan (l + 1) = 2 ^ dn.phys.epbs := by
  simp only [shape, span, succ_mul]
  congr 1
  omega

theorem whichblock_eq (l o) : dn.dbufWhichblock o >>> (dn.phys.epbs * l) = o / 2 ^ dn.span (l + 1) := by
  rw [dbufWhichblock, if_pos (by omega), ← shiftRight_add, shiftRight_eq_div_pow, span, add_comm, mul_comm]

theorem probe_skip (inTree : l < dn.phys.dnNlevels) (unheld : ¬dn.Held txg l (o / 2 ^ dn.span (l + 1))) :
    dnodeNextOffsetLevel dn false blkfill txg l o = (false, o) := by
  have notTop : decide (l = dn.phys.dnNlevels) = false := by simpa using inTree.ne
  simp only [dnodeNextOffsetLevel, notTop, whichblock_eq pow, Bool.not_false, Bool.true_and, Bool.false_eq_true,
    if_false]
  rw [Held, not_and_or, not_or, not_lt] at unheld
  split_ifs with unread old
  · rfl
  · rfl
  · exact absurd unheld (by simp_all)
  · exact absurd unheld (by simp_all)

/-- A block that is read is gone through from the entry around the offset. -/
theorem probe_scan (inTree : l < dn.phys.dnNlevels)
    (slots : l = 0 → blkfill = (dn.shape pow).fan 0) (held : dn.Held txg l (o / 2 ^ dn.span (l + 1))) :
    dnodeNextOffsetLevel dn false blkfill txg l o =
      scan (dn.entry blkfill txg l (o / 2 ^ dn.span (l + 1))) (2 ^ dn.span l)
        ((dn.shape pow).fan l - o / 2 ^ dn.span l % (dn.shape pow).fan l)
        (o / 2 ^ dn.span l % (dn.shape pow).fan l) o := by
  have notTop : decide (l = dn.phys.dnNlevels) = false := by simpa using inTree.ne
  obtain ⟨read, new⟩ := held
  have notOld : (decide (txg ≠ 0) && decide ((dn.phys.blkptr l (o / 2 ^ dn.span (l + 1))).blkBirth ≤ txg)) = false := by
    simp only [Bool.and_eq_false_iff, decide_eq_false_iff_not, not_not, not_le]
    exact new
  simp only [dnodeNextOffsetLevel, notTop, whichblock_eq pow, Bool.not_false, Bool.true_and, Bool.false_eq_true,
    if_false, read, Bool.not_true, notOld]
  cases l with
  | zero =>
    have slots := slots rfl
    have fan : (dn.shape pow).fan 0 = 2 ^ (dn.span 1 - dn.span 0) := rfl
    rw [if_pos rfl, slots, fan, and_two_pow_sub_one_eq_mod, shiftRight_eq_div_pow, one_shiftLeft]
    rfl
  | succ l =>
    rw [if_neg (succ_ne_zero l), fan_succ, one_shiftLeft, one_shiftLeft,
      and_two_pow_sub_one_eq_mod, shiftRight_eq_div_pow]
    rfl

end

theorem probe_top (fits : dn.Fits) (o) : dnodeNextOffsetLevel dn false blkfill txg dn.phys.dnNlevels o =
      scan (dn.entry blkfill txg dn.phys.dnNlevels 0) (2 ^ dn.span dn.phys.dnNlevels)
        (dn.phys.dnNblkptr - o / 2 ^ dn.span dn.phys.dnNlevels % 2 ^ dn.phys.epbs)
        (o / 2 ^ dn.span dn.phys.dnNlevels % 2 ^ dn.phys.epbs) o := by
  obtain ⟨l, levels⟩ : ∃ l, dn.phys.dnNlevels = l + 1 := ⟨dn.phys.dnNlevels - 1, by have := fits.wf.levels; omega⟩
  have notZero : dn.phys.dnNlevels ≠ 0 := by omega
  simp only [dnodeNextOffsetLevel, if_false, notZero, one_shiftLeft, and_two_pow_sub_one_eq_mod,
    shiftRight_eq_div_pow]
  rw [levels]
  rfl

/-! ## Probes -/

def reach (dn : Searched) : ℕ := min (2 ^ 64) (2 ^ dn.phys.epbs * 2 ^ dn.span dn.phys.dnNlevels)

theorem marked_succ (pow : 9 ≤ dn.dnDatablkshift) {l g} : dn.Marked blkfill txg pow (l + 1) g ↔
    bpWanted false (u64 (blkfill <<< (l * dn.phys.epbs))) txg (dn.phys.blkptr l g) = true := by
  rw [Marked, fan_succ, entry, shiftLeft_eq (g / _), div_add_mod']

theorem held_of_dbufHold (dnp : DnodePhys) (n) (found : dbufHoldImpl dnp n level blkid = true) :
    blkid ≤ dnp.dnMaxblkid >>> (level * dnp.epbs) ∧ ¬(dnp.blkptr level blkid).IsHole := by
  cases n with
  | zero => simpa [dbufHoldImpl] using found
  | succ n =>
    simp only [dbufHoldImpl, Bool.and_eq_true, decide_eq_true_eq, Bool.not_eq_true', decide_eq_false_iff_not] at found
    exact ⟨found.1, found.2.2⟩

/-- A block that can be read is one that the pointers in the dnode lead to. -/
theorem Held.inside (held : dn.Held txg l b) (fits : dn.Fits) (inTree : l < dn.phys.dnNlevels) :
    (b + 1) * 2 ^ dn.span (l + 1) ≤ dn.phys.dnNblkptr * 2 ^ dn.span dn.phys.dnNlevels := by
  obtain ⟨n, levels⟩ : ∃ n, dn.phys.dnNlevels = l + 1 + n := Nat.exists_eq_add_of_le inTree
  have le := (held_of_dbufHold dn.phys _ held.1).1
  have top := fits.wf.reach
  have climb : dn.phys.dnMaxblkid >>> ((dn.phys.dnNlevels - 1) * dn.phys.epbs) =
      dn.phys.dnMaxblkid >>> (l * dn.phys.epbs) / 2 ^ (n * dn.phys.epbs) := by
    rw [← shiftRight_eq_div_pow, ← shiftRight_add, ← Nat.add_mul, levels]
    congr 2
    omega
  rw [climb] at top
  have less : b / 2 ^ (n * dn.phys.epbs) < dn.phys.dnNblkptr := lt_of_le_of_lt (Nat.div_le_div_right le) top
  rw [Nat.div_lt_iff_lt_mul (Nat.two_pow_pos _)] at less
  have span : dn.span dn.phys.dnNlevels = n * dn.phys.epbs + dn.span (l + 1) := by
    rw [levels, show l + 1 + n = (n + l) + 1 by omega, Searched.span, Searched.span]
    ring
  rw [span, Nat.pow_add, ← Nat.mul_assoc]
  exact Nat.mul_le_mul_right _ less

theorem Fits.inReach (fits : dn.Fits) : dn.phys.dnNblkptr * 2 ^ dn.span dn.phys.dnNlevels < dn.reach :=
  lt_min fits.small (Nat.mul_lt_mul_of_pos_right fits.few (Nat.two_pow_pos _))

theorem Marked.top_lt (fits : dn.Fits) (marked : dn.Marked blkfill txg fits.pow dn.phys.dnNlevels g) :
    g < dn.phys.dnNblkptr := by
  obtain ⟨l, levels⟩ : ∃ l, dn.phys.dnNlevels = l + 1 := ⟨dn.phys.dnNlevels - 1, by have := fits.wf.levels; omega⟩
  have reach := fits.wf.reach
  rw [levels, marked_succ] at marked
  rw [levels, Nat.add_sub_cancel] at reach
  by_contra beyond
  have hole := fits.wf.last l g (by omega)
  have new : txg < (dn.phys.blkptr l g).blkBirth := by
    simp only [bpWanted, Bool.and_eq_true, decide_eq_true_eq] at marked
    exact marked.2
  rw [Blkptr.IsHole] at hole
  omega

theorem probe_block (fits : dn.Fits) (slots : l = 0 → blkfill = (dn.shape fits.pow).fan 0)
    (inTree : l < dn.phys.dnNlevels) (held : dn.Held txg l (o / 2 ^ dn.span l / (dn.shape fits.pow).fan l)) :
    (∀ k, o / 2 ^ dn.span l % (dn.shape fits.pow).fan l + k < (dn.shape fits.pow).fan l →
      dn.Marked blkfill txg fits.pow l (o / 2 ^ dn.span l + k) →
      (∀ j < k, ¬dn.Marked blkfill txg fits.pow l (o / 2 ^ dn.span l + j)) →
      o + k * 2 ^ dn.span l < 2 ^ 64 →
      dnodeNextOffsetLevel dn false blkfill txg l o = (true, o + k * 2 ^ dn.span l)) ∧
    ((∀ k, o / 2 ^ dn.span l % (dn.shape fits.pow).fan l + k < (dn.shape fits.pow).fan l →
        ¬dn.Marked blkfill txg fits.pow l (o / 2 ^ dn.span l + k)) →
      o + ((dn.shape fits.pow).fan l - o / 2 ^ dn.span l % (dn.shape fits.pow).fan l) * 2 ^ dn.span l < 2 ^ 64 →
      dnodeNextOffsetLevel dn false blkfill txg l o =
        (false, o + ((dn.shape fits.pow).fan l - o / 2 ^ dn.span l % (dn.shape fits.pow).fan l) * 2 ^ dn.span l)) := by
  have positive := (dn.shape fits.pow).fan_pos l
  have block : o / 2 ^ dn.span (l + 1) = o / 2 ^ dn.span l / (dn.shape fits.pow).fan l :=
    ((dn.shape fits.pow).div_size o l).symm
  rw [← block] at held
  rw [probe_scan fits.pow inTree slots held, block]
  generalize o / 2 ^ dn.span l = g
  have entries : ∀ j, g % (dn.shape fits.pow).fan l + j < (dn.shape fits.pow).fan l →
      (dn.entry blkfill txg l (g / (dn.shape fits.pow).fan l) (g % (dn.shape fits.pow).fan l + j) = true ↔
        dn.Marked blkfill txg fits.pow l (g + j)) := by
    intro j inside
    obtain ⟨quotient, remainder⟩ := entry_add positive inside
    rw [Marked, quotient, remainder]
  constructor
  · intro k inside mark before small
    refine scan_hit _ _ k o (by omega) ((entries k inside).mpr mark) (fun j less => ?_) small
    exact Bool.eq_false_iff.mpr fun wanted => before j less ((entries j (by omega)).mp wanted)
  · intro none small
    refine scan_miss _ _ o (fun j less => ?_) small
    have inside : g % (dn.shape fits.pow).fan l + j < (dn.shape fits.pow).fan l := by omega
    exact Bool.eq_false_iff.mpr fun wanted => none j inside ((entries j inside).mp wanted)

theorem probe_dnode (blkfill txg) (fits : dn.Fits) (inReach : o < dn.reach) :
    (∀ k, dn.Marked blkfill txg fits.pow dn.phys.dnNlevels (o / 2 ^ dn.span dn.phys.dnNlevels + k) →
      (∀ j < k, ¬dn.Marked blkfill txg fits.pow dn.phys.dnNlevels (o / 2 ^ dn.span dn.phys.dnNlevels + j)) →
      dnodeNextOffsetLevel dn false blkfill txg dn.phys.dnNlevels o = (true, o + k * 2 ^ dn.span dn.phys.dnNlevels)) ∧
    ((∀ k, ¬dn.Marked blkfill txg fits.pow dn.phys.dnNlevels (o / 2 ^ dn.span dn.phys.dnNlevels + k)) →
      (dnodeNextOffsetLevel dn false blkfill txg dn.phys.dnNlevels o).1 = false) := by
  have small := fits.small
  have index : o / 2 ^ dn.span dn.phys.dnNlevels < 2 ^ dn.phys.epbs :=
    (Nat.div_lt_iff_lt_mul (Nat.two_pow_pos _)).mpr (lt_of_lt_of_le inReach (min_le_right _ _))
  rw [probe_top fits o, mod_eq_of_lt index]
  have entries : ∀ g, dn.entry blkfill txg dn.phys.dnNlevels 0 g = true ↔
      dn.Marked blkfill txg fits.pow dn.phys.dnNlevels g := by
    intro g
    obtain ⟨l, levels⟩ : ∃ l, dn.phys.dnNlevels = l + 1 := ⟨dn.phys.dnNlevels - 1, by have := fits.wf.levels; omega⟩
    rw [levels, marked_succ, entry, zero_shiftLeft, zero_add]
  constructor
  · intro k mark before
    have inside := mark.top_lt fits
    refine scan_hit _ _ k o (by omega) ((entries _).mpr mark) (fun j less => ?_) ?_
    · exact Bool.eq_false_iff.mpr fun wanted => before j less ((entries _).mp wanted)
    · have size := Nat.two_pow_pos (dn.span dn.phys.dnNlevels)
      calc o + k * 2 ^ dn.span dn.phys.dnNlevels
          < (o / 2 ^ dn.span dn.phys.dnNlevels + 1) * 2 ^ dn.span dn.phys.dnNlevels +
              k * 2 ^ dn.span dn.phys.dnNlevels :=
            Nat.add_lt_add_right (by rw [Nat.mul_comm]; exact lt_mul_div_succ o size) _
        _ = (o / 2 ^ dn.span dn.phys.dnNlevels + k + 1) * 2 ^ dn.span dn.phys.dnNlevels := by ring
        _ ≤ dn.phys.dnNblkptr * 2 ^ dn.span dn.phys.dnNlevels := Nat.mul_le_mul_right _ inside
        _ < 2 ^ 64 := small
  · intro none
    exact scan_none _ _ o fun j _ => Bool.eq_false_iff.mpr fun wanted => none j ((entries _).mp wanted)

theorem span_mono (pow : 9 ≤ dn.dnDatablkshift) {l m} (le : l ≤ m) : dn.span l ≤ dn.span m := by
  induction m, le using le_induction with
  | base => exact le_rfl
  | succ m _ ih => exact ih.trans (dn.span_le pow m)

theorem Fits.span_lt (fits : dn.Fits) : dn.span dn.phys.dnNlevels < 64 :=
  (Nat.pow_lt_pow_iff_right one_lt_two).mp
    (lt_of_le_of_lt (Nat.le_mul_of_pos_left _ (zero_lt_of_lt fits.wf.reach)) fits.small)

theorem Fits.room (fits : dn.Fits) {l g} (inTree : l ≤ dn.phys.dnNlevels) (begin : g * 2 ^ dn.span l < dn.reach)
    (stop : o < (g + 1) * 2 ^ dn.span l) : o < dn.reach := by
  have span := span_mono fits.pow inTree
  have top := fits.span_lt
  have whole : 2 ^ dn.span l ∣ dn.reach := by
    rw [reach]
    rcases min_choice (2 ^ 64) (2 ^ dn.phys.epbs * 2 ^ dn.span dn.phys.dnNlevels) with same | same
    · rw [same]
      exact pow_dvd_pow 2 (by omega)
    · rw [same]
      exact (pow_dvd_pow 2 span).trans (dvd_mul_left _ _)
  obtain ⟨regions, same⟩ := whole
  rw [same] at begin ⊢
  rw [mul_comm] at begin
  rw [mul_comm] at stop
  exact lt_of_lt_of_le stop (Nat.mul_le_mul_left _ (Nat.lt_of_mul_lt_mul_left begin))

section

variable (fits : dn.Fits)

include fits

theorem size_succ (l) : 2 ^ dn.span (l + 1) = (dn.shape fits.pow).fan l * 2 ^ dn.span l := by
  rw [mul_comm]
  exact (dn.shape fits.pow).size_succ l

theorem block_eq (l o) : o / 2 ^ dn.span (l + 1) = o / 2 ^ dn.span l / (dn.shape fits.pow).fan l :=
  ((dn.shape fits.pow).div_size o l).symm

omit fits in
theorem region_stop (l o k : ℕ) : o + k * 2 ^ dn.span l < (o / 2 ^ dn.span l + k + 1) * 2 ^ dn.span l := by
  have := lt_mul_div_succ o (Nat.two_pow_pos (dn.span l))
  rw [Nat.mul_comm] at this
  rw [add_right_comm, add_mul]
  omega

theorem Held.stop (inTree : l < dn.phys.dnNlevels) (held : dn.Held txg l (o / 2 ^ dn.span (l + 1))) :
    o + ((dn.shape fits.pow).fan l - o / 2 ^ dn.span l % (dn.shape fits.pow).fan l) * 2 ^ dn.span l < 2 ^ 64 := by
  have far := lt_of_le_of_lt (held.inside fits inTree) fits.inReach
  refine lt_of_lt_of_le (fits.room inTree far (lt_of_lt_of_le (region_stop l o _) ?_)) (min_le_left _ _)
  have positive := (dn.shape fits.pow).fan_pos l
  have inside := mod_lt (o / 2 ^ dn.span l) positive
  have parts := mod_add_div (o / 2 ^ dn.span l) ((dn.shape fits.pow).fan l)
  rw [block_eq fits, size_succ fits l, ← mul_assoc]
  refine mul_le_mul_right _ ?_
  rw [add_mul, add_mul, mul_comm (o / 2 ^ dn.span l / _)]
  omega

end

theorem mul_pow_succ_le (less : g * 2 ^ a < 2 ^ b) (positive : 0 < g) : (g + 1) * 2 ^ a ≤ 2 ^ b := by
  have le : a ≤ b := (Nat.pow_le_pow_iff_right one_lt_two).mp ((Nat.le_mul_of_pos_left _ positive).trans less.le)
  obtain ⟨c, rfl⟩ := Nat.exists_eq_add_of_le le
  rw [Nat.add_comm a, Nat.pow_add] at less ⊢
  exact Nat.mul_le_mul_right _ (Nat.lt_of_mul_lt_mul_right less)

/-- Nor is the end of the pointers in the dnode, from wherever they are counted. -/
theorem Fits.stop (fits : dn.Fits) (small : o < 2 ^ 64) :
    o + (dn.phys.dnNblkptr - o / 2 ^ dn.span dn.phys.dnNlevels % 2 ^ dn.phys.epbs) * 2 ^ dn.span dn.phys.dnNlevels <
      2 ^ 64 := by
  generalize size : dn.span dn.phys.dnNlevels = a
  have few := fits.few
  have some := zero_lt_of_lt fits.wf.reach
  have last := fits.small
  rw [size] at last
  by_cases inside : o / 2 ^ a % 2 ^ dn.phys.epbs < dn.phys.dnNblkptr
  · refine lt_of_lt_of_le (size ▸ region_stop dn.phys.dnNlevels o _) ?_
    have parts := mod_add_div (o / 2 ^ a) (2 ^ dn.phys.epbs)
    have total : o / 2 ^ a + (dn.phys.dnNblkptr - o / 2 ^ a % 2 ^ dn.phys.epbs) + 1 =
        2 ^ dn.phys.epbs * (o / 2 ^ a / 2 ^ dn.phys.epbs) + dn.phys.dnNblkptr + 1 := by
      omega
    rw [total]
    rcases Nat.eq_zero_or_pos (o / 2 ^ a / 2 ^ dn.phys.epbs) with near | far
    · rw [near, Nat.mul_zero, Nat.zero_add]
      exact mul_pow_succ_le last some
    · have below : o / 2 ^ a / 2 ^ dn.phys.epbs * 2 ^ (dn.phys.epbs + a) < 2 ^ 64 := by
        rw [Nat.div_div_eq_div_mul, ← Nat.pow_add, Nat.add_comm a]
        exact lt_of_le_of_lt (div_mul_le_self _ _) small
      refine le_trans ?_ (mul_pow_succ_le below far)
      rw [pow_add, ← mul_assoc]
      refine mul_le_mul_right _ ?_
      rw [succ_mul, mul_comm]
      omega
  · rw [Nat.sub_eq_zero_of_le (not_lt.mp inside), Nat.zero_mul]
    exact small

/-- Every probe is a scan, of nothing where a block cannot be read, that ends below `2 ^ 64`. -/
theorem Fits.scans (fits : dn.Fits) (slots : l = 0 → blkfill = (dn.shape fits.pow).fan 0) (inTree : l ≤ dn.phys.dnNlevels)
    (o) : ∃ wanted n i, dnodeNextOffsetLevel dn false blkfill txg l o = scan wanted (2 ^ dn.span l) n i o ∧
      (o < 2 ^ 64 → o + n * 2 ^ dn.span l < 2 ^ 64) := by
  rcases lt_or_eq_of_le inTree with less | rfl
  · by_cases held : dn.Held txg l (o / 2 ^ dn.span (l + 1))
    · exact ⟨_, _, _, probe_scan fits.pow less slots held, fun _ => Held.stop fits less held⟩
    · exact ⟨fun _ => false, 0, 0, probe_skip fits.pow less held, fun small => by omega⟩
  · exact ⟨_, _, _, probe_top fits o, fits.stop⟩

/-- What `dnode_next_offset_level` does wherever it starts. -/
theorem anywhere (fits : dn.Fits) (slots : low = 0 → blkfill = (dn.shape fits.pow).fan 0) :
    Anywhere (dn.shape fits.pow) low dn.phys.dnNlevels dn.reach (dn.Held txg) (dn.Marked blkfill txg fits.pow)
      (dnodeNextOffsetLevel dn false blkfill txg) := by
  refine ⟨fun l g o => fits.room, fun l o inTree => probe_skip fits.pow inTree,
    fun l o k le inTree held inside mark first => ?_, fun l o le inTree held none => ?_,
    fun o k inReach => (probe_dnode blkfill txg fits inReach).1 k, fun o inReach => (probe_dnode blkfill txg fits inReach).2⟩
  · have short : k ≤ (dn.shape fits.pow).fan l - o / 2 ^ dn.span l % (dn.shape fits.pow).fan l := by
      rw [add_comm] at inside
      exact (lt_sub_of_add_lt inside).le
    have stop := Held.stop fits inTree held
    refine (probe_block fits (fun zero => slots (by omega)) inTree ((block_eq fits l o).subst held)).1 k inside mark first ?_
    exact lt_of_le_of_lt (Nat.add_le_add_left (Nat.mul_le_mul_right _ short) _) stop
  · exact (probe_block fits (fun zero => slots (by omega)) inTree ((block_eq fits l o).subst held)).2 none
      (Held.stop fits inTree held)

end Searched

end MacZfs.Dnode
