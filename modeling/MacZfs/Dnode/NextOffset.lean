import MacZfs.Dnode.Levels

/-! # The next data

Where pointers carry the number of items below them, and are not older than what they lead to, `dnode_next_offset` finds
the first data at or after an offset.
-/

namespace MacZfs.Dnode

open Nat LevelSearch Finset

namespace Searched

variable (dn : Searched) (minlvl blkfill txg : ℕ)

/-- The tree of an object as it is written: `dbuf_write_ready` adds up what is below a block, and a block is written
    whenever one below it is. -/
structure Written : Prop extends dn.Fits where
  items : blkfill ≤ 512
  fillHole : ∀ l i, (dn.phys.blkptr l i).IsHole → (dn.phys.blkptr l i).blkFill = 0
  fillSum : ∀ l i, l + 1 < dn.phys.dnNlevels → ¬(dn.phys.blkptr (l + 1) i).IsHole →
    (dn.phys.blkptr (l + 1) i).blkFill =
      ∑ j ∈ Finset.range (2 ^ dn.phys.epbs), (dn.phys.blkptr l (i * 2 ^ dn.phys.epbs + j)).blkFill
  fillData : ∀ i, (dn.phys.blkptr 0 i).blkFill ≤ blkfill
  born : ∀ l i, l + 1 < dn.phys.dnNlevels →
    (dn.phys.blkptr l i).blkBirth ≤ (dn.phys.blkptr (l + 1) (i >>> dn.phys.epbs)).blkBirth
  /-- A data block counts for something, -/
  data : 0 < minlvl → ∀ i, ¬(dn.phys.blkptr 0 i).IsHole → 0 < (dn.phys.blkptr 0 i).blkFill
  /-- and a block of the meta-dnode for the dnodes in it that are allocated. -/
  slots : minlvl = 0 → blkfill = 2 ^ (dn.dnDatablkshift - 9) ∧
    ∀ b, (dn.phys.blkptr 0 b).blkFill = ((Finset.range blkfill).filter fun i => (dn.slot b i).allocated = true).card
  slotsBorn : minlvl = 0 → ∀ b i, i < blkfill → ∀ birth ∈ (dn.slot b i).births, birth ≤ (dn.phys.blkptr 0 b).blkBirth

/-- What a search for data looks for: an allocated dnode with new contents, or a block that is new and has data in or
    below it. -/
def Sought : ℕ → ℕ → Prop
  | 0, x =>
    let dnp := dn.slot (x >>> dn.dnDatablkshift) ((x >>> 9) % 2 ^ (dn.dnDatablkshift - 9))
    dnp.allocated = true ∧ (txg ≠ 0 → ∃ birth ∈ dnp.births, txg < birth)
  | l + 1, x =>
    txg < (dn.phys.blkptr l (x >>> dn.span (l + 1))).blkBirth ∧
      ∃ i, i >>> (l * dn.phys.epbs) = x >>> dn.span (l + 1) ∧ ¬(dn.phys.blkptr 0 i).IsHole

/-- No block with anything in or below it was written after `txg` only because something went away. -/
structure Fresh : Prop where
  blocks : ∀ l g, minlvl ≤ l + 1 → l + 1 < dn.phys.dnNlevels → txg < (dn.phys.blkptr (l + 1) g).blkBirth →
    0 < (dn.phys.blkptr (l + 1) g).blkFill → ∃ i, i / 2 ^ dn.phys.epbs = g ∧
      txg < (dn.phys.blkptr l i).blkBirth ∧ 0 < (dn.phys.blkptr l i).blkFill
  slots : minlvl = 0 → ∀ b, txg < (dn.phys.blkptr 0 b).blkBirth → 0 < (dn.phys.blkptr 0 b).blkFill →
    ∃ i, i < blkfill ∧ (dn.slot b i).allocated = true ∧ ∃ birth ∈ (dn.slot b i).births, txg < birth

def New (l b : ℕ) : Prop := ¬(dn.phys.blkptr l b).IsHole ∧ (txg = 0 ∨ txg < (dn.phys.blkptr l b).blkBirth)

/-- An offset to start from: the start of an entry of the lowest level and, wherever the block around it is a hole or
    old, the start of that block. -/
structure StartsAt (offset : ℕ) : Prop where
  aligned : 2 ^ dn.span minlvl ∣ offset
  unread : ∀ l, minlvl ≤ l → l < dn.phys.dnNlevels → ¬dn.New txg l (offset >>> dn.span (l + 1)) →
    2 ^ dn.span (l + 1) ∣ offset

variable {dn minlvl blkfill txg} {l g : ℕ}

/-! ## Holes and fills -/

theorem parent_held (wf : dn.phys.Wf) (inTree : l + 1 < dn.phys.dnNlevels) (held : ¬(dn.phys.blkptr l g).IsHole) :
    ¬(dn.phys.blkptr (l + 1) (g >>> dn.phys.epbs)).IsHole :=
  fun hole => held (wf.below l g inTree hole)

theorem dbufHold_of_held (wf : dn.phys.Wf) (n) : ∀ l g, l + n + 1 = dn.phys.dnNlevels →
    ¬(dn.phys.blkptr l g).IsHole → dbufHoldImpl dn.phys n l g = true := by
  have low : ∀ l g, ¬(dn.phys.blkptr l g).IsHole → g ≤ dn.phys.dnMaxblkid >>> (l * dn.phys.epbs) := fun l g held =>
    not_lt.mp fun beyond => held (wf.last l g beyond)
  induction n with
  | zero =>
    intro l g _ held
    simp [dbufHoldImpl, low l g held, held]
  | succ n ih =>
    intro l g levels held
    simp [dbufHoldImpl, low l g held, held, ih (l + 1) (g >>> dn.phys.epbs) (by omega)
      (parent_held wf (by omega) held)]

theorem held_iff (wf : dn.phys.Wf) (inTree : l < dn.phys.dnNlevels) : dn.Held txg l g ↔ dn.New txg l g := by
  constructor
  · rintro ⟨found, new⟩
    exact ⟨(held_of_dbufHold _ _ found).2, new⟩
  · rintro ⟨held, new⟩
    exact ⟨dbufHold_of_held wf _ l g (by omega) held, new⟩

namespace Written

variable (written : dn.Written minlvl blkfill)

include written

section

variable (inTree : l < dn.phys.dnNlevels)

include inTree

theorem fill_le (g) : (dn.phys.blkptr l g).blkFill ≤ blkfill * 2 ^ (l * dn.phys.epbs) := by
  induction l generalizing g with
  | zero => simpa using written.fillData g
  | succ l ih =>
    by_cases hole : (dn.phys.blkptr (l + 1) g).IsHole
    · rw [written.fillHole _ _ hole]
      exact zero_le _
    · rw [written.fillSum l g inTree hole]
      refine (sum_le_card_nsmul _ _ _ fun j _ => ih (by omega) _).trans (le_of_eq ?_)
      rw [card_range, smul_eq_mul, succ_mul, pow_add]
      ring

theorem fill_lt (g) : (dn.phys.blkptr l g).blkFill ≤ u64 (blkfill <<< (l * dn.phys.epbs)) := by
  obtain ⟨n, levels⟩ : ∃ n, dn.phys.dnNlevels = l + n + 1 := ⟨dn.phys.dnNlevels - l - 1, by omega⟩
  have some := zero_lt_of_lt written.wf.reach
  have pow := written.pow
  have small : blkfill * 2 ^ (l * dn.phys.epbs) < 2 ^ 64 :=
    calc blkfill * 2 ^ (l * dn.phys.epbs)
        ≤ 2 ^ 9 * 2 ^ (l * dn.phys.epbs) := mul_le_mul_right _ written.items
      _ = 2 ^ (9 + l * dn.phys.epbs) := (pow_add ..).symm
      _ ≤ 2 ^ dn.span dn.phys.dnNlevels := Nat.pow_le_pow_right Nat.two_pos (by rw [levels, span, Nat.add_mul]; omega)
      _ ≤ dn.phys.dnNblkptr * 2 ^ dn.span dn.phys.dnNlevels := Nat.le_mul_of_pos_left _ some
      _ < 2 ^ 64 := written.small
  rw [shiftLeft_eq, u64_of_lt small]
  exact written.fill_le inTree g

/-- A region of a level above the lowest is marked when its pointer is new and counts for something. -/
theorem marked_iff : dn.Marked blkfill txg written.pow (l + 1) g ↔
    0 < (dn.phys.blkptr l g).blkFill ∧ txg < (dn.phys.blkptr l g).blkBirth := by
  have few := written.fill_lt inTree g
  rw [marked_succ]
  simp only [bpWanted, Bool.false_eq_true, if_false, Bool.and_eq_true, decide_eq_true_eq]
  tauto

end

theorem held_of_fill (full : 0 < (dn.phys.blkptr l g).blkFill) : ¬(dn.phys.blkptr l g).IsHole :=
  fun hole => full.ne' (written.fillHole l g hole)

theorem exists_slot (isMeta : minlvl = 0) : 0 < (dn.phys.blkptr 0 g).blkFill ↔
    ∃ i < blkfill, (dn.slot g i).allocated = true := by
  rw [(written.slots isMeta).2 g, card_pos]
  simp [Finset.Nonempty]

section

variable (inTree : l + 1 < dn.phys.dnNlevels)

include inTree

theorem exists_child (full : 0 < (dn.phys.blkptr (l + 1) g).blkFill) :
    ∃ i, i / 2 ^ dn.phys.epbs = g ∧ 0 < (dn.phys.blkptr l i).blkFill := by
  rw [written.fillSum l g inTree (written.held_of_fill full)] at full
  obtain ⟨j, inside, child⟩ := Finset.exists_ne_zero_of_sum_ne_zero full.ne'
  rw [mem_range] at inside
  refine ⟨g * 2 ^ dn.phys.epbs + j, ?_, pos_of_ne_zero child⟩
  rw [Nat.mul_comm, mul_add_div (Nat.two_pow_pos _), div_eq_of_lt inside, Nat.add_zero]

theorem child_le (held : ¬(dn.phys.blkptr l g).IsHole) :
    (dn.phys.blkptr l g).blkFill ≤ (dn.phys.blkptr (l + 1) (g / 2 ^ dn.phys.epbs)).blkFill := by
  have above := parent_held written.wf inTree held
  rw [shiftRight_eq_div_pow] at above
  rw [written.fillSum l _ inTree above]
  calc (dn.phys.blkptr l g).blkFill
      = (dn.phys.blkptr l (g / 2 ^ dn.phys.epbs * 2 ^ dn.phys.epbs + g % 2 ^ dn.phys.epbs)).blkFill := by
        rw [div_add_mod']
    _ ≤ _ := single_le_sum
        (f := fun j => (dn.phys.blkptr l (g / 2 ^ dn.phys.epbs * 2 ^ dn.phys.epbs + j)).blkFill)
        (fun _ _ => Nat.zero_le _) (Finset.mem_range.mpr (mod_lt _ (Nat.two_pow_pos _)))

theorem born_div (g) :
    (dn.phys.blkptr l g).blkBirth ≤ (dn.phys.blkptr (l + 1) (g / 2 ^ dn.phys.epbs)).blkBirth := by
  rw [← shiftRight_eq_div_pow]
  exact written.born l g inTree

end

/-! ## The marks -/

theorem fan_zero (isMeta : minlvl = 0) : (dn.shape written.pow).fan 0 = blkfill := by
  refine Eq.trans ?_ (written.slots isMeta).1.symm
  simp [shape, span]

theorem marked_slot (isMeta : minlvl = 0) (txg) : dn.Marked blkfill txg written.pow 0 g ↔
    (dn.slot (g / blkfill) (g % blkfill)).allocated = true ∧
      (txg ≠ 0 → ∃ birth ∈ (dn.slot (g / blkfill) (g % blkfill)).births, txg < birth) := by
  rw [Marked, written.fan_zero isMeta, entry, slotWanted]
  simp [or_iff_not_imp_left]

theorem above (le : minlvl ≤ l) (inTree : l < dn.phys.dnNlevels) (mark : dn.Marked blkfill txg written.pow l g) :
    dn.Marked blkfill txg written.pow (l + 1) (g / (dn.shape written.pow).fan l) := by
  rw [written.marked_iff inTree]
  cases l with
  | zero =>
    have isMeta : minlvl = 0 := le_zero.mp le
    have some : 0 < blkfill := by
      rw [← written.fan_zero isMeta]
      exact (dn.shape written.pow).fan_pos 0
    obtain ⟨allocated, new⟩ := (written.marked_slot isMeta txg).mp mark
    have full := (written.exists_slot isMeta).mpr ⟨_, mod_lt g some, allocated⟩
    rw [written.fan_zero isMeta]
    refine ⟨full, ?_⟩
    by_cases all : txg = 0
    · rw [all]
      exact pos_of_ne_zero (written.held_of_fill full)
    · obtain ⟨birth, contents, after⟩ := new all
      exact lt_of_lt_of_le after (written.slotsBorn isMeta _ _ (mod_lt g some) birth contents)
  | succ l =>
    obtain ⟨full, new⟩ := (written.marked_iff (by omega)).mp mark
    rw [fan_succ]
    exact ⟨lt_of_lt_of_le full (written.child_le inTree (written.held_of_fill full)),
      lt_of_lt_of_le new (written.born_div inTree g)⟩

theorem below (fresh : txg ≠ 0 → dn.Fresh minlvl blkfill txg) (le : minlvl ≤ l) (inTree : l < dn.phys.dnNlevels)
    (mark : dn.Marked blkfill txg written.pow (l + 1) g) :
    ∃ c, c / (dn.shape written.pow).fan l = g ∧ dn.Marked blkfill txg written.pow l c := by
  obtain ⟨full, new⟩ := (written.marked_iff inTree).mp mark
  cases l with
  | zero =>
    have isMeta : minlvl = 0 := le_zero.mp le
    have found : ∃ i < blkfill, (dn.slot g i).allocated = true ∧
        (txg ≠ 0 → ∃ birth ∈ (dn.slot g i).births, txg < birth) := by
      by_cases all : txg = 0
      · obtain ⟨i, inside, allocated⟩ := (written.exists_slot isMeta).mp full
        exact ⟨i, inside, allocated, fun not => absurd all not⟩
      · obtain ⟨i, inside, allocated, contents⟩ := (fresh all).slots isMeta g new full
        exact ⟨i, inside, allocated, fun _ => contents⟩
    obtain ⟨i, inside, wanted⟩ := found
    have block : (g * blkfill + i) / blkfill = g ∧ (g * blkfill + i) % blkfill = i := by
      rw [Nat.div_mod_unique (by omega), Nat.mul_comm, Nat.add_comm]
      exact ⟨rfl, inside⟩
    refine ⟨g * blkfill + i, ?_, ?_⟩
    · rw [written.fan_zero isMeta, block.1]
    · rw [written.marked_slot isMeta txg, block.1, block.2]
      exact wanted
  | succ l =>
    rw [fan_succ]
    by_cases all : txg = 0
    · obtain ⟨i, inside, child⟩ := written.exists_child inTree full
      refine ⟨i, inside, (written.marked_iff (by omega)).mpr ⟨child, ?_⟩⟩
      rw [all]
      exact pos_of_ne_zero (written.held_of_fill child)
    · obtain ⟨i, inside, child, filled⟩ := (fresh all).blocks l g le inTree new full
      exact ⟨i, inside, (written.marked_iff (by omega)).mpr ⟨filled, child⟩⟩

theorem readable (inTree : l < dn.phys.dnNlevels) (mark : dn.Marked blkfill txg written.pow (l + 1) g) :
    dn.Held txg l g := by
  obtain ⟨full, new⟩ := (written.marked_iff inTree).mp mark
  exact (held_iff written.wf inTree).mpr ⟨written.held_of_fill full, .inr new⟩

theorem summary (fresh : txg ≠ 0 → dn.Fresh minlvl blkfill txg) :
    Summary (dn.shape written.pow) minlvl dn.phys.dnNlevels (dn.Held txg) (dn.Marked blkfill txg written.pow) where
  above _ _ := written.above
  below _ _ := written.below fresh
  readable _ _ := written.readable
  path l b inTree held := by
    obtain ⟨found, new⟩ := (held_iff written.wf (by omega)).mp held
    have above := parent_held written.wf inTree found
    rw [shiftRight_eq_div_pow] at above
    rw [fan_succ, held_iff written.wf inTree]
    exact ⟨above, new.imp_right fun after => lt_of_lt_of_le after (written.born_div inTree b)⟩

/-- Something in or below a block is a data block in or below it. -/
theorem fill_pos_iff (counts : 0 < minlvl) (inTree : l < dn.phys.dnNlevels) (g) :
    0 < (dn.phys.blkptr l g).blkFill ↔ ∃ i, i >>> (l * dn.phys.epbs) = g ∧ ¬(dn.phys.blkptr 0 i).IsHole := by
  induction l generalizing g with
  | zero =>
    constructor
    · intro full
      exact ⟨g, by simp, written.held_of_fill full⟩
    · rintro ⟨i, place, held⟩
      obtain rfl : i = g := by simpa using place
      exact written.data counts i held
  | succ l ih =>
    have up : ∀ i, i >>> ((l + 1) * dn.phys.epbs) = i >>> (l * dn.phys.epbs) / 2 ^ dn.phys.epbs := fun i => by
      rw [succ_mul, shiftRight_add, shiftRight_eq_div_pow (i >>> _)]
    constructor
    · intro full
      obtain ⟨c, inside, child⟩ := written.exists_child inTree full
      obtain ⟨i, place, held⟩ := (ih (by omega) c).mp child
      exact ⟨i, by rw [up, place, inside], held⟩
    · rintro ⟨i, place, held⟩
      have child := (ih (by omega) _).mpr ⟨i, rfl, held⟩
      rw [up] at place
      rw [← place]
      exact lt_of_lt_of_le child (written.child_le inTree (written.held_of_fill child))

theorem marked_iff_sought (le : minlvl ≤ dn.phys.dnNlevels) (txg x : ℕ) :
    dn.Marked blkfill txg written.pow minlvl (x / 2 ^ dn.span minlvl) ↔ dn.Sought txg minlvl x := by
  rcases Nat.eq_zero_or_pos minlvl with isMeta | counts
  · have block : x / 2 ^ dn.span 0 / blkfill = x >>> dn.dnDatablkshift := by
      rw [(written.slots isMeta).1, Nat.div_div_eq_div_mul, ← Nat.pow_add, shiftRight_eq_div_pow]
      congr 2
      exact Nat.add_sub_cancel' written.pow
    have index : x / 2 ^ dn.span 0 % blkfill = (x >>> 9) % 2 ^ (dn.dnDatablkshift - 9) := by
      rw [(written.slots isMeta).1, shiftRight_eq_div_pow]
      rfl
    have dnodes := written.marked_slot (g := x / 2 ^ dn.span 0) isMeta txg
    rw [block, index] at dnodes
    subst isMeta
    exact dnodes
  · obtain ⟨l, rfl⟩ : ∃ l, minlvl = l + 1 := ⟨minlvl - 1, by omega⟩
    rw [written.marked_iff le, written.fill_pos_iff counts le, ← shiftRight_eq_div_pow]
    exact and_comm

end Written

/-! ## The search -/

/-- Where the search can go from `offset` to `y`: nowhere, or from the start of an entry of the lowest level and, in each
    block around it that is a hole or old, to a place not nearer to the start of a region of that size. -/
def Leads (dn : Searched) (minlvl txg offset y : ℕ) : Prop :=
  y = offset ∨ 2 ^ dn.span minlvl ∣ offset ∧ ∀ l, minlvl ≤ l → l < dn.phys.dnNlevels →
    ¬dn.New txg l (offset >>> dn.span (l + 1)) → offset % 2 ^ dn.span (l + 1) ≤ y % 2 ^ dn.span (l + 1)

namespace Written

variable (written : dn.Written minlvl blkfill)

include written

theorem nextOffset_eq (txg offset) : dnodeNextOffset dn false offset minlvl blkfill txg =
    let (found, next) := search (dnodeNextOffsetLevel dn false blkfill txg) minlvl dn.phys.dnNlevels offset
    (found && !decide (offset > next), next) := by
  have pow := written.pow
  have levels := written.wf.levels
  rw [dnodeNextOffset, if_neg (by omega), if_neg (by omega)]

theorem anywhere (txg) : Anywhere (dn.shape written.pow) minlvl dn.phys.dnNlevels dn.reach (dn.Held txg)
    (dn.Marked blkfill txg written.pow) (dnodeNextOffsetLevel dn false blkfill txg) :=
  Searched.anywhere written.toFits fun isMeta => (written.fan_zero isMeta).symm

theorem scans (txg) (isLow : minlvl ≤ l) (inTree : l ≤ dn.phys.dnNlevels) (o) :
    ∃ wanted n i, dnodeNextOffsetLevel dn false blkfill txg l o = scan wanted (2 ^ dn.span l) n i o ∧
      (o < 2 ^ 64 → o + n * 2 ^ dn.span l < 2 ^ 64) :=
  written.toFits.scans (fun zero => (written.fan_zero (by omega)).symm) inTree o

theorem forward (txg l o) (isLow : minlvl ≤ l) (inTree : l ≤ dn.phys.dnNlevels) :
    Forward (2 ^ 64) o (dnodeNextOffsetLevel dn false blkfill txg l o).2 := by
  intro small
  obtain ⟨wanted, n, i, same, stop⟩ := written.scans txg isLow inTree o
  rw [same]
  exact scan_forward n i o (stop small)

variable (le : minlvl ≤ dn.phys.dnNlevels)

include le

/-- A search stays as far from the start of an entry of the lowest level as it begins. -/
theorem nextOffset_mod (txg offset) :
    (dnodeNextOffset dn false offset minlvl blkfill txg).2 % 2 ^ dn.span minlvl = offset % 2 ^ dn.span minlvl := by
  rw [written.nextOffset_eq]
  refine search_keeps (R := fun o o' => o' % 2 ^ dn.span minlvl = o % 2 ^ dn.span minlvl) (fun _ => rfl)
    (fun first second => second.trans first) (fun l o isLow inTree => ?_) le offset
  obtain ⟨wanted, n, i, same, -⟩ := written.scans txg isLow inTree o
  rw [same]
  exact scan_mod (pow_dvd_pow 2 (span_mono written.pow isLow))
    (pow_dvd_pow 2 ((span_mono written.pow le).trans written.toFits.span_lt.le)) n i o

/-- What is looked for is the same all over an entry of the lowest level. -/
theorem sought_congr {x x'} (same : x / 2 ^ dn.span minlvl = x' / 2 ^ dn.span minlvl) :
    dn.Sought txg minlvl x ↔ dn.Sought txg minlvl x' := by
  rw [← written.marked_iff_sought le, ← written.marked_iff_sought le, same]

theorem sought_inReach (sought : dn.Sought txg minlvl x) : x < dn.reach := by
  have mark := (written.marked_iff_sought le txg x).mpr sought
  have stop (l : ℕ) : x < (x / 2 ^ dn.span l + 1) * 2 ^ dn.span l := by
    simpa using region_stop l x 0
  refine lt_of_lt_of_le ?_ written.inReach.le
  rcases Nat.lt_or_eq_of_le le with less | rfl
  · have held := written.readable less (written.above le_rfl less mark)
    rw [← block_eq written.toFits] at held
    exact lt_of_lt_of_le (stop _) (held.inside written.toFits less)
  · exact lt_of_lt_of_le (stop _) (Nat.mul_le_mul_right _ (mark.top_lt written.toFits))

theorem found (inReach : offset < dn.reach)
    (found : (dnodeNextOffset dn false offset minlvl blkfill txg).1 = true) :
    offset ≤ (dnodeNextOffset dn false offset minlvl blkfill txg).2 ∧
      dn.Sought txg minlvl (dnodeNextOffset dn false offset minlvl blkfill txg).2 := by
  rw [written.nextOffset_eq] at found ⊢
  cases runs : search (dnodeNextOffsetLevel dn false blkfill txg) minlvl dn.phys.dnNlevels offset with
  | mk hit next =>
    rw [runs] at found
    simp only [Bool.and_eq_true, Bool.not_eq_true', decide_eq_false_iff_not, not_lt] at found
    obtain ⟨rfl, after⟩ := found
    exact ⟨after, (written.marked_iff_sought le txg next).mp (search_mark (written.anywhere txg) le inReach runs)⟩

/-- What is first is where the search starts, or at the start of an entry. -/
theorem least_aligned (least : IsLeast {x | offset ≤ x ∧ dn.Sought txg minlvl x} y) :
    y = offset ∨ 2 ^ dn.span minlvl ∣ y := by
  have size := Nat.two_pow_pos (dn.span minlvl)
  have start := div_mul_le_self y (2 ^ dn.span minlvl)
  by_cases after : offset ≤ y / 2 ^ dn.span minlvl * 2 ^ dn.span minlvl
  · have first := least.2 ⟨after, (written.sought_congr le (Nat.mul_div_cancel _ size)).mpr least.1.2⟩
    exact .inr ⟨_, (le_antisymm first start).trans (mul_comm _ _)⟩
  · have same : offset / 2 ^ dn.span minlvl = y / 2 ^ dn.span minlvl :=
      le_antisymm (Nat.div_le_div_right least.1.1) ((Nat.le_div_iff_mul_le size).mpr (by omega))
    exact .inl (le_antisymm (least.2 ⟨le_rfl, (written.sought_congr le same).mpr least.1.2⟩) least.1.1)

variable (fresh : txg ≠ 0 → dn.Fresh minlvl blkfill txg)

include fresh

/-- From the start of an entry, what is first is found or passed. -/
theorem found_or_passed (aligned : 2 ^ dn.span minlvl ∣ offset)
    (least : IsLeast {x | offset ≤ x ∧ dn.Sought txg minlvl x} y) :
    ((∀ l, minlvl ≤ l → l < dn.phys.dnNlevels → ¬dn.New txg l (offset >>> dn.span (l + 1)) →
        offset % 2 ^ dn.span (l + 1) ≤ y % 2 ^ dn.span (l + 1)) →
      dnodeNextOffset dn false offset minlvl blkfill txg = (true, y)) ∧
    ((∃ l, minlvl ≤ l ∧ l < dn.phys.dnNlevels ∧ ¬dn.New txg l (offset >>> dn.span (l + 1)) ∧
        y % 2 ^ dn.span (l + 1) < offset % 2 ^ dn.span (l + 1)) →
      y < (dnodeNextOffset dn false offset minlvl blkfill txg).2) := by
  have start : 2 ^ dn.span minlvl ∣ y := (written.least_aligned le least).elim (fun same => same ▸ aligned) id
  obtain ⟨⟨after, sought⟩, first⟩ := least
  have mark := (written.marked_iff_sought le txg y).mpr sought
  have clear : Clear (dn.shape written.pow) minlvl (dn.Marked blkfill txg written.pow) offset y :=
    fun x begin stop marked => stop.not_ge (first ⟨begin, (written.marked_iff_sought le txg x).mp marked⟩)
  have unread (l : ℕ) (inTree : l < dn.phys.dnNlevels) :
      dn.New txg l (offset >>> dn.span (l + 1)) ↔ dn.Held txg l (offset / 2 ^ dn.span (l + 1)) := by
    rw [held_iff written.wf inTree, shiftRight_eq_div_pow]
  obtain ⟨found, passed⟩ := search_anywhere (written.summary fresh) (written.anywhere txg) (written.forward txg)
    (min_le_left _ _) le (written.sought_inReach le sought) aligned after mark clear
  rw [written.nextOffset_eq]
  refine ⟨fun all => ?_, ?_⟩
  · rw [found fun l isLow inTree unheld => all l isLow inTree (mt (unread l inTree).mp unheld)]
    simp [shape, Nat.div_mul_cancel start, after]
  · rintro ⟨l, isLow, inTree, old, near⟩
    exact passed ⟨l, isLow, inTree, mt (unread l inTree).mpr old, near⟩

theorem leads_iff (inReach : offset < dn.reach) (least : IsLeast {x | offset ≤ x ∧ dn.Sought txg minlvl x} y) :
    dn.Leads minlvl txg offset y ↔ dnodeNextOffset dn false offset minlvl blkfill txg = (true, y) := by
  constructor
  · rintro (rfl | ⟨aligned, all⟩)
    · rw [written.nextOffset_eq, search_here (written.summary fresh) (written.anywhere txg) le inReach
        ((written.marked_iff_sought le txg y).mpr least.1.2)]
      simp
    · exact (written.found_or_passed le fresh aligned least).1 all
  · intro found
    refine (written.least_aligned le least).imp_right fun start => ?_
    have rest := written.nextOffset_mod le txg offset
    rw [found, mod_eq_zero_of_dvd start] at rest
    have aligned := dvd_of_mod_eq_zero rest.symm
    refine ⟨aligned, fun l isLow inTree old => not_lt.mp fun near => ?_⟩
    have past := (written.found_or_passed le fresh aligned least).2 ⟨l, isLow, inTree, old, near⟩
    rw [found] at past
    exact lt_irrefl _ past

/-- Either there is something at or after the start, or nothing and the search fails. -/
theorem leads_or_nothing (inReach : offset < dn.reach) :
    (∃ y, IsLeast {x | offset ≤ x ∧ dn.Sought txg minlvl x} y ∧
      (dn.Leads minlvl txg offset y ↔ dnodeNextOffset dn false offset minlvl blkfill txg = (true, y))) ∨
    (dnodeNextOffset dn false offset minlvl blkfill txg).1 = false ∧ ∀ x, offset ≤ x → ¬dn.Sought txg minlvl x := by
  rcases exists_first (dn.Sought txg minlvl) offset with ⟨y, after, sought, first⟩ | nothing
  · have least : IsLeast {x | offset ≤ x ∧ dn.Sought txg minlvl x} y :=
      ⟨⟨after, sought⟩, fun x hit => not_lt.mp fun before => first x hit.1 before hit.2⟩
    exact .inl ⟨y, least, written.leads_iff le fresh inReach least⟩
  · refine .inr ⟨Bool.eq_false_iff.mpr fun hit => ?_, nothing⟩
    obtain ⟨after, sought⟩ := written.found le inReach hit
    exact nothing _ after sought

/-- A search for data that starts in what it looks for, or from where it can start. -/
theorem nextOffset (inReach : offset < dn.reach) (start : dn.Sought txg minlvl offset ∨ dn.StartsAt minlvl txg offset) :
    (∃ y, dnodeNextOffset dn false offset minlvl blkfill txg = (true, y) ∧
        IsLeast {x | offset ≤ x ∧ dn.Sought txg minlvl x} y) ∨
      (dnodeNextOffset dn false offset minlvl blkfill txg).1 = false ∧ ∀ x, offset ≤ x → ¬dn.Sought txg minlvl x := by
  refine (written.leads_or_nothing le fresh inReach).imp_left ?_
  rintro ⟨y, least, leads⟩
  refine ⟨y, leads.mp ?_, least⟩
  refine start.imp (fun here => le_antisymm (least.2 ⟨le_rfl, here⟩) least.1.1) fun starts => ⟨starts.aligned, ?_⟩
  intro l isLow inTree old
  rw [mod_eq_zero_of_dvd (starts.unread l isLow inTree old)]
  exact zero_le _

end Written

/-- What is looked for in the meta-dnode is the same all over a dnode. -/
theorem sought_slot (pow : 9 ≤ dn.dnDatablkshift) (x : ℕ) : dn.Sought txg 0 (x >>> 9 <<< 9) ↔ dn.Sought txg 0 x := by
  obtain ⟨k, shift⟩ := Nat.exists_eq_add_of_le pow
  simp [Sought, shift, shiftRight_add]

/-- `dmu_object_next` gives the next allocated object with new contents. -/
theorem dmuObjectNext_least (written : dn.Written 0 32) (fresh : txg ≠ 0 → dn.Fresh 0 32 txg)
    (inReach : (object + 1) <<< 9 < dn.reach)
    (start : dn.Sought txg 0 ((object + 1) <<< 9) ∨ dn.StartsAt 0 txg ((object + 1) <<< 9)) :
    ((dmuObjectNext dn object false txg).1 = true →
      IsLeast {n | object < n ∧ dn.Sought txg 0 (n <<< 9)} (dmuObjectNext dn object false txg).2) ∧
    ((dmuObjectNext dn object false txg).1 = false ↔ ∀ n, object < n → ¬dn.Sought txg 0 (n <<< 9)) := by
  have offsets : ∀ n, object < n ↔ (object + 1) <<< 9 ≤ n <<< 9 := fun n => by
    omega
  rw [dmuObjectNext, u64_of_lt (lt_of_lt_of_le inReach (min_le_left _ _))]
  rcases written.nextOffset (Nat.zero_le _) fresh inReach start with ⟨y, found, least⟩ | ⟨lost, nothing⟩
  · rw [found]
    have next : object < y >>> 9 := by
      have after := least.1.1
      omega
    have hit := (sought_slot written.pow y).mpr least.1.2
    refine ⟨fun _ => ⟨⟨next, hit⟩, fun n ⟨more, hit⟩ => ?_⟩, fun lost => absurd lost (by simp),
      fun nothing => absurd hit (nothing _ next)⟩
    have first := least.2 ⟨(offsets n).mp more, hit⟩
    have last : y / 2 ^ 9 ≤ n := by omega
    rwa [← shiftRight_eq_div_pow] at last
  · rw [lost]
    exact ⟨fun found => absurd found (by simp), fun _ n more => nothing _ ((offsets n).mp more), fun _ => rfl⟩

def sparse : Searched where
  phys :=
    { dnNlevels := 2
      dnIndblkshift := 10
      dnNblkptr := 1
      dnMaxblkid := 3
      blkptr := fun l i =>
        if l = 0 ∧ i = 3 then ⟨5, 1, 512⟩ else if l = 1 ∧ i = 0 then ⟨5, 1, 1024⟩ else Blkptr.zero }
  dnDatablkshift := 9
  dnDatablksz := 512
  slot := fun _ _ => ⟨false, []⟩

theorem sparse_data (i) : sparse.phys.blkptr 0 i = if i = 3 then ⟨5, 1, 512⟩ else Blkptr.zero := by
  simp [sparse]

theorem sparse_indirect (i) : sparse.phys.blkptr 1 i = if i = 0 then ⟨5, 1, 1024⟩ else Blkptr.zero := by
  simp [sparse]

theorem sparse_above (l i) : sparse.phys.blkptr (l + 2) i = Blkptr.zero := by
  simp [sparse]

theorem sparse_wf : sparse.phys.Wf where
  levels := by decide
  reach := by decide
  top l i above := by
    obtain ⟨l, rfl⟩ : ∃ m, l = m + 2 := ⟨l - 2, by have : 2 ≤ l := above; omega⟩
    simp [sparse_above]
  last l i beyond := by
    rcases l with _ | _ | l
    · have far : 3 < i := by simpa [sparse] using beyond
      simp [sparse_data, show i ≠ 3 by omega]
    · simp [sparse_indirect, ne_zero_of_lt beyond]
    · simp [sparse_above]
  below l i inTree hole := by
    obtain rfl : l = 0 := by simpa [sparse] using inTree
    rw [sparse_data]
    split_ifs with third
    · subst third
      exact absurd hole (by decide)
    · exact Blkptr.zero_isHole

end Searched

end MacZfs.Dnode
