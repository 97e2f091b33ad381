import MacZfs.Lib.Runs

/-!
# The pointer table of a fat ZAP

The table grows by one block at a time into a copy of twice its size. A store writes both copies for as
long as there are two, so that the copy is right whether or not the entry was already carried over.
-/

namespace MacZfs.Zap

open Runs Function Nat

abbrev Words := ℕ × ℕ → ℕ

/-- `zap_table_phys_t` of the pointer table, with the fields and words of the ZAP that its routines use. -/
structure Table where
  ztBlk : ℕ
  ztNumblks : ℕ
  ztShift : ℕ
  ztNextblk : ℕ
  ztBlksCopied : ℕ
  zapFreeblk : ℕ
  words : Words

/-- Where entry `idx` of the table at block `blk` is, with blocks of `1 << bs` bytes. -/
def slot (bs blk idx : ℕ) : ℕ × ℕ := (blk + idx >>> (bs - 3), idx &&& (1 <<< (bs - 3)) - 1)

/-- `zap_table_load`, with the results of `dmu_buf_hold`: whether it fails, and the value. While the table grows, the
    block of the copy is held and released without a look at the error. There is no result where that hold
    failed and gave no buffer. -/
def zapTableLoad (bs : ℕ) (tbl : Table) (idx : ℕ) (held held2 : Bool) : Option (Bool × Option ℕ) :=
  if !held then some (true, none)
  else if tbl.ztNextblk ≠ 0 ∧ !held2 then none
  else some (false, some (tbl.words (slot bs tbl.ztBlk idx)))

/-- `zap_table_store`, with the results of `dmu_buf_hold`: whether it fails, and the table. -/
def zapTableStore (bs : ℕ) (tbl : Table) (idx val : ℕ) (held held2 : Bool) : Bool × Table :=
  if !held then (true, tbl)
  else if tbl.ztNextblk ≠ 0 then
    if !held2 then (true, tbl)
    else
      let (blk2, off2) := slot bs tbl.ztNextblk (idx * 2)
      let words := Function.update (Function.update tbl.words (blk2, off2) val) (blk2, off2 + 1) val
      (false, { tbl with words := Function.update words (slot bs tbl.ztBlk idx) val })
  else (false, { tbl with words := Function.update tbl.words (slot bs tbl.ztBlk idx) val })

/-- `zap_ptrtbl_transfer`. -/
def zapPtrtblTransfer (src dst : ℕ → ℕ) : (n : ℕ) → ℕ → ℕ
  | 0 => dst
  | n + 1 => Function.update (Function.update (zapPtrtblTransfer src dst n) (2 * n) (src n)) (2 * n + 1) (src n)

def setBlock (words : Words) (blk : ℕ) (data : ℕ → ℕ) : Words :=
  fun place => if place.1 = blk then data place.2 else words place

/-- `zap_allocate_blocks`, at the start of a growth. -/
def startGrowth (tbl : Table) : Table :=
  if tbl.ztNextblk ≠ 0 then tbl
  else { tbl with ztNextblk := tbl.zapFreeblk, zapFreeblk := tbl.zapFreeblk + tbl.ztNumblks * 2 }

def copyBlock (bs : ℕ) (tbl : Table) : Table :=
  let b := tbl.ztBlksCopied
  let hepb := 1 <<< (bs - 4)
  let first := tbl.ztNextblk + 2 * b
  let words := setBlock tbl.words first
    (zapPtrtblTransfer (fun i => tbl.words (tbl.ztBlk + b, i)) (fun i => tbl.words (first, i)) hepb)
  let words := setBlock words (first + 1)
    (zapPtrtblTransfer (fun i => words (tbl.ztBlk + b, hepb + i)) (fun i => words (first + 1, i)) hepb)
  { tbl with words, ztBlksCopied := b + 1 }

/-- The copy becomes the table. What the old blocks hold once they are freed is left open, with the result of
    `dmu_free_range`, which is not looked at. -/
def finishGrowth (tbl : Table) (freed : Words) : Table :=
  { tbl with
    ztBlk := tbl.ztNextblk, ztNumblks := tbl.ztNumblks * 2, ztShift := tbl.ztShift + 1, ztNextblk := 0, ztBlksCopied := 0,
    words := fun place =>
      if tbl.ztBlk ≤ place.1 ∧ place.1 < tbl.ztBlk + tbl.ztNumblks then freed place else tbl.words place }

/-- `zap_table_grow`, with the result of the first `dmu_buf_hold`; the others are verified. -/
def zapTableGrow (bs : ℕ) (tbl : Table) (held : Bool) (freed : Words) : Bool × Table :=
  let tbl := startGrowth tbl
  if !held then (true, tbl)
  else
    let tbl := copyBlock bs tbl
    (false, if tbl.ztBlksCopied = tbl.ztNumblks then finishGrowth tbl freed else tbl)

/-! ## What the table is for -/

inductive Event where
  | stored (idx val : ℕ)
  | doubled

def lastStored (first : ℕ → ℕ) : List Event → ℕ → ℕ
  | [] => first
  | .stored idx val :: before => Function.update (lastStored first before) idx val
  | .doubled :: before => fun idx => lastStored first before (idx >>> 1)

/-- The calls, with what each of them adds to the history: blocks that others allocate, stores and steps of a growth,
    with all results of `dmu_buf_hold`. -/
inductive Call (bs : ℕ) : Table × List Event → Table × List Event → Prop
  | allocate (tbl : Table) (history : List Event) (n : ℕ) :
      Call bs (tbl, history) ({ tbl with zapFreeblk := tbl.zapFreeblk + n }, history)
  | store (tbl : Table) (history : List Event) {idx : ℕ} (inside : idx < 2 ^ tbl.ztShift) (val : ℕ) (held held2 : Bool) :
      Call bs (tbl, history) ((zapTableStore bs tbl idx val held held2).2,
        if (zapTableStore bs tbl idx val held held2).1 then history else .stored idx val :: history)
  | grow (tbl : Table) (history : List Event) (held : Bool) (freed : Words) :
      Call bs (tbl, history) ((zapTableGrow bs tbl held freed).2,
        if (zapTableGrow bs tbl held freed).2.ztShift = tbl.ztShift then history else .doubled :: history)

/-- A table that has its own blocks and is not growing, with the entries `first`. -/
structure Table.Settled (bs : ℕ) (tbl : Table) (first : ℕ → ℕ) : Prop where
  some : 0 < tbl.ztNumblks
  size : 2 ^ tbl.ztShift = tbl.ztNumblks <<< (bs - 3)
  place : 0 < tbl.ztBlk
  below : tbl.ztBlk + tbl.ztNumblks ≤ tbl.zapFreeblk
  still : tbl.ztNextblk = 0 ∧ tbl.ztBlksCopied = 0
  entries : ∀ idx < 2 ^ tbl.ztShift, tbl.words (slot bs tbl.ztBlk idx) = first idx

def tableSystem (bs : ℕ) (first : ℕ → ℕ) : System (Table × List Event) where
  init := fun (tbl, history) => tbl.Settled bs first ∧ history = []
  step := Call bs

/-! ## The invariant -/

variable {bs : ℕ} {tbl : Table}

theorem slot_eq (blk idx) : slot bs blk idx = (blk + idx / 2 ^ (bs - 3), idx % 2 ^ (bs - 3)) := by
  rw [slot, shiftRight_eq_div_pow, one_shiftLeft, and_two_pow_sub_one_eq_mod]

theorem slot_injective (same : slot bs blk i = slot bs blk j) : i = j := by
  simp only [slot_eq, Prod.mk.injEq, add_left_cancel_iff] at same
  rw [← div_add_mod i (2 ^ (bs - 3)), same.1, same.2, div_add_mod]

theorem slot_succ (wide : 4 ≤ bs) (blk idx) :
    ((slot bs blk (idx * 2)).1, (slot bs blk (idx * 2)).2 + 1) = slot bs blk (idx * 2 + 1) := by
  obtain ⟨k, rfl⟩ := Nat.exists_eq_add_of_le' wide
  have twice : idx * 2 / 2 = idx ∧ (idx * 2 + 1) / 2 = idx := by omega
  rw [slot_eq, slot_eq, show k + 4 - 3 = k + 1 by omega, pow_succ', ← Nat.div_div_eq_div_mul, ← Nat.div_div_eq_div_mul,
    mod_mul, mod_mul, twice.1, twice.2]
  exact Prod.ext rfl (by dsimp only; omega)

structure Table.Ok (bs : ℕ) (tbl : Table) (L : ℕ → ℕ) : Prop where
  size : 2 ^ tbl.ztShift = tbl.ztNumblks * 2 ^ (bs - 3)
  place : 0 < tbl.ztBlk
  below : tbl.ztBlk + tbl.ztNumblks ≤ tbl.zapFreeblk
  copied : tbl.ztBlksCopied < tbl.ztNumblks
  still : tbl.ztNextblk = 0 → tbl.ztBlksCopied = 0
  next : tbl.ztNextblk ≠ 0 →
    tbl.ztBlk + tbl.ztNumblks ≤ tbl.ztNextblk ∧ tbl.ztNextblk + tbl.ztNumblks * 2 ≤ tbl.zapFreeblk
  entries : ∀ i < 2 ^ tbl.ztShift, tbl.words (slot bs tbl.ztBlk i) = L i
  carried : ∀ i < 2 * tbl.ztBlksCopied * 2 ^ (bs - 3), tbl.words (slot bs tbl.ztNextblk i) = L (i >>> 1)

theorem Table.Ok.slot_lt (ok : tbl.Ok bs L) (inside : i < 2 ^ tbl.ztShift) :
    (slot bs tbl.ztBlk i).1 < tbl.ztBlk + tbl.ztNumblks := by
  rw [slot_eq, add_lt_add_iff_left, div_lt_iff_lt_mul (by positivity), ← ok.size]
  exact inside

theorem Table.Ok.slot_ne (ok : tbl.Ok bs L) (grows : tbl.ztNextblk ≠ 0) (inside : i < 2 ^ tbl.ztShift) (j : ℕ) :
    slot bs tbl.ztNextblk j ≠ slot bs tbl.ztBlk i := by
  intro same
  have lt := same ▸ ok.slot_lt inside
  exact absurd lt (not_lt.mpr ((ok.next grows).1.trans (le_add_right _ _)))

theorem zapTableStore_ok (wide : 4 ≤ bs) (ok : tbl.Ok bs L) (inside : idx < 2 ^ tbl.ztShift) (val)
    (held held2) : (zapTableStore bs tbl idx val held held2).2.Ok bs
      (if (zapTableStore bs tbl idx val held held2).1 then L else Function.update L idx val) := by
  rw [zapTableStore]
  split
  · exact ok
  · split
    · rename_i grows
      split
      · exact ok
      · refine { ok with entries := fun i lt => ?_, carried := fun i lt => ?_ }
        all_goals dsimp only [Bool.false_eq_true, if_false] at lt ⊢
        · by_cases same : i = idx
          · rw [same, update_self, if_neg Bool.false_ne_true, update_self]
          · rw [update_of_ne fun eq => same (slot_injective eq), slot_succ wide,
              update_of_ne (ok.slot_ne grows lt _).symm, update_of_ne (ok.slot_ne grows lt _).symm,
              if_neg Bool.false_ne_true, update_of_ne same]
            exact ok.entries i lt
        · rw [update_of_ne (ok.slot_ne grows inside _), slot_succ wide, if_neg Bool.false_ne_true]
          by_cases same : i >>> 1 = idx
          · rw [same, update_self]
            obtain even | odd : i = idx * 2 ∨ i = idx * 2 + 1 := by omega
            · rw [even, update_of_ne fun eq => absurd (slot_injective eq) (by omega), update_self]
            · rw [odd, update_self]
          · rw [update_of_ne same]
            rw [update_of_ne fun eq => absurd (slot_injective eq) (by omega),
              update_of_ne fun eq => absurd (slot_injective eq) (by omega)]
            exact ok.carried i lt
    · rename_i still
      have none := ok.still (not_not.mp still)
      refine { ok with entries := fun i lt => ?_, carried := fun i lt => by simp [none] at lt }
      dsimp only at lt ⊢
      rw [if_neg Bool.false_ne_true]
      by_cases same : i = idx
      · rw [same, update_self, update_self]
      · rw [update_of_ne fun eq => same (slot_injective eq), update_of_ne same]
        exact ok.entries i lt

theorem zapPtrtblTransfer_eq (src dst : ℕ → ℕ) (inside : j < 2 * n) :
    zapPtrtblTransfer src dst n j = src (j / 2) := by
  induction n with
  | zero => omega
  | succ n ih =>
    rw [zapPtrtblTransfer, update_apply, update_apply]
    split
    · congr 1
      omega
    · split
      · congr 1
        omega
      · exact ih (by omega)

theorem startGrowth_ok (ok : tbl.Ok bs L) : (startGrowth tbl).Ok bs L ∧ (startGrowth tbl).ztNextblk ≠ 0 := by
  rw [startGrowth]
  split
  · exact ⟨ok, ‹_›⟩
  · rename_i still
    have none := ok.still (not_not.mp still)
    have place := ok.place
    have below := ok.below
    refine ⟨{ ok with
      below := ?_
      still := fun _ => none
      next := fun _ => ⟨below, le_rfl⟩
      carried := fun i lt => ?_ }, ?_⟩
    · exact below.trans (le_add_right _ _)
    · simp [none] at lt
    · dsimp only
      omega

theorem copyBlock_old (old : place.1 < tbl.ztNextblk) : (copyBlock bs tbl).words place = tbl.words place := by
  simp only [copyBlock, setBlock]
  rw [if_neg (by omega), if_neg (by omega)]

theorem copyBlock_next (wide : 4 ≤ bs) (apart : tbl.ztBlk + tbl.ztBlksCopied < tbl.ztNextblk)
    (upTo : j < 2 * (tbl.ztBlksCopied + 1) * 2 ^ (bs - 3)) :
    (copyBlock bs tbl).words (slot bs tbl.ztNextblk j) = if j < 2 * tbl.ztBlksCopied * 2 ^ (bs - 3) then
      tbl.words (slot bs tbl.ztNextblk j) else tbl.words (slot bs tbl.ztBlk (j >>> 1)) := by
  obtain ⟨k, rfl⟩ := Nat.exists_eq_add_of_le' wide
  simp only [copyBlock, setBlock, slot_eq, one_shiftLeft, shiftRight_eq_div_pow, show k + 4 - 3 = k + 1 by omega,
    Nat.add_sub_cancel, pow_succ', pow_zero, Nat.mul_one] at upTo ⊢
  generalize tbl.ztBlksCopied = b at apart upTo ⊢
  have : 0 < 2 ^ k := by positivity
  generalize 2 ^ k = m at this upTo ⊢
  -- The half of `j` lies in block `b`, in its first or second half with the block of `j`.
  have split := div_add_mod j (2 * m)
  have lt := mod_lt j (show 2 * m > 0 by omega)
  generalize j % (2 * m) = r at split lt ⊢
  by_cases before : j < 2 * b * (2 * m)
  · have : j / (2 * m) < 2 * b := Nat.div_lt_of_lt_mul (by linarith)
    rw [if_pos before, if_neg (by omega), if_neg (by omega)]
  · have low : 2 * b ≤ j / (2 * m) := (le_div_iff_mul_le (by omega)).mpr (not_lt.mp before)
    have high : j / (2 * m) < 2 * (b + 1) := Nat.div_lt_of_lt_mul (by linarith)
    have inner {x : ℕ} (half : j / 2 = 2 * m * b + x) (lt : x < 2 * m) : j / 2 / (2 * m) = b ∧ j / 2 % (2 * m) = x := by
      rw [half, mul_add_div (by omega), mul_add_mod, div_eq_of_lt lt, mod_eq_of_lt lt]
      exact ⟨rfl, rfl⟩
    rw [if_neg before]
    generalize j / (2 * m) = q at split low high ⊢
    obtain rfl | rfl : q = 2 * b ∨ q = 2 * b + 1 := by omega
    · have same : 2 * m * (2 * b) = 2 * (2 * m * b) := by ring
      obtain ⟨quot, rem⟩ := @inner (r / 2) (by omega) (by omega)
      rw [if_neg (by omega), if_pos rfl, zapPtrtblTransfer_eq _ _ lt, quot, rem]
    · have same : 2 * m * (2 * b + 1) = 2 * (2 * m * b + m) := by ring
      obtain ⟨quot, rem⟩ := @inner (m + r / 2) (by omega) (by omega)
      rw [if_pos (by omega), zapPtrtblTransfer_eq _ _ lt, if_neg (by omega), quot, rem]

theorem copyBlock_ok (wide : 4 ≤ bs) (ok : tbl.Ok bs L) (grows : tbl.ztNextblk ≠ 0) :
    (∀ i < 2 ^ tbl.ztShift, (copyBlock bs tbl).words (slot bs tbl.ztBlk i) = L i) ∧
      ∀ i < 2 * (tbl.ztBlksCopied + 1) * 2 ^ (bs - 3), (copyBlock bs tbl).words (slot bs tbl.ztNextblk i) = L (i >>> 1) := by
  have apart := (ok.next grows).1
  have copied := ok.copied
  constructor
  · intro i lt
    rw [copyBlock_old ((ok.slot_lt lt).trans_le apart), ok.entries i lt]
  · intro i lt
    rw [copyBlock_next wide (by omega) lt]
    split
    · exact ok.carried i ‹_›
    · apply ok.entries
      rw [ok.size, shiftRight_eq_div_pow, div_lt_iff_lt_mul (by decide)]
      refine lt.trans_le ?_
      rw [mul_comm 2, mul_right_comm, pow_one]
      exact mul_le_mul_right _ (mul_le_mul_right _ copied)

theorem zapTableGrow_ok (wide : 4 ≤ bs) (ok : tbl.Ok bs L) (held) (freed) :
    (zapTableGrow bs tbl held freed).2.Ok bs
      (if (zapTableGrow bs tbl held freed).2.ztShift = tbl.ztShift then L else fun i => L (i >>> 1)) := by
  obtain ⟨started, grows⟩ := startGrowth_ok ok
  have shift : (startGrowth tbl).ztShift = tbl.ztShift := by
    rw [startGrowth]
    split <;> rfl
  rw [zapTableGrow]
  generalize startGrowth tbl = tbl' at started grows shift
  dsimp only
  split
  · exact started
  · obtain ⟨entries, carried⟩ := copyBlock_ok wide started grows
    have next := started.next grows
    have copied := started.copied
    split
    · rename_i full
      have full : tbl'.ztBlksCopied + 1 = tbl'.ztNumblks := full
      rw [if_neg (by rw [← shift]; exact succ_ne_self _)]
      have size := started.size
      have whole : 2 ^ (tbl'.ztShift + 1) = 2 * (tbl'.ztBlksCopied + 1) * 2 ^ (bs - 3) := by
        rw [pow_succ, size, full]
        ring
      refine ⟨?_, pos_of_ne_zero grows, next.2, ?_, fun _ => rfl, fun growing => absurd rfl growing, fun i lt => ?_,
        fun i lt => ?_⟩
      · refine whole.trans ?_
        rw [full, mul_comm 2]
        rfl
      · exact mul_pos (zero_lt_of_lt copied) (by decide)
      · refine Eq.trans (if_neg fun inside => ?_) (carried i (whole ▸ lt))
        have inside : _ < tbl'.ztBlk + tbl'.ztNumblks := inside.2
        exact absurd inside (not_lt.mpr (next.1.trans (le_add_right _ _)))
      · simp [finishGrowth] at lt
    · rename_i more
      rw [if_pos (show (copyBlock bs tbl').ztShift = _ from shift)]
      exact ⟨started.size, started.place, started.below, lt_of_le_of_ne copied more, fun still => absurd still grows,
        fun _ => next, entries, carried⟩

theorem table_ok (wide : 4 ≤ bs)
    (reachable : (tableSystem bs first).Reachable state) : state.1.Ok bs (lastStored first state.2) := by
  refine @System.Reachable.invariant _ _ _ (fun state => state.1.Ok bs (lastStored first state.2)) ?_ ?_ reachable
  · rintro ⟨tbl, history⟩ ⟨settled, rfl⟩
    exact ⟨settled.size.trans (shiftLeft_eq _ _), settled.place, settled.below, settled.still.2 ▸ settled.some,
      fun _ => settled.still.2, fun grows => absurd settled.still.1 grows, settled.entries,
      fun i lt => by simp [settled.still.2] at lt⟩
  · intro before after ok call
    cases call with
    | allocate tbl history n =>
      exact { ok with
        below := ok.below.trans (le_add_right _ _)
        next := fun grows => ⟨(ok.next grows).1, (ok.next grows).2.trans (le_add_right _ _)⟩ }
    | store tbl history inside val held held2 =>
      have := zapTableStore_ok wide ok inside val held held2
      split at this
      · rwa [if_pos ‹_›]
      · rwa [if_neg ‹_›]
    | grow tbl history held freed =>
      have := zapTableGrow_ok wide ok held freed
      split at this
      · rwa [if_pos ‹_›]
      · rwa [if_neg ‹_›]

/-- Whatever stores and steps of growths were made, a load returns what was stored last, or an error where a block
    cannot be read, exactly if this is not the block of the copy alone; and a growth that completes turns the entry
    of an index into that of both its successors. -/
theorem table_loads (wide : 4 ≤ bs) {first : ℕ → ℕ} {tbl : Table} {history : List Event}
    (reachable : (tableSystem bs first).Reachable (tbl, history)) :
    (∀ idx < 2 ^ tbl.ztShift, ∀ held held2, zapTableLoad bs tbl idx held held2 =
      some (!held || (tbl.ztNextblk != 0 && !held2), if held then some (lastStored first history idx) else none) ↔
        (held → tbl.ztNextblk ≠ 0 → held2)) ∧
    ∀ held freed tbl', zapTableGrow bs tbl held freed = (false, tbl') → tbl'.ztShift ≠ tbl.ztShift →
      ∀ i < 2 ^ tbl'.ztShift,
        zapTableLoad bs tbl' i true true = some (false, some (lastStored first history (i >>> 1))) := by
  have ok := table_ok wide reachable
  constructor
  · intro idx inside held held2
    have entry : tbl.words (slot bs tbl.ztBlk idx) = lastStored first history idx := ok.entries idx inside
    by_cases grows : tbl.ztNextblk = 0 <;> cases held <;> cases held2 <;> simp [zapTableLoad, entry, grows]
  · intro held freed tbl' grown doubled i inside
    have ok := zapTableGrow_ok wide ok held freed
    rw [grown] at ok
    rw [if_neg doubled] at ok
    simpa [zapTableLoad] using ok.entries i inside

def smallTable : Table := ⟨1, 1, 1, 0, 0, 2, fun _ => 0⟩

/-- A store and the growth that follows it. -/
theorem table_loads_grown : zapTableLoad 4 (zapTableGrow 4 (zapTableStore 4 smallTable 1 7 true true).2 true fun _ => 0).2
    3 true true = some (false, some 7) := by
  have first : (tableSystem 4 fun _ => 0).Reachable (smallTable, []) :=
    .first ⟨⟨by decide, by decide, by decide, by decide, by decide, fun _ _ => rfl⟩, rfl⟩
  have stored := first.next (.store smallTable [] (show 1 < 2 ^ 1 by decide) 7 true true)
  exact (table_loads le_rfl stored).2 true (fun _ => 0) _ rfl (by decide) 3 (by decide)

/-- One block of two is copied, and a load cannot read the copy's block for its index. -/
theorem load_releases_null : ∃ state, (tableSystem 4 fun _ => 0).Reachable state ∧ state.1.ztBlksCopied = 1 ∧
    zapTableLoad 4 state.1 0 true false = none := by
  have first : (tableSystem 4 fun _ => 0).Reachable (⟨1, 2, 2, 0, 0, 3, fun _ => 0⟩, []) :=
    .first ⟨⟨by decide, by decide, by decide, by decide, by decide, fun _ _ => rfl⟩, rfl⟩
  exact ⟨_, first.next (.grow _ [] true fun _ => 0), rfl, rfl⟩

end MacZfs.Zap
