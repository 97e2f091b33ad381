import MacZfs.Dnode.Basic

/-! # The levels that a new block needs

`dnode_new_blkid` raises the number of levels until the pointers in the dnode reach the new last
block. The number of blocks they reach is shifted in 64 bits, and the loop also ends where the shift
has wrapped around. The dirty records that move below the new top level are left out.
-/

namespace MacZfs.Dnode

/-- `DN_MIN_INDBLKSHIFT` -/
def dnMinIndblkshift : ℕ := 10

/-- `DN_MAX_LEVELS`, with `DN_MAX_OFFSET_SHIFT` 64 and `SPA_MINBLOCKSHIFT` 9. -/
def dnMaxLevels : ℕ := 2 + (64 - 9) / (dnMinIndblkshift - spaBlkptrshift)

/-- The loop over `sz`, with no result when the rounds are used up. -/
def newNlevels (nblkptr epbs blkid : ℕ) : (rounds sz nlevels : ℕ) → Option ℕ
  | 0, _, _ => none
  | rounds + 1, sz, nlevels =>
    if sz ≤ blkid ∧ sz ≥ nblkptr then newNlevels nblkptr epbs blkid rounds (u64 (sz <<< epbs)) (nlevels + 1)
    else some nlevels

/-- `dnode_new_blkid` -/
def dnodeNewBlkid (dn : DnodePhys) (blkid rounds : ℕ) : Option DnodePhys :=
  if blkid ≤ dn.dnMaxblkid then some dn
  else do
    let nlevels ← newNlevels dn.dnNblkptr dn.epbs blkid rounds dn.dnNblkptr 1
    return { dn with dnMaxblkid := blkid, dnNlevels := if nlevels > dn.dnNlevels then nlevels else dn.dnNlevels }

section

variable {n e blkid : ℕ} (some_ : 0 < n) (few : n ≤ 3) (small : blkid < 2 ^ 55)

include some_ few small

/-- The guard stops the loop exactly where the product, without the wrap, is beyond the block. -/
theorem guard_iff (m : ℕ) : u64 (n * 2 ^ m) ≤ blkid ∧ u64 (n * 2 ^ m) ≥ n ↔ n * 2 ^ m ≤ blkid := by
  rcases lt_or_ge m 62 with low | high
  · have bound : n * 2 ^ m ≤ 3 * 2 ^ 61 := Nat.mul_le_mul few (Nat.pow_le_pow_right two_pos (by omega))
    rw [u64_of_lt (by omega)]
    exact and_iff_left (Nat.le_mul_of_pos_right n (Nat.two_pow_pos m))
  · have large : n * 2 ^ 62 ≤ n * 2 ^ m := Nat.mul_le_mul_left n (Nat.pow_le_pow_right two_pos high)
    refine iff_of_false ?_ (by omega)
    obtain ⟨k, rfl⟩ := Nat.exists_eq_add_of_le high
    rw [u64, pow_add]
    -- from the second level above the 62nd on, nothing but zeros is left
    rcases k with _ | _ | k
    · omega
    · omega
    · rw [show n * (2 ^ 62 * 2 ^ (k + 2)) = 2 ^ 64 * (n * 2 ^ k) by ring, Nat.mul_mod_right]
      omega

theorem newNlevels_eq {j} (reached : blkid < n * 2 ^ (e * j)) (before : ∀ i < j, n * 2 ^ (e * i) ≤ blkid) {rounds k}
    (le : k ≤ j) (enough : j < k + rounds) :
    newNlevels n e blkid rounds (u64 (n * 2 ^ (e * k))) (k + 1) = some (j + 1) := by
  induction rounds generalizing k with
  | zero => omega
  | succ rounds ih =>
    rw [newNlevels]
    simp only [guard_iff some_ few small]
    rcases le.lt_or_eq with less | rfl
    · have shifted : u64 (u64 (n * 2 ^ (e * k)) <<< e) = u64 (n * 2 ^ (e * (k + 1))) := by
        rw [u64, u64, u64, Nat.shiftLeft_eq, Nat.mod_mul_mod, mul_assoc, ← pow_add, mul_add_one]
      rw [if_pos (before k less), shifted]
      exact ih less (by omega)
    · rw [if_neg (by omega)]

end

/-- The loop ends with the least number of levels, not below the present one, at which the pointers reach the
    new last block, and that is at most `DN_MAX_LEVELS`. -/
theorem dnodeNewBlkid_least (dn : DnodePhys) (blkid rounds : ℕ) (some_ : 0 < dn.dnNblkptr) (few : dn.dnNblkptr ≤ 3)
    (shift : dnMinIndblkshift ≤ dn.dnIndblkshift) (levels : dn.dnNlevels ≤ dnMaxLevels) (new : dn.dnMaxblkid < blkid)
    (small : blkid < 2 ^ 55) (enough : dnMaxLevels ≤ rounds) :
    ∃ dn', dnodeNewBlkid dn blkid rounds = some dn' ∧ dn'.dnNlevels ≤ dnMaxLevels ∧
      IsLeast {l | dn.dnNlevels ≤ l ∧ 0 < l ∧ blkid < dn.dnNblkptr * (2 ^ dn.epbs) ^ (l - 1)} dn'.dnNlevels := by
  have most : dnMaxLevels = 20 := rfl
  have wide : 3 ≤ dn.epbs := Nat.sub_le_sub_right shift spaBlkptrshift
  have top : blkid < dn.dnNblkptr * 2 ^ (dn.epbs * 19) := by
    have : 2 ^ 55 ≤ 2 ^ (dn.epbs * 19) := Nat.pow_le_pow_right two_pos (by omega)
    exact (small.trans_le this).trans_le (Nat.le_mul_of_pos_left _ some_)
  have reaches : ∃ j, blkid < dn.dnNblkptr * 2 ^ (dn.epbs * j) := ⟨19, top⟩
  have last : Nat.find reaches ≤ 19 := Nat.find_min' reaches top
  have loop := @newNlevels_eq _ dn.epbs _ some_ few small (Nat.find reaches) (Nat.find_spec reaches)
    (fun i less => not_lt.mp (Nat.find_min reaches less)) rounds 0 (Nat.zero_le _)
    (by omega)
  rw [mul_zero, pow_zero, mul_one, u64_of_lt (by omega), zero_add] at loop
  refine ⟨_, by rw [dnodeNewBlkid, if_neg (by omega), loop]; rfl, ?_, ?_⟩
  all_goals dsimp only
  · split_ifs <;> omega
  · simp only [← pow_mul]
    constructor
    · refine ⟨by split_ifs <;> omega, by split_ifs <;> omega, (Nat.find_spec reaches).trans_le ?_⟩
      refine Nat.mul_le_mul_left _ (Nat.pow_le_pow_right two_pos (Nat.mul_le_mul_left _ ?_))
      split_ifs <;> omega
    · rintro l ⟨present, positive, reached⟩
      have := Nat.find_min' reaches reached
      split_ifs <;> omega

theorem dnodeNewBlkid_least_far :
    ∃ dn', dnodeNewBlkid ⟨1, 10, 1, 0, fun _ _ => .zero⟩ (2 ^ 54) 20 = some dn' ∧ dn'.dnNlevels ≤ dnMaxLevels ∧
      IsLeast {l | 1 ≤ l ∧ 0 < l ∧ 2 ^ 54 < 1 * (2 ^ 3) ^ (l - 1)} dn'.dnNlevels :=
  dnodeNewBlkid_least ⟨1, 10, 1, 0, fun _ _ => .zero⟩ (2 ^ 54) 20 (by decide) (by decide) (by decide) (by decide)
    (by decide) (by decide) (by decide)

end MacZfs.Dnode
