import MacZfs.Lib.Preorder
import MacZfs.Traverse.Basic

/-!
# The tree below a dnode

The block pointers of a dnode and of the indirect blocks below it, by level and block number. Those that a
traversal visits are in blocks that were born after `mintxg`; the others are passed over with all that is below
them.
-/

namespace MacZfs.Traverse

open Preorder

namespace DnodePhys

/-- The block pointer of a block, `depth` levels below the dnode. -/
def ptrAt (disk : Disk) (dn : DnodePhys) : (depth : ℕ) → ℕ → Option Blkptr
  | 0, b => if b < dn.dnNblkptr then some (dn.dnBlkptr b) else none
  | depth + 1, b =>
    (dn.ptrAt disk depth (b / 2 ^ dn.wshift)).bind fun bp =>
      if bp.isHole then none else some ((disk bp).blkptrs (b % 2 ^ dn.wshift))

def ptr (disk : Disk) (dn : DnodePhys) (l b : ℕ) : Option Blkptr := dn.ptrAt disk (dn.maxlevel - l) b

/-- A dnode as `dnode_new_blkid` leaves it: the number of every block it could have fits in 64 bits, and none
    that is there is beyond `dn_maxblkid`. -/
structure Sane (disk : Disk) (dn : DnodePhys) : Prop where
  levels : 1 ≤ dn.dnNlevels ∧ dn.dnNlevels ≤ 31
  nblkptr : dn.dnNblkptr ≤ 2 ^ dn.wshift
  fits : dn.dnNblkptr * 2 ^ (dn.maxlevel * dn.wshift) < 2 ^ 64
  inside : ∀ l b bp, l ≤ dn.maxlevel → dn.ptr disk l b = some bp → bp.isHole = false →
    start dn.wshift l b ≤ dn.dnMaxblkid
  births : ∀ l b bp i, l ≤ dn.maxlevel → 0 < l → dn.ptr disk l b = some bp → bp.isHole = false → i < 2 ^ dn.wshift →
    ((disk bp).blkptrs i).blkBirth ≤ bp.blkBirth

def Inner (disk : Disk) (dn : DnodePhys) (mintxg l b : ℕ) : Prop := ∃ bp, dn.ptr disk l b = some bp ∧ mintxg < bp.blkBirth

/-- All indirect blocks above a block were born after `mintxg`. -/
def Open (disk : Disk) (dn : DnodePhys) (mintxg l b : ℕ) : Prop :=
  ∀ m, l < m → m ≤ dn.maxlevel → dn.Inner disk mintxg m (up dn.wshift l b m)

structure Visited (disk : Disk) (dn : DnodePhys) (mintxg : ℕ) (holes : Bool) (l b : ℕ) (bp : Blkptr) : Prop where
  low : l ≤ dn.maxlevel
  opened : dn.Open disk mintxg l b
  at_ : dn.ptr disk l b = some bp
  wanted : wanted mintxg holes bp = true
  inside : start dn.wshift l b ≤ dn.dnMaxblkid

variable {disk : Disk} {dn : DnodePhys} {mintxg l b : ℕ} {holes : Bool} {bp : Blkptr}

theorem not_hole (young : mintxg < bp.blkBirth) : bp.isHole = false := by
  simp [Blkptr.isHole]
  omega

theorem ptr_top : dn.ptr disk dn.maxlevel b = if b < dn.dnNblkptr then some (dn.dnBlkptr b) else none := by
  rw [ptr, Nat.sub_self, ptrAt]

theorem ptr_below (lt : l < dn.maxlevel) : dn.ptr disk l b =
    (dn.ptr disk (l + 1) (b / 2 ^ dn.wshift)).bind fun bp =>
      if bp.isHole then none else some ((disk bp).blkptrs (b % 2 ^ dn.wshift)) := by
  have depth : dn.maxlevel - l = (dn.maxlevel - (l + 1)) + 1 := by omega
  rw [ptr, depth, ptrAt, ptr]

theorem ptr_up (le : l ≤ m) (top : m ≤ dn.maxlevel) (at_ : dn.ptr disk l b = some bp) :
    ∃ bp', dn.ptr disk m (up dn.wshift l b m) = some bp' ∧ (l < m → bp'.isHole = false) := by
  induction m, le using Nat.le_induction with
  | base => exact ⟨bp, by rwa [up_self], fun lt => absurd lt (lt_irrefl l)⟩
  | succ m le ih =>
    obtain ⟨bp', below, -⟩ := ih (by omega)
    rw [ptr_below (by omega)] at below
    obtain ⟨bp'', above, rest⟩ := Option.bind_eq_some_iff.mp below
    rw [← up_succ, up_up le (Nat.le_succ m)] at above
    refine ⟨bp'', above, fun _ => ?_⟩
    by_contra hole
    rw [if_pos (by simpa using hole)] at rest
    cases rest

theorem up_lt_nblkptr (low : l ≤ dn.maxlevel) (at_ : dn.ptr disk l b = some bp) :
    up dn.wshift l b dn.maxlevel < dn.dnNblkptr := by
  obtain ⟨bp', above, -⟩ := ptr_up low le_rfl at_
  rw [ptr_top] at above
  by_contra beyond
  rw [if_neg beyond] at above
  cases above

theorem Sane.birth_up (sane : dn.Sane disk) (le : l ≤ m) (top : m ≤ dn.maxlevel)
    (at_ : dn.ptr disk l b = some bp) (above : dn.ptr disk m (up dn.wshift l b m) = some bp') :
    bp.blkBirth ≤ bp'.blkBirth := by
  induction m, le using Nat.le_induction generalizing bp' with
  | base =>
    rw [up_self, at_] at above
    rw [Option.some.inj above]
  | succ m le ih =>
    obtain ⟨bp'', below, -⟩ := ptr_up le (by omega) at_
    refine le_trans (ih (by omega) below) ?_
    rw [ptr_below (by omega), ← up_succ, up_up le (Nat.le_succ m), above, Option.bind_some] at below
    by_cases hole : bp'.isHole
    · rw [if_pos hole] at below
      cases below
    · rw [if_neg hole] at below
      rw [← Option.some.inj below]
      exact sane.births (m + 1) _ bp' _ top (by omega) above (by simpa using hole) (Nat.mod_lt _ (Nat.two_pow_pos _))

/-- A block that was born after `mintxg` is visited. -/
theorem Sane.visited_of_young (sane : dn.Sane disk) (low : l ≤ dn.maxlevel) (at_ : dn.ptr disk l b = some bp)
    (young : mintxg < bp.blkBirth) : dn.Visited disk mintxg holes l b bp := by
  refine ⟨low, fun m lt top => ?_, at_, by simp [wanted, young], sane.inside l b bp low at_ (not_hole young)⟩
  obtain ⟨bp', above, -⟩ := ptr_up lt.le top at_
  exact ⟨bp', above, lt_of_lt_of_le young (sane.birth_up lt.le top at_ above)⟩

end DnodePhys

end MacZfs.Traverse
