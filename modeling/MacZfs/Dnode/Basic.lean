import MacZfs.Base

/-! # The blocks of an object

An object's data blocks are the leaves of a tree. The pointer to the block with a given id at a given level is in the
block above it, or in the dnode at the highest level. What is read is the same wherever the pointer is kept, so a tree
is modelled by the pointer of each level and block id. A hole has no birth.
-/

namespace MacZfs.Dnode

/-- `blkptr_t`: `blk_birth`, `blk_fill`, and the size that `bp_get_dasize` computes for it. -/
structure Blkptr where
  blkBirth : ℕ
  blkFill : ℕ
  dasize : ℕ
  deriving DecidableEq, Repr

namespace Blkptr

/-- A pointer that `bzero` has cleared. -/
def zero : Blkptr := ⟨0, 0, 0⟩

/-- `BP_IS_HOLE` -/
def IsHole (bp : Blkptr) : Prop := bp.blkBirth = 0

instance (bp : Blkptr) : Decidable bp.IsHole := inferInstanceAs (Decidable (_ = _))

@[simp] theorem zero_isHole : zero.IsHole := rfl

end Blkptr

/-- The part of `dnode_phys_t` that says where the blocks of the object are. -/
structure DnodePhys where
  dnNlevels : ℕ
  dnIndblkshift : ℕ
  dnNblkptr : ℕ
  dnMaxblkid : ℕ
  blkptr : ℕ → ℕ → Blkptr

/-- `SPA_BLKPTRSHIFT` -/
def spaBlkptrshift : ℕ := 7

namespace DnodePhys

def epbs (dnp : DnodePhys) : ℕ := dnp.dnIndblkshift - spaBlkptrshift

structure Wf (dnp : DnodePhys) : Prop where
  levels : 0 < dnp.dnNlevels
  /-- The last block id has a pointer in the dnode at the highest level. -/
  reach : dnp.dnMaxblkid >>> ((dnp.dnNlevels - 1) * dnp.epbs) < dnp.dnNblkptr
  /-- There is nothing above the highest level, -/
  top : ∀ l i, dnp.dnNlevels ≤ l → (dnp.blkptr l i).IsHole
  /-- beyond the last block id, -/
  last : ∀ l i, dnp.dnMaxblkid >>> (l * dnp.epbs) < i → (dnp.blkptr l i).IsHole
  /-- or below a hole. -/
  below : ∀ l i, l + 1 < dnp.dnNlevels → (dnp.blkptr (l + 1) (i >>> dnp.epbs)).IsHole → (dnp.blkptr l i).IsHole

end DnodePhys

end MacZfs.Dnode
