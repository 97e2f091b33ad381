import MacZfs.Dnode.NextOffset

/-! # The next object from anywhere

`dmu_object_next` from an object in a block that is a hole keeps its distance from the start of the hole. It finds the
next object only if that is at least as far from the start of each region of the size of a hole around the first.
-/

namespace MacZfs.Dnode

open Nat LevelSearch

namespace Searched

variable {dn : Searched} {y object : ℕ}

def Allocated (dn : Searched) (object : ℕ) : Prop := dn.Sought 0 0 (object <<< 9)

/-- A block around the object is a hole, of level `l`. -/
def HoleAt (dn : Searched) (l object : ℕ) : Prop := (dn.phys.blkptr l ((object <<< 9) >>> dn.span (l + 1))).IsHole

/-- Where there is a hole around the object after `object`, `y` is not nearer to the start of its region. -/
def Follows (dn : Searched) (object y : ℕ) : Prop :=
  ∀ l, l < dn.phys.dnNlevels → dn.HoleAt l (object + 1) →
    (object + 1) <<< 9 % 2 ^ dn.span (l + 1) ≤ y <<< 9 % 2 ^ dn.span (l + 1)

section

variable (written : dn.Written 0 32)

include written

theorem Written.search_forward (o) (small : o < 2 ^ 64) :
    o ≤ (dnodeNextOffset dn false o 0 32 0).2 ∧ (dnodeNextOffset dn false o 0 32 0).2 < 2 ^ 64 := by
  rw [written.nextOffset_eq]
  exact search_keeps (Forward.refl (2 ^ 64)) Forward.trans (written.forward 0) (zero_le dn.phys.dnNlevels) o small

/-- `dmu_object_next` stays below `2 ^ 55`, -/
theorem Written.next_lt (object) : (dmuObjectNext dn object false 0).2 < 2 ^ 55 := by
  have bounded := (written.search_forward (u64 ((object + 1) <<< 9)) (mod_lt _ (Nat.two_pow_pos 64))).2
  simp only [dmuObjectNext, shiftRight_eq_div_pow]
  omega

theorem Written.lt_next (small : object + 1 < 2 ^ 55) : object < (dmuObjectNext dn object false 0).2 := by
  have fits : (object + 1) <<< 9 < 2 ^ 64 := by
    omega
  have after := (written.search_forward _ fits).1
  rw [dmuObjectNext, u64_of_lt fits]
  simp only [shiftLeft_eq, shiftRight_eq_div_pow] at after ⊢
  omega

/-- From anywhere, the next object is found exactly if it follows the start; otherwise it is passed. -/
theorem Written.next_iff (small : object + 1 < 2 ^ 55) (least : IsLeast {n | object < n ∧ dn.Allocated n} y) :
    (dn.Follows object y → (dmuObjectNext dn object false 0).2 = y) ∧
      (¬dn.Follows object y → y < (dmuObjectNext dn object false 0).2) := by
  have fits : (object + 1) <<< 9 < 2 ^ 64 := by
    omega
  have aligned : 2 ^ dn.span 0 ∣ (object + 1) <<< 9 := ⟨object + 1, by rw [shiftLeft_eq, mul_comm]; rfl⟩
  have least' : IsLeast {x | (object + 1) <<< 9 ≤ x ∧ dn.Sought 0 0 x} (y <<< 9) := by
    obtain ⟨⟨more, allocated⟩, first⟩ := least
    refine ⟨⟨by omega, allocated⟩, ?_⟩
    rintro x ⟨start, sought⟩
    have next : object < x >>> 9 := by
      omega
    have := first ⟨next, (sought_slot written.pow x).mpr sought⟩
    omega
  obtain ⟨found, passed⟩ := written.found_or_passed (zero_le _) (fun not => absurd rfl not) aligned least'
  have hole (l : ℕ) : ¬dn.New 0 l ((object + 1) <<< 9 >>> dn.span (l + 1)) ↔ dn.HoleAt l (object + 1) := by
    simp [New, HoleAt]
  have rest := written.nextOffset_mod (zero_le _) 0 ((object + 1) <<< 9)
  rw [mod_eq_zero_of_dvd aligned] at rest
  have start := dvd_of_mod_eq_zero rest
  rw [dmuObjectNext, u64_of_lt fits]
  simp only [shiftRight_eq_div_pow]
  constructor
  · intro follows
    rw [found fun l _ inTree old => follows l inTree ((hole l).mp old), shiftLeft_eq]
    exact Nat.mul_div_cancel _ (by decide)
  · intro not
    rw [Follows, not_forall] at not
    obtain ⟨l, not⟩ := not
    rw [Classical.not_imp, Classical.not_imp, not_le] at not
    obtain ⟨inTree, old, near⟩ := not
    have past := passed ⟨l, zero_le l, inTree, (hole l).mpr old, near⟩
    simp only [span] at start
    omega

end

end Searched

end MacZfs.Dnode
