import Mathlib

/-!
# Families of mutexes

Where each party stands says which mutexes it owns; the mutexes say who owns them. The two are
consistent at first, and stay so when a party takes a free mutex or gives up one of its own.

The second part counts parties by where they stand, for a counter that such a mutex protects.
-/

namespace Mutexes

open Function Finset

section Ownership

variable {ω κ : Type} {owns owns' : ω → κ → Prop} {lock : κ → Option ω} {o : ω} {k : κ}

def Consistent (owns : ω → κ → Prop) (lock : κ → Option ω) : Prop :=
  ∀ o k, owns o k ↔ lock k = some o

section

variable (consistent : Consistent owns lock)

include consistent

theorem Consistent.exclusive {o'} (left : owns o k) (right : owns o' k) : o = o' :=
  Option.some.inj (((consistent o k).mp left).symm.trans ((consistent o' k).mp right))

theorem Consistent.free (free : lock k = none) (o : ω) : ¬ owns o k := by
  simp [consistent o k, free]

theorem Consistent.same (same : ∀ o k, owns' o k ↔ owns o k) : Consistent owns' lock :=
  fun o k => (same o k).trans (consistent o k)

end

variable [DecidableEq κ]

theorem Consistent.acquire (consistent : Consistent owns lock) (free : lock k = none)
    (taken : ∀ o' k', owns' o' k' ↔ owns o' k' ∨ o' = o ∧ k' = k) : Consistent owns' (update lock k (some o)) := by
  intro o' k'
  rw [taken]
  by_cases eq : k' = k
  · subst eq
    simp [consistent.free free, eq_comm]
  · rw [update_of_ne eq, ← consistent o' k']
    simp [eq]

theorem Consistent.release (consistent : Consistent owns lock) (held : owns o k)
    (given : ∀ o' k', owns' o' k' ↔ owns o' k' ∧ ¬ (o' = o ∧ k' = k)) : Consistent owns' (update lock k none) := by
  intro o' k'
  rw [given]
  by_cases eq : k' = k
  · subst eq
    simp only [and_true, update_self, reduceCtorEq, iff_false, not_and, not_not]
    exact fun other => consistent.exclusive other held
  · rw [update_of_ne eq, ← consistent o' k']
    simp [eq]

end Ownership

section Tally

variable {ι β : Type} [Fintype ι]

def tally (P : β → Prop) [DecidablePred P] (f : ι → β) : ℕ := ∑ i, if P (f i) then 1 else 0

variable {P : β → Prop} [DecidablePred P] {f : ι → β}

theorem tally_eq_zero : tally P f = 0 ↔ ∀ i, ¬ P (f i) := by
  simp [tally]

theorem tally_update [DecidableEq ι] (P : β → Prop) [DecidablePred P] (f : ι → β) (i : ι) (b : β) :
    tally P (update f i b) + (if P (f i) then 1 else 0) = tally P f + if P b then 1 else 0 := by
  have rest : ∑ j ∈ Finset.univ.erase i, (if P (update f i b j) then 1 else 0) =
      ∑ j ∈ Finset.univ.erase i, if P (f j) then 1 else 0 := by
    refine sum_congr rfl fun j member => ?_
    rw [update_of_ne (ne_of_mem_erase member)]
  rw [tally, tally, ← add_sum_erase _ _ (mem_univ i), rest, update_self,
    ← add_sum_erase univ (fun j => if P (f j) then 1 else 0) (mem_univ i)]
  omega

end Tally

end Mutexes
