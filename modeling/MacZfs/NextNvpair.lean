import MacZfs.Base

/-! # Walks over an nvlist

`nvlist_next_nvpair` of `nvpair.c`, and the one cursor that it keeps for all walks over a list. A pair is its address, and
the links between the pairs are their order in a list.
-/

namespace MacZfs.Nvlist

open List

/-- `nvpriv_t`. The list stands for `nvp_list`, `nvp_last` and the links from one to the other. -/
structure Nvpriv (ι : Type*) where
  nvpList : List ι
  nvpCurr : Option ι

variable {ι : Type*} [DecidableEq ι]

/-- `nvi_next` of a pair in a list. -/
def nviNext (curr : ι) : List ι → Option ι
  | [] => none
  | p :: l => if p = curr then l.head? else nviNext curr l

/-- `nvp_buf_link` -/
def nvpBufLink (priv : Nvpriv ι) (curr : ι) : Nvpriv ι := { priv with nvpList := priv.nvpList ++ [curr] }

/-- `nvp_buf_unlink` -/
def nvpBufUnlink (priv : Nvpriv ι) (curr : ι) : Nvpriv ι where
  nvpCurr := if priv.nvpCurr = some curr then nviNext curr priv.nvpList else priv.nvpCurr
  nvpList := priv.nvpList.erase curr

/-- `nvlist_contains_nvp` -/
def nvlistContainsNvp (priv : Nvpriv ι) (nvp : ι) : Bool := priv.nvpList.any (· = nvp)

/-- `nvlist_next_nvpair`: what it returns, and the cursor it leaves. -/
def nvlistNextNvpair (priv : Nvpriv ι) (nvp : Option ι) : Option ι × Nvpriv ι :=
  let curr :=
    match nvp with
    | none => priv.nvpList.head?
    | some curr =>
      if priv.nvpCurr = some curr then nviNext curr priv.nvpList
      -- the pair itself, and not the next one
      else if nvlistContainsNvp priv curr then some curr
      else none
  (curr, { priv with nvpCurr := curr })

/-- What calls lead to from `nvlist_alloc`. A pair that is added has a new buffer, `nvlist_remove` and `nvlist_remove_all`
    unlink pairs one by one, and a lookup changes nothing. -/
inductive Reachable : Nvpriv ι → Prop where
  | alloc : Reachable ⟨[], none⟩
  | add {priv p} (reachable : Reachable priv) (fresh : p ∉ priv.nvpList) : Reachable (nvpBufLink priv p)
  | remove {priv p} (reachable : Reachable priv) (linked : p ∈ priv.nvpList) : Reachable (nvpBufUnlink priv p)
  | next {priv} (reachable : Reachable priv) (nvp : Option ι) : Reachable (nvlistNextNvpair priv nvp).2

variable {priv : Nvpriv ι} {p : ι} {before after : List ι}

theorem Reachable.nodup (reachable : Reachable priv) : priv.nvpList.Nodup := by
  induction reachable with
  | alloc => exact nodup_nil
  | add _ fresh ih => exact nodup_append_comm.mp (nodup_cons.mpr ⟨fresh, ih⟩)
  | remove _ _ ih => exact ih.erase _
  | next _ _ ih => exact ih

theorem nviNext_append (outside : p ∉ before) : nviNext p (before ++ p :: after) = after.head? := by
  induction before with
  | nil => exact if_pos rfl
  | cons q before ih =>
    rw [mem_cons, not_or] at outside
    exact (if_neg (Ne.symm outside.1)).trans (ih outside.2)

/-- The next pair is returned only to the walk that moved the cursor last. -/
theorem nvlist_next_nvpair_iff (reachable : Reachable priv) (here : priv.nvpList = before ++ p :: after) :
    (nvlistNextNvpair priv (some p)).1 = after.head? ↔ priv.nvpCurr = some p := by
  have nodup := here ▸ reachable.nodup
  obtain ⟨outside, rest⟩ := nodup_cons.mp (nodup_middle.mp nodup)
  rw [mem_append, not_or] at outside
  simp only [nvlistNextNvpair, here]
  split
  next there => exact ⟨fun _ => there, fun _ => nviNext_append outside.1⟩
  next elsewhere =>
    have contains : nvlistContainsNvp priv p := by simp [nvlistContainsNvp, here]
    rw [if_pos contains]
    refine ⟨fun next => ?_, fun there => absurd there elsewhere⟩
    exact absurd (mem_of_head? next.symm) outside.2

/-- A list of two pairs, and the cursor on the second after a walk. -/
theorem reachable_walked : Reachable (⟨[0, 1], some 1⟩ : Nvpriv ℕ) :=
  (((Reachable.alloc.add (p := 0) (by decide)).add (p := 1) (by decide)).next none).next (some 0)

theorem nvlist_next_nvpair_last : (nvlistNextNvpair (⟨[0, 1], some 1⟩ : Nvpriv ℕ) (some 1)).1 = none :=
  (@nvlist_next_nvpair_iff ℕ _ ⟨[0, 1], some 1⟩ 1 [0] [] reachable_walked rfl).mpr rfl

/-- A second walk, whose pair has a next one, is given its own pair again. -/
theorem nvlist_next_nvpair_again : ∃ priv : Nvpriv ℕ, Reachable priv ∧ priv.nvpList = [0, 1] ∧
    (nvlistNextNvpair priv (some 0)).1 = some 0 :=
  ⟨⟨[0, 1], some 1⟩, reachable_walked, rfl, rfl⟩

end MacZfs.Nvlist
