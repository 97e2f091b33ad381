import MacZfs.Lib.Lineage

/-!
# The branches of a lineage

The threads of a lineage are its branches: a version goes on with the next one in its own branch, and a
branch begins where the thread of the parent goes elsewhere, or where there is no parent. Every branch has
one first version, whose parent is the origin of the branch. A branch may take over the versions that lead
to its origin, which then begin it.
-/

variable {ι β δ : Type*}

namespace Lineage

open Lineage

open Function Finset

/-- The thread of its parent does not lead to `o`. -/
def First (L : Lineage ι β) (next : ι → Option ι) (o : ι) : Prop := ∀ p, L.parent o = some p → next p ≠ some o

structure Branched (L : Lineage ι β) (next : ι → Option ι) (branch : ι → δ) (origin : δ → Option ι) : Prop where
  next_branch : ∀ o ∈ L.live, ∀ n, next o = some n → branch n = branch o
  first_unique : ∀ o ∈ L.live, ∀ o' ∈ L.live, branch o = branch o' → L.First next o → L.First next o' → o = o'
  origin_eq : ∀ o ∈ L.live, L.First next o → origin (branch o) = L.parent o

section Branched

variable {birth : β → ℕ} {L : Lineage ι β} {next : ι → Option ι} {count : ι → ℕ} {branch : ι → δ}
  {origin : δ → Option ι} (branched : L.Branched next branch origin)

section

include branched

theorem Branched.exists_first (sound : L.Sound birth)
    (live : o ∈ L.live) : ∃ f ∈ L.live, L.First next f ∧ branch f = branch o ∧ L.since f ≤ L.since o := by
  induction n : L.since o using Nat.strong_induction_on generalizing o with
  | _ n ih =>
    subst n
    by_cases first : L.First next o
    · exact ⟨o, live, first, rfl, le_rfl⟩
    · simp only [First, not_forall, not_not] at first
      obtain ⟨p, parent, at_⟩ := first
      have older := sound.older o live p parent
      have live' := sound.parent_live o live p parent
      obtain ⟨f, live'', first, same, le⟩ := ih _ older live' rfl
      exact ⟨f, live'', first, same.trans (branched.next_branch p live' o at_).symm, by omega⟩

theorem Branched.parent_branch (sound : L.Sound birth)
    (live : o ∈ L.live) (first : L.First next o) (parent : L.parent o = some p) (live' : q ∈ L.live)
    (older : L.since q ≤ L.since p) : branch q ≠ branch o := by
  intro same
  obtain ⟨f, live'', first', same', le⟩ := branched.exists_first sound live'
  obtain rfl := branched.first_unique f live'' o live (same'.trans same) first' first
  have := sound.older f live p parent
  omega

/-- The branches begin as before, but with `back o` where they began with `o`. -/
theorem Branched.rename {L' : Lineage ι β} {next'} {branch'} (back : ι → ι)
    (next_branch : ∀ o ∈ L'.live, ∀ n, next' o = some n → branch' n = branch' o)
    (begins : ∀ y ∈ L'.live, L'.First next' y →
      ∃ o ∈ L.live, L.First next o ∧ branch o = branch' y ∧ L.parent o = L'.parent y ∧ back o = y) :
    L'.Branched next' branch' origin := by
  refine ⟨next_branch, ?_, ?_⟩
  · intro y live y' live' same first first'
    obtain ⟨o, old, began, at_, -, rfl⟩ := begins y live first
    obtain ⟨o', old', began', at_', -, rfl⟩ := begins y' live' first'
    rw [branched.first_unique o old o' old' (at_.trans (same.trans at_'.symm)) began began']
  · intro y live first
    obtain ⟨o, old, first, at_, parent, -⟩ := begins y live first
    rw [← at_, ← parent]
    exact branched.origin_eq o old first

end

variable [DecidableEq ι]

section

variable (sound : L.Sound birth) (threaded : L.Threaded next count)

include branched sound threaded

theorem Branched.add [DecidableEq δ] {x parent since held d}
    (fresh : x ∉ L.live) (empty : ∀ o ∈ L.live, branch o ≠ d) :
    (L.add x parent since held).Branched (Function.update next x none) (Function.update branch x d)
      (Function.update origin d parent) := by
  have parent_live := sound.parent_live
  obtain ⟨-, next_live, -, -⟩ := threaded
  obtain ⟨next_branch, first_unique, origin_eq⟩ := branched
  constructor <;> simp only [First, Lineage.add, update_apply, mem_insert] <;> grind [First]

theorem Branched.split {o x since next'} (live : o ∈ L.live)
    (last : next o = none) (fresh : x ∉ L.live) (own : next' x = some o)
    (rest : ∀ y ≠ x, next' y = if L.parent o = some y ∧ next y = some o then some x else next y) :
    ((L.add x (L.parent o) (L.since o) (L.holds o)).reparent o (some x) since).Branched next'
      (Function.update branch x (branch o)) origin := by
  have parent_live := sound.parent_live
  have leaf := threaded.leaf last
  obtain ⟨-, next_live, next_parent, -⟩ := threaded
  refine branched.rename (fun y => if y = o then x else y) ?_ ?_
  · have next_branch := branched.next_branch
    simp only [Lineage.add, Lineage.reparent, update_apply, mem_insert]
    grind
  · simp only [First, Lineage.add, Lineage.reparent, update_apply, mem_insert]
    intro y member first
    by_cases new : y = x
    · exact ⟨o, live, by grind, by grind, by grind, by grind⟩
    · exact ⟨y, by grind, by grind, by grind, by grind, by grind⟩

end

include branched in
theorem Branched.splice (live : o ∈ L.live)
    (at_ : next o = some n) (rest : ∀ y, next' y = if L.parent o = some y ∧ next y = some o then some n else next y) :
    ((L.reparent n (L.parent o) (L.since o)).remove o).Branched next' branch origin := by
  have next_branch := branched.next_branch
  refine branched.rename (fun y => if y = o then n else y) ?_ ?_
  · simp only [remove, reparent, mem_erase]
    grind
  · simp only [First, remove, reparent, update_apply, mem_erase]
    intro y member first
    by_cases after : y = n
    · exact ⟨o, live, by grind, by grind, by grind, by grind⟩
    · exact ⟨y, by grind, by grind, by grind, by grind, by grind⟩

include branched in
theorem Branched.remove (o : ι) : (L.remove o).Branched next branch origin := by
  refine branched.rename id ?_ ?_
  · exact fun y member => branched.next_branch y (mem_of_mem_erase member)
  · exact fun y member first => ⟨y, mem_of_mem_erase member, first, rfl, rfl, rfl⟩

/-- The versions of a branch from its first one up to `pivot`. -/
structure UpTo (L : Lineage ι β) (next : ι → Option ι) (branch : ι → δ) (pivot : ι) (moved : ι → Prop) : Prop where
  top : moved pivot
  live : ∀ o, moved o → o ∈ L.live
  below : ∀ o p, moved o → L.parent o = some p → next p = some o → moved p
  above : ∀ o, moved o → o ≠ pivot → ∃ n, next o = some n ∧ moved n
  older : ∀ o, moved o → L.since o ≤ L.since pivot
  along : ∀ o, moved o → branch o = branch pivot

omit [DecidableEq ι] in
/-- A branch that begins with `o` itself. -/
theorem First.upTo (first : L.First next o) (live : o ∈ L.live) : L.UpTo next branch o (· = o) := by
  refine ⟨rfl, ?_, ?_, ?_, ?_, ?_⟩
  · exact fun _ same => same ▸ live
  · rintro _ p rfl parent at_
    exact absurd at_ (first p parent)
  · exact fun _ same other => absurd same other
  · exact fun _ same => same ▸ le_rfl
  · exact fun _ same => same ▸ rfl

omit [DecidableEq ι] in
include branched in
theorem UpTo.extend (sound : L.Sound birth)
    (upTo : L.UpTo next branch p moved) (live : o ∈ L.live) (parent : L.parent o = some p) (at_ : next p = some o) :
    L.UpTo next branch o fun y => y = o ∨ moved y := by
  have older := sound.older o live p parent
  have same := branched.next_branch p (upTo.live p upTo.top) o at_
  obtain ⟨top, live', below, above, older', along⟩ := upTo
  constructor
  case above =>
    intro y inside other
    have moved := inside.resolve_left other
    by_cases last : y = p
    · exact ⟨o, last ▸ at_, .inl rfl⟩
    · obtain ⟨n, follows, moved⟩ := above y moved last
      exact ⟨n, follows, .inr moved⟩
  all_goals grind

omit [DecidableEq ι] in
theorem UpTo.exists_first (upTo : L.UpTo next branch pivot moved)
    (sound : L.Sound birth) (inside : moved o) : ∃ f, moved f ∧ L.First next f := by
  induction n : L.since o using Nat.strong_induction_on generalizing o with
  | _ n ih =>
    subst n
    by_cases first : L.First next o
    · exact ⟨o, inside, first⟩
    · simp only [First, not_forall, not_not] at first
      obtain ⟨p, parent, at_⟩ := first
      exact ih _ (sound.older o (upTo.live o inside) p parent) (upTo.below o p inside parent at_) rfl

include branched in
/-- What begins a branch once the thread of `pivot` leads to `n`: nothing else in the branch of `n` but what it
    takes over, the version that `pivot` led to before, and else what did. -/
theorem Branched.first_takeOver (sound : L.Sound birth) {n pivot}
    {moved} (live : n ∈ L.live) (first : L.First next n) (parent : L.parent n = some pivot)
    (upTo : L.UpTo next branch pivot moved) {y} (live' : y ∈ L.live)
    (first' : L.First (Function.update next pivot (some n)) y) :
    (moved y → L.First next y) ∧ (¬moved y → branch y ≠ branch n) ∧
      (¬moved y → branch y = branch pivot → next pivot = some y) ∧
      (¬moved y → branch y ≠ branch pivot → L.First next y) := by
  have pivot_live := upTo.live pivot upTo.top
  have began : L.First next y ∨ next pivot = some y ∧ L.parent y = some pivot := by
    by_cases before : L.First next y
    · exact .inl before
    · simp only [First, not_forall, not_not] at before
      obtain ⟨p, parent, at_⟩ := before
      by_cases same : p = pivot
      · exact .inr (same ▸ ⟨at_, parent⟩)
      · exact absurd (by rwa [update_of_ne same]) (first' p parent)
  refine ⟨fun inside => ?_, fun outside same => ?_, fun outside same => ?_, fun outside other => ?_⟩
  · cases began with
    | inl before => exact before
    | inr after =>
      have := sound.older y live' pivot after.2
      have := upTo.older y inside
      omega
  · cases began with
    | inl before =>
      obtain rfl := branched.first_unique y live' n live same before first
      exact first' pivot parent (update_self _ _ _)
    | inr after =>
      have apart := branched.parent_branch sound live first parent pivot_live le_rfl
      exact apart ((branched.next_branch pivot pivot_live y after.1).symm.trans same)
  · cases began with
    | inl before =>
      obtain ⟨f, inside, begins⟩ := upTo.exists_first sound upTo.top
      have at_ := (upTo.along f inside).trans same.symm
      exact absurd (branched.first_unique f (upTo.live f inside) y live' at_ begins before ▸ inside) outside
    | inr after => exact after.1
  · cases began with
    | inl before => exact before
    | inr after => exact absurd (branched.next_branch pivot pivot_live y after.1) other

include branched in
/-- The branch of `n` takes over what leads to its origin, and the branch that this was part of begins where it
    parted. -/
theorem Branched.takeOver [DecidableEq δ] (sound : L.Sound birth)
    (threaded : L.Threaded next count) [DecidablePred moved] (live : n ∈ L.live)
    (first : L.First next n) (parent : L.parent n = some pivot) (upTo : L.UpTo next branch pivot moved) :
    L.Branched (Function.update next pivot (some n)) (fun o => if moved o then branch n else branch o)
      (Function.update (Function.update origin (branch n) (origin (branch pivot))) (branch pivot) (some pivot)) := by
  have begins := fun y live' first' =>
    @branched.first_takeOver _ _ _ _ _ _ _ _ _ sound _ _ _ live first parent upTo y live' first'
  have next_branch := branched.next_branch
  have next_parent := threaded.next_parent
  have first_unique := branched.first_unique
  have origin_eq := branched.origin_eq
  have along := upTo.along
  constructor
  · intro o live' m at_
    have below := upTo.below
    have above := upTo.above
    have top := upTo.top
    grind [update_apply]
  · intro y live' y' live'' same first' first''
    by_cases parted : branch y = branch pivot <;> grind
  · intro y live' first'
    have pivot_live := upTo.live pivot upTo.top
    grind [update_apply]

end Branched

end Lineage
