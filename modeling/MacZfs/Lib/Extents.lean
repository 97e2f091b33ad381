import Mathlib

/-!
# Extents

Half-open intervals of natural numbers, and lists of them kept in increasing order
with a gap between neighbours. Such a list is the canonical form of a finite set:
two neighbours that touched would have been merged. The set a list stands for is its
`cover`; the lemmas here say how inserting, cutting and removing one interval act on
the cover, so that a client never reasons about the list itself.
-/

namespace Extents

open Finset

/-- The half-open interval `[start, stop)`. -/
structure Extent where
  start : ℕ
  stop : ℕ
  deriving Repr, DecidableEq

namespace Extent

def toFinset (e : Extent) : Finset ℕ := Finset.Ico e.start e.stop

def size (e : Extent) : ℕ := e.stop - e.start

@[simp]
theorem mem_toFinset {e : Extent} : x ∈ e.toFinset ↔ e.start ≤ x ∧ x < e.stop := by
  simp [toFinset]

@[simp]
theorem card_toFinset (e : Extent) : e.toFinset.card = e.size := by
  simp [toFinset, size]

end Extent

def cover : List Extent → Finset ℕ
  | [] => ∅
  | e :: es => e.toFinset ∪ cover es

def total (es : List Extent) : ℕ := (es.map Extent.size).sum

structure Separated (es : List Extent) : Prop where
  gaps : es.Pairwise fun a b => a.stop < b.start
  nonempty : ∀ e ∈ es, e.start < e.stop

@[simp]
theorem cover_nil : cover [] = ∅ := rfl

@[simp]
theorem cover_cons (e : Extent) (es) : cover (e :: es) = e.toFinset ∪ cover es := rfl

@[simp]
theorem cover_append (xs ys : List Extent) : cover (xs ++ ys) = cover xs ∪ cover ys := by
  induction xs with
  | nil => simp
  | cons head tail ih => simp [ih, union_assoc]

variable {es : List Extent}

theorem mem_cover : x ∈ cover es ↔ ∃ e ∈ es, e.start ≤ x ∧ x < e.stop := by
  induction es with
  | nil => simp
  | cons head tail ih => simp [ih]

theorem cover_perm (perm : xs.Perm ys) : cover xs = cover ys := by
  ext x
  simp only [mem_cover]
  exact exists_congr fun e => and_congr_left fun _ => perm.mem_iff

@[simp]
theorem total_nil : total [] = 0 := rfl

@[simp]
theorem total_cons (e : Extent) (es) : total (e :: es) = e.size + total es := rfl

/-! ## Separated lists -/

theorem separated_nil : Separated [] := ⟨.nil, by simp⟩

theorem Separated.sublist (separated : Separated ys) (sub : xs.Sublist ys) : Separated xs :=
  ⟨separated.gaps.sublist sub, fun e member => separated.nonempty e (sub.subset member)⟩

theorem Separated.tail {e es} (separated : Separated (e :: es)) : Separated es :=
  separated.sublist (List.sublist_cons_self e es)

variable {e : Extent}

theorem separated_insert (left : Separated before) (right : Separated after) (nonempty : e.start < e.stop)
    (below : ∀ b ∈ before, b.stop < e.start) (above : ∀ a ∈ after, e.stop < a.start) :
    Separated (before ++ e :: after) := by
  constructor
  · rw [List.pairwise_append, List.pairwise_cons]
    refine ⟨left.gaps, ⟨above, right.gaps⟩, ?_⟩
    intro b member a inside
    rcases List.mem_cons.mp inside with rfl | inside
    · exact below b member
    · have := below b member
      have := above a inside
      omega
  · intro x member
    rcases List.mem_append.mp member with member | member
    · exact left.nonempty x member
    · rcases List.mem_cons.mp member with rfl | member
      · exact nonempty
      · exact right.nonempty x member

theorem Separated.around (separated : Separated (before ++ e :: after)) :
    Separated before ∧ Separated after ∧ e.start < e.stop ∧
      (∀ b ∈ before, b.stop < e.start) ∧ ∀ a ∈ after, e.stop < a.start := by
  have gaps := List.pairwise_append.mp separated.gaps
  refine ⟨separated.sublist (List.sublist_append_left _ _),
    separated.sublist ((List.sublist_cons_self _ _).trans (List.sublist_append_right _ _)),
    separated.nonempty e (by simp), ?_, ?_⟩
  · intro b member
    exact gaps.2.2 b member e (by simp)
  · intro a member
    exact (List.pairwise_cons.mp gaps.2.1).1 a member

def Scattered (es : List Extent) : Prop := es.Pairwise fun a b => Disjoint a.toFinset b.toFinset

theorem Scattered.perm (scattered : Scattered xs) (perm : xs.Perm ys) : Scattered ys :=
  (perm.pairwise_iff fun apart => apart.symm).mp scattered

theorem Separated.scattered (separated : Separated es) : Scattered es := by
  refine separated.gaps.imp ?_
  intro a b gap
  rw [Finset.disjoint_left]
  intro x inside outside
  simp only [Extent.mem_toFinset] at inside outside
  omega

theorem disjoint_cover : Disjoint s (cover es) ↔ ∀ e ∈ es, Disjoint s e.toFinset := by
  induction es with
  | nil => simp
  | cons head tail ih => simp [ih]

theorem Scattered.head_disjoint (scattered : Scattered (e :: es)) : Disjoint e.toFinset (cover es) :=
  disjoint_cover.mpr (List.pairwise_cons.mp scattered).1

theorem card_cover (scattered : Scattered es) : (cover es).card = total es := by
  induction es with
  | nil => rfl
  | cons head tail ih =>
    rw [cover_cons, card_union_of_disjoint scattered.head_disjoint,
      ih (List.pairwise_cons.mp scattered).2, Extent.card_toFinset, total_cons]

theorem Separated.exists_extent (separated : Separated es)
    (nonempty : lo < hi) (inside : Finset.Ico lo hi ⊆ cover es) : ∃ e ∈ es, e.start ≤ lo ∧ hi ≤ e.stop := by
  obtain ⟨e, member, lower, upper⟩ :=
    mem_cover.mp (inside (mem_Ico.mpr ⟨le_refl lo, nonempty⟩))
  refine ⟨e, member, lower, ?_⟩
  by_contra short
  -- The end of the extent is then covered too, by a neighbour that touches it.
  obtain ⟨e', member', lower', upper'⟩ :=
    mem_cover.mp (inside (mem_Ico.mpr ⟨by omega, by omega⟩ : e.stop ∈ _))
  obtain ⟨before, after, rfl⟩ := List.append_of_mem member
  obtain ⟨-, -, -, below, above⟩ := separated.around
  rcases List.mem_append.mp member' with old | new
  · have := below e' old
    omega
  · rcases List.mem_cons.mp new with rfl | new
    · omega
    · have := above e' new
      omega

end Extents
