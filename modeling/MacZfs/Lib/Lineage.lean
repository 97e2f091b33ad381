import Mathlib

/-!
# Lineages

Versions that share what they hold. Every version has a parent, taken at the time `since`, and
holds things that were born at some time. A version has what was born by `since` from its parent;
what was born later it holds by itself, and no other version holds it but through a child of its.
So a version without children owns what is younger than its parent, and this is all that is lost
when it goes away.
-/

variable {ι β : Type*}

structure Lineage (ι β : Type*) where
  live : Finset ι
  parent : ι → Option ι
  since : ι → ℕ
  holds : ι → Set β

namespace Lineage

open Finset

open Lineage

open Function Finset

/-- Some live version holds `b`. -/
def Referenced (L : Lineage ι β) (b : β) : Prop := ∃ o ∈ L.live, b ∈ L.holds o

/-- No live version has `o` as its parent. -/
def Leaf (L : Lineage ι β) (o : ι) : Prop := ∀ c ∈ L.live, L.parent c ≠ some o

structure Sound (birth : β → ℕ) (L : Lineage ι β) : Prop where
  parent_live : ∀ o ∈ L.live, ∀ p, L.parent o = some p → p ∈ L.live
  older : ∀ o ∈ L.live, ∀ p, L.parent o = some p → L.since p < L.since o
  before : ∀ o ∈ L.live, ∀ p, L.parent o = some p → ∀ b ∈ L.holds p, birth b ≤ L.since o
  inherit : ∀ o ∈ L.live, ∀ b ∈ L.holds o, birth b ≤ L.since o → ∃ p, L.parent o = some p ∧ b ∈ L.holds p
  origin : ∀ o ∈ L.live, ∀ o' ∈ L.live, ∀ b, b ∈ L.holds o → b ∈ L.holds o' →
    L.since o < birth b → L.since o' < birth b → o = o'

section Sound

variable {birth : β → ℕ} {L : Lineage ι β}

variable {o : ι}

theorem Sound.parent_ne (sound : L.Sound birth) (live : o ∈ L.live) (parent : L.parent o = some p) : p ≠ o := by
  rintro rfl
  exact lt_irrefl _ (sound.older _ live _ parent)

variable {r : ι} {b : β}

section

variable (sound : L.Sound birth) (live : r ∈ L.live)

include sound live

theorem Sound.exists_child (owned : b ∈ L.holds r) (young : L.since r < birth b) (live' : o ∈ L.live)
    (held : b ∈ L.holds o) (other : o ≠ r) : ∃ c ∈ L.live, L.parent c = some r ∧ b ∈ L.holds c := by
  -- The parents of `o` have ever smaller times, and the last one to hold `b` is `r`.
  induction n : L.since o using Nat.strong_induction_on generalizing o with
  | _ n ih =>
    subst n
    by_cases inherited : birth b ≤ L.since o
    · obtain ⟨p, parent, held'⟩ := sound.inherit o live' b held inherited
      by_cases same : p = r
      · exact ⟨o, live', same ▸ parent, held⟩
      · exact ih _ (sound.older o live' p parent) (sound.parent_live o live' p parent) held' same rfl
    · exact absurd (sound.origin o live' r live b held owned (by omega) young) other

theorem Sound.owner (owned : b ∈ L.holds r) (young : L.since r < birth b)
    (gone : ∀ c ∈ L.live, L.parent c = some r → b ∉ L.holds c) (live' : o ∈ L.live)
    (held : b ∈ L.holds o) : o = r := by
  by_contra other
  obtain ⟨c, live'', parent, held'⟩ := sound.exists_child live owned young live' held other
  exact gone c live'' parent held'

theorem Sound.leaf_owner (leaf : L.Leaf r) (owned : b ∈ L.holds r) (young : L.since r < birth b)
    (live' : o ∈ L.live) (held : b ∈ L.holds o) : o = r :=
  sound.owner live owned young (fun c live parent => absurd parent (leaf c live)) live' held

end

end Sound

/-! ## Changes -/

variable [DecidableEq ι]

def update (L : Lineage ι β) (o : ι) (held : Set β) : Lineage ι β :=
  { L with holds := Function.update L.holds o held }

def add (L : Lineage ι β) (o : ι) (parent : Option ι) (since : ℕ) (held : Set β) : Lineage ι β where
  live := insert o L.live
  parent := Function.update L.parent o parent
  since := Function.update L.since o since
  holds := Function.update L.holds o held

def reparent (L : Lineage ι β) (o : ι) (parent : Option ι) (since : ℕ) : Lineage ι β :=
  { L with parent := Function.update L.parent o parent, since := Function.update L.since o since }

def remove (L : Lineage ι β) (o : ι) : Lineage ι β := { L with live := L.live.erase o }

section Changes

variable {birth : β → ℕ} {L : Lineage ι β}

variable {o : ι}

/-- A leaf may hold what its parent holds, and what is young and nobody else has. -/
theorem Sound.update (sound : L.Sound birth) (live : o ∈ L.live) (leaf : L.Leaf o)
    (allowed : ∀ b ∈ held, (∃ p, L.parent o = some p ∧ b ∈ L.holds p) ∨
      L.since o < birth b ∧ ∀ o' ∈ L.live, b ∈ L.holds o' → o' = o) :
    (L.update o held).Sound birth := by
  have kept : ∀ {x p}, x ∈ L.live → L.parent x = some p → (L.update o held).holds p = L.holds p := by
    intro x p live' parent
    exact update_of_ne (fun same : p = o => leaf x live' (same ▸ parent)) _ _
  have young : ∀ b ∈ held, L.since o < birth b → ∀ o' ∈ L.live, b ∈ L.holds o' → o' = o := by
    intro b member late
    rcases allowed b member with ⟨p, parent, inside⟩ | ⟨-, alone⟩
    · exact absurd (sound.before o live p parent b inside) (by omega)
    · exact alone
  refine ⟨sound.parent_live, sound.older, ?_, ?_, ?_⟩
  · intro x live' p parent b inside
    exact sound.before x live' p parent b (kept live' parent ▸ inside)
  · intro x live' b inside early
    by_cases same : x = o
    · subst same
      rcases allowed b (by simpa [Lineage.update] using inside) with ⟨p, parent, inside⟩ | ⟨late, -⟩
      · exact ⟨p, parent, (kept live parent).symm ▸ inside⟩
      · exact absurd early (by simpa [Lineage.update] using late)
    · obtain ⟨p, parent, inside⟩ :=
        sound.inherit x live' b (by simpa [Lineage.update, same] using inside) early
      exact ⟨p, parent, (kept live' parent).symm ▸ inside⟩
  · intro x live' y live'' b inside inside' late late'
    simp only [Lineage.update, update_apply] at inside inside'
    split_ifs at inside inside' with left right right
    · exact left.trans right.symm
    · exact left.trans (young b inside (left ▸ late) y live'' inside').symm
    · exact (young b inside' (right ▸ late') x live' inside).trans right.symm
    · exact sound.origin x live' y live'' b inside inside' late late'

theorem Sound.add (sound : L.Sound birth) {x parent since held} (fresh : x ∉ L.live)
    (below : ∀ p, parent = some p → p ∈ L.live ∧ L.since p < since ∧ ∀ b ∈ L.holds p, birth b ≤ since)
    (allowed : ∀ b ∈ held, ∃ p, parent = some p ∧ b ∈ L.holds p) : (L.add x parent since held).Sound birth := by
  obtain ⟨parent_live, older, before, inherit, origin⟩ := sound
  constructor <;> simp only [Lineage.add, update_apply, mem_insert] <;> grind

variable {since : ℕ}

theorem Sound.split (sound : L.Sound birth) {x} (live : o ∈ L.live)
    (leaf : L.Leaf o) (fresh : x ∉ L.live) (later : L.since o < since)
    (all : ∀ b ∈ L.holds o, birth b ≤ since) :
    ((L.add x (L.parent o) (L.since o) (L.holds o)).reparent o (some x) since).Sound birth := by
  obtain ⟨parent_live, older, before, inherit, origin⟩ := sound
  have leaf' : ∀ c ∈ L.live, L.parent c ≠ some o := leaf
  constructor <;> simp only [Lineage.add, Lineage.reparent, update_apply, mem_insert] <;> grind

theorem Sound.remove_leaf (sound : L.Sound birth) (leaf : L.Leaf o) : (L.remove o).Sound birth := by
  obtain ⟨parent_live, older, before, inherit, origin⟩ := sound
  have leaf' : ∀ c ∈ L.live, L.parent c ≠ some o := leaf
  constructor <;> simp only [remove, mem_erase] <;> grind

theorem Sound.splice (sound : L.Sound birth) {n} (live : o ∈ L.live) (live' : n ∈ L.live)
    (child : L.parent n = some o) (only : ∀ c ∈ L.live, L.parent c = some o → c = n) :
    ((L.reparent n (L.parent o) (L.since o)).remove o).Sound birth := by
  obtain ⟨parent_live, older, before, inherit, origin⟩ := sound
  constructor <;>
    simp only [remove, reparent, update_apply, mem_erase] <;> grind

/-! ## What is lost -/

variable {b : β}

theorem Sound.referenced_update (sound : L.Sound birth) (live : o ∈ L.live) (leaf : L.Leaf o) :
    (L.update o held).Referenced b ↔
      b ∈ held ∨ L.Referenced b ∧ ¬ (b ∈ L.holds o ∧ b ∉ held ∧ L.since o < birth b) := by
  constructor
  · rintro ⟨x, live', inside⟩
    simp only [Lineage.update, update_apply] at inside
    split_ifs at inside with same
    · exact .inl inside
    · refine .inr ⟨⟨x, live', inside⟩, ?_⟩
      rintro ⟨owned, -, young⟩
      exact same (sound.leaf_owner live leaf owned young live' inside)
  · rintro (inside | ⟨⟨x, live', inside⟩, kept⟩)
    · exact ⟨o, live, by simpa [Lineage.update] using inside⟩
    · by_cases same : x = o
      · subst same
        by_cases stays : b ∈ held
        · exact ⟨x, live, by simpa [Lineage.update] using stays⟩
        · -- what is old is still held by the parent
          obtain ⟨p, parent, inside'⟩ :=
            sound.inherit x live b inside (by by_contra young; exact kept ⟨inside, stays, by omega⟩)
          refine ⟨p, sound.parent_live x live p parent, ?_⟩
          simpa [Lineage.update, sound.parent_ne live parent] using inside'
      · exact ⟨x, live', by simpa [Lineage.update, same] using inside⟩

theorem referenced_add {x parent held} (fresh : x ∉ L.live)
    (old : ∀ b ∈ held, L.Referenced b) : (L.add x parent since held).Referenced b ↔ L.Referenced b := by
  constructor
  · rintro ⟨o, live, inside⟩
    rcases mem_insert.mp live with rfl | live
    · exact old b (by simpa [add] using inside)
    · have apart : o ≠ x := fun same => fresh (same ▸ live)
      exact ⟨o, live, by simpa [add, apart] using inside⟩
  · rintro ⟨o, live, inside⟩
    have apart : o ≠ x := fun same => fresh (same ▸ live)
    exact ⟨o, mem_insert_of_mem live, by simpa [add, apart] using inside⟩

theorem referenced_reparent {parent} : (L.reparent o parent since).Referenced b ↔ L.Referenced b := Iff.rfl

/-- With a version goes what is young and not held by its only child. -/
theorem Sound.referenced_remove (sound : L.Sound birth) (live : o ∈ L.live) (heir : Set β)
    (heirs : ∀ c ∈ L.live, L.parent c = some o → L.holds c = heir)
    (kept : ∀ b ∈ heir, b ∈ L.holds o → ∃ c ∈ L.live, c ≠ o ∧ b ∈ L.holds c) :
    (L.remove o).Referenced b ↔ L.Referenced b ∧ ¬ (b ∈ L.holds o ∧ b ∉ heir ∧ L.since o < birth b) := by
  constructor
  · rintro ⟨x, live', inside⟩
    obtain ⟨other, live'⟩ := mem_erase.mp live'
    refine ⟨⟨x, live', inside⟩, ?_⟩
    rintro ⟨owned, lost, young⟩
    exact other (sound.owner live owned young
      (fun c live parent held => lost (heirs c live parent ▸ held)) live' inside)
  · rintro ⟨⟨x, live', inside⟩, stays⟩
    by_cases same : x = o
    · subst same
      by_cases inherited : b ∈ heir
      · obtain ⟨c, live', other, held⟩ := kept b inherited inside
        exact ⟨c, mem_erase.mpr ⟨other, live'⟩, held⟩
      · obtain ⟨p, parent, held⟩ :=
          sound.inherit x live b inside (by by_contra young; exact stays ⟨inside, inherited, by omega⟩)
        exact ⟨p, mem_erase.mpr ⟨sound.parent_ne live parent, sound.parent_live x live p parent⟩, held⟩
    · exact ⟨x, mem_erase.mpr ⟨same, live'⟩, inside⟩

end Changes

/-! ## Threads

Every version with children names one of them as the next one, and counts them. -/

/-- The live versions whose parent is `o`. -/
def children (L : Lineage ι β) (o : ι) : Finset ι := L.live.filter fun c => L.parent c = some o

@[simp, grind =]
theorem mem_children {L : Lineage ι β} {o c} : c ∈ L.children o ↔ c ∈ L.live ∧ L.parent c = some o := by
  simp [children]

structure Threaded (L : Lineage ι β) (next : ι → Option ι) (count : ι → ℕ) : Prop where
  parent_next : ∀ o ∈ L.live, ∀ p, L.parent o = some p → next p ≠ none
  next_live : ∀ o ∈ L.live, ∀ n, next o = some n → n ∈ L.live
  next_parent : ∀ o ∈ L.live, ∀ n, next o = some n → L.parent n = some o
  count_eq : ∀ o ∈ L.live, count o = (L.children o).card

section Threads

variable {L : Lineage ι β} {next : ι → Option ι} {count : ι → ℕ}

variable {o : ι}

theorem Threaded.leaf (threaded : L.Threaded next count) (last : next o = none) : L.Leaf o :=
  fun c live parent => threaded.parent_next c live o parent last

theorem Threaded.count_pos (threaded : L.Threaded next count) (live : o ∈ L.live) : count o ≠ 0 ↔ next o ≠ none := by
  rw [threaded.count_eq o live, card_ne_zero]
  constructor
  · rintro ⟨c, child⟩
    rw [mem_children] at child
    exact threaded.parent_next c child.1 o child.2
  · intro some_next
    obtain ⟨n, at_⟩ := Option.ne_none_iff_exists'.mp some_next
    exact ⟨n, mem_children.mpr ⟨threaded.next_live o live n at_, threaded.next_parent o live n at_⟩⟩

variable {n : ι}

theorem Threaded.only_child (threaded : L.Threaded next count) (live : o ∈ L.live)
    (at_ : next o = some n) (single : count o ≤ 1) : ∀ c ∈ L.live, L.parent c = some o → c = n := by
  intro c live' parent
  rw [threaded.count_eq o live] at single
  exact card_le_one.mp single c (mem_children.mpr ⟨live', parent⟩) n
    (mem_children.mpr ⟨threaded.next_live o live n at_, threaded.next_parent o live n at_⟩)

variable {birth : β → ℕ}

variable {x : ι} {since : ℕ}

section

variable (threaded : L.Threaded next count)

include threaded

section

variable (sound : L.Sound birth)

include sound

theorem Threaded.add_root (fresh : x ∉ L.live) :
    (L.add x none since held).Threaded (Function.update next x none) (Function.update count x 0) := by
  obtain ⟨parent_next, next_live, next_parent, count_eq⟩ := threaded
  have parent_live := sound.parent_live
  have kids : ∀ o, (L.add x none since held).children o = if o = x then ∅ else L.children o := by
    intro o
    ext c
    simp only [add, mem_children, update_apply, mem_insert]
    grind
  constructor
  case count_eq => grind [add, update_apply]
  all_goals
    simp only [add, update_apply, mem_insert]
    grind

theorem Threaded.add_child (fresh : x ∉ L.live) (live : p ∈ L.live) (inner : next p ≠ none) :
    (L.add x (some p) since held).Threaded (Function.update next x none)
      (Function.update (Function.update count x 0) p (count p + 1)) := by
  obtain ⟨parent_next, next_live, next_parent, count_eq⟩ := threaded
  have parent_live := sound.parent_live
  have kids : ∀ o, (L.add x (some p) since held).children o =
      if o = x then ∅ else if o = p then insert x (L.children p) else L.children o := by
    intro o
    ext c
    simp only [add, mem_children, update_apply, mem_insert]
    grind
  constructor
  case count_eq => grind [add, update_apply, card_insert_of_notMem]
  all_goals
    simp only [add, update_apply, mem_insert]
    grind

theorem Threaded.split (live : o ∈ L.live) (last : next o = none) (fresh : x ∉ L.live) (own : next' x = some o)
    (rest : ∀ y ≠ x, next' y = if L.parent o = some y ∧ next y = some o then some x else next y) :
    ((L.add x (L.parent o) (L.since o) (L.holds o)).reparent o (some x) since).Threaded next'
      (Function.update count x 1) := by
  have parent_live := sound.parent_live
  have leaf := threaded.leaf last
  have apart : ∀ y ∈ L.live, y ≠ x := fun y live same => fresh (same ▸ live)
  obtain ⟨parent_next, next_live, next_parent, count_eq⟩ := threaded
  have kids : ∀ y ∈ L.live, ((L.add x (L.parent o) (L.since o) (L.holds o)).reparent o (some x) since).children y =
        if L.parent o = some y then insert x ((L.children y).erase o) else L.children y := by
    intro y live'
    ext c
    simp only [add, reparent, mem_children, update_apply, mem_insert]
    grind
  have own_kids :
      ((L.add x (L.parent o) (L.since o) (L.holds o)).reparent o (some x) since).children x = {o} := by
    ext c
    simp only [add, reparent, mem_children, update_apply, mem_insert, mem_singleton]
    grind
  constructor
  case count_eq =>
    intro y live'
    by_cases same : y = x
    · subst same
      rw [own_kids, update_self, card_singleton]
    · have old : y ∈ L.live := by simpa [add, reparent, same] using live'
      rw [update_of_ne same, kids y old, count_eq y old]
      split_ifs with parent
      · rw [card_insert_of_notMem (by simp [fresh]), card_erase_add_one (mem_children.mpr ⟨live, parent⟩)]
      · rfl
  all_goals
    simp only [add, reparent, update_apply, mem_insert]
    grind

end

/-- The only child of a version that goes away takes its place in the thread. -/
theorem Threaded.splice (live : o ∈ L.live) (at_ : next o = some n)
    (rest : ∀ y, next' y = if L.parent o = some y ∧ next y = some o then some n else next y) :
    ((L.reparent n (L.parent o) (L.since o)).remove o).Threaded next' count := by
  obtain ⟨parent_next, next_live, next_parent, count_eq⟩ := threaded
  have child := next_parent o live n at_
  have kids : ∀ y ≠ o, ((L.reparent n (L.parent o) (L.since o)).remove o).children y =
        if L.parent o = some y then insert n ((L.children y).erase o) else L.children y := by
    intro y other
    ext c
    simp only [remove, reparent, mem_children, update_apply, mem_erase]
    grind
  constructor
  case count_eq =>
    intro y member
    obtain ⟨other, old⟩ : y ≠ o ∧ y ∈ L.live := Finset.mem_erase.mp member
    rw [kids y other, count_eq y old]
    split_ifs with parent
    · rw [card_insert_of_notMem (by simp [child, other.symm]), card_erase_add_one (mem_children.mpr ⟨live, parent⟩)]
    · rfl
  all_goals
    simp only [remove, reparent, update_apply, mem_erase]
    grind

theorem Threaded.remove_leaf (live : o ∈ L.live) (branch : ∀ p, L.parent o = some p → next p ≠ some o)
    (counted : ∀ y, count' y = if L.parent o = some y then count y - 1 else count y) :
    (L.remove o).Threaded next count' := by
  obtain ⟨parent_next, next_live, next_parent, count_eq⟩ := threaded
  have kids : ∀ y, (L.remove o).children y = (L.children y).erase o := by
    intro y
    ext c
    simp only [remove, mem_children, mem_erase]
    tauto
  constructor
  case count_eq =>
    intro y member
    have old : y ∈ L.live := mem_of_mem_erase member
    rw [kids, counted, count_eq y old]
    split_ifs with parent
    · rw [card_erase_of_mem (mem_children.mpr ⟨live, parent⟩)]
    · rw [erase_eq_of_notMem (by simp [parent])]
  all_goals
    simp only [remove, mem_erase]
    grind

theorem Threaded.rethread (live : n ∈ L.live)
    (child : L.parent n = some o) : L.Threaded (Function.update next o (some n)) count := by
  obtain ⟨parent_next, next_live, next_parent, count_eq⟩ := threaded
  refine ⟨?_, ?_, ?_, count_eq⟩
  all_goals
    grind

end

end Threads

end Lineage
