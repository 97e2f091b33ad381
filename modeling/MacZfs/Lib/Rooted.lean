import Mathlib.Algebra.BigOperators.Group.Finset.Piecewise
import Mathlib.Logic.Relation
import Mathlib.Tactic.Abel

/-! # Trees by their parent links

A finite set of nodes with a partial function to the parent is a tree if every node leads to the root.
There are no cycles then, and a node can be moved below any other that is not one of its descendants.
-/

namespace Rooted

open Function Finset

open Relation (ReflTransGen TransGen)

variable {ι : Type*}

/-- `b` is `a` or one of the nodes above it. -/
def Above (parent : ι → Option ι) : ι → ι → Prop := ReflTransGen fun a b => parent a = some b

structure IsTree (nodes : Finset ι) (parent : ι → Option ι) (root : ι) : Prop where
  root_mem : root ∈ nodes
  top : parent root = none
  parent_mem : ∀ a ∈ nodes, ∀ b, parent a = some b → b ∈ nodes
  reaches : ∀ a ∈ nodes, Above parent a root

variable {nodes : Finset ι} {parent : ι → Option ι} {root : ι}

/-- A node that leads to the root is on no cycle: the path from it is unique. -/
theorem no_cycle (top : parent root = none) (reaches : Above parent a root) :
    ¬TransGen (fun a b => parent a = some b) a a := by
  induction reaches using ReflTransGen.head_induction_on with
  | refl =>
    intro cycle
    obtain ⟨b, first, _⟩ := TransGen.head'_iff.mp cycle
    rw [top] at first
    cases first
  | @head c d step _ ih =>
    intro cycle
    obtain ⟨b, first, rest⟩ := TransGen.head'_iff.mp cycle
    obtain rfl : b = d := Option.some.inj (first.symm.trans step)
    exact ih (TransGen.tail' rest first)

/-- A path that does not pass through a node stays when the node moves. -/
theorem above_update [DecidableEq ι] (above : Above parent a b) (avoids : ¬Above parent a x) :
    Above (update parent x (some q)) a b := by
  induction above using ReflTransGen.head_induction_on with
  | refl => exact .refl
  | @head c d step _ ih =>
    have other : c ≠ x := by
      rintro rfl
      exact avoids .refl
    refine .head ?_ (ih fun above => avoids (.head step above))
    rwa [update_of_ne other]

namespace IsTree

variable (tree : IsTree nodes parent root)

include tree

theorem not_above (member : a ∈ nodes) (up : parent a = some b) : ¬Above parent b a := fun above =>
  no_cycle tree.top (tree.reaches a member) (TransGen.head' up above)

theorem parent_ne (member : a ∈ nodes) (up : parent a = some b) : b ≠ a := by
  rintro rfl
  exact tree.not_above member up .refl

theorem move [DecidableEq ι] (below : parent x = some p) (member : q ∈ nodes)
    (avoids : ¬Above parent q x) : IsTree nodes (update parent x (some q)) root := by
  have other : root ≠ x := by
    rintro rfl
    rw [tree.top] at below
    cases below
  refine ⟨tree.root_mem, by rw [update_of_ne other, tree.top], ?_, ?_⟩
  · intro a inside b up
    by_cases same : a = x
    · rw [same, update_self] at up
      rwa [← Option.some.inj up]
    · rw [update_of_ne same] at up
      exact tree.parent_mem a inside b up
  · intro a inside
    have target := above_update (q := q) (tree.reaches q member) avoids
    have path := tree.reaches a inside
    induction path using ReflTransGen.head_induction_on with
    | refl => exact .refl
    | @head c d step _ ih =>
      by_cases same : c = x
      · exact .head (by rw [same, update_self]) target
      · refine .head (by rwa [update_of_ne same]) (ih (tree.parent_mem c inside d step))

end IsTree

/-! ## Sums over children -/

/-- The nodes whose parent is `a`. -/
def children [DecidableEq ι] (nodes : Finset ι) (parent : ι → Option ι) (a : ι) : Finset ι :=
  nodes.filter fun c => parent c = some a

theorem mem_children [DecidableEq ι] : c ∈ children nodes parent a ↔ c ∈ nodes ∧ parent c = some a := by
  simp [children]

variable [DecidableEq ι] {M : Type*} [AddCommGroup M]

variable (parent) in
/-- The value of one node changes: only the sum at its parent does. -/
theorem sum_children_update (member : x ∈ nodes) (value : ι → M) (new : M) (a : ι) :
    ∑ c ∈ children nodes parent a, update value x new c =
      (∑ c ∈ children nodes parent a, value c) + if parent x = some a then new - value x else 0 := by
  split_ifs with up
  · have child : x ∈ children nodes parent a := mem_children.mpr ⟨member, up⟩
    rw [sum_update_of_mem child, ← add_sum_erase _ _ child, sdiff_singleton_eq_erase]
    abel
  · have stranger : x ∉ children nodes parent a := fun child => up (mem_children.mp child).2
    rw [sum_update_of_notMem stranger, add_zero]

/-- A node moves: the sum at the old parent loses its value and the sum at the new one gains it. -/
theorem sum_children_move (member : x ∈ nodes) (up : parent x = some p) (value : ι → M) (a : ι) :
    ∑ c ∈ children nodes (update parent x (some q)) a, value c =
      (∑ c ∈ children nodes parent a, value c) - (if a = p then value x else 0) + if a = q then value x else 0 := by
  have others : (children nodes (update parent x (some q)) a).erase x = (children nodes parent a).erase x := by
    ext c
    simp only [mem_erase, mem_children]
    constructor
    · rintro ⟨other, inside, at_⟩
      rw [update_of_ne other] at at_
      exact ⟨other, inside, at_⟩
    · rintro ⟨other, inside, at_⟩
      exact ⟨other, inside, by rwa [update_of_ne other]⟩
  have split : ∀ s : Finset ι, ∑ c ∈ s, value c = (∑ c ∈ s.erase x, value c) + if x ∈ s then value x else 0 := by
    intro s
    split_ifs with inside
    · rw [add_comm, add_sum_erase _ _ inside]
    · rw [erase_eq_of_notMem inside, add_zero]
  have old : x ∈ children nodes parent a ↔ a = p := by
    rw [mem_children, up]
    exact ⟨fun at_ => (Option.some.inj at_.2).symm, fun same => ⟨member, by rw [same]⟩⟩
  have new : x ∈ children nodes (update parent x (some q)) a ↔ a = q := by
    rw [mem_children, update_self]
    exact ⟨fun at_ => (Option.some.inj at_.2).symm, fun same => ⟨member, by rw [same]⟩⟩
  rw [split (children nodes parent a), split (children nodes (update parent x (some q)) a), others]
  simp only [old, new]
  abel

end Rooted
