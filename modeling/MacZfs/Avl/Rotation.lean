import MacZfs.Avl.Links

/-! # The rotation

What the writes of `avl_rotation` leave in memory is the rotated tree.
-/

namespace MacZfs.Avl

open BalancedTree Function BinTree Bool

namespace AvlTree

variable {ι : Type*} [DecidableEq ι]

section Writes

variable (m : AvlTree ι) (n x : ι)

theorem node_modify (change : AvlNode ι → AvlNode ι) :
    (m.modify n change).node x = if x = n then change (m.node x) else m.node x := by
  simp only [modify, update_apply]
  split_ifs with same
  · rw [same]
  · rfl

theorem node_adopt (child parent : Option ι) (which) : (m.adopt child parent which).node x =
    if child = some x then { m.node x with avlParent := parent, avlChildIndex := which } else m.node x := by
  cases child with
  | none => rfl
  | some c =>
    simp only [adopt, setParent, setIndex, node_modify, Option.some.injEq, @eq_comm _ c x]
    split_ifs <;> rfl

theorem node_hang (parent) (which) (c : Option ι) : (m.hang parent which c).node x =
    if parent = some x then { m.node x with avlChild := update (m.node x).avlChild which c }
    else m.node x := by
  cases parent with
  | none => rfl
  | some p => simp [hang, setChild, node_modify, @eq_comm _ p x]

theorem root_adopt (child parent : Option ι) (which) : (m.adopt child parent which).avlRoot = m.avlRoot := by
  cases child <;> rfl

theorem root_hang (parent) (which) (c : Option ι) :
    (m.hang parent which c).avlRoot = if parent = none then c else m.avlRoot := by
  cases parent <;> simp [hang, setChild, modify]

theorem numnodes_adopt (child parent : Option ι) (which) :
    (m.adopt child parent which).avlNumnodes = m.avlNumnodes := by
  cases child <;> rfl

theorem numnodes_hang (parent) (which) (c : Option ι) :
    (m.hang parent which c).avlNumnodes = m.avlNumnodes := by
  cases parent <;> rfl

end Writes

variable {m : AvlTree ι} {side left : Bool} {p : Route ι} {a c g : ι} {balance childBalance inner : ℤ}
  {kids childKids innerKids : Bool → BinTree ι}

section

variable (placed : m.Placed side p (.node a balance kids))

include placed

theorem rotateChild_placed (child : kids left = .node c childBalance childKids) (lifted : ℤ) :
    (m.rotateChild a c left lifted).Placed side p (BinTree.liftChild left a kids c lifted childKids) ∧
      (m.rotateChild a c left lifted).avlNumnodes = m.avlNumnodes := by
  obtain ⟨⟨record, below⟩, around, apart⟩ := placed
  have childStands := below left
  rw [child] at childStands
  obtain ⟨childRecord, childBelow⟩ := childStands
  obtain ⟨treeApart, pathApart, outside⟩ := nodup_plug.mp apart
  obtain ⟨⟨leftApart, _⟩, ⟨aLeft, aRight⟩, sides⟩ := (nodup_node left).mp treeApart
  obtain ⟨aPath, outside⟩ := disjoint_node.mp outside
  have leftOutside := outside left
  rw [child] at leftApart aLeft sides leftOutside
  obtain ⟨⟨_, innerApart⟩, ⟨cLeft, cRight⟩, childSides⟩ := (nodup_node left).mp leftApart
  obtain ⟨cOther, sides⟩ := disjoint_node.mp sides
  obtain ⟨cPath, leftOutside⟩ := disjoint_node.mp leftOutside
  obtain ⟨ac, aChild⟩ := notMem_node.mp aLeft
  have new : ∀ x, (m.rotateChild a c left lifted).node x =
      if x = a then ⟨update (fun d => ptr (kids d)) left (ptr (childKids (!left))), some c, !left, -lifted⟩
      else if x = c then
        ⟨update (fun d => ptr (childKids d)) (!left) (some a), up none p, upSide side p, lifted⟩
      else if ptr (childKids (!left)) = some x then
        { m.node x with avlParent := some a, avlChildIndex := left }
      else if up none p = some x then
        { m.node x with avlChild := update (m.node x).avlChild (upSide side p) (some c) }
      else m.node x := by
    intro x
    have away : x ∈ nodes (childKids (!left)) → up none p ≠ some x :=
      fun member here => leftOutside (!left) member (mem_up here)
    simp only [rotateChild, setChild, setBalance, setIndex, setParent, node_hang, node_modify, node_adopt, record,
      childRecord]
    by_cases xa : x = a
    · subst xa
      simp [up_ne aPath, ptr_ne (aChild (!left)), ac, record]
    by_cases xc : x = c
    · subst xc
      simp [up_ne cPath, xa, childRecord]
    by_cases xb : ptr (childKids (!left)) = some x
    · simp [xa, xc, xb, away (mem_ptr xb)]
    · simp [xa, xc, xb]
  have same : ∀ x, x ∉ nodes (childKids (!left)) → x ∉ pathNodes p → x ≠ a → x ≠ c →
      (m.rotateChild a c left lifted).node x = m.node x := by
    intro x notInner notPath xa xc
    rw [new, if_neg xa, if_neg xc, if_neg (ptr_ne notInner), if_neg (up_ne notPath)]
  refine ⟨⟨?_, ?_, ?_⟩, ?_⟩
  · rw [BinTree.liftChild, stands_node (!left), ptr_update]
    simp only [update_self, Bool.not_not, ne_eq, Bool.eq_not_self, not_false_eq_true, update_of_ne]
    rw [stands_node left, ptr_update]
    simp only [update_self, ne_eq, Bool.not_eq_self, not_false_eq_true, update_of_ne]
    refine ⟨?_, ⟨?_, ?_, ?_⟩, ?_⟩
    · rw [new, if_neg ac.symm, if_pos rfl, ptr_node]
    · rw [new, if_pos rfl]
    · refine (childBelow (!left)).moved innerApart ?_ ?_
      · intro x member notRoot
        rw [new, if_neg, if_neg, if_neg notRoot, if_neg (up_ne (leftOutside _ member))]
        · rintro rfl
          exact cRight member
        · rintro rfl
          exact aChild _ member
      · intro x root
        rw [new, if_neg, if_neg, if_pos root]
        · rintro rfl
          exact cRight (mem_ptr root)
        · rintro rfl
          exact aChild _ (mem_ptr root)
    · exact (below (!left)).congr fun x member => same x (fun inner => sides _ inner member)
        (outside _ member) (fun here => aRight (here ▸ member)) fun here => cOther (here ▸ member)
    · exact (childBelow left).congr fun x member => same x (childSides member) (leftOutside _ member)
        (fun here => aChild _ (here ▸ member)) fun here => cLeft (here ▸ member)
  · refine around.hung pathApart ?_ ?_ ?_
    · intro x member notLow
      rw [new, if_neg, if_neg, if_neg, if_neg notLow]
      · exact fun root => leftOutside _ (mem_ptr root) member
      · exact fun here => cPath (here ▸ member)
      · exact fun here => aPath (here ▸ member)
    · intro x low
      rw [new, if_neg, if_neg, if_neg, if_pos low]
      · rfl
      · exact fun root => leftOutside _ (mem_ptr root) (mem_up low)
      · exact fun here => cPath (here ▸ mem_up low)
      · exact fun here => aPath (here ▸ mem_up low)
    · simp [rotateChild, setChild, setBalance, setIndex, setParent, modify, root_hang, root_adopt, record,
        BinTree.liftChild]
  · unfold nodes
    rw [Route.inorder_plug, BinTree.inorder_liftChild false child, ← Route.inorder_plug]
    exact apart
  · simp [rotateChild, setChild, setBalance, setIndex, setParent, modify, numnodes_hang, numnodes_adopt]

theorem rotateGchild_placed
    (child : kids left = .node c childBalance childKids) (grand : childKids (!left) = .node g inner innerKids) :
    (m.rotateGchild a c g left (weight left)).Placed side p
        (BinTree.liftInner left a kids c childKids g inner innerKids) ∧
      (m.rotateGchild a c g left (weight left)).avlNumnodes = m.avlNumnodes := by
  obtain ⟨⟨record, below⟩, around, apart⟩ := placed
  have childStands := below left
  rw [child] at childStands
  obtain ⟨childRecord, childBelow⟩ := childStands
  have grandStands := childBelow (!left)
  rw [grand] at grandStands
  obtain ⟨grandRecord, grandBelow⟩ := grandStands
  obtain ⟨treeApart, pathApart, outside⟩ := nodup_plug.mp apart
  obtain ⟨⟨leftApart, _⟩, ⟨aLeft, aRight⟩, sides⟩ := (nodup_node left).mp treeApart
  obtain ⟨aPath, outside⟩ := disjoint_node.mp outside
  have leftOutside := outside left
  rw [child] at leftApart aLeft sides leftOutside
  obtain ⟨⟨_, innerApart⟩, ⟨cLeft, cRight⟩, childSides⟩ := (nodup_node left).mp leftApart
  obtain ⟨cOther, sides⟩ := disjoint_node.mp sides
  obtain ⟨cPath, leftOutside⟩ := disjoint_node.mp leftOutside
  obtain ⟨ac, aChild⟩ := notMem_node.mp aLeft
  have aInner := aChild (!left)
  have innerOther := sides (!left)
  have innerOutside := leftOutside (!left)
  rw [grand] at cRight innerApart childSides aInner innerOther innerOutside
  obtain ⟨⟨glApart, grApart⟩, ⟨gLeft, gRight⟩, innerSides⟩ := (nodup_node left).mp innerApart
  obtain ⟨cg, cInner⟩ := notMem_node.mp cRight
  obtain ⟨ag, aInner⟩ := notMem_node.mp aInner
  obtain ⟨gChild, childSides⟩ := disjoint_node.mp (List.disjoint_comm.mp childSides)
  obtain ⟨gOther, innerOther⟩ := disjoint_node.mp innerOther
  obtain ⟨gPath, innerOutside⟩ := disjoint_node.mp innerOutside
  have new : ∀ x, (m.rotateGchild a c g left (weight left)).node x =
      if x = a then ⟨update (fun d => ptr (kids d)) left (ptr (innerKids (!left))), some g, !left,
        if inner = weight left then -weight left else 0⟩
      else if x = c then ⟨update (fun d => ptr (childKids d)) (!left) (ptr (innerKids left)), some g, left,
        if inner = -weight left then weight left else 0⟩
      else if x = g then ⟨update (update (fun d => ptr (innerKids d)) left (some c)) (!left) (some a),
        up none p, upSide side p, 0⟩
      else if ptr (innerKids (!left)) = some x then
        { m.node x with avlParent := some a, avlChildIndex := left }
      else if ptr (innerKids left) = some x then
        { m.node x with avlParent := some c, avlChildIndex := !left }
      else if up none p = some x then
        { m.node x with avlChild := update (m.node x).avlChild (upSide side p) (some g) }
      else m.node x := by
    intro x
    have away : ∀ d, x ∈ nodes (innerKids d) → up none p ≠ some x :=
      fun d member here => innerOutside d member (mem_up here)
    simp only [rotateGchild, setChild, setBalance, setIndex, setParent, node_hang, node_modify, node_adopt, record,
      grandRecord]
    by_cases xa : x = a
    · subst xa
      simp [up_ne aPath, ptr_ne (aInner (!left)), ptr_ne (aInner left), ac, ag, record]
    by_cases xc : x = c
    · subst xc
      simp [up_ne cPath, ptr_ne (cInner left), xa, cg, childRecord]
    by_cases xg : x = g
    · subst xg
      simp [up_ne gPath, ptr_ne gRight, xa, xc, grandRecord]
    by_cases xr : ptr (innerKids (!left)) = some x
    · have notLeft : ptr (innerKids left) ≠ some x := fun here => innerSides (mem_ptr here) (mem_ptr xr)
      simp [xa, xc, xg, xr, notLeft, away _ (mem_ptr xr)]
    by_cases xl : ptr (innerKids left) = some x
    · simp [xa, xc, xg, xr, xl, away _ (mem_ptr xl)]
    · simp [xa, xc, xg, xr, xl]
  have same : ∀ x, (∀ d, x ∉ nodes (innerKids d)) → x ∉ pathNodes p → x ≠ a → x ≠ c → x ≠ g →
      (m.rotateGchild a c g left (weight left)).node x = m.node x := by
    intro x notInner notPath xa xc xg
    rw [new, if_neg xa, if_neg xc, if_neg xg, if_neg (ptr_ne (notInner _)), if_neg (ptr_ne (notInner _)),
      if_neg (up_ne notPath)]
  have insideNe : ∀ d, ∀ x ∈ nodes (innerKids d), x ≠ a ∧ x ≠ c ∧ x ≠ g := by
    intro d x member
    refine ⟨?_, ?_, ?_⟩
    · rintro rfl
      exact aInner d member
    · rintro rfl
      exact cInner d member
    · rintro rfl
      cases Bool.eq_or_eq_not d left with
      | inl here => exact gLeft (here ▸ member)
      | inr here => exact gRight (here ▸ member)
  refine ⟨⟨?_, ?_, ?_⟩, ?_⟩
  · rw [BinTree.liftInner, stands_node (!left), ptr_update, ptr_update]
    simp only [update_self, Bool.not_not, ne_eq, Bool.eq_not_self, not_false_eq_true, update_of_ne]
    rw [stands_node left, stands_node left, ptr_update, ptr_update]
    simp only [update_self, ne_eq, Bool.not_eq_self, Bool.eq_not_self, not_false_eq_true, update_of_ne, ptr_node]
    refine ⟨?_, ⟨?_, ?_, ?_⟩, ?_, ?_, ?_⟩
    · rw [new, if_neg ag.symm, if_neg cg.symm, if_pos rfl]
    · rw [new, if_pos rfl]
    · refine (grandBelow (!left)).moved grApart ?_ ?_
      · intro x member notRoot
        obtain ⟨xa, xc, xg⟩ := insideNe _ x member
        rw [new, if_neg xa, if_neg xc, if_neg xg, if_neg notRoot,
          if_neg (ptr_ne fun here => innerSides here member), if_neg (up_ne (innerOutside _ member))]
      · intro x root
        obtain ⟨xa, xc, xg⟩ := insideNe _ x (mem_ptr root)
        rw [new, if_neg xa, if_neg xc, if_neg xg, if_pos root]
    · exact (below (!left)).congr fun x member => same x (fun d inner => innerOther d inner member)
        (outside _ member) (fun here => aRight (here ▸ member)) (fun here => cOther (here ▸ member))
        fun here => gOther (here ▸ member)
    · rw [new, if_neg ac.symm, if_pos rfl]
    · exact (childBelow left).congr fun x member => same x (fun d inner => childSides d inner member)
        (leftOutside _ member) (fun here => aChild _ (here ▸ member)) (fun here => cLeft (here ▸ member))
        fun here => gChild (here ▸ member)
    · refine (grandBelow left).moved glApart ?_ ?_
      · intro x member notRoot
        obtain ⟨xa, xc, xg⟩ := insideNe _ x member
        rw [new, if_neg xa, if_neg xc, if_neg xg, if_neg (ptr_ne (innerSides member)), if_neg notRoot,
          if_neg (up_ne (innerOutside _ member))]
      · intro x root
        obtain ⟨xa, xc, xg⟩ := insideNe _ x (mem_ptr root)
        rw [new, if_neg xa, if_neg xc, if_neg xg, if_neg (ptr_ne (innerSides (mem_ptr root))), if_pos root]
  · have pathNe : ∀ x ∈ pathNodes p, x ≠ a ∧ x ≠ c ∧ x ≠ g ∧ ∀ d, ptr (innerKids d) ≠ some x := by
      intro x member
      exact ⟨fun here => aPath (here ▸ member), fun here => cPath (here ▸ member), fun here => gPath (here ▸ member),
        fun d root => innerOutside d (mem_ptr root) member⟩
    refine around.hung pathApart ?_ ?_ ?_
    · intro x member notLow
      obtain ⟨xa, xc, xg, notInner⟩ := pathNe x member
      rw [new, if_neg xa, if_neg xc, if_neg xg, if_neg (notInner _), if_neg (notInner _), if_neg notLow]
    · intro x low
      obtain ⟨xa, xc, xg, notInner⟩ := pathNe x (mem_up low)
      rw [new, if_neg xa, if_neg xc, if_neg xg, if_neg (notInner _), if_neg (notInner _), if_pos low]
      rfl
    · simp [rotateGchild, setChild, setBalance, setIndex, setParent, modify, root_hang, root_adopt, record,
        BinTree.liftInner]
  · unfold nodes
    rw [Route.inorder_plug, BinTree.inorder_liftInner false child grand, ← Route.inorder_plug]
    exact apart
  · simp [rotateGchild, setChild, setBalance, setIndex, setParent, modify, numnodes_hang, numnodes_adopt]

/-- The rotation of a node that leans by two to the side `left`. The child there has to be balanced, so that the
    pointers followed are not null. -/
theorem avlRotation_placed (whole : (kids left).Balanced)
    (some_ : kids left ≠ .nil) : ∃ m', m.avlRotation a (2 * weight left) =
        some (m', ((BinTree.node a balance kids).rotate left).2) ∧
      m'.Placed side p ((BinTree.node a balance kids).rotate left).1 ∧ m'.avlNumnodes = m.avlNumnodes := by
  have heavier : (!decide (2 * weight left < 0)) = left ∧ (2 * weight left) >>> 1 = weight left := by
    cases left <;> decide
  have record := placed.stands.1
  cases child : kids left with
  | nil => exact absurd child some_
  | node c childBalance childKids =>
    have childRecord := placed.stands.2 left
    rw [child] at whole childRecord
    have childRecord := childRecord.1
    by_cases leaning : childBalance = -weight left
    · subst leaning
      cases grand : childKids (!left) with
      | nil =>
        have stored := ((balanced_node left).mp whole).1
        rw [grand] at stored
        rcases weight_cases left with w | w <;> simp only [w, height] at stored <;> omega
      | node g inner innerKids =>
        refine ⟨m.rotateGchild a c g left (weight left), ?_, ?_⟩
        · simp [avlRotation, heavier, record, child, childRecord, grand, rotate_inner child grand]
        · rw [rotate_inner child grand]
          exact rotateGchild_placed placed child grand
    · refine ⟨m.rotateChild a c left (childBalance - weight left), ?_, ?_⟩
      · simp [avlRotation, heavier, record, child, childRecord, leaning, rotate_outer child leaning, ← sub_eq_add_neg]
      · rw [rotate_outer child leaning]
        exact rotateChild_placed placed child _

end

end AvlTree

end MacZfs.Avl
