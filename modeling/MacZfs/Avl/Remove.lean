import MacZfs.Avl.Insert
import MacZfs.Avl.Search

/-! # Removal

A node with at most one child is left out of the tree, and the way back up keeps the balance. A node with two is
first replaced by its neighbour, whose place a temporary copy takes.
-/

namespace MacZfs.Avl

open BalancedTree Function Route BinTree

namespace AvlTree

variable {ι : Type*} [DecidableEq ι] {m m' : AvlTree ι} {side left : Bool} {p q : Route ι} {t : BinTree ι} {a x y : ι}
  {balance lowBalance : ℤ} {kids lowKids : Bool → BinTree ι} {rounds : ℕ}

theorem removeLoop_placed (placed : m.Placed side p t) (above : Route.Balanced p (t.height + 1)) (whole : t.Balanced)
    (enough : p.length ≤ rounds) : ∃ m', m.removeLoop (rounds + 1) (up none p) (upSide side p) = some m' ∧
      m'.Placed side [] (p.shrinkUp t) ∧ m'.avlNumnodes = m.avlNumnodes := by
  induction p generalizing m t rounds with
  | nil => exact ⟨m, rfl, placed, rfl⟩
  | cons f p ih =>
    obtain ⟨rounds, rfl⟩ := Nat.exists_eq_add_of_le' (Nat.le_trans (Nat.succ_pos p.length) enough)
    have fewer : p.length ≤ rounds := Nat.le_of_succ_le_succ enough
    obtain ⟨stored, parent, index⟩ := placed.record
    rw [up_cons, upSide_cons, removeLoop, stored, parent, index, shrinkUp]
    simp only [show avlChild2balance f.side = weight f.side from rfl]
    by_cases flat : f.balance = 0
    · rw [if_pos flat, if_pos flat]
      exact ⟨_, rfl, placed_plug.mp (placed.setBalance _), rfl⟩
    rw [if_neg flat, if_neg flat]
    by_cases even : f.balance - weight f.side = 0
    · rw [if_pos even, if_pos even]
      obtain ⟨filled, height⟩ := shrink_even above whole even
      obtain ⟨_, _, _, _, rest⟩ := above
      rw [height] at rest
      exact ih (placed.setBalance _) rest filled fewer
    · -- the node leans by two, to the side away from the path
      rw [if_neg even, if_neg even]
      obtain ⟨level, twice⟩ := shrink_leaning above flat even
      obtain ⟨_, _, _, sibling, rest⟩ := above
      rw [twice, heavy_twice]
      have taller : (if (!f.side) = f.side then t else f.sibling) ≠ .nil := by
        rw [if_neg (by simp)]
        intro empty
        rw [empty] at level
        cases level
      obtain ⟨m', rotated, placed', count⟩ :=
        avlRotation_placed (placed_cons.mp placed) (by simpa using sibling) taller
      rw [rotated]
      obtain ⟨balanced, height⟩ := rotate_fill_other whole sibling level
      change ∃ m'', (if ((f.fill t).rotate (!f.side)).2 then _ else _) = some m'' ∧ _
      by_cases lower : ((f.fill t).rotate (!f.side)).2 = true
      · rw [if_pos lower, if_pos lower, ← count]
        refine ih placed' ?_ balanced fewer
        rw [lower, Bool.toNat_true] at height
        rwa [show max (t.height + 1) f.sibling.height + 1 = ((f.fill t).rotate (!f.side)).1.height + 1 by omega]
          at rest
      · rw [if_neg lower, if_neg lower]
        exact ⟨m', rfl, placed_plug.mp placed', count⟩

theorem cutOut_placed (placed : m.Placed side p (.node a balance kids)) (single : kids left = .nil) :
    (m.cutOut a).Placed side p (kids (!left)) ∧ (m.cutOut a).avlNumnodes = m.avlNumnodes - 1 := by
  obtain ⟨⟨record, below⟩, around, apart⟩ := placed
  obtain ⟨treeApart, pathApart, outside⟩ := nodup_plug.mp apart
  obtain ⟨⟨_, kidApart⟩, _, _⟩ := (nodup_node left).mp treeApart
  obtain ⟨_, outside⟩ := disjoint_node.mp outside
  have only : (ptr (kids false)).or (ptr (kids true)) = ptr (kids (!left)) := by
    cases left <;> simp [single]
  have new : ∀ y, (m.cutOut a).node y =
      if ptr (kids (!left)) = some y then
        { m.node y with avlParent := up none p, avlChildIndex := upSide side p }
      else if up none p = some y then
        { m.node y with avlChild := update (m.node y).avlChild (upSide side p) (ptr (kids (!left))) }
      else m.node y := by
    intro y
    simp only [cutOut, record, only, node_hang, node_adopt]
    by_cases root : ptr (kids (!left)) = some y
    · simp [up_ne (outside _ (mem_ptr root))]
    · simp [root]
  refine ⟨⟨(below (!left)).moved kidApart ?_ ?_, around.hung pathApart ?_ ?_ ?_, ?_⟩, ?_⟩
  · intro y member notRoot
    rw [new, if_neg notRoot, if_neg (up_ne (outside _ member))]
  · intro y root
    rw [new, if_pos root]
  · intro y member notLow
    rw [new, if_neg fun root => outside _ (mem_ptr root) member, if_neg notLow]
  · intro y low
    rw [new, if_neg fun root => outside _ (mem_ptr root) (mem_up low), if_pos low]
  · simp [cutOut, record, only, root_hang, root_adopt]
  · exact nodup_plug.mpr ⟨kidApart, pathApart, outside _⟩
  · simp [cutOut, numnodes_hang, numnodes_adopt]

/-- A node with at most one child is left out, and the tree stays balanced. -/
theorem removeLeaf_placed (placed : m.Placed side p (.node a balance kids))
    (balanced : (p.plug (.node a balance kids)).Balanced) (single : kids left = .nil)
    (enough : (pathNodes p).length ≤ rounds) :
    ∃ m' t', m.removeLeaf (rounds + 1) a = some m' ∧ m'.Placed side [] t' ∧ t'.Balanced ∧
      (∀ d, t'.inorder d = before d p ++ (kids (!left)).inorder d ++ after d p) ∧
      m'.avlNumnodes = m.avlNumnodes - 1 := by
  obtain ⟨cut, count⟩ := cutOut_placed placed single
  obtain ⟨whole, above⟩ := balanced_plug.mp balanced
  obtain ⟨_, _, _, _, kid⟩ := (balanced_node left).mp whole
  rw [height_node left, single] at above
  obtain ⟨m', ends, placed', same⟩ := removeLoop_placed cut above kid ((length_le_pathNodes p).trans enough)
  refine ⟨m', _, ?_, placed', balanced_shrinkUp above kid rfl, fun d => inorder_shrinkUp d _ _, same.trans count⟩
  rw [removeLeaf, placed.stands.1]
  exact ends

theorem node_reparent (child parent : Option ι) (y : ι) : (m.reparent child parent).node y =
    if child = some y then { m.node y with avlParent := parent } else m.node y := by
  cases child with
  | none => rfl
  | some c => simp [reparent, setParent, node_modify, @eq_comm _ c y]

theorem root_reparent (child parent : Option ι) : (m.reparent child parent).avlRoot = m.avlRoot := by
  cases child <;> rfl

/-- The node at `old` moves to `new`, with all pointers to it. -/
def rename (m : AvlTree ι) (old new : ι) : AvlTree ι :=
  (((m.modify new fun _ => m.node old).hang (m.node old).avlParent (m.node old).avlChildIndex (some new)).reparent
    ((m.node old).avlChild false) (some new)).reparent ((m.node old).avlChild true) (some new)

section Records

variable {tmp below other parent : ι} {above : Option ι} {whichChild : Bool} {c lower : Bool → Option ι}

theorem node_rename (left : Bool) (record : m.node x = ⟨c, above, whichChild, balance⟩) (notAbove : above ≠ some y)
    (notLeft : c left ≠ some y) (notRight : c (!left) ≠ some y) (sides : ∀ z, c left = some z → c (!left) ≠ some z)
    (apart : ∀ z, c left = some z ∨ c (!left) = some z → above ≠ some z) (z : ι) :
    (m.rename x y).node z =
      if z = y then ⟨c, above, whichChild, balance⟩
      else if c left = some z ∨ c (!left) = some z then { m.node z with avlParent := some y }
      else if above = some z then
        { m.node z with avlChild := update (m.node z).avlChild whichChild (some y) }
      else m.node z := by
  simp only [rename, record, node_reparent, node_hang, node_modify]
  by_cases here : z = y
  · subst here
    cases left <;> simp_all
  by_cases first : c left = some z
  · have := sides z first
    cases left <;> simp_all
  by_cases second : c (!left) = some z
  · have := apart z (.inr second)
    cases left <;> simp_all
  · cases left <;> simp_all

theorem node_moveUp (upper : m.node a = ⟨c, above, whichChild, balance⟩) (tmpA : tmp ≠ a) (tmpY : tmp ≠ y)
    (notY : above ≠ some y) (notTmp : above ≠ some tmp) (z : ι) : (m.moveUp tmp a y left).node z =
      if z = y then
        ⟨if c left = some y then update c left (some tmp) else c, above, whichChild, balance⟩
      else if z = tmp then m.node y
      else if above = some z then { m.node z with avlChild := update (m.node z).avlChild whichChild (some y) }
      else m.node z := by
  by_cases self : c left = some y
  all_goals
    simp only [moveUp, setChild, node_modify, node_hang, upper, tmpA.symm, if_true, if_false, self]
    by_cases zy : z = y
    · subst zy
      simp [notY]
    by_cases zt : z = tmp
    · subst zt
      simp [notTmp, tmpY]
    · simp [zy, zt]

theorem root_moveUp (upper : m.node a = ⟨c, above, whichChild, balance⟩) (tmpA : tmp ≠ a) :
    (m.moveUp tmp a y left).avlRoot = if above = none then some y else m.avlRoot := by
  by_cases self : c left = some y <;>
    simp [moveUp, setChild, modify, root_hang, upper, tmpA.symm, self]

theorem numnodes_moveUp : (m.moveUp tmp a y left).avlNumnodes = m.avlNumnodes := by
  simp only [moveUp]
  split_ifs <;> simp [setChild, modify, numnodes_hang]

theorem numnodes_reparent (child : Option ι) (up : Option ι) : (m.reparent child up).avlNumnodes = m.avlNumnodes := by
  cases child <;> rfl

theorem root_rename (record : m.node x = ⟨c, above, whichChild, balance⟩) :
    (m.rename x y).avlRoot = if above = none then some y else m.avlRoot := by
  simp [rename, record, root_reparent, root_hang, modify]

omit [DecidableEq ι] in
theorem only_child (single : c (!left) = none) : c (c true).isSome = c left := by
  cases left
  · rw [show c true = none from single]
    rfl
  · cases here : c true
    · exact single
    · exact here

abbrev SwapsOut (m : AvlTree ι) (tmp a y : ι) (left : Bool) : Prop :=
  ∃ m', m.swapOut tmp a y left = some m' ∧ (∀ z, z ≠ a → m'.node z = ((m.rename y tmp).rename a y).node z) ∧
    m'.avlRoot = ((m.rename y tmp).rename a y).avlRoot ∧ m'.avlNumnodes = m.avlNumnodes

theorem swapOut_direct (upper : m.node a = ⟨c, above, whichChild, balance⟩)
    (low : m.node y = ⟨lower, some a, left, lowBalance⟩) (first : c left = some y) (second : c (!left) = some other)
    (single : lower (!left) = none) (fresh : tmp ≠ a ∧ tmp ≠ y ∧ tmp ≠ other ∧ lower left ≠ some tmp ∧ above ≠ some tmp)
    (apart : y ≠ other ∧ above ≠ some y ∧ above ≠ some other)
    (child : ∀ z, lower left = some z → z ≠ a ∧ z ≠ y ∧ z ≠ other ∧ above ≠ some z) :
    m.SwapsOut tmp a y left := by
  obtain ⟨tmpA, tmpY, tmpOther, tmpChild, tmpAbove⟩ := fresh
  obtain ⟨yOther, yAbove, otherAbove⟩ := apart
  have flip : (!left) ≠ left := by simp
  have renamed : ∀ z, (m.rename y tmp).node z = _ := node_rename left low (by simpa using tmpA.symm) tmpChild
    (by simp [single]) (by simp [single]) (by
      rintro z (here | here)
      · simpa using (child z here).1.symm
      · simp [single] at here)
  have notA : lower left ≠ some a := fun here => (child a here).1 rfl
  have upper' : (m.rename y tmp).node a = ⟨update c left (some tmp), above, whichChild, balance⟩ := by
    rw [renamed, if_neg tmpA.symm, if_neg (by simp [notA, single]), if_pos rfl, upper]
  have target : ∀ z, ((m.rename y tmp).rename a y).node z = _ := node_rename left upper' yAbove
    (by simpa using tmpY) (by simpa [second] using yOther.symm)
    (by simpa [second] using tmpOther.symm) (by
      simp only [update_self, update_of_ne flip, second, Option.some.injEq]
      rintro z (rfl | rfl)
      · exact tmpAbove
      · exact otherAbove)
  have moved := @node_moveUp _ _ m left a y balance tmp above whichChild c upper tmpA tmpY yAbove tmpAbove
  simp only [first, if_true, low] at moved
  refine ⟨((((m.moveUp tmp a y left).setParent tmp (some y)).setParent other (some y)).setChild y left
    (some tmp)).reparent (lower left) (some tmp), ?_, ?_, ?_, ?_⟩
  · simp [swapOut, putTmp, setChild, setParent, node_modify, moved, tmpY, second, only_child single]
  · intro z za
    simp only [node_reparent, setChild, setParent, node_modify, moved, target, renamed, update_self,
      update_of_ne flip, second, single, Option.some.injEq]
    by_cases zy : z = y
    · subst zy
      have notChild : lower left ≠ some z := fun here => (child z here).2.1 rfl
      simp [tmpY.symm, yOther, notChild]
    by_cases zt : z = tmp
    · subst zt
      simp [zy, tmpChild]
    by_cases zo : z = other
    · subst zo
      have notChild : lower left ≠ some z := fun here => (child z here).2.2.1 rfl
      simp [zy, zt, notChild, otherAbove, za.symm]
    by_cases zc : lower left = some z
    · simp [zy, zt, @eq_comm _ tmp z, @eq_comm _ other z, zo, zc, (child z zc).2.2.2]
    · simp [zy, zt, @eq_comm _ tmp z, @eq_comm _ other z, zo, zc, za.symm]
  · rw [root_reparent, root_rename upper', root_rename low]
    simp [setChild, setParent, modify, root_moveUp upper tmpA]
  · rw [numnodes_reparent]
    simp [setChild, setParent, modify, numnodes_moveUp]

theorem swapOut_deep {s} (upper : m.node a = ⟨c, above, whichChild, balance⟩)
    (low : m.node y = ⟨lower, some parent, s, lowBalance⟩) (first : c left = some below)
    (second : c (!left) = some other) (single : lower (!left) = none)
    (fresh : tmp ≠ a ∧ tmp ≠ y ∧ tmp ≠ below ∧ tmp ≠ other ∧ tmp ≠ parent ∧ lower left ≠ some tmp ∧ above ≠ some tmp)
    (apart : y ≠ below ∧ y ≠ other ∧ y ≠ parent ∧ a ≠ parent ∧ below ≠ other ∧ other ≠ parent)
    (outside : above ≠ some y ∧ above ≠ some below ∧ above ≠ some other ∧ above ≠ some parent)
    (child : ∀ z, lower left = some z → z ≠ a ∧ z ≠ y ∧ z ≠ below ∧ z ≠ other ∧ z ≠ parent ∧ above ≠ some z) :
    m.SwapsOut tmp a y left := by
  obtain ⟨tmpA, tmpY, tmpBelow, tmpOther, tmpParent, tmpChild, tmpAbove⟩ := fresh
  obtain ⟨yBelow, yOther, yParent, aParent, belowOther, otherParent⟩ := apart
  obtain ⟨yAbove, belowAbove, otherAbove, parentAbove⟩ := outside
  have renamed : ∀ z, (m.rename y tmp).node z = _ := node_rename left low (by simpa using tmpParent.symm) tmpChild
    (by simp [single]) (by simp [single]) (by
      rintro z (here | here)
      · simpa using (child z here).2.2.2.2.1.symm
      · simp [single] at here)
  have notA : lower left ≠ some a := fun here => (child a here).1 rfl
  have upper' : (m.rename y tmp).node a = ⟨c, above, whichChild, balance⟩ := by
    rw [renamed, if_neg tmpA.symm, if_neg (by simp [notA, single]), if_neg (by simpa using aParent.symm), upper]
  have target : ∀ z, ((m.rename y tmp).rename a y).node z = _ := node_rename left upper' yAbove
    (by simpa [first] using yBelow.symm) (by simpa [second] using yOther.symm)
    (by simpa [first, second] using belowOther.symm) (by
      simp only [first, second, Option.some.injEq]
      rintro z (rfl | rfl)
      · exact belowAbove
      · exact otherAbove)
  have moved := @node_moveUp _ _ m left a y balance tmp above whichChild c upper tmpA tmpY yAbove tmpAbove
  simp only [first, Option.some.injEq, yBelow.symm, if_false, low] at moved
  refine ⟨((((m.moveUp tmp a y left).setParent below (some y)).setParent other (some y)).setChild parent s
    (some tmp)).reparent (lower left) (some tmp), ?_, ?_, ?_, ?_⟩
  · simp [swapOut, putTmp, setChild, setParent, node_modify, moved, tmpY, first, second, tmpOther, tmpBelow, tmpParent, only_child single]
  · intro z za
    simp only [node_reparent, setChild, setParent, node_modify, moved, target, renamed, first, second, single,
      Option.some.injEq]
    by_cases zy : z = y
    · subst zy
      have notChild : lower left ≠ some z := fun here => (child z here).2.1 rfl
      simp [yBelow, yOther, yParent, notChild]
    by_cases zt : z = tmp
    · subst zt
      simp [zy, tmpChild, tmpOther, tmpOther.symm, tmpBelow, tmpBelow.symm, tmpParent, tmpAbove]
    by_cases zc : lower left = some z
    · obtain ⟨_, _, zBelow, zOther, zParent, zAbove⟩ := child z zc
      simp [zy, zt, zc, zBelow, zBelow.symm, zOther, zOther.symm, zParent, zAbove]
    by_cases zp : z = parent
    · subst zp
      by_cases zb : z = below
      · subst zb
        simp [zy, zt, zc, parentAbove]
      · simp [zy, zt, zc, zb, @eq_comm _ below z, otherParent, otherParent.symm, parentAbove]
    · simp only [zy, zt, zc, zp, @eq_comm _ parent z, @eq_comm _ below z, @eq_comm _ other z, if_false]
      by_cases zb : z = below
      · subst zb
        simp [belowAbove]
      by_cases zo : z = other
      · subst zo
        simp [zb, otherAbove]
      · simp [zb, zo]
  · rw [root_reparent, root_rename upper', root_rename low]
    simp [setChild, setParent, modify, root_moveUp upper tmpA]
  · rw [numnodes_reparent]
    simp [setChild, setParent, modify, numnodes_moveUp]

end Records

theorem rename_placed (placed : m.Placed side p (.node x balance kids))
    (fresh : y ∉ nodes (p.plug (.node x balance kids))) : (m.rename x y).Placed side p (.node y balance kids) := by
  obtain ⟨⟨record, below⟩, around, apart⟩ := placed
  obtain ⟨treeApart, pathApart, outside⟩ := nodup_plug.mp apart
  obtain ⟨⟨firstApart, secondApart⟩, _, sides⟩ := (nodup_node false).mp treeApart
  obtain ⟨_, outside⟩ := disjoint_node.mp outside
  obtain ⟨notTree, notPath⟩ := not_or.mp (mt mem_nodes_plug.mpr fresh)
  obtain ⟨_, notKid⟩ := notMem_node.mp notTree
  have new : ∀ z, (m.rename x y).node z = _ := node_rename false record (up_ne notPath) (ptr_ne (notKid _))
    (ptr_ne (notKid _)) (fun z first second => sides (mem_ptr first) (mem_ptr second)) (by
      rintro z (root | root)
      · exact up_ne (outside _ (mem_ptr root))
      · exact up_ne (outside _ (mem_ptr root)))
  simp only [Bool.not_false] at new
  have kidNe : ∀ d, ∀ z ∈ nodes (kids d), z ≠ y := fun d z member here => notKid d (here ▸ member)
  have pathNe : ∀ z ∈ pathNodes p, z ≠ y := fun z member here => notPath (here ▸ member)
  have notRoot : ∀ z ∈ pathNodes p, ¬(ptr (kids false) = some z ∨ ptr (kids true) = some z) := by
    rintro z member (root | root)
    · exact outside _ (mem_ptr root) member
    · exact outside _ (mem_ptr root) member
  refine ⟨(stands_node false).mpr ⟨?_, (below false).moved firstApart ?_ ?_, (below true).moved secondApart ?_ ?_⟩,
    around.hung pathApart ?_ ?_ ?_, ?_⟩
  · rw [new, if_pos rfl]
  · intro z member first
    have second : ptr (kids true) ≠ some z := fun root => sides member (mem_ptr root)
    rw [new, if_neg (kidNe _ z member), if_neg (not_or.mpr ⟨first, second⟩), if_neg (up_ne (outside _ member))]
  · intro z root
    rw [new, if_neg (kidNe _ z (mem_ptr root)), if_pos (.inl root), ← (below false).index root]
  · intro z member second
    have first : ptr (kids false) ≠ some z := fun root => sides (mem_ptr root) member
    rw [new, if_neg (kidNe _ z member), if_neg (not_or.mpr ⟨first, second⟩), if_neg (up_ne (outside _ member))]
  · intro z root
    rw [new, if_neg (kidNe _ z (mem_ptr root)), if_pos (.inr root), (below true).index root]
    rfl
  · intro z member notLow
    rw [new, if_neg (pathNe z member), if_neg (notRoot z member), if_neg notLow]
  · intro z low
    rw [new, if_neg (pathNe z (mem_up low)), if_neg (notRoot z (mem_up low)), if_pos low]
    rfl
  · rw [root_rename record]
    rfl
  · exact nodup_plug.mpr ⟨(nodup_node false).mpr ⟨⟨firstApart, secondApart⟩, ⟨notKid _, notKid _⟩, sides⟩,
      pathApart, disjoint_node.mpr ⟨notPath, outside⟩⟩

/-- What `avl_remove` writes before it takes out a node with two children: the neighbour `y` moves to `tmp`, and
    takes the place of the node. -/
theorem swapOut_placed {tmp} (placed : m.Placed side p (.node a balance kids))
    (shape : kids left = plug q (.node y lowBalance lowKids)) (single : lowKids (!left) = .nil)
    (two : kids (!left) ≠ .nil) (fresh : tmp ∉ nodes (p.plug (.node a balance kids))) :
    ∃ m', m.swapOut tmp a y left = some m' ∧
      m'.Placed side (q ++ ⟨left, y, balance, kids (!left)⟩ :: p) (.node tmp lowBalance lowKids) ∧
      m'.avlNumnodes = m.avlNumnodes := by
  have whole : (⟨left, a, balance, kids (!left)⟩ : Frame ι).fill (plug q (.node y lowBalance lowKids)) =
      .node a balance kids := by
    rw [← shape, Frame.fill_kids]
  have deep : m.Placed side (q ++ ⟨left, a, balance, kids (!left)⟩ :: p) (.node y lowBalance lowKids) := by
    rw [placed_append, placed_cons, whole]
    exact placed
  have plugs : plug (q ++ ⟨left, a, balance, kids (!left)⟩ :: p) (.node y lowBalance lowKids) =
      p.plug (.node a balance kids) := by
    rw [plug_append, plug, whole]
  -- which nodes are where
  obtain ⟨treeApart, pathApart, outside⟩ := nodup_plug.mp placed.apart
  obtain ⟨aPath, outside⟩ := disjoint_node.mp outside
  obtain ⟨⟨leftApart, _⟩, ⟨aLeft, aRight⟩, sides⟩ := (nodup_node left).mp treeApart
  rw [shape] at leftApart
  obtain ⟨lowApart, _, lowOutside⟩ := nodup_plug.mp leftApart
  obtain ⟨yRoute, kidsRoute⟩ := disjoint_node.mp lowOutside
  obtain ⟨_, ⟨yLeft, yRight⟩, _⟩ := (nodup_node left).mp lowApart
  have yKids : ∀ d, y ∉ nodes (lowKids d) := by
    intro d
    cases Bool.eq_or_eq_not d left with
    | inl same => exact same ▸ yLeft
    | inr other => exact other ▸ yRight
  have inLeft : ∀ z, z = y ∨ (∃ d, z ∈ nodes (lowKids d)) ∨ z ∈ pathNodes q → z ∈ nodes (kids left) := by
    intro z
    rw [shape, mem_nodes_plug, mem_nodes_node, or_assoc]
    exact id
  have yIn := inLeft y (.inl rfl)
  obtain ⟨tmpTree, tmpPath⟩ := not_or.mp (mt mem_nodes_plug.mpr fresh)
  obtain ⟨tmpA, tmpKids⟩ := notMem_node.mp tmpTree
  have tmpLeft : ∀ z ∈ nodes (kids left), tmp ≠ z := fun z member here => tmpKids left (here ▸ member)
  have aNe : ∀ z ∈ nodes (kids left), z ≠ a := fun z member here => aLeft (here ▸ member)
  have aboveNe : ∀ d, ∀ z ∈ nodes (kids d), up none p ≠ some z := fun d z member => up_ne (outside d member)
  -- the tree with the neighbour at `tmp`, and then with the neighbour in the place of the node
  have first := @rename_placed _ _ _ _ _ _ tmp _ _ deep (by rwa [plugs])
  rw [placed_append, placed_cons] at first
  have second := @rename_placed _ _ _ _ _ _ y _ _ first (by
    rw [mem_nodes_plug, not_or, notMem_node]
    refine ⟨⟨aNe y yIn, fun d => ?_⟩, fun here => outside left yIn here⟩
    split_ifs
    · rw [mem_nodes_plug, not_or, notMem_node]
      exact ⟨⟨(tmpLeft y yIn).symm, yKids⟩, yRoute⟩
    · exact sides yIn)
  have placed' : ((m.rename y tmp).rename a y).Placed side (q ++ ⟨left, y, balance, kids (!left)⟩ :: p)
      (.node tmp lowBalance lowKids) := by
    rw [placed_append, placed_cons]
    exact second
  suffices m.SwapsOut tmp a y left by
    obtain ⟨m', swapped, same, root, count⟩ := this
    refine ⟨m', swapped, placed'.congr (fun z member => same z ?_) root, count⟩
    rintro rfl
    simp only [mem_nodes_plug, mem_nodes_node, pathNodes_append, mem_pathNodes_cons] at member
    rcases member with (rfl | ⟨d, member⟩) | member | rfl | member | member
    · exact tmpA rfl
    · exact aLeft (inLeft z (.inr (.inl ⟨d, member⟩)))
    · exact aLeft (inLeft z (.inr (.inr member)))
    · exact aLeft yIn
    · exact aRight member
    · exact aPath member
  obtain ⟨other, root⟩ := exists_ptr two
  have otherIn := mem_ptr root
  have otherNe : ∀ z ∈ nodes (kids left), z ≠ other := fun z member here => sides member (here ▸ otherIn)
  have tmpOther : tmp ≠ other := fun here => tmpKids _ (here ▸ otherIn)
  have childIn : ∀ z, ptr (lowKids left) = some z → z ∈ nodes (kids left) :=
    fun z here => inLeft z (.inr (.inl ⟨left, mem_ptr here⟩))
  have childY : ∀ z, ptr (lowKids left) = some z → z ≠ y := fun z here same => yLeft (same ▸ mem_ptr here)
  have tmpChild : ptr (lowKids left) ≠ some tmp := fun here => tmpKids left (childIn tmp here)
  cases q with
  | nil =>
    refine swapOut_direct placed.stands.1 deep.stands.1 (by rw [shape]; rfl) root (by rw [single]; rfl)
      ⟨tmpA, tmpLeft y yIn, tmpOther, tmpChild, up_ne tmpPath⟩
      ⟨otherNe y yIn, aboveNe left y yIn, aboveNe _ other otherIn⟩ fun z here => ?_
    exact ⟨aNe z (childIn z here), childY z here, otherNe z (childIn z here), aboveNe _ z (childIn z here)⟩
  | cons f q =>
    obtain ⟨below, belowRoute, belowRoot⟩ := ptr_plug_cons f q (.node y lowBalance lowKids)
    rw [← shape] at belowRoot
    have belowIn := inLeft below (.inr (.inr belowRoute))
    have parentRoute : f.at_ ∈ pathNodes (f :: q) := mem_pathNodes_cons.mpr (.inl rfl)
    have parentIn := inLeft f.at_ (.inr (.inr parentRoute))
    refine swapOut_deep placed.stands.1 deep.stands.1 belowRoot root (by rw [single]; rfl)
      ⟨tmpA, tmpLeft y yIn, tmpLeft below belowIn, tmpOther, tmpLeft f.at_ parentIn, tmpChild, up_ne tmpPath⟩
      ⟨?_, otherNe y yIn, ?_, (aNe f.at_ parentIn).symm, otherNe below belowIn, (otherNe f.at_ parentIn).symm⟩
      ⟨aboveNe left y yIn, aboveNe left below belowIn, aboveNe _ other otherIn, aboveNe left f.at_ parentIn⟩
      fun z here => ?_
    · rintro rfl
      exact yRoute belowRoute
    · rintro rfl
      exact yRoute parentRoute
    · refine ⟨aNe z (childIn z here), childY z here, ?_, otherNe z (childIn z here), ?_, aboveNe _ z (childIn z here)⟩
      · rintro rfl
        exact kidsRoute left (mem_ptr here) belowRoute
      · rintro rfl
        exact kidsRoute left (mem_ptr here) parentRoute

/-- `avl_remove` takes the node out and keeps the order of the others and the balance. -/
theorem avlRemove_placed {tmp} (placed : m.Placed side p (.node a balance kids))
    (balanced : (p.plug (.node a balance kids)).Balanced) (fresh : tmp ∉ nodes (p.plug (.node a balance kids)))
    (enough : (nodes (p.plug (.node a balance kids))).length ≤ rounds) :
    ∃ m' t', m.avlRemove (rounds + 1) tmp a = some m' ∧ m'.Placed side [] t' ∧ t'.Balanced ∧
      t'.inorder false = before false p ++ ((kids false).inorder false ++ (kids true).inorder false) ++
        after false p ∧ m'.avlNumnodes = m.avlNumnodes - 1 := by
  have record := placed.stands.1
  have size : (nodes (p.plug (.node a balance kids))).length =
      (pathNodes p).length + (nodes (kids false)).length + (nodes (kids true)).length + 1 := by
    simp only [nodes, pathNodes, inorder_plug, inorder, List.length_append, List.length_cons, Bool.not_false]
    omega
  have fits : (pathNodes p).length ≤ rounds := by omega
  by_cases first : kids false = .nil
  · obtain ⟨m', t', ends, placed', balanced', order, count⟩ := removeLeaf_placed placed balanced first fits
    refine ⟨m', t', ?_, placed', balanced', ?_, count⟩
    · simp only [avlRemove, record, first, ptr_nil]
      exact ends
    · rw [order, first]
      rfl
  by_cases second : kids true = .nil
  · obtain ⟨m', t', ends, placed', balanced', order, count⟩ := removeLeaf_placed placed balanced second fits
    refine ⟨m', t', ?_, placed', balanced', ?_, count⟩
    · obtain ⟨z, root⟩ := exists_ptr first
      simp only [avlRemove, record, second, ptr_nil, root]
      exact ends
    · rw [order, second]
      simp [inorder]
  obtain ⟨z₀, root₀⟩ := exists_ptr first
  obtain ⟨z₁, root₁⟩ := exists_ptr second
  have full : ∀ d, kids d ≠ .nil := by
    intro d
    cases d
    · exact first
    · exact second
  obtain ⟨left, taller⟩ : ∃ left, left = avlBalance2child balance := ⟨_, rfl⟩
  obtain ⟨below, root⟩ := exists_ptr (full left)
  have kidFits : (nodes (kids left)).length ≤ rounds + 1 := by
    cases left <;> omega
  obtain ⟨q, y, lowBalance, lowKids, shape, single, sides, found⟩ :=
    @descend_end _ m left (!left) (kids left) (some a) (rounds + 1) (placed.stands.2 left) below root kidFits
  obtain ⟨m₁, swapped, placed₁, count₁⟩ := swapOut_placed placed shape single (full _) fresh
  have whole : (⟨left, a, balance, kids (!left)⟩ : Frame ι).fill (plug q (.node y lowBalance lowKids)) =
      .node a balance kids := by
    rw [← shape, Frame.fill_kids]
  have balanced₁ : (plug (q ++ ⟨left, y, balance, kids (!left)⟩ :: p)
      (.node tmp lowBalance lowKids)).Balanced := by
    rw [← whole, ← plug, ← plug_append, balanced_plug] at balanced
    exact balanced_plug.mpr ⟨balanced.1, (balanced_replace _ _).mp balanced.2⟩
  have routeFits : (pathNodes (q ++ ⟨left, y, balance, kids (!left)⟩ :: p)).length ≤ rounds := by
    have lowSize := congrArg (fun t => (nodes t).length) shape
    simp only [length_plug] at lowSize
    simp only [length_pathNodes_append, length_pathNodes_cons]
    cases left <;> simp only [Bool.not_false, Bool.not_true] at * <;> omega
  obtain ⟨m', t', ends, placed', balanced', order, count⟩ := removeLeaf_placed placed₁ balanced₁ single routeFits
  refine ⟨m', t', ?_, placed', balanced', ?_, count.trans (by rw [count₁])⟩
  · simp only [avlRemove, record, root₀, root₁, ← taller, root, found, swapped]
    exact ends
  · have along : t'.inorder left = before left p ++ ((kids left).inorder left ++ (kids (!left)).inorder left) ++
        after left p := by
      rw [order, shape, inorder_plug, before_append, after_append, after_eq_nil sides]
      simp [before, after, inorder, single]
    cases left
    · exact along
    · have turned := congrArg List.reverse along
      simp only [List.reverse_append, ← inorder_not, ← before_not, ← after_not, Bool.not_true] at turned
      simpa using turned

end AvlTree

end MacZfs.Avl
