import MacZfs.Avl.Rotation

/-! # Insertion

A new node is hung at the end of a path, and the way back up keeps the balance.
-/

namespace MacZfs.Avl

open BalancedTree Route BinTree

namespace AvlTree

variable {ι : Type*} {m : AvlTree ι} {side : Bool} {p : Route ι} {t : BinTree ι} {f : Frame ι} {n : ℕ}

theorem Placed.record (placed : m.Placed side (f :: p) t) : (m.node f.at_).avlBalance = f.balance ∧
    (m.node f.at_).avlParent = up none p ∧ (m.node f.at_).avlChildIndex = upSide side p := by
  rw [placed.around.1]
  exact ⟨rfl, rfl, rfl⟩

variable [DecidableEq ι]

/-- A new balance at the lowest node of the path, seen from the node above. -/
theorem Placed.setBalance (placed : m.Placed side (f :: p) t) (balance : ℤ) :
    (m.setBalance f.at_ balance).Placed side p (({ f with balance := balance } : Frame ι).fill t) := by
  obtain ⟨stands, ⟨record, beside, above⟩, apart⟩ := placed
  obtain ⟨_, pathApart, outside⟩ := nodup_plug.mp apart
  obtain ⟨_, _, notBeside, notAbove, _⟩ := nodup_path.mp pathApart
  have same : ∀ x ≠ f.at_, (m.setBalance f.at_ balance).node x = m.node x := by
    intro x other
    rw [AvlTree.setBalance, node_modify, if_neg other]
  have whole : (m.setBalance f.at_ balance).Placed side (({ f with balance := balance } : Frame ι) :: p) t := by
    refine ⟨stands.congr fun x member => same x ?_, ⟨?_, beside.congr fun x member => same x ?_,
      above.congr fun x member => same x ?_⟩, ?_⟩
    · rintro rfl
      exact outside member (mem_pathNodes_cons.mpr (.inl rfl))
    · rw [AvlTree.setBalance, node_modify, if_pos rfl, record]
    · rintro rfl
      exact notBeside member
    · rintro rfl
      exact notAbove member
    · unfold nodes at apart ⊢
      rwa [inorder_plug] at apart ⊢
  exact placed_cons.mp whole

theorem insertLoop_placed (placed : m.Placed side p t) (above : Route.Balanced p n) (whole : t.Balanced)
    (taller : t.height = n + 1) (enough : p.length ≤ rounds) :
    ∃ m', m.insertLoop (rounds + 1) (up none p) (upSide side p) = some m' ∧ m'.Placed side [] (p.growUp t) ∧
      m'.avlNumnodes = m.avlNumnodes := by
  induction p generalizing m t n rounds with
  | nil => exact ⟨m, rfl, placed, rfl⟩
  | cons f p ih =>
    obtain ⟨rounds, rfl⟩ := Nat.exists_eq_add_of_le' (Nat.le_trans (Nat.succ_pos p.length) enough)
    obtain ⟨balance, parent, index⟩ := placed.record
    rw [up_cons, upSide_cons, insertLoop, balance, parent, index, growUp]
    simp only [show avlChild2balance f.side = weight f.side from rfl]
    split_ifs with even leaning
    · exact ⟨_, rfl, placed_plug.mp (placed.setBalance 0), rfl⟩
    · -- the node leans by two, to the side the path comes from
      rw [(grow_leaning above leaning even).2, heavy_twice]
      have grown : (if f.side = f.side then t else f.sibling) ≠ .nil := by
        rw [if_pos rfl]
        rintro rfl
        cases taller
      obtain ⟨m', rotated, placed', count⟩ := avlRotation_placed (placed_cons.mp placed) (by simpa using whole) grown
      exact ⟨m', by rw [rotated]; rfl, placed_plug.mp placed', count⟩
    · obtain ⟨filled, height⟩ := grow_flat above whole taller (not_not.mp leaning)
      exact ih (placed.setBalance _) above.2.2.2.2 filled height (Nat.le_of_succ_le_succ enough)

theorem addLeaf_placed (placed : m.Placed side p .nil) (fresh : x ∉ pathNodes p) :
    (m.addLeaf x ⟨up none p, upSide side p⟩).Placed side p (.node x 0 fun _ => .nil) ∧
      (m.addLeaf x ⟨up none p, upSide side p⟩).avlNumnodes = m.avlNumnodes + 1 := by
  obtain ⟨_, around, apart⟩ := placed
  obtain ⟨_, pathApart, _⟩ := nodup_plug.mp apart
  have new : ∀ y, (m.addLeaf x ⟨up none p, upSide side p⟩).node y =
      if y = x then ⟨fun _ => none, up none p, upSide side p, 0⟩
      else if up none p = some y then
        { m.node y with avlChild := Function.update (m.node y).avlChild (upSide side p) (some x) }
      else m.node y := by
    intro y
    simp only [addLeaf, setChild, setIndex, setBalance, setParent, node_hang, node_modify]
    by_cases here : y = x
    · subst here
      simp only [if_true, if_neg (up_ne fresh), AvlNode.mk.injEq, and_true]
      funext d
      cases d <;> simp [Function.update]
    · simp [here]
  have other : ∀ y ∈ pathNodes p, y ≠ x := fun y member here => fresh (here ▸ member)
  refine ⟨⟨⟨?_, fun _ => trivial⟩, around.hung pathApart ?_ ?_ ?_, ?_⟩, ?_⟩
  · rw [new, if_pos rfl]
    rfl
  · intro y member notLow
    rw [new, if_neg (other y member), if_neg notLow]
  · intro y low
    rw [new, if_neg (other y (mem_up low)), if_pos low]
    rfl
  · simp [addLeaf, setChild, setIndex, setBalance, setParent, modify, root_hang]
  · refine nodup_plug.mpr ⟨?_, pathApart, ?_⟩
    · simp [nodes, inorder]
    · simpa [nodes, inorder] using fresh
  · simp [addLeaf, setChild, setIndex, setBalance, setParent, modify, numnodes_hang]

/-- `avl_insert` at the end of a path keeps the tree balanced, with the new node between the two parts of the path. -/
theorem avlInsert_placed (placed : m.Placed side p .nil) (balanced : (p.plug .nil).Balanced)
    (fresh : x ∉ pathNodes p) (enough : (pathNodes p).length ≤ rounds) :
    ∃ m' t', m.avlInsert (rounds + 1) x ⟨up none p, upSide side p⟩ = some m' ∧ m'.Placed side [] t' ∧ t'.Balanced ∧
      t'.inorder false = Route.before false p ++ x :: Route.after false p ∧ m'.avlNumnodes = m.avlNumnodes + 1 := by
  obtain ⟨hung, count⟩ := addLeaf_placed placed fresh
  have above := (Route.balanced_plug.mp balanced).2
  have leaf : (BinTree.node x 0 fun _ => BinTree.nil).Balanced := by simp [BinTree.Balanced, BinTree.height]
  obtain ⟨m', ends, placed', same⟩ := insertLoop_placed hung above leaf rfl
    ((length_le_pathNodes p).trans enough)
  refine ⟨m', _, ends, placed', Route.balanced_growUp above leaf rfl (.inr rfl), ?_, same.trans count⟩
  rw [Route.inorder_growUp]
  simp [BinTree.inorder]

end AvlTree

end MacZfs.Avl
