import MacZfs.Avl.Links

/-! # Walking and searching

The functions that only read the tree, by what they find in the order of its nodes.
-/

namespace MacZfs.Avl

open BalancedTree List Route BinTree

namespace AvlTree

variable {ι : Type*} {m : AvlTree ι} {side d : Bool} {p : Route ι} {t : BinTree ι} {parent : Option ι} {rounds : ℕ}

theorem descend_end (stands : m.Stands t parent side) {x} (root : ptr t = some x)
    (enough : (nodes t).length ≤ rounds) : ∃ q y balance kids, t = plug q (.node y balance kids) ∧
      kids d = .nil ∧ (∀ f ∈ q, f.side = d) ∧ m.descend d rounds x = some y := by
  induction t generalizing parent side x rounds with
  | nil => cases root
  | node a balance kids ih =>
    cases root
    obtain ⟨record, below⟩ := stands
    have smaller := @length_kid _ a balance kids d
    obtain ⟨rounds, rfl⟩ := Nat.exists_eq_add_of_le' (Nat.le_trans (Nat.succ_pos _) (smaller.trans enough))
    have fits : (nodes (kids d)).length ≤ rounds := by omega
    rw [descend, record]
    cases child : kids d with
    | nil => exact ⟨[], a, balance, kids, rfl, child, by simp, by simp [child]⟩
    | node c childBalance childKids =>
      obtain ⟨q, y, lowBalance, lowKids, shape, low, sides, found⟩ :=
        ih d (x := c) (below d) (by rw [child, ptr_node]) fits
      refine ⟨q ++ [⟨d, a, balance, kids (!d)⟩], y, lowBalance, lowKids, ?_, low, ?_, by simpa [child] using found⟩
      · rw [plug_append, ← shape]
        exact (Frame.fill_kids d a balance kids).symm
      · simp only [mem_append, mem_singleton]
        rintro f (member | rfl)
        · exact sides f member
        · rfl

theorem ascend_last (around : m.Around none side p hole root)
    (above : (m.node x).avlParent = up none p) (index : (m.node x).avlChildIndex = upSide side p)
    (enough : p.length ≤ rounds) : m.ascend (!d) (rounds + 1) x = some (before d p).getLast? := by
  induction p generalizing x hole rounds with
  | nil => rw [ascend, above]; rfl
  | cons f p ih =>
    obtain ⟨rounds, rfl⟩ := Nat.exists_eq_add_of_le' (Nat.le_trans (Nat.succ_pos p.length) enough)
    obtain ⟨record, _, rest⟩ := around
    rw [ascend, above, index, up_cons, upSide_cons, before]
    simp only
    cases Bool.eq_or_eq_not f.side d with
    | inl same =>
      rw [if_neg (by simp [same]), if_pos same, append_nil]
      exact ih rest (by rw [record]) (by rw [record]) (Nat.le_of_succ_le_succ enough)
    | inr other => simp [other]

/-- `avl_walk` goes to the neighbour of the node on the given side. -/
theorem avlWalk_last (placed : m.Placed side p (.node a balance kids))
    (enough : (nodes (p.plug (.node a balance kids))).length ≤ rounds) :
    m.avlWalk (rounds + 1) (some a) d = some (before d p ++ (kids d).inorder d).getLast? := by
  obtain ⟨⟨record, below⟩, around, _⟩ := placed
  have parts : (pathNodes p).length + (nodes (kids d)).length ≤ rounds := by
    refine Nat.le_trans ?_ enough
    unfold nodes pathNodes
    cases d <;> simp [inorder_plug, inorder] <;> omega
  have fits : (pathNodes p).length ≤ rounds := by omega
  simp only [avlWalk, record]
  cases child : kids d with
  | nil =>
    simp only [ptr_nil, inorder, append_nil]
    exact ascend_last around (by rw [record]) (by rw [record]) ((length_le_pathNodes p).trans fits)
  | node c childBalance childKids =>
    have stands := below d
    obtain ⟨q, y, lowBalance, lowKids, shape, low, sides, found⟩ :=
      @descend_end _ m d (!d) (kids d) (some a) (rounds + 1) stands c (by rw [child, ptr_node]) (by omega)
    simp only [ptr_node, found, Option.map_some]
    rw [← child, shape, inorder_plug, after_eq_nil sides]
    simp [inorder, low]

theorem edge_head {prev} (stands : m.Stands t parent side) (enough : (nodes t).length ≤ rounds) :
    m.edge d (rounds + 1) (ptr t) prev = some ((t.inorder d).head?.or prev) := by
  induction t generalizing parent side prev rounds with
  | nil => rfl
  | node a balance kids ih =>
    obtain ⟨record, below⟩ := stands
    have smaller := @length_kid _ a balance kids d
    obtain ⟨rounds, rfl⟩ := Nat.exists_eq_add_of_le' (Nat.le_trans (Nat.succ_pos _) (smaller.trans enough))
    rw [ptr_node, edge, record, ih d (below d) (by omega)]
    cases first : (kids d).inorder d <;> simp [inorder, first]

/-- `avl_nearest` goes to the neighbour of the place on the given side. -/
theorem avlNearest_last (placed : m.Placed side p .nil) (enough : (pathNodes p).length ≤ rounds) :
    m.avlNearest (rounds + 1) ⟨up none p, upSide side p⟩ d = some (before d p).getLast? := by
  cases p with
  | nil => rfl
  | cons f p =>
    rw [avlNearest, up_cons, upSide_cons]
    simp only
    cases Bool.eq_or_eq_not f.side d with
    | inl same =>
      have below := placed_cons.mp placed
      rw [if_neg (by simp [same]), avlWalk_last below, before, if_pos same, if_pos same.symm]
      · rfl
      · refine Nat.le_trans (Nat.le_of_eq ?_) enough
        have whole := congrArg List.length (inorder_plug false (f :: p) .nil)
        rw [plug, Frame.fill] at whole
        simpa [nodes, pathNodes, inorder] using whole
    | inr other => simp [other, before]

section Find

variable {α : Type*} [LinearOrder α] {key : ι → α} {value : α}

/-- The search ends at the node with the key or at the place where it would be. -/
theorem findFrom_spec (placed : m.Placed side p t)
    (ordered : ((p.plug t).inorder false).Pairwise fun x y => key x < key y)
    (before : ∀ x ∈ Route.before false p, key x < value) (after : ∀ x ∈ Route.after false p, value < key x)
    (enough : (nodes t).length ≤ rounds) :
    (∃ a ∈ nodes (p.plug t), key a = value ∧
        m.findFrom key value (rounds + 1) (ptr t) ⟨up none p, upSide side p⟩ = some (.found a)) ∨
      ∃ q, p.plug t = plug q .nil ∧ (∀ x ∈ Route.before false q, key x < value) ∧
        (∀ x ∈ Route.after false q, value < key x) ∧
        m.findFrom key value (rounds + 1) (ptr t) ⟨up none p, upSide side p⟩ =
          some (.missing ⟨up none q, upSide side q⟩) := by
  induction t generalizing p rounds with
  | nil => exact .inr ⟨p, rfl, before, after, rfl⟩
  | node a balance kids ih =>
    have record := placed.stands.1
    have smaller := @length_kid _ a balance kids
    obtain ⟨rounds, rfl⟩ :=
      Nat.exists_eq_add_of_le' (Nat.le_trans (Nat.succ_pos _) ((smaller false).trans enough))
    have step : ∀ d, plug (⟨d, a, balance, kids (!d)⟩ :: p) (kids d) = p.plug (.node a balance kids) :=
      fun d => by rw [plug, Frame.fill_kids]
    have down : ∀ d, m.Placed side (⟨d, a, balance, kids (!d)⟩ :: p) (kids d) :=
      fun d => placed_cons.mpr (by rwa [Frame.fill_kids])
    have order := ordered
    rw [inorder_plug, inorder] at order
    simp only [append_assoc, cons_append, pairwise_append, pairwise_cons, mem_append,
      mem_cons, Bool.not_false] at order
    rw [ptr_node, findFrom]
    rcases way : compare value (key a) with _ | _ | _
    · have less := compare_lt_iff_lt.mp way
      have fits : (nodes (kids false)).length ≤ rounds := by
        have := smaller false
        omega
      have inner := ih false (down false) (by rwa [step]) ?_ ?_ fits
      · rw [step] at inner
        simpa [record] using inner
      · simpa [Route.before] using before
      · simp only [Route.after, if_true, mem_append, mem_cons, Bool.not_false]
        rintro x ((rfl | member) | member)
        · exact less
        · exact less.trans (order.2.1.2.1.1 x (.inl member))
        · exact after x member
    · refine .inl ⟨a, ?_, (compare_eq_iff_eq.mp way).symm, by simp⟩
      simp [nodes, inorder_plug, inorder]
    · have more := compare_gt_iff_gt.mp way
      have fits : (nodes (kids true)).length ≤ rounds := by
        have := smaller true
        omega
      have inner := ih true (down true) (by rwa [step]) ?_ ?_ fits
      · rw [step] at inner
        simpa [record] using inner
      · simp only [Route.before, Bool.true_eq_false, if_false, mem_append, mem_singleton, Bool.not_true]
        rintro x (member | member | rfl)
        · exact before x member
        · exact (order.2.1.2.2 x member a (.inl rfl)).trans more
        · exact more
      · simpa [Route.after] using after

theorem findFrom_add (stands : m.Stands t parent side) (low : t.height < rounds) (more) (place) :
    m.findFrom key value (rounds + more) (ptr t) place = m.findFrom key value rounds (ptr t) place := by
  induction t generalizing parent side rounds place with
  | nil =>
    obtain ⟨rounds, rfl⟩ := Nat.exists_eq_add_of_lt low
    rw [Nat.add_right_comm]
    rfl
  | node a balance kids ih =>
    obtain ⟨record, below⟩ := stands
    obtain ⟨rounds, rfl⟩ := Nat.exists_eq_succ_of_ne_zero (Nat.ne_zero_of_lt low)
    have lower : ∀ d, (kids d).height < rounds := by
      intro d
      rw [height_node d] at low
      omega
    rw [Nat.succ_add, ptr_node, findFrom, findFrom, record]
    split
    · rfl
    · exact ih false (below false) (lower false) _
    · exact ih true (below true) (lower true) _

end Find

end AvlTree

end MacZfs.Avl
