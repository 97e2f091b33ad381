import MacZfs.Avl.Remove
import MacZfs.Lib.Runs

/-! # Every sequence of insertions and removals

The entries of a tree are those inserted and not yet removed. After any sequence of operations the memory holds a
balanced search tree of them, and the functions that read it find what the order of the keys says.
-/

namespace MacZfs.Avl

open List BalancedTree BinTree Route AvlTree

variable {ι α : Type}

structure Entries (ι α : Type) where
  tree : AvlTree ι
  key : ι → α
  members : Finset ι

variable [LinearOrder α]

def onSide (d : Bool) (k other : α) : Prop := if d then other < k else k < other

namespace Entries

def Closest (s : Entries ι α) (d : Bool) (k : α) : Option ι → Prop
  | none => ∀ y ∈ s.members, ¬onSide d (s.key y) k
  | some x => x ∈ s.members ∧ onSide d (s.key x) k ∧
      ∀ y ∈ s.members, onSide d (s.key y) k → y = x ∨ onSide d (s.key y) (s.key x)

def Outermost (s : Entries ι α) (d : Bool) : Option ι → Prop
  | none => s.members = ∅
  | some x => x ∈ s.members ∧ ∀ y ∈ s.members, y = x ∨ onSide d (s.key x) (s.key y)

end Entries

/-- One operation. An entry is not inserted while it is in the tree, and `avl_insert_here` is called with a
    neighbour of the new entry, as its assertions ask; what is not in the tree is the caller's to write. The number
    of rounds is enough for every loop. -/
inductive AvlStep [DecidableEq ι] : Entries ι α → Entries ι α → Prop
  | add {s n tree rounds} (enough : s.members.card < rounds) (absent : n ∉ s.members)
      (ends : s.tree.avlAdd s.key rounds n = some tree) : AvlStep s ⟨tree, s.key, insert n s.members⟩
  | insert {s n place tree rounds} (enough : s.members.card < rounds) (absent : n ∉ s.members)
      (find : s.tree.avlFind s.key rounds (s.key n) = some (.missing place))
      (ends : s.tree.avlInsert rounds n place = some tree) : AvlStep s ⟨tree, s.key, insert n s.members⟩
  | insertHere {s n here direction tree rounds} (enough : s.members.card < rounds) (absent : n ∉ s.members)
      (member : here ∈ s.members) (side : onSide direction (s.key n) (s.key here))
      (next : ∀ x ∈ s.members, onSide direction (s.key x) (s.key here) → onSide direction (s.key x) (s.key n))
      (ends : s.tree.avlInsertHere rounds n here direction = some tree) :
      AvlStep s ⟨tree, s.key, insert n s.members⟩
  | remove {s n tmp tree rounds} (enough : s.members.card < rounds) (member : n ∈ s.members)
      (stack : tmp ∉ s.members) (ends : s.tree.avlRemove rounds tmp n = some tree) :
      AvlStep s ⟨tree, s.key, s.members.erase n⟩
  | owner {s : Entries ι α} (node : ι → AvlNode ι) (key : ι → α) (nodes : ∀ n ∈ s.members, node n = s.tree.node n)
      (keys : ∀ n ∈ s.members, key n = s.key n) : AvlStep s ⟨{ s.tree with node := node }, key, s.members⟩

def avlRuns (ι α : Type) [DecidableEq ι] [LinearOrder α] : Runs.System (Entries ι α) where
  init s := ∃ node key, s = ⟨avlCreate node, key, ∅⟩
  step := AvlStep

theorem onSide_trans {d} {a b c : α} (first : onSide d a b) (second : onSide d b c) : onSide d a c := by
  cases d
  · exact lt_trans first second
  · exact lt_trans second first

theorem onSide_irrefl {d} {a : α} : ¬onSide d a a := by
  cases d <;> exact lt_irrefl a

namespace Entries

/-- The memory holds the tree `t`, and `t` is a balanced search tree of the entries. -/
structure Holds (s : Entries ι α) (t : BinTree ι) : Prop where
  placed : s.tree.Placed false [] t
  balanced : t.Balanced
  ordered : (t.inorder false).Pairwise fun x y => s.key x < s.key y
  entries : ∀ n, n ∈ nodes t ↔ n ∈ s.members
  count : s.tree.avlNumnodes = s.members.card

variable {s : Entries ι α} {t : BinTree ι} {d : Bool} {n : ι} {rounds : ℕ}

theorem Holds.ordered_along (holds : s.Holds t) (d) :
    (t.inorder d).Pairwise fun x y => onSide d (s.key x) (s.key y) := by
  cases d
  · exact holds.ordered
  · rw [show true = !false from rfl, inorder_not, pairwise_reverse]
    exact holds.ordered

theorem Holds.length (holds : s.Holds t) : (nodes t).length = s.members.card := by
  classical
  have apart : (nodes t).Nodup := holds.placed.apart
  rw [← toFinset_card_of_nodup apart]
  congr 1
  ext x
  rw [mem_toFinset]
  exact holds.entries x

theorem Holds.mem (holds : s.Holds t) : x ∈ t.inorder d ↔ x ∈ s.members := by
  rw [mem_inorder (e := false)]
  exact holds.entries x

theorem exists_path {x} (member : x ∈ nodes t) : ∃ p balance kids, t = plug p (.node x balance kids) := by
  induction t with
  | nil => cases member
  | node a balance kids ih =>
    rcases mem_nodes_node.mp member with rfl | ⟨d, member⟩
    · exact ⟨[], balance, kids, rfl⟩
    · obtain ⟨p, b, k, shape⟩ := ih d member
      refine ⟨p ++ [⟨d, a, balance, kids (!d)⟩], b, k, ?_⟩
      rw [plug_append, ← shape]
      exact (Frame.fill_kids d a balance kids).symm

theorem inorder_cut {p} {balance kids} : (plug p (.node n balance kids)).inorder d =
    (before d p ++ (kids d).inorder d) ++ n :: ((kids (!d)).inorder d ++ after d p) := by
  rw [inorder_plug, inorder]
  simp

section

variable (holds : s.Holds t)

include holds

theorem Holds.fuel (enough : s.members.card < rounds) : ∃ rest, rounds = rest + 1 ∧ (nodes t).length ≤ rest := by
  rw [← holds.length] at enough
  obtain ⟨rest, rfl⟩ := Nat.exists_eq_add_of_lt enough
  exact ⟨_, rfl, Nat.le_add_right _ _⟩

/-- The last entry before a cut through the order is the one next to the key of the cut. -/
theorem Holds.closest {k l r} (cut : t.inorder d = l ++ r)
    (before : ∀ x ∈ l, onSide d (s.key x) k) (after : ∀ x ∈ r, ¬onSide d (s.key x) k) : s.Closest d k l.getLast? := by
  have order := holds.ordered_along d
  have member : ∀ x, x ∈ s.members ↔ x ∈ l ∨ x ∈ r := by
    intro x
    rw [← holds.mem (d := d), cut, mem_append]
  rw [cut] at order
  rcases eq_nil_or_concat l with rfl | ⟨l, last, rfl⟩
  · intro y entry
    exact after y (((member y).mp entry).resolve_left (not_mem_nil))
  · rw [concat_eq_append, List.getLast?_concat]
    simp only [concat_eq_append, mem_append, mem_singleton, pairwise_append] at before member order
    refine ⟨(member last).mpr (.inl (.inr rfl)), before last (.inr rfl), ?_⟩
    intro y entry side
    rcases (member y).mp entry with (inside | rfl) | beyond
    · exact .inr (order.1.2.2 y inside last rfl)
    · exact .inl rfl
    · exact absurd side (after y beyond)

theorem Holds.find (k : α) (enough : s.members.card < rounds) :
    (∃ x ∈ s.members, s.key x = k ∧ s.tree.avlFind s.key rounds k = some (.found x)) ∨
      ∃ q, t = Route.plug q .nil ∧ (∀ x ∈ Route.before false q, s.key x < k) ∧
        (∀ x ∈ Route.after false q, k < s.key x) ∧
        s.tree.avlFind s.key rounds k = some (.missing ⟨up none q, upSide false q⟩) := by
  obtain ⟨rounds, rfl, fits⟩ := holds.fuel enough
  have root : s.tree.avlRoot = ptr t := holds.placed.around
  have result := @AvlTree.findFrom_spec _ s.tree false [] t _ α _ s.key k holds.placed holds.ordered
    (by simp [Route.before]) (by simp [Route.after]) fits
  rw [AvlTree.avlFind, root]
  rcases result with ⟨x, member, same, found⟩ | missing
  · exact .inl ⟨x, (holds.entries x).mp member, same, found⟩
  · exact .inr missing

/-- `avl_walk` goes to the entry next to the key of an entry. -/
theorem Holds.walk (member : n ∈ s.members) (d) (enough : s.members.card < rounds) :
    ∃ r, s.tree.avlWalk rounds (some n) d = some r ∧ s.Closest d (s.key n) r := by
  obtain ⟨p, balance, kids, shape⟩ := exists_path ((holds.entries n).mpr member)
  obtain ⟨rounds, rfl, fits⟩ := holds.fuel enough
  have placed := holds.placed
  subst shape
  rw [← placed_plug] at placed
  refine ⟨_, avlWalk_last placed fits, ?_⟩
  have order := holds.ordered_along d
  rw [inorder_cut, pairwise_append, pairwise_cons] at order
  refine holds.closest inorder_cut (fun x before => order.2.2 x before n mem_cons_self) ?_
  rintro x after side
  rcases List.mem_cons.mp after with rfl | after
  · exact onSide_irrefl side
  · exact onSide_irrefl (onSide_trans side (order.2.1.1 x after))

/-- `avl_nearest` goes to the entry next to the key that was searched for. -/
theorem Holds.nearest {q k} (shape : t = plug q .nil)
    (before : ∀ x ∈ Route.before false q, s.key x < k) (after : ∀ x ∈ Route.after false q, k < s.key x) (d)
    (enough : s.members.card < rounds) :
    ∃ r, s.tree.avlNearest rounds ⟨up none q, upSide false q⟩ d = some r ∧ s.Closest d k r := by
  obtain ⟨rounds, rfl, fits⟩ := holds.fuel enough
  have placed := holds.placed
  subst shape
  rw [← placed_plug] at placed
  rw [length_plug, nodes_nil, length_nil, Nat.zero_add] at fits
  refine ⟨_, avlNearest_last placed fits, ?_⟩
  have cut : (plug q .nil).inorder d = Route.before d q ++ Route.after d q := by
    rw [inorder_plug]
    simp [inorder]
  refine holds.closest cut ?_ ?_
  · intro x member
    cases d
    · exact before x member
    · rw [show true = !false from rfl, before_not, mem_reverse] at member
      exact after x member
  · intro x member side
    cases d
    · exact lt_irrefl _ (lt_trans side (after x member))
    · rw [show true = !false from rfl, after_not, mem_reverse] at member
      exact lt_irrefl _ (lt_trans side (before x member))

theorem Holds.outermost (d) (enough : s.members.card < rounds) :
    ∃ r, s.tree.edge d rounds s.tree.avlRoot none = some r ∧ s.Outermost d r := by
  obtain ⟨rounds, rfl, fits⟩ := holds.fuel enough
  have root : s.tree.avlRoot = ptr t := holds.placed.around
  have order := holds.ordered_along d
  rw [root, edge_head holds.placed.stands fits, Option.or_none]
  refine ⟨_, rfl, ?_⟩
  cases first : t.inorder d with
  | nil =>
    refine Finset.eq_empty_of_forall_notMem fun x member => ?_
    rw [← holds.mem (d := d), first] at member
    cases member
  | cons x rest =>
    rw [first, pairwise_cons] at order
    refine ⟨holds.mem.mp (first ▸ mem_cons_self), fun y member => ?_⟩
    rw [← holds.mem (d := d), first, mem_cons] at member
    exact member.imp id (order.1 y)

end

variable [DecidableEq ι]

section

variable (holds : s.Holds t)

include holds

/-- An insertion at the end of a path between the entries on the two sides of the new key. -/
theorem Holds.insert {q} (shape : t = q.plug .nil) (absent : n ∉ s.members) (d)
    (before : ∀ x ∈ Route.before d q, onSide d (s.key x) (s.key n))
    (after : ∀ x ∈ Route.after d q, onSide d (s.key n) (s.key x)) (enough : s.members.card < rounds) :
    ∃ tree t', s.tree.avlInsert rounds n ⟨up none q, upSide false q⟩ = some tree ∧
      Holds ⟨tree, s.key, Insert.insert n s.members⟩ t' := by
  obtain ⟨placed, balanced, ordered, entries, count⟩ := id holds
  subst shape
  have inside : ∀ x, x ∈ pathNodes q ↔ x ∈ s.members := by
    intro x
    rw [← entries, mem_nodes_plug]
    simp
  obtain ⟨rounds, rfl, fits⟩ := holds.fuel enough
  rw [length_plug, nodes_nil, length_nil, Nat.zero_add] at fits
  obtain ⟨tree, t', ends, placed', balanced', order, count'⟩ :=
    avlInsert_placed (placed_plug.mpr placed) balanced (mt (inside n).mp absent) fits
  refine ⟨tree, t', ends, placed', balanced', ?_, ?_, ?_⟩
  · -- either side gives the order from the left
    have below : ∀ x ∈ Route.before false q, s.key x < s.key n := by
      cases d
      · exact before
      · intro x member
        rw [show false = !true from rfl, before_not, mem_reverse] at member
        exact after x member
    have above : ∀ x ∈ Route.after false q, s.key n < s.key x := by
      cases d
      · exact after
      · intro x member
        rw [show false = !true from rfl, after_not, mem_reverse] at member
        exact before x member
    rw [inorder_plug] at ordered
    rw [order]
    simp only [inorder, append_nil, pairwise_append, pairwise_cons, mem_cons] at ordered ⊢
    refine ⟨ordered.1, ⟨above, ordered.2.1⟩, ?_⟩
    rintro x member y (rfl | other)
    · exact below x member
    · exact ordered.2.2 x member y other
  · intro x
    have same := inside x
    simp only [pathNodes, mem_append] at same
    simp only [nodes, order, mem_append, mem_cons, Finset.mem_insert, ← same]
    tauto
  · rw [count', Finset.card_insert_of_notMem absent, count]

theorem Holds.remove {tmp} (member : n ∈ s.members) (stack : tmp ∉ s.members) (enough : s.members.card < rounds) :
    ∃ tree t', s.tree.avlRemove rounds tmp n = some tree ∧ Holds ⟨tree, s.key, s.members.erase n⟩ t' := by
  obtain ⟨placed, balanced, ordered, entries, count⟩ := id holds
  obtain ⟨p, balance, kids, shape⟩ := exists_path ((entries n).mpr member)
  obtain ⟨rounds, rfl, fits⟩ := holds.fuel enough
  subst shape
  obtain ⟨tree, t', ends, placed', balanced', order, count'⟩ :=
    avlRemove_placed (placed_plug.mpr placed) balanced (mt (entries tmp).mp stack) fits
  have whole : (plug p (.node n balance kids)).inorder false = before false p ++
      ((kids false).inorder false ++ n :: (kids true).inorder false) ++ after false p :=
    inorder_plug _ _ _
  have apart : (nodes (plug p (.node n balance kids))).Nodup := placed.apart
  refine ⟨tree, t', ends, placed', balanced', ?_, ?_, ?_⟩
  · refine ordered.sublist ?_
    rw [order, whole]
    exact ((List.Sublist.refl _).append ((List.Sublist.refl _).append (sublist_cons_self _ _))).append
      (List.Sublist.refl _)
  · intro x
    rw [Finset.mem_erase, ← entries]
    unfold nodes at apart ⊢
    grind
  · rw [count', Finset.card_erase_of_mem member, count]

/-- `avl_insert_here` goes to the place next to the entry. -/
theorem Holds.here {here} (member : here ∈ s.members) (d)
    (enough : s.members.card < rounds) : ∃ q l r, t = Route.plug q .nil ∧ t.inorder d = l ++ here :: r ∧
      Route.before d q = l ∧ Route.after d q = here :: r ∧
      ∀ n, s.tree.avlInsertHere rounds n here d = s.tree.avlInsert rounds n ⟨up none q, upSide false q⟩ := by
  obtain ⟨p, balance, kids, shape⟩ := exists_path ((holds.entries here).mpr member)
  obtain ⟨rounds, rfl, size⟩ := holds.fuel enough
  have placed := holds.placed
  subst shape
  rw [← AvlTree.placed_plug] at placed
  have record := placed.stands.1
  cases child : kids d with
  | nil =>
    refine ⟨⟨d, here, balance, kids (!d)⟩ :: p, _, _, ?_, inorder_cut, ?_, ?_, ?_⟩
    · rw [Route.plug, ← child, Frame.fill_kids]
    · simp [Route.before, child, BinTree.inorder]
    · simp [Route.after]
    · intro n
      simp [AvlTree.avlInsertHere, record, child]
  | node c childBalance childKids =>
    have root : ptr (kids d) = some c := by rw [child, ptr_node]
    have fits : (nodes (kids d)).length ≤ rounds + 1 := by
      have := @length_kid _ here balance kids d
      rw [length_plug] at size
      omega
    obtain ⟨q, y, lowBalance, lowKids, low, single, sides, found⟩ :=
      @AvlTree.descend_end _ s.tree d (!d) (kids d) (some here) _ (placed.stands.2 d) c root fits
    refine ⟨⟨!d, y, lowBalance, lowKids d⟩ :: (q ++ ⟨d, here, balance, kids (!d)⟩ :: p), _, _, ?_, inorder_cut, ?_, ?_, ?_⟩
    · have last := Frame.fill_kids (!d) y lowBalance lowKids
      rw [Bool.not_not, single] at last
      rw [Route.plug, last, Route.plug_append, ← low, Route.plug, Frame.fill_kids]
    · rw [low, Route.inorder_plug, Route.after_eq_nil sides]
      simp [Route.before, Route.before_append, BinTree.inorder, single]
    · simp [Route.after, Route.after_append, Route.after_eq_nil sides]
    · intro n
      simp [AvlTree.avlInsertHere, record, root, found]

theorem Holds.between {here : ι} (member : here ∈ s.members) (d) (side : onSide d (s.key n) (s.key here))
    (next : ∀ x ∈ s.members, onSide d (s.key x) (s.key here) → onSide d (s.key x) (s.key n))
    (enough : s.members.card < rounds) : ∃ q, t = plug q .nil ∧
      (∀ x, s.tree.avlInsertHere rounds x here d = s.tree.avlInsert rounds x ⟨up none q, upSide false q⟩) ∧
      (∀ x ∈ Route.before d q, onSide d (s.key x) (s.key n)) ∧
      ∀ x ∈ Route.after d q, onSide d (s.key n) (s.key x) := by
  obtain ⟨q, l, r, shape, cut, before, after, same⟩ := holds.here member d enough
  have order := holds.ordered_along d
  rw [cut, pairwise_append, pairwise_cons] at order
  refine ⟨q, shape, same, ?_, ?_⟩
  · intro x inside
    rw [before] at inside
    exact next x (holds.mem.mp (cut ▸ mem_append_left _ inside)) (order.2.2 x inside here mem_cons_self)
  · intro x inside
    rw [after] at inside
    rcases List.mem_cons.mp inside with rfl | inside
    · exact side
    · exact onSide_trans side (order.2.1.1 x inside)

theorem Holds.add_ends (absent : n ∉ s.members) (other : ∀ x ∈ s.members, s.key x ≠ s.key n)
    (enough : s.members.card < rounds) : ∃ tree, s.tree.avlAdd s.key rounds n = some tree := by
  rcases holds.find (s.key n) enough with ⟨x, member, same, _⟩ | ⟨q, shape, before, after, missing⟩
  · exact absurd same (other x member)
  · obtain ⟨tree, _, ends, _⟩ := holds.insert shape absent false before after enough
    refine ⟨tree, ?_⟩
    rw [avlAdd, missing]
    exact ends

end

end Entries

open Entries

/-- Every operation that is called as it may be ends and leaves a balanced search tree of the entries. -/
theorem AvlStep.holds [DecidableEq ι] {s s' : Entries ι α} {t : BinTree ι} (step : AvlStep s s') (holds : s.Holds t) :
    ∃ t', s'.Holds t' := by
  cases step with
  | @add n tree rounds enough absent ends =>
    rcases holds.find (s.key n) enough with ⟨x, _, _, found⟩ | ⟨q, shape, before, after, missing⟩
    · simp [avlAdd, found] at ends
    · obtain ⟨tree', t', ends', holds'⟩ := holds.insert shape absent false before after enough
      simp only [avlAdd, missing] at ends
      obtain rfl := Option.some.inj (ends'.symm.trans ends)
      exact ⟨t', holds'⟩
  | @insert n place tree rounds enough absent find ends =>
    rcases holds.find (s.key n) enough with ⟨x, _, _, found⟩ | ⟨q, shape, before, after, missing⟩
    · rw [found] at find
      cases find
    · obtain ⟨tree', t', ends', holds'⟩ := holds.insert shape absent false before after enough
      obtain rfl := Found.missing.inj (Option.some.inj (missing.symm.trans find))
      obtain rfl := Option.some.inj (ends'.symm.trans ends)
      exact ⟨t', holds'⟩
  | @insertHere n here direction tree rounds enough absent member side next ends =>
    obtain ⟨q, shape, same, before, after⟩ := holds.between member direction side next enough
    obtain ⟨tree', t', ends', holds'⟩ := holds.insert shape absent direction before after enough
    rw [same] at ends
    obtain rfl := Option.some.inj (ends'.symm.trans ends)
    exact ⟨t', holds'⟩
  | @remove n tmp tree rounds enough member stack ends =>
    obtain ⟨tree', t', ends', holds'⟩ := holds.remove member stack enough
    obtain rfl := Option.some.inj (ends'.symm.trans ends)
    exact ⟨t', holds'⟩
  | owner node key nodes keys =>
    obtain ⟨placed, balanced, ordered, entries, count⟩ := holds
    refine ⟨t, placed.congr (fun x member => nodes x ((entries x).mp member)) rfl, balanced, ?_, entries, count⟩
    refine ordered.imp_of_mem fun {x y} first second less => ?_
    change key x < key y
    rw [keys x ((entries x).mp first), keys y ((entries y).mp second)]
    exact less

theorem reachable_holds [DecidableEq ι] {s} (reachable : (avlRuns ι α).Reachable s) :
    ∃ t, s.Holds t := by
  induction reachable with
  | first init =>
    obtain ⟨node, key, rfl⟩ := init
    exact ⟨.nil, ⟨trivial, rfl, nodup_nil⟩, trivial, Pairwise.nil, by simp, rfl⟩
  | next _ step ih =>
    obtain ⟨t, holds⟩ := ih
    exact AvlStep.holds step holds

/-- After every sequence of operations the memory holds a balanced search tree of the entries inserted and not
    removed; `avl_find`, `avl_nearest`, `avl_walk`, `avl_first` and `avl_last` give what the keys of the entries
    say; and every insertion and removal that may be called ends. -/
theorem avl_runs_correct [DecidableEq ι] {s : Entries ι α} (reachable : (avlRuns ι α).Reachable s) {rounds : ℕ}
    (enough : s.members.card < rounds) :
    (∃ t, s.Holds t) ∧
    (∀ k, (∃ x ∈ s.members, s.key x = k ∧ s.tree.avlFind s.key rounds k = some (.found x)) ∨
      (∀ x ∈ s.members, s.key x ≠ k) ∧ ∃ place, s.tree.avlFind s.key rounds k = some (.missing place) ∧
        ∀ d, ∃ r, s.tree.avlNearest rounds place d = some r ∧ s.Closest d k r) ∧
    (∀ n ∈ s.members, ∀ d, ∃ r, s.tree.avlWalk rounds (some n) d = some r ∧ s.Closest d (s.key n) r) ∧
    (∃ r, s.tree.avlFirst rounds = some r ∧ s.Outermost false r) ∧
    (∃ r, s.tree.avlLast rounds = some r ∧ s.Outermost true r) ∧
    (∀ n ∉ s.members, (∀ x ∈ s.members, s.key x ≠ s.key n) → ∃ tree, s.tree.avlAdd s.key rounds n = some tree) ∧
    (∀ n ∉ s.members, ∀ here ∈ s.members, ∀ d, onSide d (s.key n) (s.key here) →
      (∀ x ∈ s.members, onSide d (s.key x) (s.key here) → onSide d (s.key x) (s.key n)) →
      ∃ tree, s.tree.avlInsertHere rounds n here d = some tree) ∧
    ∀ n ∈ s.members, ∀ tmp ∉ s.members, ∃ tree, s.tree.avlRemove rounds tmp n = some tree := by
  obtain ⟨t, holds⟩ := reachable_holds reachable
  refine ⟨⟨t, holds⟩, ?_, fun n member d => holds.walk member d enough, holds.outermost false enough,
    holds.outermost true enough, fun n absent other => holds.add_ends absent other enough, ?_, ?_⟩
  · intro k
    rcases holds.find k enough with found | ⟨q, shape, before, after, missing⟩
    · exact .inl found
    · refine .inr ⟨?_, _, missing, fun d => holds.nearest shape before after d enough⟩
      rintro x member rfl
      rw [← holds.entries, shape, mem_nodes_plug] at member
      rcases mem_append.mp (member.resolve_left not_mem_nil) with member | member
      · exact lt_irrefl _ (before x member)
      · exact lt_irrefl _ (after x member)
  · intro n absent here member d side next
    obtain ⟨q, shape, same, before, after⟩ := holds.between member d side next enough
    obtain ⟨tree, _, ends, _⟩ := holds.insert shape absent d before after enough
    exact ⟨tree, (same n).trans ends⟩
  · intro n member tmp stack
    obtain ⟨tree, _, ends, _⟩ := holds.remove member stack enough
    exact ⟨tree, ends⟩

/-- Three entries added in ascending order, so that the second one ends up at the root, and that one removed. -/
theorem avl_runs_correct_removed : ∃ s : Entries ℕ ℕ, (avlRuns ℕ ℕ).Reachable s ∧ s.members = {1, 3} ∧
    s.tree.avlRoot = some 1 ∧ s.tree.avlFirst 5 = some (some 1) ∧ ∃ t, s.Holds t := by
  let blank : AvlNode ℕ := ⟨fun _ => none, none, false, 0⟩
  let empty : Entries ℕ ℕ := ⟨avlCreate fun _ => blank, id, ∅⟩
  have start : (avlRuns ℕ ℕ).Reachable empty := .first ⟨_, _, rfl⟩
  have one := start.next (.add (n := 1) (show _ < 5 by decide) (by decide) rfl)
  have two := one.next (.add (n := 2) (show _ < 5 by decide) (by decide) rfl)
  have three := two.next (.add (n := 3) (show _ < 5 by decide) (by decide) rfl)
  have removed := three.next (.remove (n := 2) (show _ < 5 by decide) (by decide) (show 0 ∉ _ by decide) rfl)
  exact ⟨_, removed, by decide, rfl, rfl, (avl_runs_correct removed (show _ < 5 by decide)).1⟩

/-- The numbers below `n` can be added one by one. -/
theorem reachable_range (n : ℕ) : ∃ s : Entries ℕ ℕ, (avlRuns ℕ ℕ).Reachable s ∧ s.members = Finset.range n ∧ s.key = id := by
  induction n with
  | zero => exact ⟨⟨avlCreate fun _ => ⟨fun _ => none, none, false, 0⟩, id, ∅⟩, .first ⟨_, _, rfl⟩, rfl, rfl⟩
  | succ n ih =>
    obtain ⟨s, reachable, members, key⟩ := ih
    obtain ⟨t, holds⟩ := reachable_holds reachable
    have absent : n ∉ s.members := by simp [members]
    have other : ∀ x ∈ s.members, s.key x ≠ s.key n := by
      rintro x member same
      rw [key, id, id] at same
      exact absent (same ▸ member)
    obtain ⟨tree, ends⟩ := holds.add_ends absent other (Nat.lt_succ_self _)
    exact ⟨_, reachable.next (.add (Nat.lt_succ_self _) absent ends), by rw [Finset.range_add_one, members], key⟩

/-- After every sequence of operations, a search ends with the right answer in as many rounds as the Fibonacci
    numbers take to pass the number of entries. -/
theorem avl_find_fast [DecidableEq ι] {s : Entries ι α} (reachable : (avlRuns ι α).Reachable s) {rounds : ℕ}
    (enough : s.members.card + 1 < Nat.fib (rounds + 2)) (k : α) :
    (∃ x ∈ s.members, s.key x = k ∧ s.tree.avlFind s.key rounds k = some (.found x)) ∨
      (∀ x ∈ s.members, s.key x ≠ k) ∧ ∃ place, s.tree.avlFind s.key rounds k = some (.missing place) := by
  obtain ⟨t, holds⟩ := reachable_holds reachable
  have root : s.tree.avlRoot = ptr t := holds.placed.around
  have low : t.height < rounds := by
    have size := holds.balanced.fib_le.trans_eq (congrArg (· + 1) holds.length)
    by_contra high
    have := Nat.fib_mono (show rounds + 2 ≤ t.height + 2 by omega)
    omega
  rw [avlFind, root, ← findFrom_add holds.placed.stands low (s.members.card + 1), ← root]
  rcases holds.find k (show _ < rounds + (s.members.card + 1) by omega) with found | ⟨q, rfl, before, after, missing⟩
  · exact .inl found
  · refine .inr ⟨fun x member => ?_, _, missing⟩
    rw [← holds.entries, nodes, Route.inorder_plug, inorder, append_nil, mem_append] at member
    rcases member with member | member
    · exact (before x member).ne
    · exact (after x member).ne'

/-- A hundred entries, and ten rounds for every search. -/
theorem avl_find_fast_hundred : ∃ s : Entries ℕ ℕ, s.members = Finset.range 100 ∧
    s.tree.avlFind s.key 10 70 = some (.found 70) ∧ ∃ place, s.tree.avlFind s.key 10 100 = some (.missing place) := by
  obtain ⟨s, reachable, members, key⟩ := reachable_range 100
  have enough : s.members.card + 1 < Nat.fib (10 + 2) := by
    rw [members, Finset.card_range]
    decide
  have fast := avl_find_fast reachable enough
  rw [members, key] at fast
  refine ⟨s, members, ?_, ?_⟩
  · rcases fast 70 with ⟨x, _, rfl, found⟩ | ⟨absent, _⟩
    · rwa [key]
    · exact absurd rfl (absent 70 (by decide))
  · rcases fast 100 with ⟨x, member, rfl, _⟩ | ⟨_, missing⟩
    · exact absurd (Finset.mem_range.mp member) (lt_irrefl _)
    · rwa [key]

end MacZfs.Avl
