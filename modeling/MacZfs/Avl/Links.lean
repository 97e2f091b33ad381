import MacZfs.Avl.Memory

/-! # Trees as they stand in memory

A subtree stands below a parent if the records of its nodes hold its shape: children, parent, side and balance. A
path stands around a subtree if its nodes do and the lowest points to the subtree. Each write of the source touches
one node, so that it changes one of these pieces and leaves those without the node alone.
-/

namespace MacZfs.Avl

open List BalancedTree Route Function

variable {ι : Type*}

def ptr : BinTree ι → Option ι
  | .nil => none
  | .node a _ _ => some a

namespace AvlTree

def Stands (m : AvlTree ι) : BinTree ι → Option ι → Bool → Prop
  | .nil, _, _ => True
  | .node a balance kids, parent, side =>
    m.node a = ⟨fun d => ptr (kids d), parent, side, balance⟩ ∧ ∀ d, m.Stands (kids d) (some a) d

end AvlTree

def up (parent : Option ι) : Route ι → Option ι
  | [] => parent
  | f :: _ => some f.at_

def upSide (side : Bool) : Route ι → Bool
  | [] => side
  | f :: _ => f.side

@[simp] theorem ptr_nil : ptr (.nil : BinTree ι) = none := rfl

@[simp] theorem ptr_node (a : ι) (balance) (kids) : ptr (.node a balance kids) = some a := rfl

@[simp] theorem up_nil (parent : Option ι) : up parent [] = parent := rfl

@[simp] theorem up_cons (parent : Option ι) (f : Frame ι) (p : Route ι) : up parent (f :: p) = some f.at_ := rfl

@[simp] theorem upSide_cons (side : Bool) (f : Frame ι) (p : Route ι) : upSide side (f :: p) = f.side := rfl

namespace AvlTree

/-- The path stands in memory around a subtree at `hole`; its upper end is at `top`. -/
def Around (m : AvlTree ι) (parent : Option ι) (side : Bool) : Route ι → Option ι → Option ι → Prop
  | [], hole, top => top = hole
  | f :: p, hole, top =>
    m.node f.at_ = ⟨fun d => if d = f.side then hole else ptr f.sibling, up parent p, upSide side p, f.balance⟩ ∧
      m.Stands f.sibling (some f.at_) (!f.side) ∧ m.Around parent side p (some f.at_) top

end AvlTree

def nodes (t : BinTree ι) : List ι := t.inorder false

def pathNodes (p : Route ι) : List ι := Route.before false p ++ Route.after false p

variable {x : ι}

@[simp] theorem nodes_nil : nodes (.nil : BinTree ι) = [] := rfl

theorem mem_nodes_node {a balance kids} : x ∈ nodes (.node a balance kids) ↔ x = a ∨ ∃ d, x ∈ nodes (kids d) := by
  simp only [nodes, BinTree.inorder, mem_append, mem_cons, Bool.exists_bool, Bool.not_false]
  tauto

variable {p : Route ι}

theorem mem_pathNodes_cons : x ∈ pathNodes (f :: p) ↔ x = f.at_ ∨ x ∈ nodes f.sibling ∨ x ∈ pathNodes p := by
  simp only [pathNodes, nodes, Route.before, Route.after, mem_append]
  split_ifs <;> simp only [mem_append, mem_cons, not_mem_nil] <;> tauto

theorem mem_ptr {t} (here : ptr t = some x) : x ∈ nodes t := by
  cases t with
  | nil => cases here
  | node a balance kids =>
    cases here
    exact mem_nodes_node.mpr (.inl rfl)

theorem mem_up (here : up none p = some x) : x ∈ pathNodes p := by
  cases p with
  | nil => cases here
  | cons f p =>
    cases here
    exact mem_pathNodes_cons.mpr (.inl rfl)

theorem ptr_ne {t} (outside : x ∉ nodes t) : ptr t ≠ some x := fun here => outside (mem_ptr here)

theorem up_ne (outside : x ∉ pathNodes p) : up none p ≠ some x :=
  fun here => outside (mem_up here)

theorem ptr_update (kids : Bool → BinTree ι) (d : Bool) (t : BinTree ι) :
    (fun e => ptr (update kids d t e)) = update (fun e => ptr (kids e)) d (ptr t) := by
  funext e
  simp only [update_apply]
  split_ifs <;> rfl

namespace AvlTree

variable {m m' : AvlTree ι} {t : BinTree ι} {p q : Route ι} {parent hole top : Option ι} {side : Bool}

theorem stands_node (left) {a balance kids} :
    m.Stands (.node a balance kids) parent side ↔ m.node a = ⟨fun d => ptr (kids d), parent, side, balance⟩ ∧
      m.Stands (kids left) (some a) left ∧ m.Stands (kids (!left)) (some a) (!left) := by
  rw [Stands]
  cases left <;> simp [and_comm]

theorem Stands.index (stands : m.Stands t parent side) {x} (root : ptr t = some x) :
    (m.node x).avlChildIndex = side := by
  cases t with
  | nil => cases root
  | node a balance kids =>
    cases root
    rw [stands.1]

theorem Stands.congr (stands : m.Stands t parent side) (same : ∀ x ∈ nodes t, m'.node x = m.node x) :
    m'.Stands t parent side := by
  induction t generalizing parent side with
  | nil => trivial
  | node a balance kids ih =>
    obtain ⟨record, below⟩ := stands
    refine ⟨(same a (mem_nodes_node.mpr (.inl rfl))).trans record, fun d => ih d (below d) fun x member => ?_⟩
    exact same x (mem_nodes_node.mpr (.inr ⟨d, member⟩))

theorem Around.congr (around : m.Around parent side p hole top) (same : ∀ x ∈ pathNodes p, m'.node x = m.node x) :
    m'.Around parent side p hole top := by
  induction p generalizing hole with
  | nil => exact around
  | cons f p ih =>
    obtain ⟨record, beside, above⟩ := around
    refine ⟨(same _ (mem_pathNodes_cons.mpr (.inl rfl))).trans record, beside.congr fun x member => ?_,
      ih above fun x member => ?_⟩
    · exact same x (mem_pathNodes_cons.mpr (.inr (.inl member)))
    · exact same x (mem_pathNodes_cons.mpr (.inr (.inr member)))

theorem stands_plug : (m.Stands (p.plug t) parent side ∧ root = ptr (p.plug t)) ↔
    m.Stands t (up parent p) (upSide side p) ∧ m.Around parent side p (ptr t) root := by
  induction p generalizing t with
  | nil => exact Iff.rfl
  | cons f p ih =>
    rw [plug, ih]
    have kids : (fun d => ptr (if d = f.side then t else f.sibling)) =
        fun d => if d = f.side then ptr t else ptr f.sibling := by
      funext d
      split_ifs <;> rfl
    simp only [Frame.fill, Stands, Around, ptr_node, up_cons, upSide_cons, kids]
    constructor
    · rintro ⟨⟨record, below⟩, above⟩
      have first := below f.side
      have second := below (!f.side)
      simp only [if_true, Bool.not_eq_self, if_false] at first second
      exact ⟨first, record, second, above⟩
    · rintro ⟨below, record, beside, above⟩
      refine ⟨⟨record, fun d => ?_⟩, above⟩
      cases Bool.eq_or_eq_not d f.side with
      | inl same => simpa [same] using below
      | inr other => simpa [other] using beside

end AvlTree

section Apart

variable {t : BinTree ι} {p : Route ι} {a : ι} {balance : ℤ} {kids : Bool → BinTree ι}

theorem nodup_node (left) : (nodes (.node a balance kids)).Nodup ↔
    ((nodes (kids left)).Nodup ∧ (nodes (kids (!left))).Nodup) ∧
      (a ∉ nodes (kids left) ∧ a ∉ nodes (kids (!left))) ∧ List.Disjoint (nodes (kids left)) (nodes (kids (!left))) := by
  unfold nodes
  simp only [BinTree.inorder, nodup_append', nodup_cons, disjoint_cons_right, Bool.not_false]
  cases left with
  | false => tauto
  | true =>
    tauto

theorem disjoint_node : List.Disjoint (nodes (.node a balance kids)) l ↔
    a ∉ l ∧ ∀ d, List.Disjoint (nodes (kids d)) l := by
  simp only [List.Disjoint, mem_nodes_node]
  grind

theorem notMem_node {x} : x ∉ nodes (.node a balance kids) ↔ x ≠ a ∧ ∀ d, x ∉ nodes (kids d) := by
  simp [mem_nodes_node]

theorem nodup_plug : (nodes (p.plug t)).Nodup ↔
    (nodes t).Nodup ∧ (pathNodes p).Nodup ∧ List.Disjoint (nodes t) (pathNodes p) := by
  unfold nodes pathNodes
  simp only [inorder_plug, nodup_append', disjoint_append_left, disjoint_append_right]
  tauto

theorem mem_nodes_plug {x} : x ∈ nodes (p.plug t) ↔ x ∈ nodes t ∨ x ∈ pathNodes p := by
  simp only [nodes, pathNodes, inorder_plug, mem_append]
  tauto

theorem nodup_path : (pathNodes (f :: p)).Nodup ↔
    (nodes f.sibling).Nodup ∧ (pathNodes p).Nodup ∧ f.at_ ∉ nodes f.sibling ∧ f.at_ ∉ pathNodes p ∧
      List.Disjoint (nodes f.sibling) (pathNodes p) := by
  simp only [pathNodes, nodes, Route.before, Route.after, disjoint_iff_ne]
  split_ifs <;> grind

theorem exists_ptr {t : BinTree ι} (some_ : t ≠ .nil) : ∃ z, ptr t = some z := by
  cases t with
  | nil => exact absurd rfl some_
  | node a balance kids => exact ⟨a, rfl⟩

theorem ptr_plug_cons (f) (q) (t : BinTree ι) :
    ∃ z ∈ pathNodes (f :: q), ptr (plug (f :: q) t) = some z := by
  induction q generalizing f t with
  | nil => exact ⟨f.at_, mem_pathNodes_cons.mpr (.inl rfl), rfl⟩
  | cons g q ih =>
    obtain ⟨z, member, root⟩ := ih g (f.fill t)
    exact ⟨z, mem_pathNodes_cons.mpr (.inr (.inr member)), root⟩

theorem pathNodes_append {q z} : z ∈ pathNodes (q ++ p) ↔ z ∈ pathNodes q ∨ z ∈ pathNodes p := by
  simp only [pathNodes, before_append, after_append, mem_append]
  tauto

theorem length_kid (d) : (nodes (kids d)).length + 1 ≤ (nodes (.node a balance kids)).length := by
  cases d <;> simp [nodes, BinTree.inorder]

theorem length_plug : (nodes (p.plug t)).length = (nodes t).length + (pathNodes p).length := by
  simp only [nodes, pathNodes, inorder_plug, length_append]
  omega

theorem length_pathNodes_append {q} : (pathNodes (q ++ p)).length = (pathNodes q).length + (pathNodes p).length := by
  simp only [pathNodes, before_append, after_append, length_append]
  omega

theorem length_pathNodes_cons :
    (pathNodes (f :: p)).length = (nodes f.sibling).length + (pathNodes p).length + 1 := by
  simp only [pathNodes, nodes, Route.before, Route.after, length_append]
  split_ifs <;> simp only [length_append, length_cons, length_nil] <;> omega

theorem length_le_pathNodes (p : Route ι) : p.length ≤ (pathNodes p).length := by
  induction p with
  | nil => exact Nat.zero_le _
  | cons f p ih =>
    rw [length_pathNodes_cons, length_cons]
    omega

end Apart

namespace AvlTree

structure Placed (m : AvlTree ι) (side : Bool) (p : Route ι) (t : BinTree ι) : Prop where
  stands : m.Stands t (up none p) (upSide side p)
  around : m.Around none side p (ptr t) m.avlRoot
  apart : (nodes (p.plug t)).Nodup

variable {m m' : AvlTree ι} {t : BinTree ι} {p q : Route ι} {parent parent' hole hole' top : Option ι} {side side' : Bool}

theorem placed_plug : m.Placed side p t ↔ m.Placed side [] (p.plug t) := by
  constructor
  · rintro ⟨stands, around, apart⟩
    obtain ⟨stands, root⟩ := stands_plug.mpr ⟨stands, around⟩
    exact ⟨stands, root, apart⟩
  · rintro ⟨stands, root, apart⟩
    obtain ⟨stands, around⟩ := stands_plug.mp ⟨stands, root⟩
    exact ⟨stands, around, apart⟩

theorem placed_append : m.Placed side (q ++ p) t ↔ m.Placed side p (q.plug t) := by
  rw [placed_plug, plug_append, ← placed_plug]

theorem placed_cons : m.Placed side (f :: p) t ↔ m.Placed side p (f.fill t) :=
  @placed_append _ m t p [f] side

theorem Placed.congr (placed : m.Placed side p t) (same : ∀ x ∈ nodes (p.plug t), m'.node x = m.node x)
    (root : m'.avlRoot = m.avlRoot) : m'.Placed side p t := by
  obtain ⟨stands, around, apart⟩ := placed
  refine ⟨stands.congr fun x member => same x (mem_nodes_plug.mpr (.inl member)), ?_, apart⟩
  rw [root]
  exact around.congr fun x member => same x (mem_nodes_plug.mpr (.inr member))

theorem Stands.moved (stands : m.Stands t parent side) (apart : (nodes t).Nodup)
    (rest : ∀ x ∈ nodes t, ptr t ≠ some x → m'.node x = m.node x)
    (root : ∀ x, ptr t = some x →
      m'.node x = { m.node x with avlParent := parent', avlChildIndex := side' }) : m'.Stands t parent' side' := by
  cases t with
  | nil => trivial
  | node a balance kids =>
    obtain ⟨record, below⟩ := stands
    refine ⟨?_, fun d => (below d).congr fun x member => rest x (mem_nodes_node.mpr (.inr ⟨d, member⟩)) ?_⟩
    · rw [root a rfl, record]
    · rw [ptr_node, ne_eq, Option.some.injEq]
      rintro rfl
      cases Bool.eq_or_eq_not d false with
      | inl same => exact ((nodup_node false).mp apart).2.1.1 (same ▸ member)
      | inr other => exact ((nodup_node false).mp apart).2.1.2 (other ▸ member)

section Hung

variable (apart : (pathNodes p).Nodup) (rest : ∀ x ∈ pathNodes p, up none p ≠ some x → m'.node x = m.node x)
  (low : ∀ x, up none p = some x → m'.node x =
    { m.node x with avlChild := update (m.node x).avlChild (upSide side p) hole' })

include apart rest low

/-- Another subtree hung below a path: the record of its lowest node is the only one to change. -/
theorem Around.rehung (around : m.Around parent side p hole top) (long : p ≠ []) :
    m'.Around parent side p hole' top := by
  cases p with
  | nil => exact absurd rfl long
  | cons f p =>
    obtain ⟨record, beside, above⟩ := around
    obtain ⟨_, _, outside, free, _⟩ := nodup_path.mp apart
    refine ⟨?_, beside.congr fun x member => rest x (mem_pathNodes_cons.mpr (.inr (.inl member))) ?_,
      above.congr fun x member => rest x (mem_pathNodes_cons.mpr (.inr (.inr member))) ?_⟩
    · rw [low _ rfl, record]
      simp only [AvlNode.mk.injEq, and_true]
      funext d
      simp only [update_apply, upSide_cons]
      split_ifs <;> rfl
    · rintro ⟨⟩
      exact outside member
    · rintro ⟨⟩
      exact free member

theorem Around.hung (around : m.Around none side p hole m.avlRoot)
    (root : m'.avlRoot = if up none p = none then hole' else m.avlRoot) :
    m'.Around none side p hole' m'.avlRoot := by
  cases p with
  | nil => simpa [Around] using root
  | cons f p =>
    rw [show m'.avlRoot = m.avlRoot by simpa using root]
    exact around.rehung apart rest low (by simp)

end Hung

end AvlTree

end MacZfs.Avl
