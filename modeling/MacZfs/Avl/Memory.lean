import MacZfs.Lib.BalancedTree
import Mathlib.Data.Int.Bitwise

/-! # AVL trees in memory

The trees of `common/avl/avl.c`. A node is part of the data it stands for, so that a node and its data are one
address; the comparison is by a key of the data. The functions follow the pointers of the nodes as they are: none
of them sees the tree as a whole. A function gives `none` where the source follows a null pointer, panics, or
does not leave a loop within the given number of rounds.
-/

namespace MacZfs.Avl

variable {ι α : Type*}

/-- `avl_node_t` of `avl_impl.h`. A child index or side is `false` for 0, the left one. -/
structure AvlNode (ι : Type*) where
  avlChild : Bool → Option ι
  avlParent : Option ι
  avlChildIndex : Bool
  avlBalance : ℤ

/-- `avl_tree_t` and the nodes in memory, those of the tree and all others. -/
structure AvlTree (ι : Type*) where
  node : ι → AvlNode ι
  avlRoot : Option ι
  avlNumnodes : ℕ

/-- `avl_index_t`: where an entry would have to be added. -/
structure AvlIndex (ι : Type*) where
  node : Option ι
  child : Bool
  deriving DecidableEq

/-- What `avl_find` gives: the node, or the place for it. -/
inductive Found (ι : Type*) where
  | found (node : ι)
  | missing (place : AvlIndex ι)
  deriving DecidableEq

def avlChild2balance (child : Bool) : ℤ := if child then 1 else -1

def avlBalance2child (balance : ℤ) : Bool := decide (0 < balance)

namespace AvlTree

section Writes

variable [DecidableEq ι]

def modify (t : AvlTree ι) (n : ι) (change : AvlNode ι → AvlNode ι) : AvlTree ι :=
  { t with node := Function.update t.node n (change (t.node n)) }

def setChild (t : AvlTree ι) (n : ι) (child : Bool) (c : Option ι) : AvlTree ι :=
  t.modify n fun node => { node with avlChild := Function.update node.avlChild child c }

/-- `AVL_SETPARENT` -/
def setParent (t : AvlTree ι) (n : ι) (parent : Option ι) : AvlTree ι :=
  t.modify n fun node => { node with avlParent := parent }

/-- `AVL_SETCHILD` -/
def setIndex (t : AvlTree ι) (n : ι) (child : Bool) : AvlTree ι :=
  t.modify n fun node => { node with avlChildIndex := child }

/-- `AVL_SETBALANCE` -/
def setBalance (t : AvlTree ι) (n : ι) (balance : ℤ) : AvlTree ι :=
  t.modify n fun node => { node with avlBalance := balance }

def adopt (t : AvlTree ι) (child parent : Option ι) (whichChild : Bool) : AvlTree ι :=
  match child with
  | some c => (t.setParent c parent).setIndex c whichChild
  | none => t

def reparent (t : AvlTree ι) (child parent : Option ι) : AvlTree ι :=
  match child with
  | some c => t.setParent c parent
  | none => t

def hang (t : AvlTree ι) (parent : Option ι) (whichChild : Bool) (c : Option ι) : AvlTree ι :=
  match parent with
  | some p => t.setChild p whichChild c
  | none => { t with avlRoot := c }

end Writes

def descend (t : AvlTree ι) (child : Bool) : ℕ → ι → Option ι
  | 0, _ => none
  | rounds + 1, node =>
    match (t.node node).avlChild child with
    | none => some node
    | some c => t.descend child rounds c

def ascend (t : AvlTree ι) (child : Bool) : ℕ → ι → Option (Option ι)
  | 0, _ => none
  | rounds + 1, node =>
    match (t.node node).avlParent with
    | none => some none
    | some parent =>
      if (t.node node).avlChildIndex = child then some (some parent) else t.ascend child rounds parent

def avlWalk (t : AvlTree ι) (rounds : ℕ) (oldnode : Option ι) (left : Bool) : Option (Option ι) :=
  match oldnode with
  | none => some none
  | some node =>
    match (t.node node).avlChild left with
    | some child => (t.descend (!left) rounds child).map some
    | none => t.ascend (!left) rounds node

def edge (t : AvlTree ι) (child : Bool) : ℕ → Option ι → Option ι → Option (Option ι)
  | 0, _, _ => none
  | _ + 1, none, prev => some prev
  | rounds + 1, some node, _ => t.edge child rounds ((t.node node).avlChild child) (some node)

def avlFirst (t : AvlTree ι) (rounds : ℕ) : Option (Option ι) := t.edge false rounds t.avlRoot none

def avlLast (t : AvlTree ι) (rounds : ℕ) : Option (Option ι) := t.edge true rounds t.avlRoot none

def avlNearest (t : AvlTree ι) (rounds : ℕ) (place : AvlIndex ι) (direction : Bool) : Option (Option ι) :=
  match place.node with
  | none => some none
  | some node => if place.child ≠ direction then some (some node) else t.avlWalk rounds (some node) direction

section Find

variable [LinearOrder α] (key : ι → α)

def findFrom (t : AvlTree ι) (value : α) : ℕ → Option ι → AvlIndex ι → Option (Found ι)
  | 0, _, _ => none
  | _ + 1, none, place => some (.missing place)
  | rounds + 1, some node, _ =>
    match compare value (key node) with
    | .eq => some (.found node)
    | .lt => t.findFrom value rounds ((t.node node).avlChild false) ⟨some node, false⟩
    | .gt => t.findFrom value rounds ((t.node node).avlChild true) ⟨some node, true⟩

def avlFind (t : AvlTree ι) (rounds : ℕ) (value : α) : Option (Found ι) :=
  t.findFrom key value rounds t.avlRoot ⟨none, false⟩

end Find

variable [DecidableEq ι]

/-- Case 1 of the rotation: `child` takes the place of `node`. -/
def rotateChild (t : AvlTree ι) (node child : ι) (left : Bool) (childBal : ℤ) : AvlTree ι :=
  let right := !left
  let parent := (t.node node).avlParent
  let whichChild := (t.node node).avlChildIndex
  let cright := (t.node child).avlChild right
  -- move "cright" to be node's left child
  let t := (t.setChild node left cright).adopt cright (some node) left
  -- move node to be child's right child
  let t := (((t.setChild child right (some node)).setBalance node (-childBal)).setIndex node right).setParent
    node (some child)
  -- update the pointer into this subtree
  let t := ((t.setBalance child childBal).setIndex child whichChild).setParent child parent
  t.hang parent whichChild (some child)

/-- Case 2: `gchild` takes the place of `node`, between it and `child`. -/
def rotateGchild (t : AvlTree ι) (node child gchild : ι) (left : Bool) (leftHeavy : ℤ) : AvlTree ι :=
  let right := !left
  let rightHeavy := -leftHeavy
  let parent := (t.node node).avlParent
  let whichChild := (t.node node).avlChildIndex
  let gleft := (t.node gchild).avlChild left
  let gright := (t.node gchild).avlChild right
  let balance := (t.node gchild).avlBalance
  let t := (t.setChild node left gright).adopt gright (some node) left
  let t := (t.setChild child right gleft).adopt gleft (some child) right
  let t := (((t.setChild gchild left (some child)).setBalance child
    (if balance = rightHeavy then leftHeavy else 0)).setParent child (some gchild)).setIndex child left
  let t := (((t.setChild gchild right (some node)).setBalance node
    (if balance = leftHeavy then rightHeavy else 0)).setParent node (some gchild)).setIndex node right
  let t := ((t.setBalance gchild 0).setParent gchild parent).setIndex gchild whichChild
  t.hang parent whichChild (some gchild)

def avlRotation (t : AvlTree ι) (node : ι) (balance : ℤ) : Option (AvlTree ι × Bool) :=
  let left := !decide (balance < 0)
  let leftHeavy := balance >>> 1
  match (t.node node).avlChild left with
  | none => none
  | some child =>
    if (t.node child).avlBalance ≠ -leftHeavy then
      let childBal := (t.node child).avlBalance + -leftHeavy
      some (t.rotateChild node child left childBal, decide (childBal = 0))
    else
      match (t.node child).avlChild (!left) with
      | none => none
      | some gchild => some (t.rotateGchild node child gchild left leftHeavy, true)

/-- Back up the tree after an insertion below `parent`. -/
def insertLoop (t : AvlTree ι) : ℕ → Option ι → Bool → Option (AvlTree ι)
  | 0, _, _ => none
  | _ + 1, none, _ => some t
  | rounds + 1, some node, whichChild =>
    let oldBalance := (t.node node).avlBalance
    let newBalance := oldBalance + avlChild2balance whichChild
    if newBalance = 0 then some (t.setBalance node 0)
    else if oldBalance ≠ 0 then (t.avlRotation node newBalance).map Prod.fst
    else insertLoop (t.setBalance node newBalance) rounds (t.node node).avlParent (t.node node).avlChildIndex

/-- The first half of `avl_insert`: add the node at the indicated position. -/
def addLeaf (t : AvlTree ι) (node : ι) (place : AvlIndex ι) : AvlTree ι :=
  let t := { t with avlNumnodes := t.avlNumnodes + 1 }
  let t := (t.setChild node false none).setChild node true none
  let t := ((t.setIndex node place.child).setBalance node 0).setParent node place.node
  t.hang place.node place.child (some node)

def avlInsert (t : AvlTree ι) (rounds : ℕ) (node : ι) (place : AvlIndex ι) : Option (AvlTree ι) :=
  (t.addLeaf node place).insertLoop rounds place.node place.child

/-- `direction` is `AVL_BEFORE`, 0, or `AVL_AFTER`, 1. -/
def avlInsertHere (t : AvlTree ι) (rounds : ℕ) (node here : ι) (direction : Bool) : Option (AvlTree ι) :=
  match (t.node here).avlChild direction with
  | none => t.avlInsert rounds node ⟨some here, direction⟩
  | some next =>
    match t.descend (!direction) rounds next with
    | none => none
    | some next => t.avlInsert rounds node ⟨some next, !direction⟩

def avlAdd [LinearOrder α] (key : ι → α) (t : AvlTree ι) (rounds : ℕ) (node : ι) : Option (AvlTree ι) :=
  match t.avlFind key rounds (key node) with
  | some (.missing place) => t.avlInsert rounds node place
  | _ => none

/-- Back up the tree after a removal below `parent`. The parent and its side are read before any rotation. -/
def removeLoop (t : AvlTree ι) : ℕ → Option ι → Bool → Option (AvlTree ι)
  | 0, _, _ => none
  | _ + 1, none, _ => some t
  | rounds + 1, some node, whichChild =>
    let oldBalance := (t.node node).avlBalance
    let newBalance := oldBalance - avlChild2balance whichChild
    let parent := (t.node node).avlParent
    let which := (t.node node).avlChildIndex
    if oldBalance = 0 then some (t.setBalance node newBalance)
    else if newBalance = 0 then removeLoop (t.setBalance node newBalance) rounds parent which
    else
      match t.avlRotation node newBalance with
      | none => none
      | some (t, shorter) => if shorter then removeLoop t rounds parent which else some t

/-- Connect the parent of `delete`, which has at most one child, directly to that child. -/
def cutOut (t : AvlTree ι) (delete : ι) : AvlTree ι :=
  let parent := (t.node delete).avlParent
  let whichChild := (t.node delete).avlChildIndex
  let node := ((t.node delete).avlChild false).or ((t.node delete).avlChild true)
  let t := { t with avlNumnodes := t.avlNumnodes - 1 }
  (t.adopt node parent whichChild).hang parent whichChild node

/-- The second half of `avl_remove`. -/
def removeLeaf (t : AvlTree ι) (rounds : ℕ) (delete : ι) : Option (AvlTree ι) :=
  (t.cutOut delete).removeLoop rounds (t.node delete).avlParent (t.node delete).avlChildIndex

/-- Create the placeholder `tmp` for `node` and move `node` to delete's spot in the tree. -/
def moveUp (t : AvlTree ι) (tmp delete node : ι) (left : Bool) : AvlTree ι :=
  let t := t.modify tmp fun _ => t.node node
  let t := t.modify node fun _ => t.node delete
  let t := if (t.node node).avlChild left = some node then t.setChild node left (some tmp) else t
  t.hang (t.node node).avlParent (t.node node).avlChildIndex (some node)

/-- Put `tmp` where `node` used to be. It always has a parent and at most one child. -/
def putTmp (t : AvlTree ι) (tmp : ι) : Option (AvlTree ι) :=
  match (t.node tmp).avlParent with
  | none => none
  | some parent =>
    let t := t.setChild parent (t.node tmp).avlChildIndex (some tmp)
    let whichChild := ((t.node tmp).avlChild true).isSome
    some (t.reparent ((t.node tmp).avlChild whichChild) (some tmp))

/-- The first half of `avl_remove`: `node` takes the place of `delete`, and the copy `tmp` that of `node`. -/
def swapOut (t : AvlTree ι) (tmp delete node : ι) (left : Bool) : Option (AvlTree ι) :=
  let t := t.moveUp tmp delete node left
  match (t.node node).avlChild left, (t.node node).avlChild (!left) with
  | some below, some other => ((t.setParent below (some node)).setParent other (some node)).putTmp tmp
  | _, _ => none

/-- `tmp` is the place of the local variable. -/
def avlRemove (t : AvlTree ι) (rounds : ℕ) (tmp delete : ι) : Option (AvlTree ι) :=
  match (t.node delete).avlChild false, (t.node delete).avlChild true with
  | some _, some _ =>
    let left := avlBalance2child (t.node delete).avlBalance
    let right := !left
    match (t.node delete).avlChild left with
    | none => none
    | some below =>
      match t.descend right rounds below with
      | none => none
      | some node =>
        match t.swapOut tmp delete node left with
        | none => none
        | some t => t.removeLeaf rounds tmp
  | _, _ => t.removeLeaf rounds delete

end AvlTree

/-- `avl_create`: an empty tree. -/
def avlCreate (node : ι → AvlNode ι) : AvlTree ι := ⟨node, none, 0⟩

end MacZfs.Avl
