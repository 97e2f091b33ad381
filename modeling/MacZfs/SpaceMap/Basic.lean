import MacZfs.Base
import MacZfs.Lib.Extents
import MacZfs.Lib.Checked

/-!
# In-core space maps

The in-core half of `space_map.c`: a set of segments kept in an AVL tree, with the
running total `sm_space`. A tree is modelled by its nodes in order. Offsets and sizes are
`uint64_t`; every sum and difference the source forms is reduced modulo `2 ^ 64` here too.
A failed `VERIFY`, and `zfs_panic_recover` with `zfs_recover` unset, stop the machine:
such a call returns `none`.
-/

namespace MacZfs

open Extents

/-- `space_seg_t`: `start` is `ss_start`, `stop` is `ss_end`. -/
abbrev SpaceSeg := Extent

/-- Where `avl_find` ended: the nodes below the key, the node that compares equal, and the
    nodes above. -/
structure AvlPos (α : Type) where
  before : List α
  node : Option α
  after : List α

/-- `avl_find`. Where several nodes compare equal to the key, a descent meets one of them;
    the callers below stop the machine whichever it is. -/
def avlFind {α : Type} (cmp : α → α → Ordering) (key : α) : List α → AvlPos α
  | [] => ⟨[], none, []⟩
  | node :: nodes =>
    match cmp key node with
    | .lt => ⟨[], none, node :: nodes⟩
    | .eq => ⟨[], some node, nodes⟩
    | .gt =>
      let pos := avlFind cmp key nodes
      ⟨node :: pos.before, pos.node, pos.after⟩

/-- `space_map_seg_compare`: overlapping segments compare equal. -/
def spaceMapSegCompare (s1 s2 : SpaceSeg) : Ordering :=
  if s1.start < s2.start then
    if s1.stop > s2.start then .eq else .lt
  else if s1.start > s2.start then
    if s1.start < s2.stop then .eq else .gt
  else .eq

/-- `space_map_t`. `smOps` says whether an ops vector is attached; `smPpd` is the picker's
    private data, one cursor per power-of-two alignment. -/
structure SpaceMap where
  smRoot : List SpaceSeg
  smSpace : ℕ
  smStart : ℕ
  smSize : ℕ
  smShift : ℕ
  smLoaded : Bool
  smOps : Bool
  smPpd : List ℕ
  deriving Repr, DecidableEq

/-- `space_map_create`. -/
def spaceMapCreate (start size shift : ℕ) : SpaceMap where
  smRoot := []
  smSpace := 0
  smStart := start
  smSize := size
  smShift := shift
  smLoaded := false
  smOps := false
  smPpd := []

/-- The tree after `space_map_add` has put `[start, stop)` between `before` and `after`. -/
def insertMerged (before : List SpaceSeg) (start stop : ℕ) (after : List SpaceSeg) :
    List SpaceSeg :=
  let mergeBefore := before.getLast?.filter (·.stop = start)
  let mergeAfter := after.head?.filter (·.start = stop)
  match mergeBefore, mergeAfter with
  | some ssBefore, some ssAfter =>
    before.dropLast ++ { ssAfter with start := ssBefore.start } :: after.tail
  | some ssBefore, none => before.dropLast ++ { ssBefore with stop := stop } :: after
  | none, some ssAfter => before ++ { ssAfter with start := start } :: after.tail
  | none, none => before ++ ⟨start, stop⟩ :: after

/-- `space_map_add`. -/
def spaceMapAdd (sm : SpaceMap) (start size : ℕ) : Option SpaceMap := do
  let stop := u64 (start + size)
  guard (size ≠ 0)
  guard (start ≥ sm.smStart)
  guard (stop ≤ u64 (sm.smStart + sm.smSize))
  guard (u64 (sm.smSpace + size) ≤ sm.smSize)
  guard (p2phase start (1 <<< sm.smShift) = 0)
  guard (p2phase size (1 <<< sm.smShift) = 0)
  let pos := avlFind spaceMapSegCompare ⟨start, stop⟩ sm.smRoot
  -- An overlap stops the machine twice over: as an allocated segment when it is complete,
  -- as a clash with a neighbour when it is not.
  guard pos.node.isNone
  return { sm with
    smRoot := insertMerged pos.before start stop pos.after
    smSpace := u64 (sm.smSpace + size) }

/-- What `space_map_remove` leaves of the segment it cuts `[start, stop)` from. -/
def cutSeg (ss : SpaceSeg) (start stop : ℕ) : List SpaceSeg :=
  let leftOver := ss.start ≠ start
  let rightOver := ss.stop ≠ stop
  if leftOver ∧ rightOver then [⟨ss.start, start⟩, ⟨stop, ss.stop⟩]
  else if leftOver then [⟨ss.start, start⟩]
  else if rightOver then [⟨stop, ss.stop⟩]
  else []

/-- `space_map_remove`. -/
def spaceMapRemove (sm : SpaceMap) (start size : ℕ) : Option SpaceMap := do
  let stop := u64 (start + size)
  guard (size ≠ 0)
  guard (p2phase start (1 <<< sm.smShift) = 0)
  guard (p2phase size (1 <<< sm.smShift) = 0)
  let pos := avlFind spaceMapSegCompare ⟨start, stop⟩ sm.smRoot
  let ss ← pos.node
  guard (ss.start ≤ start)
  guard (ss.stop ≥ stop)
  guard (u64Sub sm.smSpace size ≤ sm.smSize)
  return { sm with
    smRoot := pos.before ++ cutSeg ss start stop ++ pos.after
    smSpace := u64Sub sm.smSpace size }

/-- `space_map_contains`. -/
def spaceMapContains (sm : SpaceMap) (start size : ℕ) : Option Bool := do
  let stop := u64 (start + size)
  guard (size ≠ 0)
  guard (p2phase start (1 <<< sm.smShift) = 0)
  guard (p2phase size (1 <<< sm.smShift) = 0)
  return match (avlFind spaceMapSegCompare ⟨start, stop⟩ sm.smRoot).node with
    | some ss => ss.start ≤ start ∧ ss.stop ≥ stop
    | none => false

/-- The order in which `avl_destroy_nodes` hands out the nodes of a tree: every node once,
    in an order that depends on the shape of the tree. -/
structure DestroyOrder where
  visit : List SpaceSeg → List SpaceSeg
  perm : ∀ nodes, (visit nodes).Perm nodes

/-- A `space_map_func_t` called on one segment. -/
def callOn (func : SpaceMap → ℕ → ℕ → Option SpaceMap) (mdest : SpaceMap) (ss : SpaceSeg) :
    Option SpaceMap :=
  func mdest ss.start (u64Sub ss.stop ss.start)

/-- `space_map_walk`: the destination after `func` has been called on every segment. -/
def spaceMapWalk (sm : SpaceMap) (func : SpaceMap → ℕ → ℕ → Option SpaceMap)
    (mdest : SpaceMap) : Option SpaceMap :=
  sm.smRoot.foldlM (callOn func) mdest

/-- The map that `space_map_vacate` leaves. -/
def SpaceMap.vacated (sm : SpaceMap) : SpaceMap := { sm with smRoot := [], smSpace := 0 }

/-- `space_map_vacate`: the emptied map and the destination. -/
def spaceMapVacate (order : DestroyOrder) (sm : SpaceMap)
    (func : SpaceMap → ℕ → ℕ → Option SpaceMap) (mdest : SpaceMap) :
    Option (SpaceMap × SpaceMap) := do
  let mdest ← (order.visit sm.smRoot).foldlM (callOn func) mdest
  return (sm.vacated, mdest)

/-- `space_map_unload`. The ops vector's unload drops the cursors. -/
def spaceMapUnload (sm : SpaceMap) : SpaceMap :=
  { sm.vacated with
    smLoaded := false
    smOps := false
    smPpd := if sm.smLoaded ∧ sm.smOps then [] else sm.smPpd }

end MacZfs
