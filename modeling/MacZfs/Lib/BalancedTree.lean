import Mathlib.Data.List.Sort
import Mathlib.Data.Int.Order.Basic
import Mathlib.Data.Nat.Fib.Basic
import Mathlib.Tactic.Ring

/-! # Height-balanced trees that store their balance

Each node stores the difference of the heights of its two subtrees. A change at the bottom of the tree is
repaired on the way up: the tree is a subtree and the path above it, and the two climbs below walk that path
after a subtree became taller, or shorter, by one.

The two sides are the values of `Bool`, `false` for the left one, so that each statement is made once for a side
and the one opposite.
-/

namespace BalancedTree

open Function

inductive BinTree (ι : Type*) where
  | nil
  | node (at_ : ι) (balance : ℤ) (kids : Bool → BinTree ι)

def weight (side : Bool) : ℤ := if side then 1 else -1

theorem weight_cases (side) : weight side = 1 ∨ weight side = -1 := by
  cases side <;> simp [weight]

def heavy (balance : ℤ) : Bool := !decide (balance < 0)

theorem weight_not (side) : weight (!side) = -weight side := by
  cases side <;> rfl

theorem heavy_twice (side) : heavy (2 * weight side) = side := by
  cases side <;> decide

variable {ι : Type*}

namespace BinTree

def height : BinTree ι → ℕ
  | nil => 0
  | node _ _ kids => max (kids false).height (kids true).height + 1

def rootBalance : BinTree ι → ℤ
  | nil => 0
  | node _ balance _ => balance

/-- The nodes as they are met on the way from side `d` to the other. -/
def inorder (d : Bool) : BinTree ι → List ι
  | nil => []
  | node a _ kids => (kids d).inorder d ++ a :: (kids (!d)).inorder d

def Balanced : BinTree ι → Prop
  | nil => True
  | node _ balance kids =>
    balance = ((kids true).height : ℤ) - (kids false).height ∧ -1 ≤ balance ∧ balance ≤ 1 ∧
      ∀ d, (kids d).Balanced

theorem height_node (left : Bool) (a : ι) (balance) (kids) :
    (node a balance kids).height = max (kids left).height (kids (!left)).height + 1 := by
  cases left with
  | false => rfl
  | true => exact congrArg (· + 1) (max_comm _ _)

theorem balanced_node (left : Bool) {a : ι} {balance} {kids} : (node a balance kids).Balanced ↔
      balance = weight left * (((kids left).height : ℤ) - (kids (!left)).height) ∧ -1 ≤ balance ∧ balance ≤ 1 ∧
        (kids left).Balanced ∧ (kids (!left)).Balanced := by
  cases left <;> simp [Balanced, weight, and_comm]

theorem inorder_not (t : BinTree ι) (d : Bool) : t.inorder (!d) = (t.inorder d).reverse := by
  induction t with
  | nil => rfl
  | node a balance kids ih => simp [inorder, ih]

theorem mem_inorder {t : BinTree ι} : x ∈ t.inorder d ↔ x ∈ t.inorder e := by
  cases Bool.eq_or_eq_not d e with
  | inl same => rw [same]
  | inr other => rw [other, inorder_not, List.mem_reverse]

theorem Balanced.fib_le {t : BinTree ι} (balanced : t.Balanced) :
    Nat.fib (t.height + 2) ≤ (t.inorder false).length + 1 := by
  induction t with
  | nil => rfl
  | node a balance kids ih =>
    obtain ⟨stored, low, high, both⟩ := balanced
    have left := ih false (both false)
    have right := ih true (both true)
    have grow (h : ℕ) : Nat.fib (h + 1 + 2) = Nat.fib (h + 1) + Nat.fib (h + 2) := Nat.fib_add_two
    rw [height, grow, inorder, List.length_append, List.length_cons, Bool.not_false]
    -- the other side is lower by one at most
    rcases le_total (kids false).height (kids true).height with le | le
    · have short := Nat.fib_mono (show (kids true).height + 1 ≤ (kids false).height + 2 by omega)
      rw [max_eq_right le]
      omega
    · have short := Nat.fib_mono (show (kids false).height + 1 ≤ (kids true).height + 2 by omega)
      rw [max_eq_left le]
      omega

/-- Lift the child on the side `left` above its parent. -/
def liftChild (left : Bool) (a : ι) (kids : Bool → BinTree ι) (c : ι) (balance : ℤ) (childKids : Bool → BinTree ι) :
    BinTree ι :=
  node c balance (Function.update childKids (!left)
    (node a (-balance) (Function.update kids left (childKids (!left)))))

def liftInner (left : Bool) (a : ι) (kids : Bool → BinTree ι) (c : ι) (childKids : Bool → BinTree ι) (g : ι)
    (balance : ℤ) (innerKids : Bool → BinTree ι) : BinTree ι :=
  node g 0 (Function.update (Function.update innerKids
    left (node c (if balance = -weight left then weight left else 0)
      (Function.update childKids (!left) (innerKids left))))
    (!left) (node a (if balance = weight left then -weight left else 0)
      (Function.update kids left (innerKids (!left)))))

/-- Rotate a node that leans to the side `left` by two. The flag says whether the tree lost a level. -/
def rotate (left : Bool) : BinTree ι → BinTree ι × Bool
  | nil => (nil, false)
  | node a balance kids =>
    match kids left with
    | nil => (node a balance kids, false)
    | node c childBalance childKids =>
      if childBalance ≠ -weight left then
        (liftChild left a kids c (childBalance - weight left) childKids,
          decide (childBalance - weight left = 0))
      else
        match childKids (!left) with
        | nil => (node a balance kids, false)
        | node g inner innerKids => (liftInner left a kids c childKids g inner innerKids, true)

section Rotate

variable {left : Bool} {a c g : ι} {balance childBalance inner : ℤ} {kids childKids innerKids : Bool → BinTree ι}

theorem rotate_none (child : kids left = nil) : (node a balance kids).rotate left = (node a balance kids, false) := by
  simp [rotate, child]

theorem rotate_outer (child : kids left = node c childBalance childKids) (leaning : childBalance ≠ -weight left) :
    (node a balance kids).rotate left = (liftChild left a kids c (childBalance - weight left) childKids,
      decide (childBalance - weight left = 0)) := by
  simp [rotate, child, leaning]

theorem rotate_inner (child : kids left = node c (-weight left) childKids)
    (grand : childKids (!left) = node g inner innerKids) :
    (node a balance kids).rotate left = (liftInner left a kids c childKids g inner innerKids, true) := by
  simp [rotate, child, grand]

theorem rotate_hollow (child : kids left = node c (-weight left) childKids) (grand : childKids (!left) = nil) :
    (node a balance kids).rotate left = (node a balance kids, false) := by
  simp [rotate, child, grand]

end Rotate

section Inorder

variable {left : Bool} {a c g : ι} {balance childBalance inner : ℤ} {kids childKids innerKids : Bool → BinTree ι}

theorem inorder_liftChild (d) (child : kids left = node c childBalance childKids) (lifted : ℤ) :
    (liftChild left a kids c lifted childKids).inorder d = (node a balance kids).inorder d := by
  cases left <;> cases d <;> simp [liftChild, inorder, child]

theorem inorder_liftInner (d) (child : kids left = node c childBalance childKids)
    (grand : childKids (!left) = node g inner innerKids) :
    (liftInner left a kids c childKids g inner innerKids).inorder d = (node a balance kids).inorder d := by
  cases left <;> cases d <;> simp_all [liftInner, inorder, update]

end Inorder

theorem inorder_rotate (left d : Bool) (t : BinTree ι) : (t.rotate left).1.inorder d = t.inorder d := by
  cases t with
  | nil => rfl
  | node a balance kids =>
    cases child : kids left with
    | nil => rw [rotate_none child]
    | node c childBalance childKids =>
      by_cases leaning : childBalance = -weight left
      · subst leaning
        cases grand : childKids (!left) with
        | nil => rw [rotate_hollow child grand]
        | node g inner innerKids =>
          rw [rotate_inner child grand]
          exact inorder_liftInner d child grand
      · rw [rotate_outer child leaning]
        exact inorder_liftChild d child _

section Balance

variable {left : Bool} {a c g : ι} {balance childBalance inner : ℤ} {kids childKids innerKids : Bool → BinTree ι}

theorem liftChild_balanced (child : (node c childBalance childKids).Balanced) (other : (kids (!left)).Balanced)
    (taller : (node c childBalance childKids).height = (kids (!left)).height + 2)
    (leaning : childBalance ≠ -weight left) :
    (liftChild left a kids c (childBalance - weight left) childKids).Balanced ∧
      (liftChild left a kids c (childBalance - weight left) childKids).height +
        (decide (childBalance - weight left = 0)).toNat = (kids (!left)).height + 3 := by
  obtain ⟨stored, least, most, near, far⟩ := (balanced_node left).mp child
  rw [height_node left] at taller
  simp only [liftChild, balanced_node left, height_node left, update_self, ne_eq, Bool.eq_not_self,
    Bool.not_eq_self, not_false_eq_true, update_of_ne, near, far, other, and_true, true_and]
  have sign := weight_cases left
  generalize weight left = w at *
  have flag : (decide (childBalance - w = 0)).toNat = if childBalance - w = 0 then 1 else 0 := by
    split_ifs with even <;> simp [even]
  rw [flag]
  rcases sign with rfl | rfl <;> split_ifs <;> omega

theorem liftInner_balanced (child : (node c (-weight left) childKids).Balanced) (other : (kids (!left)).Balanced)
    (taller : (node c (-weight left) childKids).height = (kids (!left)).height + 2)
    (grand : childKids (!left) = node g inner innerKids) :
    (liftInner left a kids c childKids g inner innerKids).Balanced ∧
      (liftInner left a kids c childKids g inner innerKids).height = (kids (!left)).height + 2 := by
  obtain ⟨stored, least, most, near, far⟩ := (balanced_node left).mp child
  rw [height_node left] at taller
  rw [grand] at far taller stored
  obtain ⟨innerStored, innerLeast, innerMost, innerNear, innerFar⟩ := (balanced_node left).mp far
  rw [height_node left] at taller stored
  simp only [liftInner, balanced_node left, height_node left, update_self, ne_eq, Bool.eq_not_self,
    Bool.not_eq_self, not_false_eq_true, update_of_ne, near, other, innerNear, innerFar, and_true]
  have sign := weight_cases left
  generalize weight left = w at *
  rcases sign with rfl | rfl <;> split_ifs <;> omega

end Balance

/-- A node whose side `left` is two levels taller is balanced by the rotation. -/
theorem rotate_balanced {left : Bool} {a : ι} {balance} {kids}
    (whole : (kids left).Balanced) (other : (kids (!left)).Balanced)
    (taller : (kids left).height = (kids (!left)).height + 2) :
    ((node a balance kids).rotate left).1.Balanced ∧
      ((node a balance kids).rotate left).1.height + ((node a balance kids).rotate left).2.toNat =
        (kids (!left)).height + 3 := by
  cases child : kids left with
  | nil =>
    rw [child] at taller
    simp [height] at taller
  | node c childBalance childKids =>
    rw [child] at taller whole
    by_cases leaning : childBalance = -weight left
    · subst leaning
      cases grand : childKids (!left) with
      | nil =>
        have stored := ((balanced_node left).mp whole).1
        rw [grand] at stored
        rcases weight_cases left with w | w <;> simp only [w, height] at stored <;> omega
      | node g inner innerKids =>
        rw [rotate_inner child grand]
        have lifted := @liftInner_balanced _ left a c g inner kids childKids innerKids whole other taller grand
        exact ⟨lifted.1, congrArg (· + 1) lifted.2⟩
    · rw [rotate_outer child leaning]
      exact liftChild_balanced whole other taller leaning

theorem rotate_lowers {left : Bool} {a : ι} {balance} {kids}
    (whole : (kids left).Balanced) (uneven : (kids left).rootBalance ≠ 0) :
    ((node a balance kids).rotate left).2 = true := by
  cases child : kids left with
  | nil => simp [child, rootBalance] at uneven
  | node c childBalance childKids =>
    rw [child] at whole uneven
    obtain ⟨stored, least, most, _, _⟩ := (balanced_node left).mp whole
    simp only [rootBalance] at uneven
    by_cases leaning : childBalance = -weight left
    · subst leaning
      cases grand : childKids (!left) with
      | nil =>
        rw [grand] at stored
        rcases weight_cases left with w | w <;> simp only [w, height] at stored <;> omega
      | node g inner innerKids => rw [rotate_inner child grand]
    · rw [rotate_outer child leaning, decide_eq_true_eq]
      rcases weight_cases left with w | w <;> rw [w] at leaning ⊢ <;> omega

end BinTree

structure Frame (ι : Type*) where
  side : Bool
  at_ : ι
  balance : ℤ
  sibling : BinTree ι

namespace Frame

def fill (f : Frame ι) (t : BinTree ι) : BinTree ι :=
  .node f.at_ f.balance fun d => if d = f.side then t else f.sibling

theorem fill_kids (d) (a : ι) (balance) (kids) :
    (⟨d, a, balance, kids (!d)⟩ : Frame ι).fill (kids d) = .node a balance kids := by
  unfold fill
  congr 1
  funext e
  cases Bool.eq_or_eq_not e d with
  | inl same => simp [same]
  | inr other => simp [other]

end Frame

abbrev Route (ι : Type*) := List (Frame ι)

namespace Route

def plug : Route ι → BinTree ι → BinTree ι
  | [], t => t
  | f :: p, t => plug p (f.fill t)

def before (d : Bool) : Route ι → List ι
  | [] => []
  | f :: p => before d p ++ if f.side = d then [] else f.sibling.inorder d ++ [f.at_]

def after (d : Bool) : Route ι → List ι
  | [] => []
  | f :: p => (if f.side = d then f.at_ :: f.sibling.inorder d else []) ++ after d p

theorem plug_append (p q : Route ι) (t) : plug (p ++ q) t = plug q (plug p t) := by
  induction p generalizing t with
  | nil => rfl
  | cons f p ih => exact ih _

theorem before_append (d) (p q : Route ι) : before d (p ++ q) = before d q ++ before d p := by
  induction p with
  | nil => simp [before]
  | cons f p ih => simp [before, ih]

theorem after_append (d) (p q : Route ι) : after d (p ++ q) = after d p ++ after d q := by
  induction p with
  | nil => simp [after]
  | cons f p ih => simp [after, ih]

theorem inorder_fill (d) (f : Frame ι) (t) : (f.fill t).inorder d =
    (if f.side = d then [] else f.sibling.inorder d ++ [f.at_]) ++ t.inorder d ++
      (if f.side = d then f.at_ :: f.sibling.inorder d else []) := by
  obtain ⟨side, at_, balance, sibling⟩ := f
  cases side <;> cases d <;> simp [Frame.fill, BinTree.inorder]

theorem inorder_plug (d) (p : Route ι) (t) :
    (plug p t).inorder d = before d p ++ t.inorder d ++ after d p := by
  induction p generalizing t with
  | nil => simp [plug, before, after]
  | cons f p ih => simp [plug, before, after, ih, inorder_fill]

variable {p : Route ι}

theorem after_eq_nil (sides : ∀ f ∈ p, f.side = !d) : after d p = [] := by
  induction p with
  | nil => rfl
  | cons f p ih =>
    rw [List.forall_mem_cons] at sides
    simp [after, sides.1, ih sides.2]

theorem before_not (d : Bool) (p : Route ι) : before (!d) p = (after d p).reverse := by
  induction p with
  | nil => rfl
  | cons f p ih => cases same : f.side <;> cases d <;> simp_all [before, after, ← BinTree.inorder_not]

theorem after_not (d) (p : Route ι) : after (!d) p = (before d p).reverse := by
  have whole := before_not (!d) p
  rw [Bool.not_not] at whole
  rw [whole, List.reverse_reverse]

/-- The path is balanced around a subtree of height `n`. -/
def Balanced : Route ι → ℕ → Prop
  | [], _ => True
  | f :: p, n => f.balance = weight f.side * ((n : ℤ) - f.sibling.height) ∧ -1 ≤ f.balance ∧ f.balance ≤ 1 ∧
      f.sibling.Balanced ∧ Balanced p (max n f.sibling.height + 1)

theorem height_fill (f : Frame ι) (t) : (f.fill t).height = max t.height f.sibling.height + 1 := by
  obtain ⟨side, at_, balance, sibling⟩ := f
  cases side <;> simp [Frame.fill, BinTree.height, max_comm]

variable {t : BinTree ι}

theorem balanced_fill {f : Frame ι} : (f.fill t).Balanced ↔
    f.balance = weight f.side * ((t.height : ℤ) - f.sibling.height) ∧ -1 ≤ f.balance ∧ f.balance ≤ 1 ∧
      f.sibling.Balanced ∧ t.Balanced := by
  obtain ⟨side, at_, balance, sibling⟩ := f
  cases side <;> simp [Frame.fill, BinTree.Balanced, weight, and_comm]

theorem balanced_plug : (plug p t).Balanced ↔ t.Balanced ∧ Balanced p t.height := by
  induction p generalizing t with
  | nil => simp [plug, Balanced]
  | cons f p ih =>
    rw [plug, ih, balanced_fill, height_fill, Balanced]
    tauto

theorem balanced_replace {q side balance sibling} (a b : ι) :
    Balanced (q ++ ⟨side, a, balance, sibling⟩ :: p) n ↔ Balanced (q ++ ⟨side, b, balance, sibling⟩ :: p) n := by
  induction q generalizing n with
  | nil => exact Iff.rfl
  | cons f q ih => simp [Balanced, ih]

def growUp : Route ι → BinTree ι → BinTree ι
  | [], t => t
  | f :: p, t =>
    let balance := f.balance + weight f.side
    if balance = 0 then plug p (({ f with balance := 0 } : Frame ι).fill t)
    else if f.balance ≠ 0 then plug p ((f.fill t).rotate (heavy balance)).1
    else growUp p (({ f with balance := balance } : Frame ι).fill t)

def shrinkUp : Route ι → BinTree ι → BinTree ι
  | [], t => t
  | f :: p, t =>
    let balance := f.balance - weight f.side
    if f.balance = 0 then plug p (({ f with balance := balance } : Frame ι).fill t)
    else if balance = 0 then shrinkUp p (({ f with balance := balance } : Frame ι).fill t)
    else if ((f.fill t).rotate (heavy balance)).2 then shrinkUp p ((f.fill t).rotate (heavy balance)).1
    else plug p ((f.fill t).rotate (heavy balance)).1

theorem inorder_growUp (d : Bool) (p : Route ι) (t : BinTree ι) :
    (growUp p t).inorder d = before d p ++ t.inorder d ++ after d p := by
  induction p generalizing t with
  | nil => simp [growUp, before, after]
  | cons f p ih =>
    unfold growUp
    simp only
    split_ifs <;> simp [ih, inorder_plug, inorder_fill, BinTree.inorder_rotate, before, after]

theorem inorder_shrinkUp (d : Bool) (p : Route ι) (t : BinTree ι) :
    (shrinkUp p t).inorder d = before d p ++ t.inorder d ++ after d p := by
  induction p generalizing t with
  | nil => simp [shrinkUp, before, after]
  | cons f p ih =>
    unfold shrinkUp
    simp only
    split_ifs <;> simp [ih, inorder_plug, inorder_fill, BinTree.inorder_rotate, before, after]

theorem rotate_fill_side {f : Frame ι} {t} (whole : t.Balanced) (sibling : f.sibling.Balanced)
    (taller : t.height = f.sibling.height + 2) : ((f.fill t).rotate f.side).1.Balanced ∧
      ((f.fill t).rotate f.side).1.height + ((f.fill t).rotate f.side).2.toNat = f.sibling.height + 3 := by
  have spec := @BinTree.rotate_balanced _ f.side f.at_ f.balance fun d => if d = f.side then t else f.sibling
  simp only [if_true, Bool.not_eq_self, if_false] at spec
  exact spec whole sibling taller

theorem rotate_fill_other {f : Frame ι} (whole : t.Balanced) (sibling : f.sibling.Balanced)
    (taller : f.sibling.height = t.height + 2) : ((f.fill t).rotate (!f.side)).1.Balanced ∧
      ((f.fill t).rotate (!f.side)).1.height + ((f.fill t).rotate (!f.side)).2.toNat = t.height + 3 := by
  have spec := @BinTree.rotate_balanced _ (!f.side) f.at_ f.balance fun d => if d = f.side then t else f.sibling
  simp only [if_true, Bool.not_eq_self, if_false, Bool.not_not] at spec
  exact spec sibling whole taller

section Step

variable {p : Route ι} {f : Frame ι} {t : BinTree ι}

theorem grow_flat (above : Balanced (f :: p) n) (whole : t.Balanced) (taller : t.height = n + 1)
    (flat : f.balance = 0) : (({ f with balance := f.balance + weight f.side } : Frame ι).fill t).Balanced ∧
      (({ f with balance := f.balance + weight f.side } : Frame ι).fill t).height =
        max n f.sibling.height + 1 + 1 := by
  obtain ⟨stored, _, _, sibling, _⟩ := above
  have sign := weight_cases f.side
  have level : n = f.sibling.height := by
    rcases sign with w | w <;> rw [w] at stored <;> omega
  refine ⟨balanced_fill.mpr ⟨?_, ?_, ?_, sibling, whole⟩, ?_⟩
  · simp [taller, level, flat]
  · rcases sign with w | w <;> simp [w, flat]
  · rcases sign with w | w <;> simp [w, flat]
  · rw [height_fill, taller]
    simp only [level]
    omega

theorem grow_leaning (above : Balanced (f :: p) n) (uneven : f.balance ≠ 0) (off : f.balance + weight f.side ≠ 0) :
    n = f.sibling.height + 1 ∧ f.balance + weight f.side = 2 * weight f.side := by
  obtain ⟨stored, least, most, _, _⟩ := above
  rcases weight_cases f.side with w | w <;> rw [w] at stored off ⊢ <;> omega

theorem shrink_even (above : Balanced (f :: p) (t.height + 1)) (whole : t.Balanced)
    (even : f.balance - weight f.side = 0) :
    (({ f with balance := f.balance - weight f.side } : Frame ι).fill t).Balanced ∧
      max (t.height + 1) f.sibling.height + 1 =
        (({ f with balance := f.balance - weight f.side } : Frame ι).fill t).height + 1 := by
  obtain ⟨stored, _, _, sibling, _⟩ := above
  have level : f.sibling.height = t.height := by
    rcases weight_cases f.side with w | w <;> rw [w] at stored even <;> omega
  refine ⟨balanced_fill.mpr ⟨?_, ?_, ?_, sibling, whole⟩, ?_⟩
  · simp [even, level]
  · simp [even]
  · simp [even]
  · rw [height_fill]
    simp [level]

theorem shrink_leaning (above : Balanced (f :: p) (t.height + 1)) (uneven : f.balance ≠ 0)
    (off : f.balance - weight f.side ≠ 0) :
    f.sibling.height = t.height + 2 ∧ f.balance - weight f.side = 2 * weight (!f.side) := by
  obtain ⟨stored, least, most, _, _⟩ := above
  rw [weight_not]
  rcases weight_cases f.side with w | w <;> rw [w] at stored off ⊢ <;> omega

end Step

theorem balanced_growUp (above : Balanced p n) (whole : t.Balanced)
    (taller : t.height = n + 1) (uneven : t.rootBalance ≠ 0 ∨ n = 0) : (growUp p t).Balanced := by
  induction p generalizing n t with
  | nil => exact whole
  | cons f p ih =>
    obtain ⟨stored, least, most, sibling, rest⟩ := id above
    unfold growUp
    simp only
    split_ifs with even leaning
    · have level : f.sibling.height = n + 1 := by
        rcases weight_cases f.side with w | w <;> rw [w] at stored even <;> omega
      refine balanced_plug.mpr ⟨balanced_fill.mpr ⟨?_, by simp, by simp, sibling, whole⟩, ?_⟩
      · simp [taller, level]
      · rw [height_fill]
        simpa [taller, level] using rest
    · obtain ⟨level, twice⟩ := grow_leaning above leaning even
      rw [twice, heavy_twice]
      have lower : ((f.fill t).rotate f.side).2 = true := by
        apply BinTree.rotate_lowers
        · simpa using whole
        · simpa using uneven.resolve_right (by omega)
      obtain ⟨rotated, height⟩ := @rotate_fill_side _ f t whole sibling (by omega)
      rw [lower, Bool.toNat_true] at height
      refine balanced_plug.mpr ⟨rotated, ?_⟩
      rw [show max n f.sibling.height + 1 = f.sibling.height + 2 by omega] at rest
      rwa [show ((f.fill t).rotate f.side).1.height = f.sibling.height + 2 by omega]
    · obtain ⟨filled, height⟩ := grow_flat above whole taller (not_not.mp leaning)
      exact ih rest filled height (.inl even)

theorem balanced_shrinkUp (above : Balanced p n) (whole : t.Balanced)
    (shorter : n = t.height + 1) : (shrinkUp p t).Balanced := by
  induction p generalizing n t with
  | nil => exact whole
  | cons f p ih =>
    subst shorter
    obtain ⟨stored, least, most, sibling, rest⟩ := id above
    unfold shrinkUp
    simp only
    split_ifs with flat even lower
    · have sign := weight_cases f.side
      have level : f.sibling.height = t.height + 1 := by
        rcases sign with w | w <;> rw [w] at stored <;> omega
      refine balanced_plug.mpr ⟨balanced_fill.mpr ⟨?_, ?_, ?_, sibling, whole⟩, ?_⟩
      · simp [flat, level]
      · rcases sign with w | w <;> simp [w, flat]
      · rcases sign with w | w <;> simp [w, flat]
      · rw [height_fill]
        simpa [level] using rest
    · obtain ⟨filled, height⟩ := shrink_even above whole even
      exact ih rest filled height
    all_goals
      obtain ⟨level, twice⟩ := shrink_leaning above flat even
      rw [twice, heavy_twice] at lower ⊢
      obtain ⟨rotated, height⟩ := rotate_fill_other whole sibling level
      rw [show max (t.height + 1) f.sibling.height + 1 = t.height + 3 by omega] at rest
    · rw [lower, Bool.toNat_true] at height
      exact ih rest rotated (by omega)
    · rw [Bool.eq_false_of_not_eq_true lower, Bool.toNat_false] at height
      refine balanced_plug.mpr ⟨rotated, ?_⟩
      rwa [show ((f.fill t).rotate (!f.side)).1.height = t.height + 3 by omega]

end Route

end BalancedTree
