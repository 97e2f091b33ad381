import MacZfs.Base
import MacZfs.Lib.Rooted
import MacZfs.Lib.Runs

/-! # Directories

`dsl_dir.c` rolls the space of a directory up into its ancestors: each directory counts its own space and,
for every child, what the child uses or what is reserved for it, whichever is more. Space changes,
reservations and renames keep the sums right at every directory.

Directories are named by their objects. Counts are integers: the `ASSERT` of `dsl_dir_diduse_space` refuses
whatever would take one below zero, and the sizes of a pool do not reach 64 bits. Compressed and
uncompressed sizes are left out; so are quotas, names and the checks for free space, which only refuse more.
-/

namespace MacZfs.Dsl

open Function

open Rooted (Above IsTree children)

/-- The directories of a pool. `charged` is the space that was charged to a directory itself; the code does not
    have it. -/
structure Dirs where
  objs : Finset ℕ
  ddParent : ℕ → Option ℕ
  ddUsedBytes : ℕ → ℤ
  ddReserved : ℕ → ℤ
  charged : ℕ → ℤ

namespace Dirs

def accounted (t : Dirs) (dd : ℕ) : ℤ := max (t.ddUsedBytes dd) (t.ddReserved dd)

/-- `parent_delta`. -/
def parentDelta (t : Dirs) (dd : ℕ) (used delta : ℤ) : ℤ :=
  max (used + delta) (t.ddReserved dd) - max used (t.ddReserved dd)

def addUsed (t : Dirs) (dd : ℕ) (used : ℤ) : Dirs :=
  { t with ddUsedBytes := Function.update t.ddUsedBytes dd (t.ddUsedBytes dd + used) }

/-- `dsl_dir_diduse_space`; there is no result when its `ASSERT` fails, or the parents do not end within the
    rounds. -/
def dslDirDiduseSpace : (rounds : ℕ) → Dirs → ℕ → ℤ → Option Dirs
  | 0, _, _, _ => none
  | rounds + 1, t, dd, used =>
    if used ≥ 0 ∨ t.ddUsedBytes dd ≥ -used then
      let accountedDelta := t.parentDelta dd (t.ddUsedBytes dd) used
      match t.ddParent dd with
      | none => some (t.addUsed dd used)
      | some parent => dslDirDiduseSpace rounds (t.addUsed dd used) parent accountedDelta
    else none

def setReserved (t : Dirs) (dd : ℕ) (reserved : ℤ) : Dirs :=
  { t with ddReserved := Function.update t.ddReserved dd reserved }

/-- `dsl_dir_set_reservation_sync`. -/
def dslDirSetReservationSync (rounds : ℕ) (t : Dirs) (dd : ℕ) (newReservation : ℤ) : Option Dirs :=
  let used := t.ddUsedBytes dd
  let delta := max used newReservation - max used (t.ddReserved dd)
  let t := t.setReserved dd newReservation
  match t.ddParent dd with
  | none => some t
  | some parent => dslDirDiduseSpace rounds t parent delta

/-- The inner loop of `closest_common_ancestor`, from `dd` up. -/
def onPath (t : Dirs) (ds1 : ℕ) : (rounds : ℕ) → Option ℕ → Option Bool
  | _, none => some false
  | 0, some _ => none
  | rounds + 1, some dd => if ds1 = dd then some true else onPath t ds1 rounds (t.ddParent dd)

/-- `closest_common_ancestor`. -/
def closestCommonAncestor (t : Dirs) (ds2 : ℕ) : (rounds : ℕ) → Option ℕ → Option (Option ℕ)
  | _, none => some none
  | 0, some _ => none
  | rounds + 1, some ds1 =>
    match onPath t ds1 (rounds + 1) (some ds2) with
    | none => none
    | some true => some (some ds1)
    | some false => closestCommonAncestor t ds2 rounds (t.ddParent ds1)

/-- `dsl_dir_rename_check`, as far as it is about the tree. -/
def dslDirRenameCheck (rounds : ℕ) (t : Dirs) (dd newparent : ℕ) : Option Bool :=
  if some newparent ≠ t.ddParent dd then
    (closestCommonAncestor t newparent rounds (some dd)).map fun ancestor => ancestor ≠ some dd
  else some true

def renameSpace (rounds : ℕ) (t : Dirs) (dd parent newparent : ℕ) : Option Dirs :=
  if newparent ≠ parent then
    let myspace := max (t.ddUsedBytes dd) (t.ddReserved dd)
    (dslDirDiduseSpace rounds t parent (-myspace)).bind fun t => dslDirDiduseSpace rounds t newparent myspace
  else some t

/-- `dsl_dir_rename_sync`. The root has no parent to take it from. -/
def dslDirRenameSync (rounds : ℕ) (t : Dirs) (dd newparent : ℕ) : Option Dirs :=
  match t.ddParent dd with
  | none => none
  | some parent =>
    (renameSpace rounds t dd parent newparent).map fun t =>
      { t with ddParent := Function.update t.ddParent dd (some newparent) }

end Dirs

inductive DirStep : Dirs → Dirs → Prop
  /-- Space is charged to a directory, or taken back. -/
  | diduse {t t' : Dirs} {rounds dd : ℕ} {used : ℤ} (live : dd ∈ t.objs)
      (returns : Dirs.dslDirDiduseSpace rounds t dd used = some t') :
      DirStep t { t' with charged := Function.update t'.charged dd (t'.charged dd + used) }
  | setReservation {t t' : Dirs} {rounds dd : ℕ} {newReservation : ℤ} (live : dd ∈ t.objs)
      (returns : Dirs.dslDirSetReservationSync rounds t dd newReservation = some t') : DirStep t t'
  | rename {t t' : Dirs} {rounds dd newparent : ℕ} (live : dd ∈ t.objs) (live' : newparent ∈ t.objs)
      (check : Dirs.dslDirRenameCheck rounds t dd newparent = some true)
      (returns : Dirs.dslDirRenameSync rounds t dd newparent = some t') : DirStep t t'

namespace Dirs

def Balanced (t : Dirs) : Prop :=
  ∀ dd ∈ t.objs, t.ddUsedBytes dd = t.charged dd + ∑ c ∈ children t.objs t.ddParent dd, t.accounted c

end Dirs

def dirRuns : Runs.System Dirs where
  init t := (∃ root, IsTree t.objs t.ddParent root) ∧ t.Balanced
  step := DirStep

/-! ## Rolling up -/

namespace Dirs

variable {t t' : Dirs} {root : ℕ}

def own (t : Dirs) (dd : ℕ) : ℤ := t.ddUsedBytes dd - ∑ c ∈ children t.objs t.ddParent dd, t.accounted c

theorem accounted_addUsed (dd) (used : ℤ) : (t.addUsed dd used).accounted =
    update t.accounted dd (max (t.ddUsedBytes dd + used) (t.ddReserved dd)) := by
  funext c
  by_cases same : c = dd
  · simp [accounted, addUsed, same]
  · simp [accounted, addUsed, same]

/-- A change of one count is seen at the directory and at its parent. -/
theorem own_addUsed (live : dd ∈ t.objs) (used : ℤ) (d) : (t.addUsed dd used).own d =
    t.own d + (if d = dd then used else 0) -
      if t.ddParent dd = some d then t.parentDelta dd (t.ddUsedBytes dd) used else 0 := by
  have sums := Rooted.sum_children_update t.ddParent live t.accounted
    (max (t.ddUsedBytes dd + used) (t.ddReserved dd)) d
  rw [own, accounted_addUsed]
  show (t.addUsed dd used).ddUsedBytes d - ∑ c ∈ children t.objs t.ddParent d, _ = _
  rw [sums, own]
  by_cases same : d = dd
  · subst same
    simp only [addUsed, update_self, if_true, parentDelta, accounted]
    ring
  · simp only [addUsed, update_of_ne same, same, if_false, parentDelta, accounted]
    ring

/-- What `dsl_dir_diduse_space` leaves. -/
structure Rolled (t t' : Dirs) (dd : ℕ) (used : ℤ) : Prop where
  objs : t'.objs = t.objs
  parent : t'.ddParent = t.ddParent
  reserved : t'.ddReserved = t.ddReserved
  charged : t'.charged = t.charged
  own : ∀ d, t'.own d = t.own d + if d = dd then used else 0
  others : ∀ d, ¬Above t.ddParent dd d → t'.ddUsedBytes d = t.ddUsedBytes d

theorem rolled (tree : IsTree t.objs t.ddParent root) {rounds dd used} (live : dd ∈ t.objs)
    (returns : dslDirDiduseSpace rounds t dd used = some t') : Rolled t t' dd used := by
  induction rounds generalizing t dd used with
  | zero => cases returns
  | succ rounds ih =>
    rw [dslDirDiduseSpace] at returns
    split_ifs at returns with enough
    have first := own_addUsed live used
    cases up : t.ddParent dd with
    | none =>
      simp only [up] at returns first
      cases returns
      refine ⟨rfl, rfl, rfl, rfl, ?_, ?_⟩
      · intro d
        rw [first d]
        simp
      · intro d apart
        refine update_of_ne ?_ _ _
        rintro rfl
        exact apart .refl
    | some parent =>
      simp only [up] at returns
      have live' : parent ∈ t.objs := tree.parent_mem dd live parent up
      obtain ⟨objs, parents, reserved, charged, own, others⟩ := ih (t := t.addUsed dd used) tree live' returns
      refine ⟨objs, parents, reserved, charged, ?_, ?_⟩
      · intro d
        rw [own d, first d, up]
        by_cases same : d = parent
        · simp [same]
        · simp [same, Ne.symm same]
      · intro d apart
        rw [others d fun above => apart (.head up above)]
        refine update_of_ne ?_ _ _
        rintro rfl
        exact apart .refl

/-- A parent counts at least what its child does. -/
theorem accounted_le (reserved : ∀ d, 0 ≤ t.ddReserved d) (live : dd ∈ t.objs) (up : t.ddParent dd = some p)
    (nonneg : 0 ≤ t.own p) : t.accounted dd ≤ t.ddUsedBytes p := by
  have child : dd ∈ children t.objs t.ddParent p := Rooted.mem_children.mpr ⟨live, up⟩
  have single := Finset.single_le_sum (f := t.accounted)
    (fun c _ => (reserved c).trans (le_max_right (t.ddUsedBytes c) _)) child
  rw [own] at nonneg
  omega

/-- The `ASSERT` can only fail where the call is made: an ancestor that does not use less than nothing for itself
    counts at least what is taken back. -/
theorem diduse_returns (tree : IsTree t.objs t.ddParent root) (live : dd ∈ t.objs)
    (enough : used ≥ 0 ∨ t.ddUsedBytes dd ≥ -used) (reserved : ∀ d, 0 ≤ t.ddReserved d)
    (own_nonneg : ∀ d ≠ dd, Above t.ddParent dd d → 0 ≤ t.own d) :
    ∃ rounds t', dslDirDiduseSpace rounds t dd used = some t' := by
  obtain ⟨parents, same⟩ : ∃ parents, parents = t.ddParent := ⟨_, rfl⟩
  have path : Above parents dd root := same ▸ tree.reaches dd live
  induction path using Relation.ReflTransGen.head_induction_on generalizing t used with
  | refl =>
    refine ⟨1, t.addUsed root used, ?_⟩
    rw [dslDirDiduseSpace, if_pos enough]
    simp only [tree.top]
  | @head dd p up _ ih =>
    have up : t.ddParent dd = some p := same ▸ up
    have live' : p ∈ t.objs := tree.parent_mem dd live p up
    have first := own_addUsed live used
    have apart : ∀ d ≠ p, Above t.ddParent p d → d ≠ dd := by
      rintro d _ above rfl
      exact tree.not_above live up above
    have counted := accounted_le reserved live up (own_nonneg p (tree.parent_ne live up) (.single up))
    have enough' : t.parentDelta dd (t.ddUsedBytes dd) used ≥ 0 ∨
        (t.addUsed dd used).ddUsedBytes p ≥ -t.parentDelta dd (t.ddUsedBytes dd) used := by
      right
      rw [accounted] at counted
      have kept : (t.addUsed dd used).ddUsedBytes p = t.ddUsedBytes p :=
        update_of_ne (tree.parent_ne live up) _ _
      have positive := (reserved dd).trans (le_max_right (t.ddUsedBytes dd + used) _)
      rw [kept, parentDelta]
      omega
    have own_nonneg' : ∀ d ≠ p, Above t.ddParent p d → 0 ≤ (t.addUsed dd used).own d := by
      intro d other above
      rw [first d, if_neg (apart d other above), up, if_neg (fun eq => other (Option.some.inj eq).symm)]
      simpa using own_nonneg d (apart d other above) (.head up above)
    obtain ⟨rounds, t', returns⟩ := ih (t := t.addUsed dd used) tree live' enough' reserved own_nonneg' same
    refine ⟨rounds + 1, t', ?_⟩
    rw [dslDirDiduseSpace, if_pos enough]
    simpa only [up] using returns

theorem balanced_iff : t.Balanced ↔ ∀ dd ∈ t.objs, t.own dd = t.charged dd := by
  refine forall₂_congr fun dd _ => ?_
  rw [own, sub_eq_iff_eq_add]

/-! ## The check of a rename -/

theorem onPath_false (walk : onPath t x rounds (some dd) = some false) : ¬Above t.ddParent dd x := by
  induction rounds generalizing dd with
  | zero => cases walk
  | succ rounds ih =>
    rw [onPath] at walk
    split_ifs at walk with same
    · cases walk
    · intro above
      rcases Relation.ReflTransGen.cases_head above with rfl | ⟨parent, up, rest⟩
      · exact same rfl
      · rw [show t.ddParent dd = some parent from up] at walk
        exact ih walk rest

theorem renameCheck_spec (check : dslDirRenameCheck rounds t dd newparent = some true)
    (other : some newparent ≠ t.ddParent dd) : ¬Above t.ddParent newparent dd := by
  rw [dslDirRenameCheck, if_pos other] at check
  cases rounds with
  | zero => cases check
  | succ rounds =>
    rw [closestCommonAncestor] at check
    cases walk : onPath t dd (rounds + 1) (some newparent) with
    | none => simp [walk] at check
    | some found =>
      cases found with
      | true => simp [walk] at check
      | false => exact onPath_false walk

/-! ## Runs -/

structure Inv (t : Dirs) : Prop where
  tree : ∃ root, IsTree t.objs t.ddParent root
  own : ∀ dd ∈ t.objs, t.own dd = t.charged dd

theorem Inv.diduse (inv : t.Inv) {rounds dd used} (live : dd ∈ t.objs)
    (returns : dslDirDiduseSpace rounds t dd used = some t') :
    Inv { t' with charged := update t'.charged dd (t'.charged dd + used) } := by
  obtain ⟨root, tree⟩ := inv.tree
  obtain ⟨objs, parent, _, charged, own, _⟩ := rolled tree live returns
  refine ⟨⟨root, by rwa [objs, parent]⟩, ?_⟩
  intro d live'
  refine (own d).trans ?_
  rw [inv.own d (objs ▸ live'), charged]
  by_cases same : d = dd
  · simp [same]
  · simp [same]

theorem accounted_setReserved (dd) (new : ℤ) :
    (t.setReserved dd new).accounted = update t.accounted dd (max (t.ddUsedBytes dd) new) := by
  funext c
  by_cases same : c = dd
  · simp [accounted, setReserved, same]
  · simp [accounted, setReserved, same]

theorem Inv.setReservation (inv : t.Inv) {rounds dd new} (live : dd ∈ t.objs)
    (returns : dslDirSetReservationSync rounds t dd new = some t') : t'.Inv := by
  obtain ⟨root, tree⟩ := inv.tree
  have sums := Rooted.sum_children_update t.ddParent live t.accounted (max (t.ddUsedBytes dd) new)
  have first : ∀ d, (t.setReserved dd new).own d =
      t.own d - if t.ddParent dd = some d then max (t.ddUsedBytes dd) new - t.accounted dd else 0 := by
    intro d
    rw [Dirs.own, accounted_setReserved, Dirs.own, sub_sub]
    exact congrArg (t.ddUsedBytes d - ·) (sums d)
  simp only [dslDirSetReservationSync, show (t.setReserved dd new).ddParent = t.ddParent from rfl] at returns
  cases up : t.ddParent dd with
  | none =>
    simp only [up] at returns
    cases returns
    refine ⟨⟨root, tree⟩, ?_⟩
    intro d live'
    refine (first d).trans ?_
    rw [up, if_neg (by simp), sub_zero]
    exact inv.own d live'
  | some parent =>
    simp only [up] at returns
    obtain ⟨objs, parents, _, charged, own, _⟩ := rolled (t := t.setReserved dd new) tree
      (tree.parent_mem dd live parent up) returns
    refine ⟨⟨root, by rw [objs, parents]; exact tree⟩, ?_⟩
    intro d live'
    have before : t.own d = (t.setReserved dd new).charged d := inv.own d (objs ▸ live')
    rw [own d, first d, up, charged, ← before]
    by_cases same : d = parent
    · simp only [same, if_true, accounted]
      ring
    · simp only [same, if_false, Option.some.injEq, Ne.symm same]
      ring

theorem own_move (live : dd ∈ t.objs) (up : t.ddParent dd = some p) (d) :
    own { t with ddParent := update t.ddParent dd (some q) } d =
      t.own d + (if d = p then t.accounted dd else 0) - if d = q then t.accounted dd else 0 := by
  have sums := Rooted.sum_children_move (q := q) live up t.accounted d
  rw [own, own]
  refine (congrArg (t.ddUsedBytes d - ·) sums).trans ?_
  ring

theorem Inv.rename (inv : t.Inv) {rounds dd newparent} (live : dd ∈ t.objs) (live' : newparent ∈ t.objs)
    (check : dslDirRenameCheck rounds t dd newparent = some true)
    (returns : dslDirRenameSync rounds t dd newparent = some t') : t'.Inv := by
  obtain ⟨root, tree⟩ := inv.tree
  rw [dslDirRenameSync] at returns
  cases up : t.ddParent dd with
  | none => simp [up] at returns
  | some parent =>
    simp only [up, renameSpace] at returns
    by_cases same : newparent = parent
    · -- the parent is set to what it is
      subst same
      simp only [ne_eq, not_true, if_false, Option.map_some, Option.some.injEq] at returns
      have kept : update t.ddParent dd (some newparent) = t.ddParent := by
        rw [← up, update_eq_self]
      rw [kept] at returns
      exact returns ▸ inv
    · have below := renameCheck_spec check (by rw [up]; exact fun eq => same (Option.some.inj eq))
      rw [if_pos same] at returns
      obtain ⟨t2, calls, rfl⟩ := Option.map_eq_some_iff.mp returns
      obtain ⟨t1, call1, call2⟩ := Option.bind_eq_some_iff.mp calls
      have rolled1 := rolled tree (tree.parent_mem dd live parent up) call1
      have rolled2 := rolled (t := t1) (rolled1.objs ▸ rolled1.parent ▸ tree) (rolled1.objs ▸ live') call2
      have objs : t2.objs = t.objs := rolled2.objs.trans rolled1.objs
      have parents : t2.ddParent = t.ddParent := rolled2.parent.trans rolled1.parent
      -- neither call comes to the directory itself
      have kept : t2.accounted dd = t.accounted dd := by
        have used2 := rolled2.others dd (rolled1.parent ▸ below)
        have used1 := rolled1.others dd (tree.not_above live up)
        rw [accounted, used2, used1, rolled2.reserved, rolled1.reserved, accounted]
      refine ⟨⟨root, ?_⟩, ?_⟩
      · show IsTree t2.objs (update t2.ddParent dd (some newparent)) root
        rw [objs, parents]
        exact tree.move up live' below
      · intro d member
        have before := inv.own d (objs ▸ member)
        have charged : t2.charged d = t.charged d := by rw [rolled2.charged, rolled1.charged]
        rw [own_move (objs ▸ live) (parents ▸ up), kept, rolled2.own d, rolled1.own d]
        rw [charged, ← before, accounted]
        split_ifs <;> ring

theorem Inv.step (inv : t.Inv) (step : DirStep t t') : t'.Inv := by
  cases step with
  | diduse live returns => exact inv.diduse live returns
  | setReservation live returns => exact inv.setReservation live returns
  | rename live live' check returns => exact inv.rename live live' check returns

end Dirs

/-- In every run, from any tree of directories, the count of each directory is the space charged to it and what its
    children count for, and the parents form a tree. -/
theorem dir_space_balanced {t : Dirs} (reachable : dirRuns.Reachable t) :
    (∀ dd ∈ t.objs, t.ddUsedBytes dd = t.charged dd +
      ∑ c ∈ t.objs.filter (fun c => t.ddParent c = some dd), max (t.ddUsedBytes c) (t.ddReserved c)) ∧
    ∃ root, IsTree t.objs t.ddParent root := by
  have inv : t.Inv := by
    refine reachable.invariant ?_ fun _ _ inv step => inv.step step
    rintro t ⟨tree, balanced⟩
    exact ⟨tree, Dirs.balanced_iff.mp balanced⟩
  exact ⟨Dirs.balanced_iff.mpr inv.own, inv.tree⟩

def threeDirs : Dirs :=
  ⟨{1, 2, 3}, fun o => if o = 1 then none else some 1, fun _ => 0, fun _ => 0, fun _ => 0⟩

theorem threeDirs_init : dirRuns.init threeDirs := by
  refine ⟨⟨1, by decide, rfl, by decide, ?_⟩, ?_⟩
  · intro a member
    have inside : a = 1 ∨ a = 2 ∨ a = 3 := by simpa [threeDirs] using member
    rcases inside with rfl | rfl | rfl
    · exact .refl
    · exact .single rfl
    · exact .single rfl
  · unfold Dirs.Balanced
    decide

/-- One child has a reservation of ten and the other one, with five, is moved below it. -/
theorem dir_space_balanced_renamed : ∃ t : Dirs, t.ddParent 2 = some 3 ∧ t.ddUsedBytes 3 = 5 ∧
    t.ddUsedBytes 1 = 10 ∧ t.ddUsedBytes 1 = t.charged 1 + ∑ c ∈ t.objs.filter (fun c => t.ddParent c = some 1),
      max (t.ddUsedBytes c) (t.ddReserved c) := by
  have charged := (Runs.System.Reachable.first threeDirs_init).next
    (@DirStep.diduse _ _ 2 2 5 (by decide) rfl)
  have reserved := charged.next
    (@DirStep.setReservation _ _ 2 3 10 (by decide) rfl)
  have renamed := reserved.next
    (@DirStep.rename _ _ 3 2 3 (by decide) (by decide) (by decide) rfl)
  exact ⟨_, rfl, rfl, rfl, (dir_space_balanced renamed).1 1 (by decide)⟩

end MacZfs.Dsl
