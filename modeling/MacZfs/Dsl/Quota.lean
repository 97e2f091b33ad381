import MacZfs.Dsl.Dir
import Mathlib.Order.Bounds.Basic

/-! # Quotas and reservations

What is available to a directory, and the checks of `dsl_dir.c` for a new quota and for a new reservation, as they are made in
syncing context. What is available is computed in 64 bits, where it can wrap.
-/

namespace MacZfs.Dsl

open Function

open Rooted (Above IsTree children)

/-- `UINT64_MAX` -/
def uint64Max : ℤ := 2 ^ 64 - 1

/-- `INT64_MAX` -/
def int64Max : ℤ := 2 ^ 63 - 1

/-- `dd_quota` of the directories, and `dsl_pool_adjustedsize`. -/
structure Limits where
  ddQuota : ℕ → ℤ
  adjustedsize : ℤ

namespace Dirs

section Model

variable (t : Dirs) (lim : Limits) (estimated : ℕ → ℤ)

/-- The quota of a directory, and the size of the pool at the root. -/
def limit (dd : ℕ) : ℤ :=
  let quota := if lim.ddQuota dd ≠ 0 then lim.ddQuota dd else uint64Max
  if t.ddParent dd = none then min quota lim.adjustedsize else quota

/-- What a directory has, when its parent has `parentspace`. The `ASSERT` on what is over quota is left out. -/
def myspace (used : ℕ → ℤ) (dd : ℕ) (parentspace : ℤ) : ℤ :=
  let parentspace := if t.ddReserved dd > used dd ∧ parentspace ≠ uint64Max then
      (parentspace + (t.ddReserved dd - used dd)) % 2 ^ 64
    else parentspace
  if used dd > t.limit lim dd then 0 else min parentspace (t.limit lim dd - used dd)

/-- `dsl_dir_space_available` for counts that are given. -/
def spaceAvailable (used : ℕ → ℤ) : (rounds : ℕ) → ℕ → Option ℤ
  | 0, _ => none
  | rounds + 1, dd =>
    let above := match t.ddParent dd with
      | none => some uint64Max
      | some parent => spaceAvailable used rounds parent
    above.map (t.myspace lim used dd)

/-- `dsl_dir_space_available`. `estimated` is `dsl_dir_estimated_space`. -/
def dslDirSpaceAvailable (rounds dd : ℕ) (ancestor : Option ℕ) (delta : ℤ) (ondiskonly : Bool) : Option ℤ :=
  let used d := if ondiskonly then t.ddUsedBytes d else estimated d
  t.spaceAvailable lim (fun d => if ancestor = some d then (used d + delta) % 2 ^ 64 else used d) rounds dd

/-- What can be charged to a directory such that every directory whose count grows stays within its limit. -/
def chargeable (dd : ℕ) : Set ℤ :=
  {n | 0 ≤ n ∧ ∃ rounds t', dslDirDiduseSpace rounds t dd n = some t' ∧
    ∀ d, t.ddUsedBytes d < t'.ddUsedBytes d → t'.ddUsedBytes d ≤ t.limit lim d}

/-- `dsl_dir_set_quota_check` -/
def dslDirSetQuotaCheck (dd : ℕ) (newQuota : ℤ) : Bool :=
  newQuota = 0 ∨ ¬(newQuota < t.ddReserved dd ∨ newQuota < estimated dd)

/-- `avail` of `dsl_dir_set_reservation_check`. -/
def reservationAvail (rounds dd : ℕ) : Option ℤ :=
  match t.ddParent dd with
  | some parent => t.dslDirSpaceAvailable lim estimated rounds parent none 0 false
  | none => some ((lim.adjustedsize - t.ddUsedBytes dd) % 2 ^ 64)

/-- `dsl_dir_set_reservation_check` -/
def dslDirSetReservationCheck (rounds dd : ℕ) (newReservation : ℤ) : Option Bool :=
  if newReservation > int64Max then some false
  else
    let used := t.ddUsedBytes dd
    let delta := max used newReservation - max used (t.ddReserved dd)
    (t.reservationAvail lim estimated rounds dd).map fun avail => decide (¬(delta > 0 ∧ delta > avail) ∧
      ¬(delta > 0 ∧ lim.ddQuota dd > 0 ∧ newReservation > lim.ddQuota dd))

end Model

variable {t s : Dirs} {lim : Limits} {root rounds dd : ℕ} {n a : ℤ}

/-! ## What is available -/

theorem available_returns (lim used) (tree : IsTree t.objs t.ddParent root) (live : dd ∈ t.objs) :
    ∃ rounds a, t.spaceAvailable lim used rounds dd = some a := by
  induction tree.reaches dd live using Relation.ReflTransGen.head_induction_on with
  | refl =>
    refine ⟨1, t.myspace lim used root uint64Max, ?_⟩
    rw [spaceAvailable, tree.top]
    rfl
  | @head dd p up _ ih =>
    obtain ⟨rounds, a, avail⟩ := ih (tree.parent_mem dd live p up)
    refine ⟨rounds + 1, t.myspace lim used dd a, ?_⟩
    rw [spaceAvailable, up]
    simp only [avail]
    rfl

theorem available_bounds (avail : t.spaceAvailable lim used rounds dd = some a) :
    0 ≤ a ∧ a ≤ max 0 (t.limit lim dd - used dd) := by
  induction rounds generalizing dd a with
  | zero => cases avail
  | succ rounds ih =>
    obtain ⟨above, isAbove, rfl⟩ := Option.map_eq_some_iff.mp avail
    have nonneg : 0 ≤ above := by
      cases up : t.ddParent dd with
      | none =>
        rw [up] at isAbove
        cases isAbove
        decide
      | some p =>
        rw [up] at isAbove
        exact (ih isAbove).1
    rw [myspace]
    split_ifs <;> omega

/-- A count is the directory's own space and what its children count for. The words are unsigned. -/
structure Sound (t : Dirs) (lim : Limits) (root : ℕ) : Prop where
  tree : IsTree t.objs t.ddParent root
  balanced : t.Balanced
  charged : ∀ d ∈ t.objs, 0 ≤ t.charged d
  used : ∀ d, 0 ≤ t.ddUsedBytes d ∧ t.ddUsedBytes d < 2 ^ 64
  reserved : ∀ d, 0 ≤ t.ddReserved d
  quota : ∀ d, 0 ≤ lim.ddQuota d ∧ lim.ddQuota d < 2 ^ 64

/-- The first directory of a charge gets all of it. -/
theorem within_addUsed {s' : Dirs} (kept : s'.ddUsedBytes dd = s.ddUsedBytes dd + n) (bound : ℕ → ℤ) :
    (∀ d, s.ddUsedBytes d < s'.ddUsedBytes d → s'.ddUsedBytes d ≤ bound d) ↔
      (0 < n → s.ddUsedBytes dd + n ≤ bound dd) ∧
        ∀ d, (s.addUsed dd n).ddUsedBytes d < s'.ddUsedBytes d → s'.ddUsedBytes d ≤ bound d := by
  have split (m : ℤ) := forall_update_iff s.ddUsedBytes (a := dd) (b := m)
    fun d x => x < s'.ddUsedBytes d → s'.ddUsedBytes d ≤ bound d
  have whole := split (s.ddUsedBytes dd)
  rw [update_eq_self] at whole
  rw [whole, addUsed, split]
  simp [kept]

section Sound

variable (sound : t.Sound lim root)

include sound

theorem Sound.own_nonneg (live : dd ∈ t.objs) (above : Above t.ddParent dd d) : 0 ≤ t.own d := by
  have live : d ∈ t.objs := by
    induction above with
    | refl => exact live
    | tail _ up ih => exact sound.tree.parent_mem _ ih _ up
  rw [balanced_iff.mp sound.balanced d live]
  exact sound.charged d live

theorem Sound.counted (live : dd ∈ t.objs) (up : t.ddParent dd = some p) : t.ddReserved dd ≤ t.ddUsedBytes p := by
  have counted := accounted_le sound.reserved live up (sound.own_nonneg live (.single up))
  exact (le_max_right _ _).trans counted

theorem Sound.limit_le (d : ℕ) : t.limit lim d ≤ uint64Max := by
  have quota := sound.quota d
  rw [limit, uint64Max]
  split_ifs <;> omega

/-- A charge leaves the directories that it reaches within their limits if and only if it is available. On the way up the
    counts still to be changed are those that were asked about. -/
theorem charge_within_iff (live : dd ∈ t.objs) (nonneg : 0 ≤ n)
    (avail : t.spaceAvailable lim t.ddUsedBytes rounds dd = some a) (objs : s.objs = t.objs)
    (parent : s.ddParent = t.ddParent) (reserved : s.ddReserved = t.ddReserved)
    (equal : ∀ d, Above t.ddParent dd d → s.ddUsedBytes d = t.ddUsedBytes d)
    (charge : dslDirDiduseSpace rounds' s dd n = some s') :
    (∀ d, s.ddUsedBytes d < s'.ddUsedBytes d → s'.ddUsedBytes d ≤ t.limit lim d) ↔ n ≤ a := by
  induction rounds generalizing dd n a s rounds' with
  | zero => cases avail
  | succ rounds ih =>
    cases rounds' with
    | zero => cases charge
    | succ rounds' =>
      obtain ⟨above, isAbove, rfl⟩ := Option.map_eq_some_iff.mp avail
      have same := equal dd .refl
      have own : (s.addUsed dd n).ddUsedBytes dd = s.ddUsedBytes dd + n := update_self ..
      have word := sound.used dd
      have most := sound.limit_le dd
      rw [dslDirDiduseSpace, parentDelta, parent, reserved, if_pos (.inl nonneg)] at charge
      rw [uint64Max] at most
      cases up : t.ddParent dd with
      | none =>
        simp only [up] at charge isAbove
        cases charge
        cases isAbove
        rw [within_addUsed own, myspace, uint64Max, same]
        simp only [lt_irrefl, false_implies, implies_true, and_true, ne_eq, not_true, and_false, if_false]
        split_ifs <;> omega
      | some p =>
        simp only [up] at charge isAbove
        have live' := sound.tree.parent_mem dd live p up
        have apart := sound.tree.not_above live up
        have others := (rolled (t := s.addUsed dd n) (objs ▸ parent ▸ sound.tree) (objs ▸ live') charge).others
        rw [within_addUsed ((others dd (parent ▸ apart)).trans own),
          ih (s := s.addUsed dd n) live' (by omega) isAbove objs parent reserved ?_ charge]
        · have bounds := available_bounds isAbove
          have most' := sound.limit_le p
          have word' := sound.used p
          have counted := sound.counted live up
          rw [uint64Max] at most'
          rw [myspace, uint64Max, same]
          split_ifs <;> omega
        · intro d higher
          refine (update_of_ne ?_ _ _).trans (equal d (.head up higher))
          rintro rfl
          exact apart higher

/-- What is available to a directory is the most that can be charged to it. -/
theorem space_available_greatest (live : dd ∈ t.objs) (estimated : ℕ → ℤ) :
    ∃ rounds a, t.dslDirSpaceAvailable lim estimated rounds dd none 0 true = some a ∧
      IsGreatest (t.chargeable lim dd) a := by
  obtain ⟨rounds, a, avail⟩ := available_returns lim t.ddUsedBytes sound.tree live
  have nonneg := (available_bounds avail).1
  refine ⟨rounds, a, avail, ⟨nonneg, ?_⟩, ?_⟩
  · obtain ⟨rounds', t', charge⟩ := diduse_returns sound.tree live (.inl nonneg) sound.reserved
      fun d _ => sound.own_nonneg live
    refine ⟨rounds', t', charge, ?_⟩
    exact (charge_within_iff sound live nonneg avail rfl rfl rfl (fun _ _ => rfl) charge).mpr le_rfl
  · rintro n ⟨nonneg, rounds', t', charge, within⟩
    exact (charge_within_iff sound live nonneg avail rfl rfl rfl (fun _ _ => rfl) charge).mp within

end Sound

def poolDir (used : ℤ) : Dirs := ⟨{1}, fun _ => none, fun _ => used, fun _ => 0, fun _ => used⟩

theorem poolDir_tree (used : ℤ) : IsTree (poolDir used).objs (poolDir used).ddParent 1 := by
  refine ⟨by simp [poolDir], rfl, ?_, ?_⟩
  · intro a _ b up
    cases up
  · intro a member
    rw [Finset.mem_singleton.mp member]
    exact .refl

/-- The second directory uses ten of the thirty that are reserved for it. -/
def reservedDirs : Dirs :=
  { threeDirs with
    ddUsedBytes := fun d => if d = 1 then 50 else if d = 2 then 10 else 0
    ddReserved := fun d => if d = 2 then 30 else 0
    charged := fun d => if d = 1 then 20 else if d = 2 then 10 else 0 }

def reservedLimits : Limits := ⟨fun d => if d = 1 then 95 else if d = 2 then 90 else 0, 100⟩

/-- Its parent has 45 left, and 20 more are already counted there. -/
theorem space_available_reserved : ∃ rounds,
    reservedDirs.dslDirSpaceAvailable reservedLimits (fun _ => 0) rounds 2 none 0 true = some 65 ∧
      IsGreatest (reservedDirs.chargeable reservedLimits 2) 65 := by
  obtain ⟨⟨root, tree⟩, _⟩ := threeDirs_init
  have sound : reservedDirs.Sound reservedLimits root := by
    refine ⟨tree, by unfold Balanced; decide, by decide, fun d => ?_, fun d => ?_, fun d => ?_⟩
    all_goals
      simp only [reservedDirs, reservedLimits]
      split_ifs <;> decide
  obtain ⟨rounds, a, avail, greatest⟩ := space_available_greatest sound
    (show 2 ∈ reservedDirs.objs by decide) fun _ => 0
  obtain rfl : a = 65 := by
    rcases rounds with _ | _ | rounds
    · cases avail
    · cases avail
    · exact (Option.some.inj avail).symm
  exact ⟨rounds, avail, greatest⟩

/-! ## Reservations -/

theorem setReservation_cases (tree : IsTree t.objs t.ddParent root) (live : dd ∈ t.objs)
    (sync : dslDirSetReservationSync rounds t dd n = some s) :
    s.objs = t.objs ∧ s.ddParent = t.ddParent ∧ s.ddReserved = update t.ddReserved dd n := by
  simp only [dslDirSetReservationSync, show (t.setReserved dd n).ddParent = t.ddParent from rfl] at sync
  cases up : t.ddParent dd with
  | none =>
    simp only [up] at sync
    cases sync
    exact ⟨rfl, rfl, rfl⟩
  | some p =>
    simp only [up] at sync
    have rolled := rolled (t := t.setReserved dd n) tree (tree.parent_mem dd live p up) sync
    exact ⟨rolled.objs, rolled.parent, rolled.reserved⟩

/-- A reservation is only compared with the quota where the directory counts for more with it. -/
theorem reservation_accepted {estimated} (check : t.dslDirSetReservationCheck lim estimated rounds dd n = some true)
    (grows : t.accounted dd < max (t.ddUsedBytes dd) n) (limited : 0 < lim.ddQuota dd) : n ≤ lim.ddQuota dd := by
  rw [dslDirSetReservationCheck] at check
  rw [accounted] at grows
  split_ifs at check
  · cases check
  · obtain ⟨avail, _, accepted⟩ := Option.map_eq_some_iff.mp check
    have accepted := of_decide_eq_true accepted
    omega

end Dirs

open Dirs

/-! ## Runs -/

/-- `dsl_dir_set_quota_sync` -/
def Limits.dslDirSetQuotaSync (lim : Limits) (dd : ℕ) (newQuota : ℤ) : Limits :=
  { lim with ddQuota := update lim.ddQuota dd newQuota }

/-- Charges, and the changes that the checks accept. Reservations are further restricted by `asks`. -/
inductive QuotaStep (asks : Dirs → Limits → ℕ → ℤ → Prop) : Dirs × Limits → Dirs × Limits → Prop
  | diduse {t t' lim rounds dd used} (live : dd ∈ t.objs) (returns : dslDirDiduseSpace rounds t dd used = some t') :
      QuotaStep asks (t, lim) (t', lim)
  | setQuota {t lim dd newQuota estimated} (live : dd ∈ t.objs) (nonneg : 0 ≤ newQuota)
      (check : t.dslDirSetQuotaCheck estimated dd newQuota = true) :
      QuotaStep asks (t, lim) (t, lim.dslDirSetQuotaSync dd newQuota)
  | setReservation {t t' lim rounds rounds' dd newReservation estimated} (live : dd ∈ t.objs)
      (asked : asks t lim dd newReservation)
      (check : t.dslDirSetReservationCheck lim estimated rounds dd newReservation = some true)
      (sync : dslDirSetReservationSync rounds' t dd newReservation = some t') :
      QuotaStep asks (t, lim) (t', lim)

structure Kept (s : Dirs × Limits) : Prop where
  tree : ∃ root, IsTree s.1.objs s.1.ddParent root
  quota : ∀ dd, 0 ≤ s.2.ddQuota dd ∧ (s.2.ddQuota dd ≠ 0 → s.1.ddReserved dd ≤ s.2.ddQuota dd)

def quotaRuns (asks : Dirs → Limits → ℕ → ℤ → Prop) : Runs.System (Dirs × Limits) where
  init := Kept
  step := QuotaStep asks

/-- A reservation over the quota of a directory is of more than the directory uses. -/
def Reservable (t : Dirs) (lim : Limits) (dd : ℕ) (newReservation : ℤ) : Prop :=
  lim.ddQuota dd ≠ 0 → t.ddUsedBytes dd < newReservation ∨ newReservation ≤ lim.ddQuota dd

theorem Kept.step {s s'} (kept : Kept s) (step : QuotaStep Reservable s s') : Kept s' := by
  obtain ⟨⟨root, tree⟩, quota⟩ := kept
  cases step with
  | diduse live returns =>
    have rolled := rolled tree live returns
    refine ⟨⟨root, rolled.objs ▸ rolled.parent ▸ tree⟩, fun d => ?_⟩
    rw [rolled.reserved]
    exact quota d
  | @setQuota t lim dd newQuota estimated live nonneg check =>
    refine ⟨⟨root, tree⟩, fun d => ?_⟩
    have check : newQuota = 0 ∨ ¬(newQuota < t.ddReserved dd ∨ newQuota < estimated dd) := of_decide_eq_true check
    by_cases same : d = dd
    · subst same
      simp only [Limits.dslDirSetQuotaSync, update_self]
      omega
    · simpa only [Limits.dslDirSetQuotaSync, update_of_ne same] using quota d
  | @setReservation t t' lim rounds rounds' dd new estimated live asked check sync =>
    obtain ⟨objs, parent, reserved⟩ := setReservation_cases tree live sync
    refine ⟨⟨root, objs ▸ parent ▸ tree⟩, fun d => ?_⟩
    rw [reserved]
    by_cases same : d = dd
    · subst same
      rw [update_self]
      have before := quota d
      refine ⟨before.1, fun limited => ?_⟩
      have accepted := reservation_accepted check
      have asked := asked limited
      rw [accounted] at accepted
      dsimp only at limited before asked accepted ⊢
      omega
    · rw [update_of_ne same]
      exact quota d

/-- Where only reservations of more than a directory uses are asked for over its quota, no reservation is over a
    quota. -/
theorem reserved_le_quota {s} (reachable : (quotaRuns Reservable).Reachable s) (dd : ℕ) (limited : s.2.ddQuota dd ≠ 0) :
    s.1.ddReserved dd ≤ s.2.ddQuota dd :=
  ((reachable.invariant (fun _ init => init) fun _ _ => Kept.step).quota dd).2 limited

theorem poolDir_init (asks) : (quotaRuns asks).init (poolDir 0, ⟨fun _ => 0, 100⟩) :=
  ⟨⟨1, poolDir_tree 0⟩, fun _ => ⟨le_rfl, fun limited => absurd rfl limited⟩⟩

theorem reserved_le_quota_five : ∃ s, (quotaRuns Reservable).Reachable s ∧ s.1.ddReserved 1 = 5 ∧ s.2.ddQuota 1 = 10 ∧
    s.1.ddReserved 1 ≤ s.2.ddQuota 1 := by
  have reserved := (Runs.System.Reachable.first (poolDir_init Reservable)).next
    (@QuotaStep.setReservation _ _ _ _ 0 0 1 5 (fun _ => 0) (by decide) (fun limited => absurd rfl limited) (by decide) rfl)
  have limited := reserved.next (@QuotaStep.setQuota _ _ _ 1 10 (fun _ => 0) (by decide) (by decide) (by decide))
  exact ⟨_, limited, rfl, rfl, reserved_le_quota limited 1 (by decide)⟩

/-- A quota of ten is set, twenty are used, and then fifteen are reserved. -/
theorem reserved_over_quota : ∃ s, (quotaRuns fun _ _ _ _ => True).Reachable s ∧ s.2.ddQuota 1 = 10 ∧
    s.1.ddReserved 1 = 15 := by
  have limited := (Runs.System.Reachable.first (poolDir_init fun _ _ _ _ => True)).next
    (@QuotaStep.setQuota _ _ _ 1 10 (fun _ => 0) (by decide) (by decide) (by decide))
  have used := limited.next (@QuotaStep.diduse _ _ _ _ 1 1 20 (by decide) rfl)
  have reserved := used.next
    (@QuotaStep.setReservation _ _ _ _ 0 0 1 15 (fun _ => 20) (by decide) trivial (by decide) rfl)
  exact ⟨_, reserved, rfl, rfl⟩

end MacZfs.Dsl
