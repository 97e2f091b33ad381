import MacZfs.Base

/-!
# Who holds an offset

The abstract view of allocation is a ledger: everything that can be allocated is idle, held since
some transaction group, or being freed in one. An allocator that writes its state to disk one
transaction group at a time keeps the same information spread over several sets: what the log
has allocated, what each live transaction group has allocated and freed, and what the syncing one
has freed but may not hand out again before it is done. `Accounts.Ok` says how these sets agree
with the ledger when `T` is the last transaction group that is done. Each operation of the
allocator is a change of the sets and of the ledger that keeps the agreement.
-/

namespace MacZfs

open Finset

inductive Holding where
  | idle
  | held (birth : ℕ)
  | freeing (txg : ℕ)
  deriving Repr, DecidableEq

/-- The transaction groups that may be open, quiescing or syncing when `T` is done. -/
def Live (T txg : ℕ) : Prop := T < txg ∧ txg ≤ T + txgConcurrentStates

section Abstract

variable {α : Type}

abbrev Ledger (α : Type) := α → Holding

def Ledger.assign [DecidableEq α] (ledger : Ledger α) (s : Finset α) (holding : Holding) : Ledger α := fun x =>
  if x ∈ s then holding else ledger x

/-- The ledger when what `txg` freed inside `region` may be used again. -/
def Ledger.settle [DecidableEq α] (ledger : Ledger α) (region : Finset α) (txg : ℕ) : Ledger α := fun x =>
  if x ∈ region ∧ ledger x = .freeing txg then .idle else ledger x

/-- The ledger when everything that `txg` freed may be used again. -/
def Ledger.settleAll (ledger : Ledger α) (txg : ℕ) : Ledger α := fun x =>
  if ledger x = .freeing txg then .idle else ledger x

structure Accounts (α : Type) where
  logged : Finset α
  freed : Finset α
  allocs : ℕ → Finset α
  frees : ℕ → Finset α

namespace Accounts

/-- Allocated in `txg` or before. -/
def AllocatedBy (acc : Accounts α) (txg : ℕ) (x : α) : Prop :=
  x ∈ acc.logged ∨ ∃ t ≤ txg, x ∈ acc.allocs t

def InUse (acc : Accounts α) (x : α) : Prop :=
  x ∈ acc.logged ∨ x ∈ acc.freed ∨ ∃ t, x ∈ acc.allocs t

structure Ok (acc : Accounts α) (region : Finset α) (T : ℕ) (ledger : Ledger α) : Prop where
  dead : ∀ t, ¬ Live T t → acc.allocs t = ∅ ∧ acc.frees t = ∅
  allocs_apart : ∀ t, ∀ x ∈ acc.allocs t, x ∉ acc.logged ∧ x ∉ acc.freed ∧
    ∀ t', x ∈ acc.allocs t' → t' = t
  freed_from : ∀ x ∈ acc.freed, x ∉ acc.logged ∧ ledger x = .freeing (T + 1)
  frees_from : ∀ t, ∀ x ∈ acc.frees t, ledger x = .freeing t ∧ acc.AllocatedBy t x
  held_from : ∀ x ∈ region, ∀ b, ledger x = .held b → acc.AllocatedBy b x
  freeing_from : ∀ x ∈ region, ∀ t, ledger x = .freeing t → Live T t ∧ acc.InUse x

/-- Space for `txg`. -/
def allocate [DecidableEq α] (acc : Accounts α) (txg : ℕ) (s : Finset α) : Accounts α :=
  { acc with allocs := Function.update acc.allocs txg (acc.allocs txg ∪ s) }

/-- Space that `txg` gives back at once. -/
def release [DecidableEq α] (acc : Accounts α) (txg : ℕ) (s : Finset α) : Accounts α :=
  { acc with allocs := Function.update acc.allocs txg (acc.allocs txg \ s) }

/-- Space that `txg` frees. -/
def defer [DecidableEq α] (acc : Accounts α) (txg : ℕ) (s : Finset α) : Accounts α :=
  { acc with frees := Function.update acc.frees txg (acc.frees txg ∪ s) }

/-- What `txg` has done so far goes to the log. -/
def sync [DecidableEq α] (acc : Accounts α) (txg : ℕ) : Accounts α where
  logged := (acc.logged ∪ acc.allocs txg) \ acc.frees txg
  freed := acc.freed ∪ acc.frees txg
  allocs := Function.update acc.allocs txg ∅
  frees := Function.update acc.frees txg ∅

def done (acc : Accounts α) : Accounts α := { acc with freed := ∅ }

variable {acc : Accounts α} {region s : Finset α} {T txg : ℕ} {ledger : Ledger α} {x : α}

theorem AllocatedBy.inUse (allocated : acc.AllocatedBy txg x) : acc.InUse x := by
  rcases allocated with logged | ⟨t, -, inside⟩
  · exact .inl logged
  · exact .inr (.inr ⟨t, inside⟩)

theorem AllocatedBy.mono (allocated : acc.AllocatedBy txg x) (le : txg ≤ txg') : acc.AllocatedBy txg' x := by
  rcases allocated with logged | ⟨t, bound, inside⟩
  · exact .inl logged
  · exact .inr ⟨t, bound.trans le, inside⟩

theorem Ok.idle (ok : acc.Ok region T ledger) (inside : x ∈ region) (free : ¬ acc.InUse x) : ledger x = .idle := by
  cases holding : ledger x with
  | idle => rfl
  | held b => exact absurd (ok.held_from x inside b holding).inUse free
  | freeing t => exact absurd (ok.freeing_from x inside t holding).2 free

theorem Ok.congr (ok : acc.Ok region T ledger)
    (inside : ∀ x, acc.InUse x → x ∈ region) (same : ∀ x ∈ region, ledger' x = ledger x) :
    acc.Ok region T ledger' where
  dead := ok.dead
  allocs_apart := ok.allocs_apart
  freed_from x freed := by
    rw [same x (inside x (.inr (.inl freed)))]
    exact ok.freed_from x freed
  frees_from t x freed := by
    rw [same x (inside x (ok.frees_from t x freed).2.inUse)]
    exact ok.frees_from t x freed
  held_from x member := by
    rw [same x member]
    exact ok.held_from x member
  freeing_from x member := by
    rw [same x member]
    exact ok.freeing_from x member

variable {t : ℕ}

theorem Ok.live_of_mem (ok : acc.Ok region T ledger) (member : x ∈ acc.allocs t) : Live T t := by
  by_contra dead
  simp [(ok.dead t dead).1] at member

theorem Ok.start {logged} (T) (held : ∀ x ∈ region, ∀ b, ledger x = .held b → x ∈ logged)
    (settled : ∀ x ∈ region, ∀ t, ledger x ≠ .freeing t) :
    Accounts.Ok ⟨logged, ∅, fun _ => ∅, fun _ => ∅⟩ region T ledger where
  dead _ _ := ⟨rfl, rfl⟩
  allocs_apart _ _ member := by simp at member
  freed_from _ freed := by simp at freed
  frees_from _ _ freed := by simp at freed
  held_from x inside b holds := .inl (held x inside b holds)
  freeing_from x inside t freeing := absurd freeing (settled x inside t)

/-! ## The operations keep the agreement -/

variable [DecidableEq α]

theorem mem_allocs_allocate : x ∈ (acc.allocate txg s).allocs t ↔ x ∈ acc.allocs t ∨ t = txg ∧ x ∈ s := by
  by_cases same : t = txg
  · simp [allocate, same]
  · simp [allocate, same]

theorem allocatedBy_allocate : (acc.allocate txg s).AllocatedBy t x ↔ acc.AllocatedBy t x ∨ txg ≤ t ∧ x ∈ s := by
  simp only [AllocatedBy, mem_allocs_allocate]
  constructor
  · rintro (logged | ⟨u, bound, old | ⟨rfl, new⟩⟩)
    · exact .inl (.inl logged)
    · exact .inl (.inr ⟨u, bound, old⟩)
    · exact .inr ⟨bound, new⟩
  · rintro ((logged | ⟨u, bound, old⟩) | ⟨bound, new⟩)
    · exact .inl logged
    · exact .inr ⟨u, bound, .inl old⟩
    · exact .inr ⟨txg, bound, .inr ⟨rfl, new⟩⟩

theorem inUse_allocate : (acc.allocate txg s).InUse x ↔ acc.InUse x ∨ x ∈ s := by
  simp only [InUse, mem_allocs_allocate]
  constructor
  · rintro (logged | freed | ⟨u, old | ⟨-, new⟩⟩)
    · exact .inl (.inl logged)
    · exact .inl (.inr (.inl freed))
    · exact .inl (.inr (.inr ⟨u, old⟩))
    · exact .inr new
  · rintro ((logged | freed | ⟨u, old⟩) | new)
    · exact .inl logged
    · exact .inr (.inl freed)
    · exact .inr (.inr ⟨u, .inl old⟩)
    · exact .inr (.inr ⟨txg, .inr ⟨rfl, new⟩⟩)

theorem Ok.allocate (ok : acc.Ok region T ledger) (live : Live T txg)
    (free : ∀ x ∈ s, ¬ acc.InUse x) : (acc.allocate txg s).Ok region T (ledger.assign s (.held txg)) := by
  have unassigned : ∀ x, acc.InUse x → ledger.assign s (.held txg) x = ledger x := fun x used =>
    if_neg fun member => free x member used
  constructor
  · intro t dead
    have ne : t ≠ txg := fun same => dead (same ▸ live)
    simpa [Accounts.allocate, ne] using ok.dead t dead
  · intro t x member
    rcases mem_allocs_allocate.mp member with old | ⟨rfl, new⟩
    · obtain ⟨notLogged, notFreed, unique⟩ := ok.allocs_apart t x old
      refine ⟨notLogged, notFreed, fun t' member' => ?_⟩
      rcases mem_allocs_allocate.mp member' with old' | ⟨-, new'⟩
      · exact unique t' old'
      · exact absurd (.inr (.inr ⟨t, old⟩)) (free x new')
    · refine ⟨fun logged => free x new (.inl logged), fun freed => free x new (.inr (.inl freed)),
        fun t' member' => ?_⟩
      rcases mem_allocs_allocate.mp member' with old' | ⟨same, -⟩
      · exact absurd (.inr (.inr ⟨t', old'⟩)) (free x new)
      · exact same
  · intro x freed
    rw [unassigned x (.inr (.inl freed))]
    exact ok.freed_from x freed
  · intro t x freed
    obtain ⟨state, allocated⟩ := ok.frees_from t x freed
    rw [unassigned x allocated.inUse]
    exact ⟨state, allocatedBy_allocate.mpr (.inl allocated)⟩
  · intro x inside b held
    rw [allocatedBy_allocate]
    unfold Ledger.assign at held
    split at held
    · rename_i member
      injection held with birth
      exact .inr ⟨birth.le, member⟩
    · exact .inl (ok.held_from x inside b held)
  · intro x inside t freeing
    unfold Ledger.assign at freeing
    split at freeing
    · simp at freeing
    · obtain ⟨live', used⟩ := ok.freeing_from x inside t freeing
      exact ⟨live', inUse_allocate.mpr (.inl used)⟩

theorem allocatedBy_release (txg) (allocated : acc.AllocatedBy t x) (kept : x ∉ s) :
    (acc.release txg s).AllocatedBy t x := by
  rcases allocated with logged | ⟨u, bound, inside⟩
  · exact .inl logged
  · refine .inr ⟨u, bound, ?_⟩
    by_cases same : u = txg
    · subst same
      simpa [release] using ⟨inside, kept⟩
    · simpa [release, same] using inside

theorem mem_allocs_release (member : x ∈ (acc.release txg s).allocs t) : x ∈ acc.allocs t := by
  by_cases same : t = txg
  · subst same
    simp only [release, Function.update_self, mem_sdiff] at member
    exact member.1
  · simpa [release, same] using member

theorem inUse_release (released : s ⊆ acc.allocs txg) (ok : acc.Ok region T ledger) :
    (acc.release txg s).InUse x ↔ acc.InUse x ∧ x ∉ s := by
  constructor
  · rintro (logged | freed | ⟨t, member⟩)
    · exact ⟨.inl logged, fun inside => (ok.allocs_apart txg x (released inside)).1 logged⟩
    · exact ⟨.inr (.inl freed), fun inside => (ok.allocs_apart txg x (released inside)).2.1 freed⟩
    · refine ⟨.inr (.inr ⟨t, mem_allocs_release member⟩), fun inside => ?_⟩
      have same := (ok.allocs_apart txg x (released inside)).2.2 t (mem_allocs_release member)
      subst same
      simp [release, inside] at member
  · rintro ⟨logged | freed | ⟨t, member⟩, kept⟩
    · exact .inl logged
    · exact .inr (.inl freed)
    · rcases allocatedBy_release txg (.inr ⟨t, le_refl t, member⟩) kept with
        logged | ⟨u, -, member'⟩
      · exact .inl logged
      · exact .inr (.inr ⟨u, member'⟩)

theorem Ok.release (ok : acc.Ok region T ledger) (released : s ⊆ acc.allocs txg)
    (held : ∀ x ∈ s, ledger x = .held txg) : (acc.release txg s).Ok region T (ledger.assign s .idle) := by
  have unassigned : ∀ x t, ledger x = .freeing t → x ∉ s := by
    intro x t freeing member
    rw [held x member] at freeing
    simp at freeing
  constructor
  · intro t dead
    obtain ⟨noAllocs, noFrees⟩ := ok.dead t dead
    refine ⟨?_, noFrees⟩
    by_cases same : t = txg
    · subst same
      simp [Accounts.release, noAllocs]
    · simpa [Accounts.release, same] using noAllocs
  · intro t x member
    obtain ⟨notLogged, notFreed, unique⟩ := ok.allocs_apart t x (mem_allocs_release member)
    exact ⟨notLogged, notFreed, fun t' member' => unique t' (mem_allocs_release member')⟩
  · intro x freed
    obtain ⟨notLogged, freeing⟩ := ok.freed_from x freed
    exact ⟨notLogged, (if_neg (unassigned x _ freeing)).trans freeing⟩
  · intro t x freed
    obtain ⟨freeing, allocated⟩ := ok.frees_from t x freed
    exact ⟨(if_neg (unassigned x _ freeing)).trans freeing,
      allocatedBy_release txg allocated (unassigned x _ freeing)⟩
  · intro x inside b holds
    unfold Ledger.assign at holds
    split at holds
    · simp at holds
    · rename_i kept
      exact allocatedBy_release txg (ok.held_from x inside b holds) kept
  · intro x inside t freeing
    unfold Ledger.assign at freeing
    split at freeing
    · simp at freeing
    · rename_i kept
      obtain ⟨live, used⟩ := ok.freeing_from x inside t freeing
      exact ⟨live, (inUse_release released ok).mpr ⟨used, kept⟩⟩

theorem mem_frees_defer : x ∈ (acc.defer txg s).frees t ↔ x ∈ acc.frees t ∨ t = txg ∧ x ∈ s := by
  by_cases same : t = txg
  · simp [defer, same]
  · simp [defer, same]

theorem Ok.defer (ok : acc.Ok region T ledger) (live : Live T txg) (inside : s ⊆ region)
    (held : ∀ x ∈ s, ∃ b ≤ txg, ledger x = .held b) :
    (acc.defer txg s).Ok region T (ledger.assign s (.freeing txg)) := by
  have unassigned : ∀ x t, ledger x = .freeing t → x ∉ s := by
    intro x t freeing member
    obtain ⟨b, -, birth⟩ := held x member
    rw [birth] at freeing
    simp at freeing
  constructor
  · intro t dead
    have ne : t ≠ txg := fun same => dead (same ▸ live)
    simpa [Accounts.defer, ne] using ok.dead t dead
  · exact ok.allocs_apart
  · intro x freed
    obtain ⟨notLogged, freeing⟩ := ok.freed_from x freed
    exact ⟨notLogged, (if_neg (unassigned x _ freeing)).trans freeing⟩
  · intro t x freed
    rcases mem_frees_defer.mp freed with old | ⟨rfl, new⟩
    · obtain ⟨freeing, allocated⟩ := ok.frees_from t x old
      exact ⟨(if_neg (unassigned x _ freeing)).trans freeing, allocated⟩
    · obtain ⟨b, le, birth⟩ := held x new
      exact ⟨if_pos new, (ok.held_from x (inside new) b birth).mono le⟩
  · intro x member b holds
    unfold Ledger.assign at holds
    split at holds
    · simp at holds
    · exact ok.held_from x member b holds
  · intro x member t freeing
    unfold Ledger.assign at freeing
    split at freeing
    · rename_i new
      obtain ⟨b, -, birth⟩ := held x new
      injection freeing with same
      subst same
      exact ⟨live, (ok.held_from x member b birth).inUse⟩
    · exact ok.freeing_from x member t freeing

theorem mem_allocs_sync : x ∈ (acc.sync txg).allocs t ↔ x ∈ acc.allocs t ∧ t ≠ txg := by
  by_cases same : t = txg
  · simp [sync, same]
  · simp [sync, same]

theorem mem_frees_sync : x ∈ (acc.sync txg).frees t ↔ x ∈ acc.frees t ∧ t ≠ txg := by
  by_cases same : t = txg
  · simp [sync, same]
  · simp [sync, same]

theorem allocatedBy_sync (allocated : acc.AllocatedBy t x) (kept : x ∉ acc.frees txg) :
    (acc.sync txg).AllocatedBy t x := by
  rcases allocated with logged | ⟨u, bound, member⟩
  · exact .inl (by simp [sync, logged, kept])
  · by_cases same : u = txg
    · subst same
      exact .inl (by simp [sync, member, kept])
    · exact .inr ⟨u, bound, mem_allocs_sync.mpr ⟨member, same⟩⟩

section

variable (ok : acc.Ok region T ledger)

include ok

theorem inUse_sync : (acc.sync txg).InUse x ↔ acc.InUse x := by
  simp only [InUse, mem_allocs_sync]
  simp only [sync, mem_sdiff, mem_union]
  constructor
  · rintro (⟨logged | member, -⟩ | (freed | freed) | ⟨t, member, -⟩)
    · exact .inl logged
    · exact .inr (.inr ⟨txg, member⟩)
    · exact .inr (.inl freed)
    · exact (ok.frees_from txg x freed).2.inUse
    · exact .inr (.inr ⟨t, member⟩)
  · by_cases freed : x ∈ acc.frees txg
    · exact fun _ => .inr (.inl (.inr freed))
    · rintro (logged | waiting | ⟨t, member⟩)
      · exact .inl ⟨.inl logged, freed⟩
      · exact .inr (.inl (.inl waiting))
      · by_cases same : t = txg
        · subst same
          exact .inl ⟨.inr member, freed⟩
        · exact .inr (.inr ⟨t, member, same⟩)

theorem Ok.sync : (acc.sync (T + 1)).Ok region T ledger := by
  have kept : ∀ x, ledger x ≠ .freeing (T + 1) → x ∉ acc.frees (T + 1) := fun x other freed =>
    other (ok.frees_from _ x freed).1
  constructor
  · intro t dead
    obtain ⟨noAllocs, noFrees⟩ := ok.dead t dead
    by_cases same : t = T + 1
    · simp [Accounts.sync, same]
    · simpa [Accounts.sync, same] using ⟨noAllocs, noFrees⟩
  · intro t x member
    obtain ⟨old, ne⟩ := mem_allocs_sync.mp member
    obtain ⟨notLogged, notFreed, unique⟩ := ok.allocs_apart t x old
    refine ⟨?_, ?_, fun t' member' => unique t' (mem_allocs_sync.mp member').1⟩
    · simp only [Accounts.sync, mem_sdiff, mem_union, not_and, not_not]
      rintro (logged | synced)
      · exact absurd logged notLogged
      · exact absurd (unique _ synced).symm ne
    · -- A free in the first live group is of something allocated no later than that.
      simp only [Accounts.sync, mem_union, not_or]
      refine ⟨notFreed, fun freed => ?_⟩
      rcases (ok.frees_from _ x freed).2 with logged | ⟨u, bound, inside⟩
      · exact notLogged logged
      · have same := unique u inside
        have lower := (ok.live_of_mem old).1
        omega
  · intro x freed
    simp only [Accounts.sync, mem_union] at freed
    simp only [Accounts.sync, mem_sdiff, mem_union, not_and, not_not]
    rcases freed with waiting | freed
    · obtain ⟨notLogged, freeing⟩ := ok.freed_from x waiting
      refine ⟨?_, freeing⟩
      rintro (logged | synced)
      · exact absurd logged notLogged
      · exact absurd waiting (ok.allocs_apart _ x synced).2.1
    · exact ⟨fun _ => freed, (ok.frees_from _ x freed).1⟩
  · intro t x member
    obtain ⟨freed, ne⟩ := mem_frees_sync.mp member
    obtain ⟨freeing, allocated⟩ := ok.frees_from t x freed
    exact ⟨freeing, allocatedBy_sync allocated (kept x (by simp [freeing, ne]))⟩
  · intro x inside b held
    exact allocatedBy_sync (ok.held_from x inside b held) (kept x (by simp [held]))
  · intro x inside t freeing
    obtain ⟨live, used⟩ := ok.freeing_from x inside t freeing
    exact ⟨live, (inUse_sync ok).mpr used⟩

theorem Ok.done (noAllocs : acc.allocs (T + 1) = ∅)
    (noFrees : acc.frees (T + 1) = ∅) : acc.done.Ok region (T + 1) (ledger.settle region (T + 1)) := by
  have unsettled : ∀ x, ledger x ≠ .freeing (T + 1) → ledger.settle region (T + 1) x = ledger x :=
    fun x other => if_neg fun both => other both.2
  constructor
  · intro t dead
    by_cases same : t = T + 1
    · exact same ▸ ⟨noAllocs, noFrees⟩
    · refine ok.dead t fun live => dead ?_
      simp only [Live, txgConcurrentStates] at live ⊢
      omega
  · intro t x member
    obtain ⟨notLogged, -, unique⟩ := ok.allocs_apart t x member
    exact ⟨notLogged, by simp [Accounts.done], unique⟩
  · intro x freed
    simp [Accounts.done] at freed
  · intro t x freed
    obtain ⟨freeing, allocated⟩ := ok.frees_from t x freed
    have ne : t ≠ T + 1 := by
      rintro rfl
      simp [Accounts.done, noFrees] at freed
    rw [unsettled x (by simp [freeing, ne])]
    exact ⟨freeing, allocated⟩
  · intro x inside b held
    unfold Ledger.settle at held
    split at held
    · simp at held
    · exact ok.held_from x inside b held
  · intro x inside t freeing
    unfold Ledger.settle at freeing
    split at freeing
    · simp at freeing
    · rename_i other
      have ne : t ≠ T + 1 := by
        rintro rfl
        exact other ⟨inside, freeing⟩
      obtain ⟨live, used⟩ := ok.freeing_from x inside t freeing
      constructor
      · simp only [Live, txgConcurrentStates] at live ⊢
        omega
      · rcases used with logged | freed | allocated
        · exact .inl logged
        · have := (ok.freed_from x freed).2
          simp_all
        · exact .inr (.inr allocated)

end

end Accounts

end Abstract

end MacZfs
