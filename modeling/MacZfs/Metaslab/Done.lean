import MacZfs.Metaslab.Condense

/-!
# A transaction group is done

`metaslab_sync_done` returns to the in-core map what the transaction group freed, takes over the
synced log, and evicts the map when nothing that it shows is missing from the log.
-/

namespace MacZfs

open Option Extents Checked SpaceMap

attribute [local irreducible] txgSlot txgClean

variable {R : MapRange} {T : ℕ} {ledger : Ledger ℕ} {msp : Metaslab} {acc : Accounts ℕ}
  {log : List Word} (books : MsBooks R T ledger msp acc log)

theorem foldlM_spaceMapFree (segs : List SpaceSeg)
    (freed : segs.foldlM (callOn spaceMapFree) sm = some sm') : segs.foldlM (callOn spaceMapAdd) sm = some sm' := by
  induction segs generalizing sm with
  | nil => exact freed
  | cons head tail ih =>
    simp only [List.foldlM_cons, callOn, spaceMapFree, bind_eq_bind,
      bind_eq_some_iff, guard_eq_some, pure_def, Option.some.injEq,
      exists_const] at freed ⊢
    obtain ⟨next, ⟨added, isAdded, -, rfl⟩, rest⟩ := freed
    exact ⟨added, isAdded, ih rest⟩

include books in
/-- What the in-core map holds after the map of freed space has been vacated into it. -/
theorem MsBooks.vacate (order)
    (vacate : spaceMapVacate order (msp.msFreemap (txgSlot T)) spaceMapFree msp.msMap = some (freedMap, sm)) :
    freedMap = (msp.msFreemap (txgSlot T)).vacated ∧ msp.msMap.Becomes sm (msp.msMap.offsets ∪ acc.freed) := by
  simp only [spaceMapVacate, bind_eq_bind, bind_eq_some_iff, pure_def, Option.some.injEq, Prod.mk.injEq] at vacate
  obtain ⟨sm', freed, rfl, rfl⟩ := vacate
  have freeOn := books.freeOn (txgSlot T)
  have perm := order.perm (msp.msFreemap (txgSlot T)).smRoot
  have same : cover (order.visit (msp.msFreemap (txgSlot T)).smRoot) = acc.freed :=
    (cover_perm perm).trans books.freed_eq
  have fresh : Disjoint msp.msMap.offsets acc.freed := by
    rw [Finset.disjoint_left]
    exact fun x free freed => (books.not_inUse free).2 (.inr (.inl freed))
  obtain ⟨sm'', added, becomes⟩ := foldlM_add (order.visit (msp.msFreemap (txgSlot T)).smRoot)
    books.mapOn.toWf (fun ss member => freeOn.fits_of books.mapOn ss (perm.mem_iff.mp member))
    (freeOn.separated.scattered.perm perm.symm) (same ▸ fresh)
  rw [foldlM_spaceMapFree _ freed, Option.some.injEq] at added
  rw [same] at becomes
  exact ⟨rfl, added ▸ becomes⟩

theorem Accounts.inUse_done (ok : acc.Ok R.set T ledger) : acc.done.InUse x ↔ acc.InUse x ∧ x ∉ acc.freed := by
  constructor
  · rintro (logged | freed | ⟨t, member⟩)
    · exact ⟨.inl logged, fun freed => (ok.freed_from x freed).1 logged⟩
    · simp [Accounts.done] at freed
    · exact ⟨.inr (.inr ⟨t, member⟩), (ok.allocs_apart t x member).2.1⟩
  · rintro ⟨logged | freed | allocated, kept⟩
    · exact .inl logged
    · exact absurd freed kept
    · exact .inr (.inr allocated)

/-- The slot of `T` becomes that of a new transaction group. -/
theorem Live.turn (live : Live (T + 1) t) : Live T t ∨ txgSlot t = txgSlot T ∧ ¬ Live T t := by
  simp only [Live, txgConcurrentStates, txgSlot_eq] at live ⊢
  omega

include books in
/-- The books once the freed space is back and the synced log has been taken over. -/
theorem MsBooks.done (noAllocs : acc.allocs (T + 1) = ∅)
    (noFrees : acc.frees (T + 1) = ∅) (smOn : sm.On R) (same : sm.smLoaded = msp.msMap.smLoaded)
    (free : sm.smLoaded = true → sm.offsets = msp.msMap.offsets ∪ acc.freed)
    (empty : sm.smLoaded = false → sm.smSpace = 0) :
    MsBooks R (T + 1) (ledger.settle R.set (T + 1)) { msp with
      msFreemap := setSlot msp.msFreemap (txgClean (T + 1)) (msp.msFreemap (txgSlot T)).vacated
      msMap := sm
      msSmo := msp.msSmoSyncing } acc.done log := by
  have live := live_next T
  refine ⟨books.ok.done noAllocs noFrees, smOn, books.allocOn,
    setSlot_on books.freeOn (books.freeOn _).vacated _, books.logOf, books.noObject, ?_, ?_,
    (books.allocs_eq _ live).trans noAllocs, ?_, ?_, ?_⟩
  · intro t live'
    rcases live'.turn with old | ⟨slot, dead⟩
    · exact books.allocs_eq t old
    · refine Eq.trans ?_ (books.ok.dead t dead).1.symm
      exact (congrArg (fun s => (msp.msAllocmap s).offsets) slot).trans books.spare
  · intro t live'
    rcases live'.turn with old | ⟨slot, dead⟩
    · refine (congrArg offsets (setSlot_other _ _ ?_)).trans (books.frees_eq t old)
      rw [txgSlot_clean]
      exact old.slot_ne_done.symm
    · refine Eq.trans ?_ (books.ok.dead t dead).2.symm
      exact congrArg offsets ((congrArg _ (slot.trans (txgSlot_clean T).symm)).trans
        (setSlot_same _ _ _))
  · refine (congrArg offsets (setSlot_other _ _ ?_)).trans
      ((books.frees_eq _ live).trans noFrees)
    rw [txgSlot_clean]
    exact live.slot_ne_done.symm
  · intro isLoaded x
    rw [Accounts.inUse_done books.ok, not_and_not_right]
    have old := books.loaded (same ▸ isLoaded) x
    rw [free isLoaded, Finset.mem_union, old]
    have inside : x ∈ acc.freed → x ∈ R.set := fun freed => books.inside (.inr (.inl freed))
    tauto
  · intro unloaded
    obtain ⟨-, none, -⟩ := books.unloaded (same ▸ unloaded)
    exact ⟨empty unloaded, none, log, [], (List.append_nil log).symm, by simpa [Accounts.done] using books.logOf⟩

include books in
theorem MsBooks.unload (noAllocs : ∀ t, acc.allocs t = ∅)
    (noFreed : acc.freed = ∅) (synced : msp.msSmo = msp.msSmoSyncing) :
    MsBooks R T ledger { msp with msMap := spaceMapUnload msp.msMap } acc log :=
  ⟨books.ok, books.mapOn.vacated.setFlags _ _ _, books.allocOn, books.freeOn, books.logOf,
    books.noObject, books.allocs_eq, books.frees_eq, books.spare, books.freed_eq,
    fun isLoaded => by simp [spaceMapUnload] at isLoaded,
    fun _ => ⟨rfl, noAllocs, log, [], (List.append_nil log).symm, by
      rw [noFreed, Finset.union_empty, synced]
      exact books.logOf⟩⟩

/-- Nothing is allocated in a transaction group that is still to sync. -/
theorem MsBooks.evictable (books : MsBooks R (T + 1) ledger msp acc log)
    (evictable : metaslabEvictable msp (T + 1) = true) (old : acc.allocs (T + 1 + txgConcurrentStates) = ∅) : ∀ t, acc.allocs t = ∅ := by
  intro t
  by_cases live : Live (T + 1) t
  · have bounds : t = T + 1 + 1 ∨ t = T + 1 + 2 ∨ t = T + 1 + txgConcurrentStates := by
      simp only [Live, txgConcurrentStates] at live ⊢
      omega
    have range : List.range' 1 (txgConcurrentStates - 1) = [1, 2] := rfl
    simp only [metaslabEvictable, range, List.all_cons, List.all_nil, Bool.and_true,
      Bool.and_eq_true, beq_iff_eq] at evictable
    rcases bounds with rfl | rfl | rfl
    · rw [← books.allocs_eq _ live, Metaslab.allocs, ← Finset.card_eq_zero, ← (books.allocOn _).space_eq_card]
      exact evictable.1
    · rw [← books.allocs_eq _ live, Metaslab.allocs, ← Finset.card_eq_zero, ← (books.allocOn _).space_eq_card]
      exact evictable.2
    · exact old
  · exact (books.ok.dead t live).1

include books in
/-- `metaslab_sync_done`. -/
theorem MsBooks.syncDone (vd) (order) (noAllocs : acc.allocs (T + 1) = ∅) (noFrees : acc.frees (T + 1) = ∅)
    (done : metaslabSyncDone vd order msp (T + 1) = some msp') :
    MsBooks R (T + 1) (ledger.settle R.set (T + 1)) msp' acc.done log := by
  have available : metaslabAvailable msp (T + 1) = msp := by
    refine if_neg fun none => ?_
    have size := (books.freeOn (txgSlot (txgClean (T + 1)))).size_eq
    have := R.nonempty
    omega
  rw [metaslabSyncDone, available] at done
  simp only [bind_eq_bind, bind_eq_some_iff, pure_def, Option.some.injEq, Prod.exists] at done
  obtain ⟨freedMap, sm, vacate, rfl⟩ := done
  rw [metaslabVacateFreed, txgSlot_clean] at vacate
  have shape : freedMap = (msp.msFreemap (txgSlot T)).vacated ∧ sm.On R ∧ sm.smLoaded = msp.msMap.smLoaded ∧
      (sm.smLoaded = true → sm.offsets = msp.msMap.offsets ∪ acc.freed) ∧
      (sm.smLoaded = false → sm.smSpace = 0) := by
    cases isLoaded : msp.msMap.smLoaded with
    | true =>
      rw [if_pos isLoaded] at vacate
      obtain ⟨eq, becomes⟩ := books.vacate order vacate
      have same := becomes.smLoaded_eq.trans isLoaded
      exact ⟨eq, becomes.on books.mapOn, same, fun _ => becomes.offsets_eq, by simp [same]⟩
    | false =>
      rw [if_neg (by simp [isLoaded])] at vacate
      obtain ⟨rfl, rfl⟩ := vacate
      exact ⟨rfl, books.mapOn, isLoaded, by simp [isLoaded], fun _ => (books.unloaded isLoaded).1⟩
  obtain ⟨rfl, smOn, same, free, empty⟩ := shape
  have next := books.done noAllocs noFrees smOn same free empty
  refine MsBooks.setWeight ?_ _
  unfold metaslabEvict
  split
  · rename_i evict
    refine next.unload (next.evictable evict.2.2 ?_) rfl rfl
    exact (books.ok.dead _ (by simp only [Live, txgConcurrentStates]; omega)).1
  · exact next

include books in
theorem MsBooks.skip (noAllocs : acc.allocs (T + 1) = ∅)
    (noFrees : acc.frees (T + 1) = ∅) (noFreed : acc.freed = ∅) :
    MsBooks R (T + 1) (ledger.settle R.set (T + 1)) msp acc log := by
  have live := live_next T
  have same : acc.done = acc := by
    rw [Accounts.done, ← noFreed]
  refine ⟨same ▸ books.ok.done noAllocs noFrees, books.mapOn, books.allocOn, books.freeOn, books.logOf,
    books.noObject, ?_, ?_, (books.allocs_eq _ live).trans noAllocs,
    ((books.frees_eq _ live).trans noFrees).trans noFreed.symm, books.loaded, books.unloaded⟩
  · intro t live'
    rcases live'.turn with old | ⟨slot, dead⟩
    · exact books.allocs_eq t old
    · rw [Metaslab.allocs, slot, (books.ok.dead t dead).1]
      exact books.spare
  · intro t live'
    rcases live'.turn with old | ⟨slot, dead⟩
    · exact books.frees_eq t old
    · rw [Metaslab.frees, slot, (books.ok.dead t dead).2]
      exact books.freed_eq.trans noFreed

/-! ## A metaslab comes up -/

theorem metaslabInit_done (vd) (order) (smo : SpaceMapObj) (object : DmuObject) (start size) :
    let sm := spaceMapCreate start size vd.vdevAshift
    metaslabSyncDone vd order (metaslabInit vd smo object start size) 0 =
      some ⟨smo, smo, fun _ => sm, fun _ => sm, sm,
        metaslabWeight vd ⟨smo, smo, fun _ => sm, fun _ => sm, sm, 0, object⟩, object⟩ := by
  intro sm
  have available : metaslabAvailable (metaslabInit vd smo object start size) 0 =
      ⟨⟨0, 0, 0⟩, smo, fun _ => sm, fun _ => sm, sm, 0, object⟩ := rfl
  have unchanged : setSlot (fun _ => sm) (txgClean 0) sm = fun _ => sm :=
    Function.update_eq_self _ _
  have empty : sm.vacated = sm := rfl
  rw [metaslabSyncDone, available]
  simp only [metaslabVacateFreed, show sm.smLoaded = false from rfl, Bool.false_eq_true, if_false,
    bind_eq_bind, bind_some, empty, unchanged, metaslabEvict, false_and,
    pure_def]

/-- `metaslab_init` of a metaslab with a good log, with the `metaslab_sync_done` it calls. -/
theorem metaslabInit_inv (vd) (order) (R)
    (shift : R.shift = vd.vdevAshift) (T) (logOf : LogOf R smo object log logged)
    (noObject : smo.smoObject = 0 → log = []) (held : ∀ x ∈ R.set, ∀ b, ledger x = .held b → x ∈ logged)
    (settled : ∀ x ∈ R.set, ∀ t, ledger x ≠ .freeing t) {msp}
    (init : metaslabSyncDone vd order (metaslabInit vd smo object R.start R.size) 0 = some msp) :
    MsInv R T ledger msp := by
  have on : (spaceMapCreate R.start R.size vd.vdevAshift).On R := shift ▸ on_create R
  rw [metaslabInit_done, Option.some.injEq] at init
  subst init
  exact ⟨⟨logged, ∅, fun _ => ∅, fun _ => ∅⟩, log, .start T held settled, on, fun _ => on,
    fun _ => on, logOf, noObject, fun _ _ => rfl, fun _ _ => rfl, rfl, rfl,
    fun isLoaded => by simp [spaceMapCreate] at isLoaded,
    fun _ => ⟨rfl, fun _ => rfl, log, [], (List.append_nil log).symm, by simpa using logOf⟩⟩

end MacZfs
