import MacZfs.Metaslab.Steps

/-!
# Syncing a metaslab

`metaslab_sync` either appends to the log what the transaction group allocated and freed, or
rewrites the log from the in-core map. Both lead to the same allocated set, the one that the
accounts have after `Accounts.sync`.
-/

namespace MacZfs

open Extents Checked Finset SpaceMap Accounts

-- Comparing metaslabs field by field must not compute slots.
attribute [local irreducible] txgSlot txgClean

variable {R : MapRange} {T : ℕ} {ledger : Ledger ℕ} {msp : Metaslab} {acc : Accounts ℕ}
  {log : List Word}

/-! ## The map of freed space -/

structure SyncReady (R : MapRange) (T : ℕ) (ledger : Ledger ℕ) (msp : Metaslab) (acc : Accounts ℕ)
    (log : List Word) : Prop where
  ok : acc.Ok R.set T ledger
  inside : ∀ x, acc.InUse x → x ∈ R.set
  mapOn : msp.msMap.On R
  allocOn : ∀ s, (msp.msAllocmap s).On R
  freeOn : ∀ s, (msp.msFreemap s).On R
  logOf : LogOf R msp.msSmoSyncing msp.msObject log acc.logged
  object : msp.msSmoSyncing.smoObject ≠ 0
  allocs_eq : ∀ t, Live T t → msp.allocs t = acc.allocs t
  frees_eq : ∀ t, Live T t → msp.frees t = acc.frees t
  spare : msp.allocs T = ∅
  freed_eq : msp.frees T = acc.freed ∪ acc.frees (T + 1)
  loaded : msp.msMap.smLoaded = true → ∀ x, x ∈ msp.msMap.offsets ↔ x ∈ R.set ∧ ¬ acc.InUse x
  unloaded : msp.msMap.smLoaded = false → msp.msMap.smSpace = 0 ∧ (∀ t, acc.allocs t = ∅) ∧
    ∃ old rest, log = old ++ rest ∧ LogOf R msp.msSmo msp.msObject old (acc.logged ∪ acc.freed)

theorem MsBooks.object (books : MsBooks R T ledger msp acc log) (newObject) :
    MsBooks R T ledger (metaslabObject msp newObject) acc log := by
  unfold metaslabObject
  split
  · rename_i none
    have empty := books.noObject none
    subst empty
    obtain ⟨objsize, -, replays, alloc⟩ := books.logOf
    refine ⟨books.ok, books.mapOn, books.allocOn, books.freeOn,
      ⟨objsize, holds_nil _, replays, alloc⟩, fun _ => rfl, books.allocs_eq, books.frees_eq,
      books.spare, books.freed_eq, books.loaded, ?_⟩
    intro unloaded
    obtain ⟨space, noAllocs, old, rest, split, objsize, -, replays, alloc⟩ := books.unloaded unloaded
    obtain ⟨rfl, rfl⟩ := List.append_eq_nil_iff.mp split.symm
    exact ⟨space, noAllocs, [], [], rfl, objsize, holds_nil _, replays, alloc⟩
  · exact books

theorem metaslabObject_ne (new : newObject ≠ 0) : (metaslabObject msp newObject).msSmoSyncing.smoObject ≠ 0 := by
  unfold metaslabObject
  split
  · exact new
  · assumption

/-- The parts of `metaslab_sync` before the log is written leave the in-core map alone. -/
theorem metaslabSyncFreed_map
    (freed : metaslabSyncFreed (metaslabObject msp newObject) txg = some msp') : msp'.msMap = msp.msMap := by
  simp only [metaslabSyncFreed, Option.bind_eq_bind, Option.bind_eq_some_iff, Option.pure_def,
    Option.some.injEq] at freed
  obtain ⟨freedMap, -, rfl⟩ := freed
  unfold metaslabObject
  split <;> rfl

theorem Accounts.Ok.frees_not_freed (ok : acc.Ok R.set T ledger) (free : x ∈ acc.frees t) : x ∉ acc.freed := by
  intro freed
  rcases (ok.frees_from t x free).2 with logged | ⟨u, -, member⟩
  · exact (ok.freed_from x freed).1 logged
  · exact (ok.allocs_apart u x member).2.1 freed

theorem MsBooks.syncFreed (books : MsBooks R T ledger msp acc log) (object : msp.msSmoSyncing.smoObject ≠ 0) :
    ∃ msp', metaslabSyncFreed msp (T + 1) = some msp' ∧ SyncReady R T ledger msp' acc log := by
  have live := live_next T
  have fresh : Disjoint (msp.frees T) (msp.frees (T + 1)) := by
    rw [books.freed_eq, books.frees_eq _ live, disjoint_left]
    exact fun x freed free => books.ok.frees_not_freed free freed
  obtain ⟨freedMap, walked, becomes⟩ :=
    (books.freeOn (txgSlot (T + 1))).walk_add (books.freeOn (txgSlot T)) fresh
  have freedOn := becomes.on (books.freeOn (txgSlot T))
  refine ⟨{ msp with msFreemap := setSlot msp.msFreemap (txgClean (T + 1)) freedMap }, ?_, books.ok,
    fun _ used => books.inside used, books.mapOn, books.allocOn, setSlot_on books.freeOn freedOn (txgClean (T + 1)), books.logOf,
    object, books.allocs_eq, ?_, books.spare, ?_, books.loaded, books.unloaded⟩
  · rw [metaslabSyncFreed, txgSlot_clean, walked]
    rfl
  · intro t live'
    refine (congrArg offsets (setSlot_other _ _ ?_)).trans (books.frees_eq t live')
    rw [txgSlot_clean]
    exact live'.slot_ne_done.symm
  · have same : setSlot msp.msFreemap (txgClean (T + 1)) freedMap (txgSlot T) = freedMap := by
      rw [← txgSlot_clean]
      exact setSlot_same _ _ _
    refine (congrArg offsets same).trans (becomes.offsets_eq.trans ?_)
    exact congrArg₂ (· ∪ ·) books.freed_eq (books.frees_eq _ live)

/-! ## Writing the maps -/

/-- The allocmap and the freemap of a transaction group written to the log, one after the other. -/
theorem metaslabSyncMaps_spec (msp) (order) (txg syncpass) (allocEq : msp.msAllocmap (txgSlot txg) = allocmap)
    (freeEq : msp.msFreemap (txgSlot txg) = freemap) (allocOn : allocmap.On R)
    (freeOn : freemap.On R) (encodable : R.Encodable R.set)
    (logOf : LogOf R msp.msSmoSyncing msp.msObject log A) (fresh : Disjoint A allocmap.offsets)
    (held : freemap.offsets ⊆ A ∪ allocmap.offsets) :
    ∃ smo object rest, metaslabSyncMaps order msp txg syncpass = some { msp with
        msAllocmap := setSlot msp.msAllocmap txg allocmap.vacated
        msFreemap := setSlot msp.msFreemap txg freemap.vacated
        msSmoSyncing := smo
        msObject := object } ∧
      smo.smoObject = msp.msSmoSyncing.smoObject ∧
      LogOf R smo object (log ++ rest) ((A ∪ allocmap.offsets) \ freemap.offsets) := by
  obtain ⟨smo, object, synced, same, logOf'⟩ := spaceMapSync_spec order .smAlloc logOf allocOn
    (encodable.mono allocOn.subset) fresh syncpass txg
  obtain ⟨smo', object', synced', same', logOf''⟩ := spaceMapSync_spec order .smFree logOf' freeOn
    (encodable.mono freeOn.subset) held syncpass txg
  refine ⟨smo', object', _, ?_, same'.trans same, List.append_assoc _ _ _ ▸ logOf''⟩
  rw [metaslabSyncMaps, allocEq, freeEq, synced]
  simp only [Option.bind_eq_bind, Option.bind_some, synced', Option.pure_def]

/-! ## Condensing -/

section Accounts

variable (ok : acc.Ok R.set T ledger)
include ok

theorem Accounts.Ok.frees_next (free : x ∈ acc.frees (T + 1)) : x ∈ acc.logged ∪ acc.allocs (T + 1) := by
  rcases (ok.frees_from _ x free).2 with logged | ⟨u, bound, member⟩
  · exact mem_union_left _ logged
  · have lower := (ok.live_of_mem member).1
    have same : u = T + 1 := by omega
    exact mem_union_right _ (same ▸ member)

theorem Accounts.Ok.allocs_not_freed (member : x ∈ acc.allocs t) (later : t ≠ T + 1) :
    x ∉ acc.freed ∪ acc.frees (T + 1) := by
  obtain ⟨notLogged, notFreed, unique⟩ := ok.allocs_apart t x member
  rw [mem_union, not_or]
  refine ⟨notFreed, fun free => ?_⟩
  rcases Finset.mem_union.mp (ok.frees_next free) with logged | own
  · exact notLogged logged
  · exact later (unique _ own).symm

/-- Everything minus what is available, what waits and what later transaction groups have
    allocated is what the log holds after the sync. -/
theorem Accounts.Ok.condensed : (acc.InUse x ∧ x ∉ acc.freed ∪ acc.frees (T + 1) ∧ x ∉ acc.allocs (T + 2) ∧
      x ∉ acc.allocs (T + 3)) ↔ x ∈ (acc.sync (T + 1)).logged := by
  simp only [Accounts.sync, mem_sdiff, mem_union, not_or]
  constructor
  · rintro ⟨logged | freed | ⟨t, member⟩, ⟨notFreed, kept⟩, notSecond, notThird⟩
    · exact ⟨.inl logged, kept⟩
    · exact absurd freed notFreed
    · have live := ok.live_of_mem member
      simp only [Live, txgConcurrentStates] at live
      have cases : t = T + 1 ∨ t = T + 2 ∨ t = T + 3 := by omega
      rcases cases with rfl | rfl | rfl
      · exact ⟨.inr member, kept⟩
      · exact absurd member notSecond
      · exact absurd member notThird
  · rintro ⟨logged | member, kept⟩
    · refine ⟨.inl logged, ⟨fun freed => (ok.freed_from x freed).1 logged, kept⟩, ?_, ?_⟩
      all_goals exact fun other => (ok.allocs_apart _ x other).1 logged
    · obtain ⟨-, notFreed, unique⟩ := ok.allocs_apart _ x member
      refine ⟨.inr (.inr ⟨_, member⟩), ⟨notFreed, kept⟩, ?_, ?_⟩
      all_goals exact fun other => absurd (unique _ other) (by omega)

end Accounts

/-- The condensing branch rebuilds the allocmap as the set the log will hold, and never removes
    what is not there. -/
theorem SyncReady.condense (ready : SyncReady R T ledger msp acc log) (isLoaded : msp.msMap.smLoaded = true) :
    ∃ allocmap smo, metaslabCondense msp (T + 1) = some { msp with
        msAllocmap := setSlot msp.msAllocmap (T + 1) allocmap
        msFreemap := setSlot msp.msFreemap (T + 1) (msp.msFreemap (txgSlot (T + 1))).vacated
        msSmoSyncing := smo
        msObject := fun _ => 0 } ∧
      smo.smoObject = msp.msSmoSyncing.smoObject ∧ allocmap.On R ∧
      allocmap.offsets = (acc.sync (T + 1)).logged ∧ LogOf R smo (fun _ => 0) [] ∅ := by
  have ok := ready.ok
  have second : Live T (T + 2) := by simp only [Live, txgConcurrentStates]; omega
  have third : Live T (T + 3) := by simp only [Live, txgConcurrentStates]; omega
  have free := ready.loaded isLoaded
  have emptyOn := (ready.allocOn (txgSlot (T + 1))).vacated
  obtain ⟨all, added, becomes⟩ := add_spec emptyOn.toWf (R.takes_all emptyOn)
    (by simp)
  have allOn := becomes.on emptyOn
  have allEq : all.offsets = R.set := by
    rw [becomes.offsets_eq, offsets_vacated, empty_union, emptyOn.start_eq, emptyOn.size_eq, MapRange.set]
  obtain ⟨used, walked, becomes⟩ := ready.mapOn.walk_remove allOn (allEq ▸ ready.mapOn.subset)
  have usedOn := becomes.on allOn
  have usedEq : ∀ x, x ∈ used.offsets ↔ acc.InUse x := by
    intro x
    rw [becomes.offsets_eq, allEq, mem_sdiff, free]
    have := ready.inside x
    by_cases inUse : acc.InUse x
    · simp [inUse, this inUse]
    · simp [inUse]
  have freedIn : msp.frees T ⊆ used.offsets := by
    intro x freed
    rw [ready.freed_eq] at freed
    rw [usedEq]
    rcases Finset.mem_union.mp freed with waiting | free
    · exact .inr (.inl waiting)
    · exact (ok.frees_from _ x free).2.inUse
  obtain ⟨kept, walked', becomes⟩ := (ready.freeOn (txgSlot T)).walk_remove usedOn freedIn
  have keptOn := becomes.on usedOn
  have keptEq : ∀ x, x ∈ kept.offsets ↔ acc.InUse x ∧ x ∉ acc.freed ∪ acc.frees (T + 1) := by
    intro x
    rw [becomes.offsets_eq, mem_sdiff, usedEq, ← ready.freed_eq]
    rfl
  have secondIn : msp.allocs (T + 2) ⊆ kept.offsets := by
    intro x member
    rw [ready.allocs_eq _ second] at member
    exact (keptEq x).mpr ⟨.inr (.inr ⟨_, member⟩), ok.allocs_not_freed member (by omega)⟩
  obtain ⟨kept2, walked2, becomes⟩ := (ready.allocOn (txgSlot (T + 2))).walk_remove keptOn secondIn
  have kept2On := becomes.on keptOn
  have kept2Eq : ∀ x, x ∈ kept2.offsets ↔ x ∈ kept.offsets ∧ x ∉ acc.allocs (T + 2) := by
    intro x
    rw [becomes.offsets_eq, mem_sdiff, ← ready.allocs_eq _ second]
    rfl
  have thirdIn : msp.allocs (T + 3) ⊆ kept2.offsets := by
    intro x member
    rw [ready.allocs_eq _ third] at member
    refine (kept2Eq x).mpr ⟨(keptEq x).mpr
      ⟨.inr (.inr ⟨_, member⟩), ok.allocs_not_freed member (by omega)⟩, fun other => ?_⟩
    exact absurd ((ok.allocs_apart _ x member).2.2 _ other) (by omega)
  obtain ⟨kept3, walked3, becomes⟩ := (ready.allocOn (txgSlot (T + 3))).walk_remove kept2On thirdIn
  have kept3Eq : kept3.offsets = (acc.sync (T + 1)).logged := by
    ext x
    rw [← ok.condensed, becomes.offsets_eq, mem_sdiff, kept2Eq, keptEq, ← ready.allocs_eq _ third]
    exact and_assoc.trans (and_assoc.trans Iff.rfl)
  refine ⟨kept3, (spaceMapTruncate msp.msSmoSyncing).1, ?_, rfl, becomes.on kept2On, kept3Eq, logOf_empty rfl rfl _⟩
  have range : List.range' 1 (txgConcurrentStates - 1) = [1, 2] := rfl
  simp only [metaslabCondense, added, Option.bind_eq_bind, Option.bind_some, walked, txgSlot_clean,
    walked', range, List.foldlM_cons, List.foldlM_nil, walked2, walked3, Option.pure_def,
    spaceMapTruncate, Nat.add_assoc, Nat.reduceAdd]

/-! ## The books after a sync -/

theorem LogOf.take (logOf : LogOf R smo object old A)
    (longer : LogOf R smo' object' (old ++ rest) B) : LogOf R smo object' old A := by
  refine ⟨logOf.objsize, fun i bound => ?_, logOf.replays, logOf.alloc⟩
  have := longer.holds i (by rw [List.length_append]; omega)
  rwa [List.getElem?_append_left bound] at this

/-- The books when the maps have been emptied into a log of the right set. While the in-core map is
    not loaded, the log that was synced before must be left in place. -/
theorem SyncReady.books (ready : SyncReady R T ledger msp acc log) {allocmap freemap : SpaceMap}
    (allocOn : allocmap.On R) (noAllocs : allocmap.offsets = ∅) (freeOn : freemap.On R)
    (noFrees : freemap.offsets = ∅) {smo : SpaceMapObj} {object log'}
    (same : smo.smoObject = msp.msSmoSyncing.smoObject) (logOf : LogOf R smo object log' (acc.sync (T + 1)).logged)
    (keeps : msp.msMap.smLoaded = false → ∃ rest, log' = log ++ rest) :
    MsBooks R T ledger { msp with
      msAllocmap := setSlot msp.msAllocmap (T + 1) allocmap
      msFreemap := setSlot msp.msFreemap (T + 1) freemap
      msSmoSyncing := smo
      msObject := object } (acc.sync (T + 1)) log' := by
  have live := live_next T
  refine ⟨ready.ok.sync, ready.mapOn, setSlot_on ready.allocOn allocOn _,
    setSlot_on ready.freeOn freeOn _, logOf, fun none => absurd (same.symm.trans none) ready.object,
    setSlot_live ready.allocs_eq live noAllocs, setSlot_live ready.frees_eq live noFrees, ?_, ?_, ?_,
    ?_⟩
  · exact (congrArg offsets (setSlot_other _ _ live.slot_ne_done)).trans ready.spare
  · exact (congrArg offsets (setSlot_other _ _ live.slot_ne_done)).trans ready.freed_eq
  · intro isLoaded x
    rw [inUse_sync ready.ok]
    exact ready.loaded isLoaded x
  · intro unloaded
    obtain ⟨space, none, old, rest, split, oldLog⟩ := ready.unloaded unloaded
    obtain ⟨more, longer⟩ := keeps unloaded
    have sets : (acc.sync (T + 1)).logged ∪ (acc.sync (T + 1)).freed = acc.logged ∪ acc.freed := by
      ext x
      have own := ready.ok.frees_next (x := x)
      simp only [sync, none, mem_union, mem_sdiff, notMem_empty, or_false] at own ⊢
      tauto
    refine ⟨space, fun t => ?_, old, rest ++ more, by rw [longer, split, List.append_assoc], ?_⟩
    · ext x
      simp [mem_allocs_sync, none]
    · rw [sets]
      rw [longer, split, List.append_assoc] at logOf
      exact oldLog.take logOf

/-! ## The two branches -/

section

variable (ready : SyncReady R T ledger msp acc log) (order : DestroyOrder) (encodable : R.Encodable R.set)

include ready order encodable

theorem SyncReady.append (syncpass) : ∃ msp' rest, metaslabSyncMaps order msp (T + 1) syncpass = some msp' ∧
      MsBooks R T ledger msp' (acc.sync (T + 1)) (log ++ rest) := by
  have live := live_next T
  have ok := ready.ok
  have allocs := ready.allocs_eq _ live
  have frees := ready.frees_eq _ live
  have fresh : Disjoint acc.logged (msp.allocs (T + 1)) := by
    rw [allocs, disjoint_right]
    exact fun x member => (ok.allocs_apart _ x member).1
  have held : msp.frees (T + 1) ⊆ acc.logged ∪ msp.allocs (T + 1) := by
    rw [frees, allocs]
    exact fun x free => ok.frees_next free
  obtain ⟨smo, object, rest, synced, same, logOf⟩ := metaslabSyncMaps_spec msp order (T + 1) syncpass
    rfl rfl (ready.allocOn _) (ready.freeOn _) encodable ready.logOf fresh held
  have logged : (acc.logged ∪ msp.allocs (T + 1)) \ msp.frees (T + 1) = (acc.sync (T + 1)).logged := by
    rw [allocs, frees, sync]
  exact ⟨_, rest, synced, ready.books (ready.allocOn _).vacated rfl (ready.freeOn _).vacated rfl same
    (logged ▸ logOf) fun _ => ⟨rest, rfl⟩⟩

theorem SyncReady.rewrite (isLoaded : msp.msMap.smLoaded = true) (syncpass) :
    ∃ msp' log', (metaslabCondense msp (T + 1)).bind
        (fun msp => metaslabSyncMaps order msp (T + 1) syncpass) = some msp' ∧
      MsBooks R T ledger msp' (acc.sync (T + 1)) log' := by
  obtain ⟨allocmap, smo, condensed, same, allocOn, allocEq, logOf⟩ := ready.condense isLoaded
  have freeOn := (ready.freeOn (txgSlot (T + 1))).vacated
  obtain ⟨smo', object, rest, synced, same', logOf'⟩ := metaslabSyncMaps_spec
    { msp with
      msAllocmap := setSlot msp.msAllocmap (T + 1) allocmap
      msFreemap := setSlot msp.msFreemap (T + 1) (msp.msFreemap (txgSlot (T + 1))).vacated
      msSmoSyncing := smo
      msObject := fun _ => 0 }
    order (T + 1) syncpass (setSlot_same msp.msAllocmap (T + 1) allocmap)
    (setSlot_same msp.msFreemap (T + 1) (msp.msFreemap (txgSlot (T + 1))).vacated) allocOn freeOn
    encodable logOf (disjoint_empty_left _) (empty_subset _)
  have logged : (∅ ∪ allocmap.offsets) \ ∅ = (acc.sync (T + 1)).logged := by
    rw [empty_union, sdiff_empty, allocEq]
  refine ⟨_, [] ++ rest, by rw [condensed]; exact synced, ?_⟩
  simp only [setSlot_setSlot]
  exact ready.books allocOn.vacated rfl freeOn.vacated rfl (same'.trans same) (logged ▸ logOf')
    fun unloaded => by simp [isLoaded] at unloaded

end

/-- `metaslab_sync`, whichever branch it takes. -/
theorem MsBooks.sync (books : MsBooks R T ledger msp acc log) (order)
    (encodable : R.Encodable R.set) (new : newObject ≠ 0) (syncpass) :
    ∃ msp' log', metaslabSync order msp (T + 1) syncpass newObject = some msp' ∧
      MsBooks R T ledger msp' (acc.sync (T + 1)) log' := by
  obtain ⟨ready, freed, isReady⟩ := (books.object newObject).syncFreed (metaslabObject_ne new)
  rw [metaslabSync, freed]
  simp only [Option.bind_eq_bind, Option.bind_some]
  by_cases condense : metaslabShouldCondense ready syncpass = true
  · have isLoaded : ready.msMap.smLoaded = true := by
      simp only [metaslabShouldCondense, Bool.and_eq_true] at condense
      exact condense.1.1
    rw [if_pos condense]
    exact isReady.rewrite order encodable isLoaded syncpass
  · rw [if_neg condense]
    obtain ⟨msp', rest, synced, books'⟩ := isReady.append order encodable syncpass
    exact ⟨msp', _, synced, books'⟩

end MacZfs
