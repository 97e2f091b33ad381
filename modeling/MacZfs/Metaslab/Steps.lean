import MacZfs.Metaslab.Books

/-!
# The functions of a metaslab keep its books

One lemma per function of `metaslab.c`: a call that runs to the end is the operation of the same
name on the accounts.
-/

namespace MacZfs

open Extents Checked Option SpaceMap

variable {log : List Word} {start size : ℕ}

/-- Offsets are below `2 ^ 63` and so are the sizes asked for: no sum of the two wraps. -/
structure Sizes (R : MapRange) (size : ℕ) : Prop where
  range : R.start + R.size ≤ 2 ^ 63
  size : size < 2 ^ 63

theorem SpaceMap.On.remove_small (on : sm.On R) (sizes : Sizes R size)
    (removed : spaceMapRemove sm start size = some sm') : start + size < 2 ^ 64 := by
  have lt := remove_start_lt on.toWf removed
  have := sizes.range
  have := sizes.size
  rw [on.start_eq, on.size_eq] at lt
  omega

/-- An interval taken from the in-core map and put into the allocmap of `txg`. -/
theorem MsBooks.alloc (books : MsBooks R T ledger msp acc log) (live : Live T txg)
    (sizes : Sizes R size) {ppd : List ℕ} {sm allocmap : SpaceMap}
    (removed : spaceMapRemove { msp.msMap with smPpd := ppd } start size = some sm)
    (added : spaceMapAdd (msp.msAllocmap (txgSlot txg)) start size = some allocmap) :
    MsBooks R T (ledger.assign (Finset.Ico start (start + size)) (.held txg))
        { msp with msMap := sm, msAllocmap := setSlot msp.msAllocmap txg allocmap }
        (acc.allocate txg (Finset.Ico start (start + size))) log ∧
      Finset.Ico start (start + size) ⊆ R.set ∧
      ∀ x ∈ Finset.Ico start (start + size), ledger x = .idle := by
  have mapOn : SpaceMap.On { msp.msMap with smPpd := ppd } R := books.mapOn.setFlags _ _ ppd
  have small := mapOn.remove_small sizes removed
  obtain ⟨nonempty, alignedStart, alignedSize, held⟩ := remove_held mapOn.toWf small removed
  have becomes := remove_becomes mapOn.toWf small removed
  have free : ∀ x ∈ Finset.Ico start (start + size), x ∈ R.set ∧ ¬ acc.InUse x := fun x member =>
    books.not_inUse (held member)
  have isLoaded := books.loaded_of_free
    (held (Finset.mem_Ico.mpr ⟨le_refl start, by omega⟩))
  have allocOn := books.allocOn (txgSlot txg)
  have fresh : Disjoint (msp.msAllocmap (txgSlot txg)).offsets (Finset.Ico start (start + size)) := by
    rw [Finset.disjoint_left]
    intro x inMap member
    exact (free x member).2 (.inr (.inr ⟨txg, books.allocs_eq txg live ▸ inMap⟩))
  have takes : (msp.msAllocmap (txgSlot txg)).Takes start size := by
    refine takes_of_subset nonempty ?_ ?_ ?_
    · rw [allocOn.shift_eq]
      exact mapOn.shift_eq ▸ alignedStart
    · rw [allocOn.shift_eq]
      exact mapOn.shift_eq ▸ alignedSize
    · rw [allocOn.range_eq]
      exact fun x member => (free x member).1
  obtain ⟨allocmap', added', becomes'⟩ := add_spec allocOn.toWf takes fresh
  rw [added, some.injEq] at added'
  subst added'
  refine ⟨⟨books.ok.allocate live fun x member => (free x member).2, becomes.on mapOn,
    setSlot_on books.allocOn (becomes'.on allocOn) txg, books.freeOn, books.logOf, books.noObject,
    ?_, books.frees_eq, ?_, books.freed_eq, ?_, ?_⟩, fun x member => (free x member).1,
    fun x member => books.idle_of_free (held member)⟩
  · exact setSlot_live books.allocs_eq live
      (becomes'.offsets_eq.trans (congrArg (· ∪ _) (books.allocs_eq txg live)))
  · exact (congrArg offsets (setSlot_other _ _ live.slot_ne_done)).trans books.spare
  · intro _ x
    rw [Accounts.inUse_allocate]
    have old := books.loaded isLoaded x
    have new : x ∈ sm.offsets ↔ x ∈ msp.msMap.offsets ∧ x ∉ Finset.Ico start (start + size) := by
      rw [becomes.offsets_eq, Finset.mem_sdiff]
      rfl
    exact new.trans (by rw [old]; tauto)
  · intro unloaded
    have := becomes.smLoaded_eq.symm.trans unloaded
    simp [isLoaded] at this

theorem SpaceMap.On.add_becomes (on : sm.On R) (small : start + size < 2 ^ 64)
    (fresh : Disjoint sm.offsets (Finset.Ico start (start + size))) (added : spaceMapAdd sm start size = some sm') :
    sm.Becomes sm' (sm.offsets ∪ Finset.Ico start (start + size)) ∧ Finset.Ico start (start + size) ⊆ R.set := by
  have takes := add_takes on.bounded small added
  obtain ⟨sm'', added', becomes⟩ := add_spec on.toWf takes fresh
  rw [added, some.injEq] at added'
  exact ⟨added' ▸ becomes, on.range_eq ▸ takes.subset_range⟩

theorem freeNow_eq (freed : freeNow msp start size txg = some msp') :
    ∃ allocmap sm, spaceMapRemove (msp.msAllocmap (txgSlot txg)) start size = some allocmap ∧
      spaceMapAdd msp.msMap start size = some sm ∧
      msp' = { msp with msAllocmap := setSlot msp.msAllocmap txg allocmap, msMap := sm } := by
  simp only [freeNow, spaceMapFree, bind_eq_bind, bind_eq_some_iff,
    guard_eq_some, pure_def, Option.some.injEq, exists_const] at freed
  obtain ⟨allocmap, removed, sm, ⟨sm', added, -, rfl⟩, rfl⟩ := freed
  exact ⟨allocmap, sm', removed, added, rfl⟩

/-- `metaslab_free_dva` with `now` set gives back what the same txg has allocated. -/
theorem MsBooks.freeNow (books : MsBooks R T ledger msp acc log) (live : Live T txg) (sizes : Sizes R size)
    (held : ∀ x ∈ Finset.Ico start (start + size), ledger x = .held txg)
    (freed : freeNow msp start size txg = some msp') :
    MsBooks R T (ledger.assign (Finset.Ico start (start + size)) .idle) msp'
        (acc.release txg (Finset.Ico start (start + size))) log ∧
      Finset.Ico start (start + size) ⊆ R.set := by
  obtain ⟨allocmap, sm', removed, added, rfl⟩ := freeNow_eq freed
  have allocOn := books.allocOn (txgSlot txg)
  have small := allocOn.remove_small sizes removed
  obtain ⟨nonempty, -, -, inMap⟩ := remove_held allocOn.toWf small removed
  have becomes := remove_becomes allocOn.toWf small removed
  have released : Finset.Ico start (start + size) ⊆ acc.allocs txg :=
    fun x member => books.allocs_eq txg live ▸ inMap member
  have isLoaded : msp.msMap.smLoaded = true := by
    by_contra unloaded
    have := released (Finset.mem_Ico.mpr ⟨le_refl start, by omega⟩)
    simp [(books.unloaded (by simpa using unloaded)).2.1] at this
  have fresh : Disjoint msp.msMap.offsets (Finset.Ico start (start + size)) := by
    rw [Finset.disjoint_left]
    intro x free member
    exact (books.not_inUse free).2 (.inr (.inr ⟨txg, released member⟩))
  obtain ⟨becomes', inside⟩ := books.mapOn.add_becomes small fresh added
  refine ⟨⟨books.ok.release released held, becomes'.on books.mapOn,
    setSlot_on books.allocOn (becomes.on allocOn) txg, books.freeOn, books.logOf, books.noObject,
    ?_, books.frees_eq, ?_, books.freed_eq, ?_, ?_⟩, inside⟩
  · exact setSlot_live books.allocs_eq live
      (becomes.offsets_eq.trans (congrArg (· \ _) (books.allocs_eq txg live)))
  · exact (congrArg offsets (setSlot_other _ _ live.slot_ne_done)).trans books.spare
  · intro _ x
    rw [Accounts.inUse_release released books.ok]
    have old := books.loaded isLoaded x
    have new : x ∈ sm'.offsets ↔ x ∈ msp.msMap.offsets ∨ x ∈ Finset.Ico start (start + size) := by
      rw [becomes'.offsets_eq, Finset.mem_union]
    rw [new, old]
    have := @inside x
    tauto
  · intro unloaded
    have := becomes'.smLoaded_eq.symm.trans unloaded
    simp [isLoaded] at this

theorem freeDeferred_eq (freed : freeDeferred msp start size txg = some msp') :
    ∃ freemap, spaceMapAdd (msp.msFreemap (txgSlot txg)) start size = some freemap ∧
      msp' = { msp with msFreemap := setSlot msp.msFreemap txg freemap } := by
  simp only [freeDeferred, bind_eq_bind, bind_eq_some_iff] at freed
  obtain ⟨freemap, added, rest⟩ := freed
  refine ⟨freemap, added, ?_⟩
  split at rest
  · simp only [bind_eq_some_iff, pure_def, Option.some.injEq] at rest
    obtain ⟨-, -, -, -, rfl⟩ := rest
    rfl
  · simp only [pure_def, Option.some.injEq] at rest
    exact rest.symm

/-- `metaslab_free_dva` with `now` unset records what an earlier txg, or the same, has allocated. -/
theorem MsBooks.freeDeferred (books : MsBooks R T ledger msp acc log) (live : Live T txg)
    (small : start + size < 2 ^ 64) (held : ∀ x ∈ Finset.Ico start (start + size), ∃ b ≤ txg, ledger x = .held b)
    (freed : freeDeferred msp start size txg = some msp') :
    MsBooks R T (ledger.assign (Finset.Ico start (start + size)) (.freeing txg)) msp'
        (acc.defer txg (Finset.Ico start (start + size))) log ∧
      Finset.Ico start (start + size) ⊆ R.set := by
  obtain ⟨freemap, added, rfl⟩ := freeDeferred_eq freed
  have freeOn := books.freeOn (txgSlot txg)
  have fresh : Disjoint (msp.msFreemap (txgSlot txg)).offsets (Finset.Ico start (start + size)) := by
    rw [Finset.disjoint_left]
    intro x inMap member
    obtain ⟨b, -, birth⟩ := held x member
    have freeing := (books.ok.frees_from txg x (books.frees_eq txg live ▸ inMap)).1
    simp [birth] at freeing
  obtain ⟨becomes, inside⟩ := freeOn.add_becomes small fresh added
  refine ⟨⟨books.ok.defer live inside held, books.mapOn, books.allocOn,
    setSlot_on books.freeOn (becomes.on freeOn) txg, books.logOf, books.noObject, books.allocs_eq,
    ?_, books.spare, ?_, books.loaded, books.unloaded⟩, inside⟩
  · exact setSlot_live books.frees_eq live
      (becomes.offsets_eq.trans (congrArg (· ∪ _) (books.frees_eq txg live)))
  · exact (congrArg offsets (setSlot_other _ _ live.slot_ne_done)).trans books.freed_eq

end MacZfs
