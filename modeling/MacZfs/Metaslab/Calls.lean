import MacZfs.Metaslab.GroupInv

/-!
# The calls on a metaslab group

One lemma for each call that allocation, freeing and syncing make on a group: it keeps the
invariant, and the ledger moves as the call promises.
-/

namespace MacZfs

open Function Option Extents Checked Prod

attribute [local irreducible] txgSlot txgClean

variable {vd : Vdev} {T : ℕ} {finishing : Bool} {msSynced : Fin vd.vdevMsCount → ℕ}
  {ledger : Ledger ℕ} {mg mg' : MetaslabGroup vd}

/-! ## The rounds of an allocation -/

/-- How often an allocation of `size` can still passivate a metaslab: from secondary to inactive,
    and from there to below `size`. -/
def roundsLeft (size : ℕ) (msp : Metaslab) : ℕ :=
  if msp.msWeight < size then 0
  else if msp.msWeight &&& metaslabWeightSecondary ≠ 0 then 2
  else 1

theorem roundsLeft_le (size) (msp) : roundsLeft size msp ≤ 2 := by
  unfold roundsLeft
  split
  · omega
  · split <;> omega

variable {msp : Metaslab}

theorem roundsLeft_pos (enough : size ≤ msp.msWeight) : 0 < roundsLeft size msp := by
  rw [roundsLeft, if_neg (by omega)]
  split <;> omega

variable {minDistance : ℕ} {i : Fin vd.vdevMsCount}

theorem groupSelect_weight {size activationWeight dva}
    (found : groupSelect mg size minDistance activationWeight dva tree = some i) : size ≤ (mg.vdevMs i).msWeight := by
  induction tree with
  | nil => simp [groupSelect] at found
  | cons head tail ih =>
    simp only [groupSelect] at found
    by_cases short : (mg.vdevMs head).msWeight < size
    · simp [short] at found
    · rw [if_neg short] at found
      split_ifs at found
      · exact Option.some.inj found ▸ not_lt.mp short
      all_goals first
        | exact ih found
        | exact Option.some.inj found ▸ not_lt.mp short

theorem sum_roundsLeft_lt (fewer : roundsLeft size msp < roundsLeft size (mg.vdevMs i)) :
    ∑ j, roundsLeft size ((mg.setMs i msp).vdevMs j) < ∑ j, roundsLeft size (mg.vdevMs j) := by
  refine Finset.sum_lt_sum (fun j _ => ?_) ⟨i, Finset.mem_univ i, by rwa [setMs_self]⟩
  by_cases same : j = i
  · subst same
    rw [setMs_self]
    exact fewer.le
  · rw [setMs_other mg msp same]

theorem roundsLeft_inactive (enough : size ≤ msp.msWeight)
    (secondary : msp.msWeight &&& metaslabWeightSecondary ≠ 0) :
    roundsLeft size (metaslabPassivate msp (msp.msWeight &&& metaslabInactiveMask)) < roundsLeft size msp := by
  have before : roundsLeft size msp = 2 := by
    rw [roundsLeft, if_neg (by omega), if_pos secondary]
  have least : min msp.msWeight (msp.msWeight &&& metaslabInactiveMask) =
      msp.msWeight &&& metaslabInactiveMask := min_eq_right Nat.and_le_left
  have clear : (msp.msWeight &&& metaslabInactiveMask) &&& metaslabWeightSecondary = 0 := by
    rw [Nat.and_assoc]
    have : metaslabInactiveMask &&& metaslabWeightSecondary = 0 := by decide
    rw [this, Nat.and_zero]
  rw [before, roundsLeft, metaslabPassivate]
  simp only [least, clear]
  split <;> simp

theorem roundsLeft_small (positive : 0 < size) (msp) (small : size < 2 ^ 63) :
    roundsLeft size (metaslabPassivate msp (u64Sub size 1)) = 0 := by
  refine if_pos ?_
  rw [metaslabPassivate, u64Sub_of_le positive (by omega)]
  simp only
  omega

variable {meets : List SpaceSeg → ℕ} {txg : ℕ}

/-- More rounds than there are passivations left make no difference. -/
theorem groupAllocLoop_stable {dva} (positive : 0 < size) (small : size < 2 ^ 63) (rounds more : ℕ)
    (enough : ∑ i, roundsLeft size (mg.vdevMs i) < rounds) :
    groupAllocLoop meets size txg minDistance dva (rounds + more) mg =
      groupAllocLoop meets size txg minDistance dva rounds mg := by
  induction rounds generalizing mg with
  | zero => omega
  | succ rounds ih =>
    rw [Nat.succ_add, groupAllocLoop, groupAllocLoop]
    cases select : groupSelect mg size minDistance (groupActivationWeight vd dva) dva mg.tree with
    | none => rfl
    | some i =>
      have weight := groupSelect_weight select
      simp only
      split
      · rename_i secondary
        have fewer := sum_roundsLeft_lt (roundsLeft_inactive weight secondary.1)
        exact ih (by omega)
      · cases metaslabActivate (mg.vdevMs i) (groupActivationWeight vd dva) with
        | none => rfl
        | some msp =>
          simp only [bind_eq_bind, bind_some]
          cases spaceMapAlloc meets msp.msMap size with
          | none => rfl
          | some found =>
            obtain ⟨_ | offset, sm⟩ := found
            · simp only [bind_some, setMs_self, setMs_setMs]
              have none := roundsLeft_small positive { msp with msMap := sm } small
              have fewer := sum_roundsLeft_lt (none.trans_lt (roundsLeft_pos weight))
              exact ih (by omega)
            · rfl

/-- The rounds that `metaslab_group_alloc` is given are enough. -/
theorem metaslabGroupAlloc_eq {dva} (positive : 0 < size) (small : size < 2 ^ 63) (more : ℕ) :
    groupAllocLoop meets size txg minDistance dva (2 * vd.vdevMsCount + 1 + more) mg =
      metaslabGroupAlloc meets mg size txg minDistance dva := by
  refine groupAllocLoop_stable positive small _ more (Nat.lt_succ_of_le ?_)
  calc ∑ i, roundsLeft size (mg.vdevMs i)
    _ ≤ ∑ _ : Fin vd.vdevMsCount, 2 := Finset.sum_le_sum fun i _ => roundsLeft_le size _
    _ = 2 * vd.vdevMsCount := by simp [mul_comm]

/-! ## What the calls do -/

theorem metaslabFfAlloc_eq
    (picked : metaslabFfAlloc meets sm size = some (res, sm')) : ∃ ppd, sm' = { sm with smPpd := ppd } := by
  simp only [metaslabFfAlloc, bind_eq_bind, bind_eq_some_iff, guard_eq_some, exists_const, pure_def] at picked
  obtain ⟨-, cursor, -, picked⟩ := picked
  split at picked
  · simp only [Option.some.injEq, mk.injEq] at picked
    exact ⟨_, picked.2.symm⟩
  · split at picked
    · simp only [Option.some.injEq, mk.injEq] at picked
      exact ⟨sm.smPpd, picked.2.symm⟩
    · split at picked
      all_goals
        simp only [Option.some.injEq, mk.injEq] at picked
        exact ⟨_, picked.2.symm⟩

theorem spaceMapAlloc_cases (alloc : spaceMapAlloc meets sm size = some (res, sm')) :
    ∃ ppd, (res = none ∧ sm' = { sm with smPpd := ppd }) ∨
      ∃ start, res = some start ∧ spaceMapRemove { sm with smPpd := ppd } start size = some sm' := by
  simp only [spaceMapAlloc, bind_eq_bind, bind_eq_some_iff, guard_eq_some, exists_const, Prod.exists] at alloc
  obtain ⟨-, start, moved, picked, alloc⟩ := alloc
  obtain ⟨ppd, rfl⟩ := metaslabFfAlloc_eq picked
  refine ⟨ppd, ?_⟩
  split at alloc
  · simp only [pure_def, Option.some.injEq, Prod.mk.injEq] at alloc
    exact .inl ⟨alloc.1.symm, alloc.2.symm⟩
  · rename_i start
    simp only [bind_eq_some_iff, pure_def, Option.some.injEq, Prod.mk.injEq] at alloc
    obtain ⟨removed, isRemoved, rfl, rfl⟩ := alloc
    exact .inr ⟨start, rfl, isRemoved⟩

theorem metaslabActivate_maps (activate : metaslabActivate msp weight = some msp') :
    msp'.msAllocmap = msp.msAllocmap ∧ msp'.msFreemap = msp.msFreemap := by
  unfold metaslabActivate at activate
  split at activate
  · simp only [bind_eq_bind, bind_eq_some_iff, pure_def, Option.some.injEq] at activate
    obtain ⟨sm, -, rfl⟩ := activate
    exact ⟨rfl, rfl⟩
  · rw [Option.some.injEq] at activate
    exact activate ▸ ⟨rfl, rfl⟩

section

variable (i) (inv : MgInv vd T finishing msSynced ledger mg)

include inv

theorem MgInv.activate (activate : metaslabActivate (mg.vdevMs i) weight = some msp) :
    MgInv vd T finishing msSynced ledger (mg.setMs i msp) := by
  obtain ⟨acc, log, books⟩ := inv.books i
  obtain ⟨allocs, frees⟩ := metaslabActivate_maps activate
  exact inv.setMs i ⟨acc, log, books.activate activate⟩ allocs frees

theorem MgInv.passivate (size) :
    MgInv vd T finishing msSynced ledger (mg.setMs i (metaslabPassivate (mg.vdevMs i) size)) := by
  obtain ⟨acc, log, books⟩ := inv.books i
  exact inv.setMs i ⟨acc, log, books.setWeight _⟩ rfl rfl

theorem MgInv.setPpd (ppd) : MgInv vd T finishing msSynced ledger
      (mg.setMs i { mg.vdevMs i with msMap := { (mg.vdevMs i).msMap with smPpd := ppd } }) := by
  obtain ⟨acc, log, books⟩ := inv.books i
  exact inv.setMs i ⟨acc, log, books.setPpd ppd⟩ rfl rfl

end

/-- What one allocation does: it fails and changes nothing that is accounted for, or hands out an
    idle interval and records it. -/
theorem groupAllocLoop_spec {size dva} (usable : Usable T finishing txg) (small : size < 2 ^ 63) (rounds)
    (inv : MgInv vd T finishing msSynced ledger mg)
    (alloc : groupAllocLoop meets size txg minDistance dva rounds mg = some (res, mg')) :
    (res = none → MgInv vd T finishing msSynced ledger mg') ∧ ∀ start, res = some start →
        MgInv vd T finishing msSynced
            (ledger.assign (Finset.Ico start (start + size)) (.held txg)) mg' ∧
          ∀ x ∈ Finset.Ico start (start + size), ledger x = .idle := by
  induction rounds generalizing mg with
  | zero => simp [groupAllocLoop] at alloc
  | succ rounds ih =>
    rw [groupAllocLoop] at alloc
    split at alloc
    · simp only [Option.some.injEq, Prod.mk.injEq] at alloc
      obtain ⟨rfl, rfl⟩ := alloc
      exact ⟨fun _ => inv, by simp⟩
    · rename_i i _
      dsimp only at alloc
      split at alloc
      · exact ih (inv.passivate i _) alloc
      · simp only [bind_eq_bind, bind_eq_some_iff, Prod.exists] at alloc
        obtain ⟨msp, activate, found, sm, picked, alloc⟩ := alloc
        have active := inv.activate i activate
        obtain ⟨ppd, ⟨rfl, rfl⟩ | ⟨start, rfl, removed⟩⟩ := spaceMapAlloc_cases picked
        · have moved := active.setPpd i ppd
          rw [setMs_self, setMs_setMs] at moved
          exact ih (moved.passivate i _) alloc
        · simp only [bind_eq_some_iff, pure_def, Option.some.injEq, Prod.mk.injEq] at alloc
          obtain ⟨recorded, isRecorded, rfl, rfl⟩ := alloc
          have final := active.record usable small i ppd (by rw [setMs_self]; exact removed)
            (by rw [setMs_self, setMs_setMs]; exact isRecorded)
          exact ⟨by simp, fun start' same => by
            injection same with same
            exact same ▸ final⟩

variable {dva : Dva}

/-- `metaslab_claim_dva`. What is claimed was idle. -/
theorem metaslabClaimDva_spec (usable : Usable T finishing txg)
    (small : dvaSize vd dva < 2 ^ 63) (inv : MgInv vd T finishing msSynced ledger mg)
    (claim : metaslabClaimDva mg dva txg = some mg') :
    MgInv vd T finishing msSynced (if dvaMetaslab vd dva = none then ledger
        else ledger.assign (dvaOffsets vd dva) (.held txg)) mg' ∧
      (dvaMetaslab vd dva ≠ none → ∀ x ∈ dvaOffsets vd dva, ledger x = .idle) := by
  unfold metaslabClaimDva at claim
  split at claim
  · rename_i bad
    rw [some.injEq] at claim
    exact ⟨by simpa [bad, ← claim] using inv, by simp [bad]⟩
  · rename_i i good
    simp only [spaceMapClaim, bind_eq_bind, bind_eq_some_iff, guard_eq_some, exists_const] at claim
    obtain ⟨msp, activate, sm, ⟨-, removed⟩, recorded⟩ := claim
    rw [if_neg (by simp [good])]
    obtain ⟨claimed, idle⟩ := (inv.activate i activate).record usable small i
      msp.msMap.smPpd (by rw [setMs_self]; exact removed)
      (by rw [setMs_self, setMs_setMs]; exact recorded)
    exact ⟨claimed, fun _ => idle⟩

theorem dvaMetaslab_lt (good : dvaMetaslab vd dva = some i) : dva.dvaOffset < 2 ^ 63 := by
  unfold dvaMetaslab at good
  split at good
  · simp at good
  · split at good
    · rename_i bound
      rw [Nat.shiftRight_eq_div_pow, Nat.div_lt_iff_lt_mul (Nat.two_pow_pos _)] at bound
      have := vd.bounded
      omega
    · simp at good

variable {freezeTxg : ℕ}

/-- `metaslab_free_dva` does nothing when the pool is frozen or the DVA is bad. -/
theorem metaslabFreeDva_cases (free : metaslabFreeDva mg dva txg now freezeTxg = some mg') :
    ((txg > freezeTxg ∨ dvaMetaslab vd dva = none) ∧ mg' = mg) ∨
      ∃ i msp, ¬ (txg > freezeTxg ∨ dvaMetaslab vd dva = none) ∧ dvaMetaslab vd dva = some i ∧
        if now then
          freeNow (mg.vdevMs i) dva.dvaOffset (dvaSize vd dva) txg = some msp ∧ mg' = mg.setMs i msp
        else
          freeDeferred (mg.vdevMs i) dva.dvaOffset (dvaSize vd dva) txg = some msp ∧
            mg' = (mg.dirtyFirst i ((mg.vdevMs i).msFreemap (txgSlot txg)) txg).setMs i msp := by
  unfold metaslabFreeDva at free
  split at free
  · rename_i frozen
    rw [Option.some.injEq] at free
    exact .inl ⟨.inl frozen, free.symm⟩
  · rename_i open_
    split at free
    · rename_i bad
      rw [Option.some.injEq] at free
      exact .inl ⟨.inr bad, free.symm⟩
    · rename_i i good
      cases now <;>
        simp only [Bool.false_eq_true, if_false, if_true, bind_eq_bind,
          bind_eq_some_iff, pure_def, Option.some.injEq] at free
      all_goals
        obtain ⟨msp, freed, same⟩ := free
        exact .inr ⟨i, msp, by simp [open_, good], good, by simp [freed, same]⟩

section

variable (usable : Usable T finishing txg) (small : dvaSize vd dva < 2 ^ 63) (inv : MgInv vd T finishing msSynced ledger mg)

include usable small inv

/-- `metaslab_free_dva` with `now` unset. -/
theorem metaslabFreeDva_deferred (held : ∀ x ∈ dvaOffsets vd dva, ∃ b ≤ txg, ledger x = .held b)
    (free : metaslabFreeDva mg dva txg false freezeTxg = some mg') :
    MgInv vd T finishing msSynced (if txg > freezeTxg ∨ dvaMetaslab vd dva = none then ledger
      else ledger.assign (dvaOffsets vd dva) (.freeing txg)) mg' := by
  rcases metaslabFreeDva_cases free with ⟨ignored, rfl⟩ | ⟨i, msp, heeded, good, freed, rfl⟩
  · rwa [if_pos ignored]
  · rw [if_neg heeded]
    obtain ⟨acc, log, books⟩ := inv.books i
    have bound := dvaMetaslab_lt good
    obtain ⟨books', inside⟩ := books.freeDeferred (usable.live_ms inv i) (by omega) held freed
    obtain ⟨freemap, -, rfl⟩ := freeDeferred_eq freed
    refine inv.touch usable i ⟨_, log, books'⟩
      (fun x outside => Ledger.assign_outside inside _ outside) (fun _ _ => rfl)
      (fun s ne => setSlot_other _ _ ne) (dirtyFirst_cases _ _ _ _) ?_
    intro _
    exact mem_dirtyFirst mg (books.freeOn _) fun some => inv.dirty i txg usable.live (.inr some)

/-- `metaslab_free_dva` with `now` set. -/
theorem metaslabFreeDva_now (held : ∀ x ∈ dvaOffsets vd dva, ledger x = .held txg)
    (free : metaslabFreeDva mg dva txg true freezeTxg = some mg') :
    MgInv vd T finishing msSynced (if txg > freezeTxg ∨ dvaMetaslab vd dva = none then ledger
      else ledger.assign (dvaOffsets vd dva) .idle) mg' := by
  rcases metaslabFreeDva_cases free with ⟨ignored, rfl⟩ | ⟨i, msp, heeded, good, freed, rfl⟩
  · rwa [if_pos ignored]
  · rw [if_neg heeded]
    obtain ⟨acc, log, books⟩ := inv.books i
    have live := usable.live_ms inv i
    obtain ⟨books', inside⟩ := books.freeNow live (vd.sizes i small) held freed
    have shrinks : ∀ x ∈ msp.allocs txg, x ∈ (mg.vdevMs i).allocs txg := by
      rw [books'.allocs_eq txg live, books.allocs_eq txg live]
      exact fun x => Accounts.mem_allocs_release
    obtain ⟨allocmap, sm, -, -, rfl⟩ := freeNow_eq freed
    refine inv.touch usable i ⟨_, log, books'⟩
      (fun x outside => Ledger.assign_outside inside _ outside)
      (fun s ne => setSlot_other _ _ ne) (fun _ _ => rfl) (.inl rfl) ?_
    rintro (⟨x, member⟩ | some)
    · exact inv.dirty i txg usable.live (.inl ⟨x, shrinks x member⟩)
    · exact inv.dirty i txg usable.live (.inr some)

end

/-! ## Syncing -/

/-- Nothing of the finishing transaction group is left in any map. -/
theorem MgInv.finished (inv : MgInv vd T finishing msSynced ledger mg)
    (closed : mg.vdevMsList (txgSlot (T + 1)) = []) (i : Fin vd.vdevMsCount) :
    (mg.vdevMs i).allocs (T + 1) = ∅ ∧ (mg.vdevMs i).frees (T + 1) = ∅ := by
  have none : i ∉ mg.vdevMsList (txgSlot (T + 1)) := by simp [closed]
  constructor
  · by_contra some
    exact none (inv.dirty i _ (live_next T) (.inl (Finset.nonempty_iff_ne_empty.mpr some)))
  · by_contra some
    exact none (inv.dirty i _ (live_next T) (.inr (Finset.nonempty_iff_ne_empty.mpr some)))

theorem vdevSyncOne_spec (new : newObject ≠ 0) (inv : MgInv vd T false msSynced ledger mg)
    (synced : vdevSyncOne order mg (T + 1) syncpass newObject = some mg') : MgInv vd T false msSynced ledger mg' := by
  have all : ∀ j, msSynced j = T := fun j => by simpa using inv.synced j
  unfold vdevSyncOne at synced
  split at synced
  · rw [Option.some.injEq] at synced
    exact synced ▸ inv
  · rename_i i rest head
    simp only [bind_eq_bind, bind_eq_some_iff, pure_def, Option.some.injEq] at synced
    obtain ⟨msp, sync, rfl⟩ := synced
    obtain ⟨acc, log, books⟩ := inv.books i
    rw [all i] at books
    obtain ⟨msp', log', sync', books'⟩ := books.sync order (vd.encodable i) new syncpass
    rw [sync, Option.some.injEq] at sync'
    subst sync'
    have slots : txgSlot (T + 1) ≠ txgSlot T := (live_next T).slot_ne_done.symm
    have others : ∀ s, s ≠ txgSlot T →
        txgListAdd (update mg.vdevMsList (txgSlot (T + 1)) rest) i (txgClean (T + 1)) s =
          update mg.vdevMsList (txgSlot (T + 1)) rest s :=
      fun s ne => txgListAdd_other (txgSlot_clean T ▸ ne)
    have nodup : ∀ s, (update mg.vdevMsList (txgSlot (T + 1)) rest s).Nodup := by
      intro s
      by_cases same : s = txgSlot (T + 1)
      · rw [same, update_self]
        exact (List.nodup_cons.mp (head ▸ inv.nodup _)).2
      · rw [update_of_ne same]
        exact inv.nodup s
    refine ⟨?_, inv.synced, ?_, ?_, fun j _ => all j, ?_, nodup_txgListAdd nodup _ _, by simp⟩
    · have own : MsInv (vd.msRange i) (msSynced i) ledger msp := by
        rw [all i]
        exact ⟨_, log', books'⟩
      have books := MgInv.books_setMs inv.books i own fun _ _ => rfl
      rwa [update_eq_self] at books
    · intro j t live some
      simp only at some ⊢
      rw [others _ live.slot_ne_done.symm]
      by_cases eqTxg : t = T + 1
      · subst eqTxg
        rw [update_self]
        by_cases eq : j = i
        · subst eq
          rw [setMs_self, books'.allocs_eq _ live, books'.frees_eq _ live] at some
          simp [Accounts.sync] at some
        · rw [setMs_other _ _ eq] at some
          exact (List.mem_cons.mp (head ▸ inv.dirty j _ live some)).resolve_left eq
      · rw [update_of_ne ((live_next T).slot_ne live eqTxg)]
        refine inv.dirty j t live ?_
        by_cases eq : j = i
        · subst eq
          rw [setMs_self, books'.allocs_eq _ live, books'.frees_eq _ live] at some
          simpa [Accounts.sync, eqTxg, books.allocs_eq _ live, books.frees_eq _ live] using some
        · rwa [setMs_other _ _ eq] at some
    · intro j _ some
      by_cases eq : j = i
      · subst eq
        rw [← txgSlot_clean T]
        exact mem_txgListAdd_self _ _ _
      · rw [setMs_other _ _ eq] at some
        refine mem_txgListAdd_of_mem ?_
        rw [update_of_ne slots.symm]
        exact inv.waiting j (all j) some
    · intro j ahead
      have := all j
      omega

/-- One round of `vdev_sync_done`. What the head of the list freed may be used again. -/
theorem vdevSyncDoneOne_spec (inv : MgInv vd T true msSynced ledger mg) (head : mg.vdevMsList (txgSlot T) = i :: rest)
    (done : vdevSyncDoneOne order mg (T + 1) = some mg') :
    MgInv vd T true (update msSynced i (T + 1)) (ledger.settle (vd.msRange i).set (T + 1)) mg' := by
  simp only [vdevSyncDoneOne, txgSlot_clean, head, bind_eq_bind, bind_eq_some_iff,
    pure_def, Option.some.injEq] at done
  obtain ⟨msp, syncDone, rfl⟩ := done
  have member : i ∈ mg.vdevMsList (txgSlot T) := by simp [head]
  have live := live_next T
  obtain ⟨acc, log, books⟩ := inv.books i
  rw [inv.unfinished i member] at books
  have nothing := inv.finished (inv.closed rfl) i
  rw [books.allocs_eq _ live, books.frees_eq _ live] at nothing
  have books' := books.syncDone vd order nothing.1 nothing.2 syncDone
  have nodup := List.nodup_cons.mp (head ▸ inv.nodup _)
  refine ⟨?_, ?_, ?_, ?_, ?_, ?_, ?_, ?_⟩
  · exact MgInv.books_setMs inv.books i ⟨_, log, books'⟩
      fun x outside => if_neg fun settled => outside settled.1
  · intro j
    by_cases eq : j = i
    · subst eq
      simp
    · rw [update_of_ne eq]
      exact inv.synced j
  · intro j t live' some
    simp only at some ⊢
    rw [update_of_ne live'.slot_ne_done.symm]
    refine inv.dirty j t live' ?_
    by_cases eq : j = i
    · subst eq
      rw [setMs_self] at some
      by_cases eqTxg : t = T + 1
      · subst eqTxg
        rw [books'.spare, books'.freed_eq] at some
        simp [Accounts.done] at some
      · have still : Live (T + 1) t := by
          simp only [Live, txgConcurrentStates] at live' ⊢
          omega
        rw [books'.allocs_eq _ still, books'.frees_eq _ still] at some
        rwa [books.allocs_eq _ live', books.frees_eq _ live']
    · rwa [setMs_other _ _ eq] at some
  · intro j synced some
    have eq : j ≠ i := by
      rintro rfl
      simp at synced
    simp only at some ⊢
    rw [update_of_ne eq] at synced
    rw [setMs_other _ _ eq] at some
    rw [update_self]
    exact (List.mem_cons.mp (head ▸ inv.waiting j synced some)).resolve_left eq
  · intro j inside
    simp only [update_self] at inside
    have eq : j ≠ i := by
      rintro rfl
      exact nodup.1 inside
    rw [update_of_ne eq]
    exact inv.unfinished j (by simp [head, inside])
  · intro j synced
    by_cases eq : j = i
    · subst eq
      have last : Live (T + 1) (T + 1 + txgConcurrentStates) := by
        simp only [Live, txgConcurrentStates]
        omega
      have dead := books.ok.dead (T + 1 + txgConcurrentStates)
        (by simp only [Live, txgConcurrentStates]; omega)
      have allocs := books'.allocs_eq _ last
      have frees := books'.frees_eq _ last
      rw [Metaslab.allocs, txgSlot_next] at allocs
      rw [Metaslab.frees, txgSlot_next] at frees
      simp only [setMs_self]
      exact ⟨allocs.trans dead.1, frees.trans dead.2⟩
    · rw [update_of_ne eq] at synced
      simp only [setMs_other _ _ eq]
      exact inv.ahead j synced
  · intro s
    simp only
    by_cases same : s = txgSlot T
    · rw [same, update_self]
      exact nodup.2
    · rw [update_of_ne same]
      exact inv.nodup s
  · intro _
    simp only
    rw [update_of_ne live.slot_ne_done.symm]
    exact inv.closed rfl

/-- `vdev_sync_done` has been through its list: the next transaction group may sync. -/
theorem MgInv.next (inv : MgInv vd T true msSynced ledger mg) (finished : mg.vdevMsList (txgSlot T) = []) :
    MgInv vd (T + 1) false (fun _ => T + 1) (ledger.settleAll (T + 1)) mg := by
  have closed := inv.closed rfl
  have empty : ∀ j, (mg.vdevMs j).allocs T = ∅ ∧ (mg.vdevMs j).frees T = ∅ := by
    intro j
    rcases inv.synced j with synced | ⟨-, synced⟩
    · obtain ⟨acc, log, books⟩ := inv.books j
      refine ⟨by simpa [synced] using books.spare, ?_⟩
      by_contra some
      have := inv.waiting j synced (Finset.nonempty_iff_ne_empty.mpr some)
      simp [finished] at this
    · exact inv.ahead j synced
  refine ⟨?_, by simp, ?_, ?_, by simp, by simp, inv.nodup, by simp⟩
  · intro j
    obtain ⟨acc, log, books⟩ := inv.books j
    rcases inv.synced j with synced | ⟨-, synced⟩
    · have live := live_next T
      have nothing := inv.finished closed j
      rw [synced] at books
      rw [books.allocs_eq _ live, books.frees_eq _ live] at nothing
      refine ⟨acc, log, (books.skip nothing.1 nothing.2
        (books.freed_eq.symm.trans (empty j).2)).congr fun x inside => ?_⟩
      simp [Ledger.settle, Ledger.settleAll, inside]
    · rw [synced] at books
      refine ⟨acc, log, books.congr fun x inside => if_neg fun freeing => ?_⟩
      have := (books.ok.freeing_from x inside _ freeing).1
      simp [Live] at this
  · intro j t live some
    rcases live.turn with old | ⟨slot, -⟩
    · exact inv.dirty j t old some
    · have none := empty j
      rw [Metaslab.allocs, Metaslab.frees] at none some
      simp [slot, none] at some
  · intro j _ some
    simp [(inv.finished closed j).2] at some

/-- The loop of `vdev_sync` is through. -/
theorem MgInv.startDone (inv : MgInv vd T false msSynced ledger mg)
    (closed : mg.vdevMsList (txgSlot (T + 1)) = []) : MgInv vd T true msSynced ledger mg :=
  ⟨inv.books, fun j => .inl (by simpa using inv.synced j), inv.dirty, inv.waiting, inv.unfinished,
    inv.ahead, inv.nodup, fun _ => closed⟩

end MacZfs
