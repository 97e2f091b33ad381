import MacZfs.Txg.Protocol

/-!
# Safety of transaction groups

Every handle that is counted is on the open transaction group or on the one that the quiesce thread
has closed but not yet drained. So the slots never mix two groups, and what is handed to the sync
thread has no holds and can get no new ones.
-/

namespace MacZfs.Txg

open Mutexes Runs Function HandlePc QuiescePc TxState

attribute [local irreducible] txgSlot

variable {ncpus : ℕ} {ι : Type} {first : ℕ}

/-! ## Where the threads are -/

namespace HandlePc

def locks : HandlePc ncpus → Fin ncpus → Prop
  | .entered cpu, c | .fetched cpu _, c | .opened cpu _, c | .releasing cpu _, c => c = cpu
  | .idle, _ | .held _ _, _ => False

/-- The `th_txg` of a handle, on its `th_cpu`, that is counted there. -/
def holds : HandlePc ncpus → Fin ncpus → ℕ → Prop
  | .opened cpu txg, c, t | .held cpu txg, c, t | .releasing cpu txg, c, t => c = cpu ∧ t = txg
  | .idle, _, _ | .entered _, _, _ | .fetched _ _, _, _ => False

instance (pc : HandlePc ncpus) (c : Fin ncpus) (t : ℕ) : Decidable (pc.holds c t) := by
  cases pc <;> simp only [holds] <;> infer_instance

def counted (pc : HandlePc ncpus) (c : Fin ncpus) (slot : ℕ) : Prop :=
  match pc with
  | .opened cpu txg | .held cpu txg | .releasing cpu txg => c = cpu ∧ slot = txgSlot txg
  | .idle | .entered _ | .fetched _ _ => False

instance (c : Fin ncpus) (slot : ℕ) : DecidablePred fun pc : HandlePc ncpus => pc.counted c slot :=
  fun pc => by cases pc <;> simp only [counted] <;> infer_instance

end HandlePc

namespace QuiescePc

def locks : QuiescePc → Fin ncpus → Prop
  | .locking _ k, c => c < k
  | .unlocking _ k, c => k ≤ c
  | .checking _ k, c => c = k
  | .exited, _ | .waiting, _ | .draining _ _, _ => False

def closed : QuiescePc → Option ℕ
  | .unlocking txg _ | .draining txg _ | .checking txg _ => some txg
  | .exited | .waiting | .locking _ _ => none

def undrained : QuiescePc → Fin ncpus → Prop
  | .unlocking _ _, _ => True
  | .draining _ k, c | .checking _ k, c => k ≤ c
  | .exited, _ | .waiting, _ | .locking _ _, _ => False

end QuiescePc

def ownsAt (handle : ι → HandlePc ncpus) (quiesce : QuiescePc) : Owner ι → Fin ncpus → Prop
  | .handle h => (handle h).locks
  | .quiesce => quiesce.locks

namespace TxState

/-- Who has which `tc_lock`. -/
def LockInv (s : TxState ncpus ι) : Prop :=
  Consistent (ownsAt s.handle s.quiesceThread) s.tcLock

def CountInv [Fintype ι] (s : TxState ncpus ι) : Prop :=
  ∀ c slot, s.tcCount c slot = tally (fun pc => pc.counted c slot) s.handle

structure HandleInv (s : TxState ncpus ι) : Prop where
  fetched : ∀ h c t, s.handle h = .fetched c t → t = s.txOpenTxg
  holds : ∀ h c t, (s.handle h).holds c t →
    t = s.txOpenTxg ∨ s.quiesceThread.closed = some t ∧ s.quiesceThread.undrained c

def pending (s : TxState ncpus ι) : ℕ :=
  if s.txQuiescedTxg ≠ 0 ∨ s.quiesceThread.closed ≠ none then 1 else 0

structure StageInv (first : ℕ) (s : TxState ncpus ι) : Prop where
  trace : s.spaSync = List.range' first s.spaSync.length
  open_ : s.txOpenTxg = first + s.spaSync.length + s.pending
  locking : ∀ t c, s.quiesceThread = .locking t c → t = s.txOpenTxg ∧ s.txQuiescedTxg = 0
  closed : ∀ t, s.quiesceThread.closed = some t →
    t = first + s.spaSync.length ∧ s.txQuiescedTxg = 0
  quiesced : s.txQuiescedTxg ≠ 0 → s.txQuiescedTxg = first + s.spaSync.length
  syncing : ∀ t, s.syncThread = .syncing t → s.txSyncingTxg = t ∧ first ≤ t ∧
    t + 1 = first + s.spaSync.length ∧ (s.txSyncedTxg + 1 = t ∨ t = first ∧ s.txSyncedTxg = 0)
  rest : (∀ t, s.syncThread ≠ .syncing t) → s.txSyncingTxg = 0 ∧
    (s.txSyncedTxg + 1 = first + s.spaSync.length ∨ s.spaSync = [] ∧ s.txSyncedTxg = 0)

def syncing (s : TxState ncpus ι) : ℕ :=
  if s.txSyncingTxg ≠ 0 then s.txSyncingTxg else s.txSyncedTxg

def quiesced (s : TxState ncpus ι) : ℕ :=
  if s.txQuiescedTxg ≠ 0 then s.txQuiescedTxg else s.syncing

def Live (s : TxState ncpus ι) (t : ℕ) : Prop :=
  t = s.txOpenTxg ∨ s.quiesceThread.closed = some t ∨
    t ≠ 0 ∧ (t = s.txQuiescedTxg ∨ t = s.txSyncingTxg)

structure Safe [Fintype ι] (first : ℕ) (s : TxState ncpus ι) : Prop where
  /-- `spa_sync` is called once for each transaction group, in order. -/
  once : s.spaSync = List.range' first s.spaSync.length
  upTo : ∀ t, t ∈ s.spaSync ↔ first ≤ t ∧ t ≤ s.syncing
  /-- From the call on, there is no hold and none is being taken. -/
  settled : ∀ t ∈ s.spaSync, ∀ h c, ¬ (s.handle h).holds c t ∧ s.handle h ≠ .fetched c t
  quiesced_lt : s.quiesced < s.txOpenTxg
  syncing_le : s.syncing ≤ s.quiesced
  synced_le : s.txSyncedTxg ≤ s.syncing
  /-- At most three are live, and they follow one another. -/
  live : ∃ oldest, s.txOpenTxg < oldest + txgConcurrentStates ∧
    ∀ t, s.Live t ↔ oldest ≤ t ∧ t ≤ s.txOpenTxg
  /-- A slot counts the handles of one live transaction group. -/
  counts : ∀ c slot, s.tcCount c slot = tally (fun pc => pc.counted c slot) s.handle
  slots : ∀ c slot, ∃ t, ∀ h, (s.handle h).counted c slot → (s.handle h).holds c t ∧ s.Live t

structure Inv [Fintype ι] (first : ℕ) (s : TxState ncpus ι) : Prop where
  locks : s.LockInv
  counts : s.CountInv
  handles : s.HandleInv
  stages : s.StageInv first

end TxState

/-! ## The locks -/

section Locks

variable {lock : Fin ncpus → Option (Owner ι)} {handle : ι → HandlePc ncpus} {q q' : QuiescePc}
  {h : ι} {c : Fin ncpus} {pc : HandlePc ncpus}

section

variable (inv : Consistent (ownsAt handle q) lock)

include inv

theorem quiesce_acquires (free : lock c = none) (after : ∀ k, q'.locks k ↔ q.locks k ∨ k = c) :
    Consistent (ownsAt handle q') (update lock c (some .quiesce)) := by
  refine inv.acquire free ?_
  rintro (h' | _) k
  · simp [ownsAt]
  · simp [ownsAt, after]

theorem quiesce_keeps (same : ∀ k : Fin ncpus, q'.locks k ↔ q.locks k) : Consistent (ownsAt handle q') lock := by
  refine inv.same ?_
  rintro (h' | _) k
  · rfl
  · exact same k

theorem quiesce_releases (held : q.locks c)
    (after : ∀ k, q'.locks k ↔ q.locks k ∧ k ≠ c) : Consistent (ownsAt handle q') (update lock c none) := by
  have owned : ownsAt handle q .quiesce c := held
  refine inv.release owned ?_
  rintro (h' | _) k
  · simp [ownsAt]
  · simp [ownsAt, after]

end

variable [DecidableEq ι]

section

variable (inv : Consistent (ownsAt handle q) lock)

include inv

theorem handle_acquires (free : lock c = none)
    (before : ∀ k, ¬ (handle h).locks k) (after : ∀ k, pc.locks k ↔ k = c) :
    Consistent (ownsAt (update handle h pc) q) (update lock c (some (.handle h))) := by
  refine inv.acquire free ?_
  rintro (h' | _) k
  · by_cases eq : h' = h
    · subst eq
      simp [ownsAt, before, after]
    · simp [ownsAt, eq]
  · simp [ownsAt]

theorem handle_keeps
    (same : ∀ k, pc.locks k ↔ (handle h).locks k) : Consistent (ownsAt (update handle h pc) q) lock := by
  refine inv.same ?_
  rintro (h' | _) k
  · by_cases eq : h' = h
    · subst eq
      simp [ownsAt, same]
    · simp [ownsAt, eq]
  · rfl

theorem handle_releases (before : ∀ k, (handle h).locks k ↔ k = c) (after : ∀ k, ¬ pc.locks k) :
    Consistent (ownsAt (update handle h pc) q) (update lock c none) := by
  have held : ownsAt handle q (.handle h) c := (before c).mpr rfl
  refine inv.release held ?_
  rintro (h' | _) k
  · by_cases eq : h' = h
    · subst eq
      simp [ownsAt, before, after]
    · simp [ownsAt, eq]
  · simp [ownsAt]

end

end Locks

theorem Step.lockInv [DecidableEq ι] {s s' : TxState ncpus ι} (inv : s.LockInv) (step : Step s s') : s'.LockInv := by
  cases step with
  | holdEnter _ _ idle free =>
    exact handle_acquires inv free (by simp [idle, HandlePc.locks]) (by simp [HandlePc.locks])
  | holdFetch at_ | holdCount at_ => exact handle_keeps inv (by simp [at_, HandlePc.locks])
  | releToQuiesce at_ | releToSync at_ =>
    exact handle_releases inv (by simp [at_, HandlePc.locks]) (by simp [HandlePc.locks])
  | releEnter at_ free =>
    exact handle_acquires inv free (by simp [at_, HandlePc.locks]) (by simp [HandlePc.locks])
  | quiesceBegin at_ | quiesceAdvance at_ | quiesceDrain at_ => exact quiesce_keeps inv (by simp [at_, QuiescePc.locks])
  | quiesceLock _ at_ free =>
    refine quiesce_acquires inv free fun k => ?_
    simp only [at_, QuiescePc.locks, Fin.ext_iff]
    omega
  | quiesceUnlock at_ =>
    refine quiesce_releases inv (by simp [at_, QuiescePc.locks]) fun k => ?_
    simp only [at_, QuiescePc.locks, ne_eq, Fin.ext_iff]
    omega
  | drainEnter at_ free =>
    refine quiesce_acquires inv free fun k => ?_
    simp [at_, QuiescePc.locks, Fin.ext_iff]
  | drainWait at_ | drainExit at_ =>
    refine quiesce_releases inv (by simp [at_, QuiescePc.locks]) fun k => ?_
    simp [at_, QuiescePc.locks, Fin.ext_iff]
  | handOff at_ | quiesceExit at_ | start at_ =>
    exact quiesce_keeps inv (by simp [at_, QuiescePc.locks])
  | syncPrompt | syncBegin | syncEnd | syncExit | waitSynced | waitOpen | suspend | resume | stop
  | stopped => exact inv

/-! ## The counts -/

section Counts

variable [Fintype ι] {s : TxState ncpus ι} {h : ι} {pc : HandlePc ncpus}

theorem TxState.CountInv.ne_zero (inv : s.CountInv) {c slot}
    (counted : (s.handle h).counted c slot) : s.tcCount c slot ≠ 0 := by
  rw [inv c slot]
  exact fun none => tally_eq_zero.mp none h counted

variable [DecidableEq ι]

theorem TxState.CountInv.keeps (inv : s.CountInv)
    (same : ∀ c slot, pc.counted c slot ↔ (s.handle h).counted c slot) (c : Fin ncpus) (slot) :
    s.tcCount c slot = tally (fun pc => pc.counted c slot) (update s.handle h pc) := by
  have moved := tally_update (fun pc : HandlePc ncpus => pc.counted c slot) s.handle h pc
  simp only [same c slot] at moved
  rw [inv c slot]
  omega

theorem TxState.CountInv.moves (inv : s.CountInv) (others : ∀ c slot, ¬ (c = cpu ∧ slot = txgSlot txg) →
      (pc.counted c slot ↔ (s.handle h).counted c slot))
    (own : n + (if (s.handle h).counted cpu (txgSlot txg) then 1 else 0) =
      s.tcCount cpu (txgSlot txg) + if pc.counted cpu (txgSlot txg) then 1 else 0) (c : Fin ncpus) (slot) :
    s.setCount cpu txg n c slot = tally (fun pc => pc.counted c slot) (update s.handle h pc) := by
  have moved := tally_update (fun pc : HandlePc ncpus => pc.counted c slot) s.handle h pc
  by_cases here : c = cpu ∧ slot = txgSlot txg
  · obtain ⟨rfl, rfl⟩ := here
    rw [inv c _] at own
    simp only [setCount, update_self]
    omega
  · have same : s.setCount cpu txg n c slot = s.tcCount c slot := by
      rw [setCount]
      by_cases eq : c = cpu
      · subst eq
        have ne : slot ≠ txgSlot txg := fun eq => here ⟨rfl, eq⟩
        rw [update_self, update_of_ne ne]
      · rw [update_of_ne eq]
    simp only [others c slot here] at moved
    rw [same, inv c slot]
    omega

theorem Step.countInv {s'} (inv : s.CountInv) (step : Step s s') : s'.CountInv := by
  cases step with
  | holdEnter _ _ at_ | holdFetch at_ | releToQuiesce at_ | releEnter at_ => exact inv.keeps (by simp [at_, counted])
  | holdCount at_ =>
    refine inv.moves ?_ (by simp [at_, counted])
    intro c slot elsewhere
    simpa [at_, counted] using elsewhere
  | releToSync at_ =>
    refine inv.moves ?_ ?_
    · intro c slot elsewhere
      simpa [at_, counted] using elsewhere
    · have busy := inv.ne_zero (by rw [at_]; exact ⟨rfl, rfl⟩)
      simp only [at_, counted, and_self, ↓reduceIte]
      omega
  | _ => exact inv

end Counts

/-! ## The handles -/

theorem HandlePc.holds.counted {pc : HandlePc ncpus} {c t} (holds : pc.holds c t) : pc.counted c (txgSlot t) := by
  cases pc <;> simp_all [HandlePc.holds, HandlePc.counted]

section Handles

variable {s s' : TxState ncpus ι}

theorem TxState.HandleInv.keeps (inv : s.HandleInv) (handle : s'.handle = s.handle)
    (open_ : s'.txOpenTxg = s.txOpenTxg)
    (drains : ∀ t, ∀ c : Fin ncpus, s.quiesceThread.closed = some t ∧ s.quiesceThread.undrained c →
      s'.quiesceThread.closed = some t ∧ s'.quiesceThread.undrained c) : s'.HandleInv := by
  constructor
  · rw [handle, open_]
    exact inv.fetched
  · rw [handle, open_]
    exact fun h c t holds => (inv.holds h c t holds).imp_right (drains t c)

/-- With all locks taken by the quiesce thread, `tx_open_txg` advances. -/
theorem TxState.HandleInv.advance (inv : s.HandleInv) (locks : s.LockInv)
    (at_ : s.quiesceThread = .locking txg ncpus) (current : txg = s.txOpenTxg) :
    TxState.HandleInv { s with txOpenTxg := s.txOpenTxg + 1, quiesceThread := .unlocking txg 0 } := by
  constructor
  · intro h c t fetched
    have mine : ownsAt s.handle s.quiesceThread (.handle h) c := by
      simp only at fetched
      simp [ownsAt, fetched, HandlePc.locks]
    have its : ownsAt s.handle s.quiesceThread .quiesce c := by
      simp [ownsAt, at_, QuiescePc.locks]
    exact absurd (locks.exclusive mine its) (by simp)
  · intro h c t holds
    rcases inv.holds h c t holds with same | ⟨closed, -⟩
    · exact .inr ⟨by simp [QuiescePc.closed, current, same], trivial⟩
    · simp [at_, QuiescePc.closed] at closed

theorem TxState.HandleInv.drain [Fintype ι] (inv : s.HandleInv) (counts : s.CountInv) {txg}
    {cpu : Fin ncpus} (at_ : s.quiesceThread = .checking txg cpu)
    (empty : s.tcCount cpu (txgSlot txg) = 0) (lock : Fin ncpus → Option (Owner ι)) :
    TxState.HandleInv { s with tcLock := lock, quiesceThread := .draining txg (cpu + 1) } := by
  refine ⟨inv.fetched, ?_⟩
  intro h c t holds
  rcases inv.holds h c t holds with same | ⟨closed, undrained⟩
  · exact .inl same
  · simp only [at_, QuiescePc.closed, QuiescePc.undrained, Option.some.injEq] at closed undrained
    subst closed
    have ne : c ≠ cpu := by
      rintro rfl
      rw [counts c, tally_eq_zero] at empty
      exact empty h holds.counted
    refine .inr ⟨rfl, ?_⟩
    simp only [QuiescePc.undrained]
    omega

variable [DecidableEq ι]

theorem TxState.HandleInv.moves (inv : s.HandleInv) {h pc}
    (handle : s'.handle = update s.handle h pc) (open_ : s'.txOpenTxg = s.txOpenTxg)
    (quiesce : s'.quiesceThread = s.quiesceThread) (fetched : ∀ c t, pc = .fetched c t → t = s.txOpenTxg)
    (holds : ∀ c t, pc.holds c t → (s.handle h).holds c t ∨ t = s.txOpenTxg) : s'.HandleInv := by
  constructor
  · rw [handle, open_]
    intro h' c t
    by_cases eq : h' = h
    · subst eq
      rw [update_self]
      exact fetched c t
    · rw [update_of_ne eq]
      exact inv.fetched h' c t
  · rw [handle, open_, quiesce]
    intro h' c t
    by_cases eq : h' = h
    · subst eq
      rw [update_self]
      intro held
      rcases holds c t held with held | same
      · exact inv.holds h' c t held
      · exact .inl same
    · rw [update_of_ne eq]
      exact inv.holds h' c t

theorem Step.handleInv [Fintype ι] (inv : s.HandleInv) (locks : s.LockInv) (counts : s.CountInv)
    (stages : s.StageInv first) (step : Step s s') : s'.HandleInv := by
  cases step with
  | holdEnter _ _ at_ | releToSync at_ => exact inv.moves rfl rfl rfl (by simp) (by simp [HandlePc.holds])
  | holdFetch at_ =>
    exact inv.moves rfl rfl rfl (by rintro c t ⟨⟩; rfl) (by simp [HandlePc.holds])
  | holdCount at_ =>
    refine inv.moves rfl rfl rfl (by simp) ?_
    rintro c t ⟨rfl, rfl⟩
    exact .inr (inv.fetched _ _ _ at_)
  | releToQuiesce at_ | releEnter at_ =>
    refine inv.moves rfl rfl rfl (by simp) fun c t holds => .inl ?_
    rw [at_]
    exact holds
  | quiesceAdvance at_ => exact inv.advance locks at_ (stages.locking _ _ at_).1
  | drainExit at_ empty => exact inv.drain counts at_ empty _
  | quiesceBegin at_ | quiesceLock _ at_ | quiesceExit at_ | start at_ | quiesceUnlock at_
  | quiesceDrain at_ | drainEnter at_ | drainWait at_ =>
    exact inv.keeps rfl rfl (by simp [at_, closed, undrained])
  | handOff at_ =>
    refine inv.keeps rfl rfl fun t c draining => ?_
    simp only [at_, undrained] at draining
    omega
  | _ => exact ⟨inv.fetched, inv.holds⟩

end Handles

/-! ## The stages -/

section Stages

variable {s s' : TxState ncpus ι}

section

variable (inv : s.StageInv first)

include inv

theorem TxState.StageInv.moves (lock : Fin ncpus → Option (Owner ι))
    {q : QuiescePc} (closed : q.closed = s.quiesceThread.closed)
    (locking : ∀ t c, q = .locking t c → t = s.txOpenTxg ∧ s.txQuiescedTxg = 0) :
    TxState.StageInv first { s with tcLock := lock, quiesceThread := q } := by
  refine ⟨inv.trace, ?_, locking, ?_, inv.quiesced, inv.syncing, inv.rest⟩
  · simpa [pending, closed] using inv.open_
  · simpa only [closed] using inv.closed

theorem TxState.StageInv.advance {txg c} (at_ : s.quiesceThread = .locking txg c) :
    TxState.StageInv first { s with txOpenTxg := s.txOpenTxg + 1, quiesceThread := .unlocking txg 0 } := by
  obtain ⟨current, none⟩ := inv.locking _ _ at_
  have open_ := inv.open_
  simp only [TxState.pending, none, at_, QuiescePc.closed] at open_
  refine ⟨inv.trace, ?_, by simp, ?_, inv.quiesced, inv.syncing, inv.rest⟩
  · simp only [TxState.pending, QuiescePc.closed]
    simpa using open_
  · rintro t ⟨⟩
    refine ⟨?_, none⟩
    simpa [current] using open_

theorem TxState.StageInv.handOff (positive : 0 < first) {txg c} (at_ : s.quiesceThread = .draining txg c) :
    TxState.StageInv first { s with txQuiescedTxg := txg, quiesceThread := .waiting } := by
  obtain ⟨current, -⟩ := inv.closed txg (by simp [at_, QuiescePc.closed])
  have open_ := inv.open_
  simp only [TxState.pending, at_, QuiescePc.closed] at open_
  refine ⟨inv.trace, ?_, by simp, by simp [QuiescePc.closed], fun _ => current, inv.syncing, inv.rest⟩
  have nonzero : txg ≠ 0 := by omega
  simpa [TxState.pending, nonzero] using open_

theorem TxState.StageInv.syncBegin (at_ : s.syncThread = .waiting) (some : s.txQuiescedTxg ≠ 0) :
    TxState.StageInv first { s with
      txQuiescedTxg := 0
      txSyncingTxg := s.txQuiescedTxg
      syncThread := .syncing s.txQuiescedTxg
      spaSync := s.spaSync ++ [s.txQuiescedTxg] } := by
  have current := inv.quiesced some
  have drained : s.quiesceThread.closed = none := by
    rcases closed : s.quiesceThread.closed with _ | t
    · rfl
    · exact absurd (inv.closed t closed).2 some
  have unlocked : ∀ t c, s.quiesceThread ≠ .locking t c :=
    fun t c at_ => some (inv.locking t c at_).2
  have open_ := inv.open_
  obtain ⟨-, synced⟩ := inv.rest (by simp [at_])
  refine ⟨?_, ?_, ?_, ?_, by simp, ?_, by simp⟩
  · rw [List.length_append, List.length_singleton, List.range'_1_concat, ← inv.trace, current]
  · simpa [pending, some, drained, Nat.add_assoc] using open_
  · exact fun t c at_ => absurd at_ (unlocked t c)
  · simp [drained]
  · rintro t ⟨⟩
    refine ⟨rfl, by omega, by simp [current, Nat.add_assoc], ?_⟩
    rcases synced with same | ⟨nothing, zero⟩
    · exact .inl (by simp only; omega)
    · exact .inr ⟨by simp [current, nothing], zero⟩

theorem TxState.StageInv.syncEnd (at_ : s.syncThread = .syncing txg) :
    TxState.StageInv first { s with txSyncedTxg := txg, txSyncingTxg := 0, syncThread := .waiting } :=
  ⟨inv.trace, inv.open_, inv.locking, inv.closed, inv.quiesced, by simp,
    fun _ => ⟨rfl, .inl (inv.syncing txg at_).2.2.1⟩⟩

end

theorem Step.stageInv [DecidableEq ι] (positive : 0 < first) (inv : s.StageInv first)
    (step : Step s s') : s'.StageInv first := by
  cases step with
  | quiesceBegin at_ _ _ consumed =>
    refine inv.moves _ (by simp [at_, closed]) ?_
    rintro t c ⟨⟩
    exact ⟨rfl, consumed⟩
  | quiesceLock _ at_ =>
    refine inv.moves _ (by simp [at_, closed]) ?_
    rintro t c ⟨⟩
    exact inv.locking _ _ at_
  | quiesceAdvance at_ => exact inv.advance at_
  | quiesceUnlock at_ | quiesceDrain at_ | drainEnter at_ | drainWait at_ | drainExit at_
  | quiesceExit at_ => exact inv.moves _ (by simp [at_, closed]) (by simp)
  | handOff at_ => exact inv.handOff positive at_
  | syncBegin at_ _ some => exact inv.syncBegin at_ some
  | syncEnd at_ => exact inv.syncEnd at_
  | syncExit at_ =>
    exact ⟨inv.trace, inv.open_, inv.locking, inv.closed, inv.quiesced, by simp, fun _ => inv.rest (by simp [at_])⟩
  | start quiesce sync =>
    have idle := inv.moves s.tcLock (q := .waiting) (by simp [quiesce, closed]) (by simp)
    exact ⟨idle.trace, idle.open_, idle.locking, idle.closed, idle.quiesced, by simp,
      fun _ => inv.rest (by simp [sync])⟩
  | _ => exact ⟨inv.trace, inv.open_, inv.locking, inv.closed, inv.quiesced, inv.syncing, inv.rest⟩

end Stages

/-! ## The protocol is safe -/

section Safety

variable [Fintype ι] {s s' : TxState ncpus ι}

theorem txgInit_inv : (txgInit first : TxState ncpus ι).Inv first := by
  refine ⟨?_, ?_, ⟨by simp [txgInit], by simp [txgInit, HandlePc.holds]⟩, ?_⟩
  · rintro (h | _) k <;> simp [ownsAt, txgInit, HandlePc.locks, QuiescePc.locks]
  · intro c slot
    simp [txgInit, tally, HandlePc.counted]
  · constructor <;> simp [txgInit, TxState.pending, QuiescePc.closed]

theorem Step.inv [DecidableEq ι] (positive : 0 < first) (inv : s.Inv first) (step : Step s s') : s'.Inv first :=
  ⟨step.lockInv inv.locks, step.countInv inv.counts,
    step.handleInv inv.handles inv.locks inv.counts inv.stages, step.stageInv positive inv.stages⟩

end Safety

section Stages

variable {s : TxState ncpus ι}

section

variable (inv : s.StageInv first)

include inv

/-- What has reached the sync thread is what `spa_sync` was called for. -/
theorem TxState.StageInv.syncing_eq (positive : 0 < first) :
    s.txSyncedTxg ≤ s.syncing ∧ (s.syncing + 1 = first + s.spaSync.length ∨ s.spaSync = [] ∧ s.syncing = 0) := by
  unfold TxState.syncing
  cases at_ : s.syncThread with
  | syncing t =>
    obtain ⟨same, lower, last, before⟩ := inv.syncing t at_
    rw [if_pos (by omega), same]
    exact ⟨by omega, .inl last⟩
  | exited | waiting =>
    obtain ⟨none, before⟩ := inv.rest (by simp [at_])
    simpa [none] using before

theorem TxState.StageInv.mem_spaSync (positive : 0 < first) (t) : t ∈ s.spaSync ↔ first ≤ t ∧ t ≤ s.syncing := by
  obtain ⟨-, same | ⟨nothing, zero⟩⟩ := inv.syncing_eq positive
  · rw [inv.trace, List.mem_range'_1]
    omega
  · simp only [nothing, List.not_mem_nil, false_iff]
    omega

theorem TxState.StageInv.quiesced_bounds (positive : 0 < first) :
    s.syncing ≤ s.quiesced ∧ s.quiesced < s.txOpenTxg := by
  have open_ := inv.open_
  obtain ⟨-, reached⟩ := inv.syncing_eq positive
  unfold TxState.quiesced
  split
  · rename_i some
    have current := inv.quiesced some
    simp only [TxState.pending, some, ne_eq, not_false_eq_true, true_or, if_true] at open_
    omega
  · omega

theorem TxState.StageInv.closed_iff (t) :
    s.quiesceThread.closed = some t ∨ t ≠ 0 ∧ t = s.txQuiescedTxg → s.pending = 1 ∧ t = first + s.spaSync.length := by
  rintro (closed | ⟨nonzero, rfl⟩)
  · exact ⟨if_pos (.inr (by simp [closed])), (inv.closed t closed).1⟩
  · exact ⟨if_pos (.inl nonzero), inv.quiesced nonzero⟩

theorem TxState.StageInv.of_pending (pending : s.pending = 1) : s.Live (first + s.spaSync.length) := by
  unfold TxState.pending at pending
  split at pending
  · rename_i some
    rcases some with quiesced | closed
    · exact .inr (.inr ⟨inv.quiesced quiesced ▸ quiesced, .inl (inv.quiesced quiesced).symm⟩)
    · obtain ⟨t, closed⟩ := Option.ne_none_iff_exists'.mp closed
      exact .inr (.inl ((inv.closed t closed).1 ▸ closed))
  · omega

/-- The live transaction groups are those from the oldest that is not synced to the open one. -/
theorem TxState.StageInv.live_iff (positive : 0 < first) :
    ∃ oldest, s.txOpenTxg < oldest + txgConcurrentStates ∧ ∀ t, s.Live t ↔ oldest ≤ t ∧ t ≤ s.txOpenTxg := by
  have open_ := inv.open_
  have pending : s.pending = 0 ∨ s.pending = 1 := by
    unfold TxState.pending
    split <;> simp
  have queued : ∀ t, s.quiesceThread.closed = some t ∨ t ≠ 0 ∧ t = s.txQuiescedTxg →
      first + s.spaSync.length ≤ t ∧ t ≤ s.txOpenTxg := by
    intro t live
    have := inv.closed_iff t live
    omega
  have waits : ∀ t, first + s.spaSync.length ≤ t → t ≤ s.txOpenTxg → s.Live t := by
    intro t lower upper
    by_cases current : t = s.txOpenTxg
    · exact .inl current
    · obtain rfl : t = first + s.spaSync.length := by omega
      exact inv.of_pending (by omega)
  cases at_ : s.syncThread with
  | syncing u =>
    obtain ⟨same, lower, last, -⟩ := inv.syncing u at_
    refine ⟨u, by simp only [txgConcurrentStates]; omega, fun t => ⟨?_, ?_⟩⟩
    · rintro (rfl | closed | ⟨nonzero, quiesced | syncing⟩)
      · omega
      · have := queued t (.inl closed)
        omega
      · have := queued t (.inr ⟨nonzero, quiesced⟩)
        omega
      · omega
    · rintro ⟨above, upper⟩
      by_cases syncing : t = u
      · exact .inr (.inr ⟨by omega, .inr (syncing.trans same.symm)⟩)
      · exact waits t (by omega) upper
  | exited | waiting =>
    obtain ⟨none, -⟩ := inv.rest (by simp [at_])
    refine ⟨first + s.spaSync.length, by simp only [txgConcurrentStates]; omega, fun t => ⟨?_, ?_⟩⟩
    · rintro (rfl | closed | ⟨nonzero, quiesced | syncing⟩)
      · omega
      · exact queued t (.inl closed)
      · exact queued t (.inr ⟨nonzero, quiesced⟩)
      · omega
    · exact fun ⟨lower, upper⟩ => waits t lower upper

theorem TxState.StageInv.mem_lt (member : t ∈ s.spaSync) : t < first + s.spaSync.length := by
  rw [inv.trace, List.mem_range'_1] at member
  exact member.2

end

end Stages

theorem HandlePc.counted_iff {pc : HandlePc ncpus} {c slot} :
    pc.counted c slot ↔ ∃ t, pc.holds c t ∧ slot = txgSlot t := by
  cases pc <;> simp [counted, holds]

/-- The handles in a slot are all on the same live transaction group: the open one and the closed
    one are neighbours. -/
theorem TxState.Inv.slot [Fintype ι] {s : TxState ncpus ι} (inv : s.Inv first) (c : Fin ncpus)
    (slot) : ∃ t, ∀ h, (s.handle h).counted c slot → (s.handle h).holds c t ∧ s.Live t := by
  have open_ := inv.stages.open_
  by_cases current : txgSlot s.txOpenTxg = slot
  · refine ⟨s.txOpenTxg, fun h counted => ?_⟩
    obtain ⟨t, holds, rfl⟩ := counted_iff.mp counted
    rcases inv.handles.holds h c t holds with rfl | ⟨closed, -⟩
    · exact ⟨holds, .inl rfl⟩
    · obtain ⟨pending, same⟩ := inv.stages.closed_iff t (.inl closed)
      rw [txgSlot_eq, txgSlot_eq] at current
      omega
  · refine ⟨first + s.spaSync.length, fun h counted => ?_⟩
    obtain ⟨t, holds, rfl⟩ := counted_iff.mp counted
    rcases inv.handles.holds h c t holds with rfl | ⟨closed, -⟩
    · exact absurd rfl current
    · obtain rfl := (inv.stages.closed t closed).1
      exact ⟨holds, .inr (.inl closed)⟩

/-- In every run, transaction groups are synced once each and in order, without holds; they pass
    the stages in order, at most three are live, and no slot counts two of them. -/
theorem txg_safe [Fintype ι] [DecidableEq ι] {s : TxState ncpus ι} (positive : 0 < first)
    (reachable : (runs ncpus ι first).Reachable s) : s.Safe first := by
  have inv : s.Inv first := by
    refine reachable.invariant ?_ ?_
    · rintro s rfl
      exact txgInit_inv
    · intro s s' inv step
      exact Step.inv positive inv step
  have stages := inv.stages
  obtain ⟨le, lt⟩ := stages.quiesced_bounds positive
  refine ⟨stages.trace, stages.mem_spaSync positive, ?_, lt, le, (stages.syncing_eq positive).1,
    stages.live_iff positive, inv.counts, ?_⟩
  · intro t member h c
    have upper := ((stages.mem_spaSync positive t).mp member).2
    constructor
    · intro holds
      rcases inv.handles.holds h c t holds with rfl | ⟨closed, -⟩
      · omega
      · have := (stages.closed t closed).1
        have := stages.mem_lt member
        omega
    · intro fetched
      have := inv.handles.fetched h c t fetched
      omega
  · exact fun c slot => inv.slot c slot

/-- A hold that outlasts the transaction group it was taken in. -/
theorem txg_safe_closed : ∃ s : TxState 1 (Fin 1),
    s.handle 0 = .held 0 4 ∧ s.txOpenTxg = 5 ∧ s.Safe 4 := by
  have booted : (runs 1 (Fin 1) 4).Reachable _ := .next (.first rfl) (.start rfl rfl)
  have entered := booted.next (.holdEnter 0 0 rfl rfl)
  have opened := (entered.next (.holdFetch (h := 0) rfl)).next (.holdCount (h := 0) rfl)
  have held := opened.next (.releToQuiesce (h := 0) rfl)
  have locked := ((held.next (.waitOpen 5)).next (.quiesceBegin rfl rfl (by decide) rfl)).next
    (.quiesceLock 0 rfl rfl)
  exact ⟨_, rfl, rfl, txg_safe (by decide) (locked.next (.quiesceAdvance rfl))⟩

end MacZfs.Txg
