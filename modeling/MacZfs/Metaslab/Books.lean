import MacZfs.Metaslab.Accounts
import MacZfs.Metaslab.Group
import MacZfs.SpaceMap.Sync

/-!
# The books of a metaslab

A metaslab keeps the accounts of an allocator in its log, in the allocmaps and freemaps of the live
transaction groups and in the map of freed space that waits for `metaslab_sync_done`. What is not in
use is what the in-core map shows when it is loaded. `MsBooks` ties the maps to the accounts; the
lemmas here say which operation on the accounts each function of `metaslab.c` is.
-/

namespace MacZfs

open Extents Checked

namespace Metaslab

/-- What the allocmap for `txg` holds. -/
def allocs (msp : Metaslab) (txg : ℕ) : Finset ℕ := (msp.msAllocmap (txgSlot txg)).offsets

/-- What the freemap for `txg` holds. -/
def frees (msp : Metaslab) (txg : ℕ) : Finset ℕ := (msp.msFreemap (txgSlot txg)).offsets

end Metaslab

/-- The maps of a metaslab hold the accounts `acc`, and `log` is the log it is syncing. The freemap
    in the slot of `T` is the map of freed space; the allocmap there is empty. -/
structure MsBooks (R : MapRange) (T : ℕ) (ledger : Ledger ℕ) (msp : Metaslab) (acc : Accounts ℕ)
    (log : List Word) : Prop where
  ok : acc.Ok R.set T ledger
  mapOn : msp.msMap.On R
  allocOn : ∀ s, (msp.msAllocmap s).On R
  freeOn : ∀ s, (msp.msFreemap s).On R
  logOf : LogOf R msp.msSmoSyncing msp.msObject log acc.logged
  noObject : msp.msSmoSyncing.smoObject = 0 → log = []
  allocs_eq : ∀ t, Live T t → msp.allocs t = acc.allocs t
  frees_eq : ∀ t, Live T t → msp.frees t = acc.frees t
  spare : msp.allocs T = ∅
  freed_eq : msp.frees T = acc.freed
  loaded : msp.msMap.smLoaded = true → ∀ x, x ∈ msp.msMap.offsets ↔ x ∈ R.set ∧ ¬ acc.InUse x
  unloaded : msp.msMap.smLoaded = false → msp.msMap.smSpace = 0 ∧ (∀ t, acc.allocs t = ∅) ∧
    ∃ old rest, log = old ++ rest ∧ LogOf R msp.msSmo msp.msObject old (acc.logged ∪ acc.freed)

def MsInv (R : MapRange) (T : ℕ) (ledger : Ledger ℕ) (msp : Metaslab) : Prop :=
  ∃ acc log, MsBooks R T ledger msp acc log

variable {R : MapRange} {T : ℕ} {ledger : Ledger ℕ} {msp : Metaslab} {acc : Accounts ℕ}
  {log : List Word}

/-! ## Slots -/

theorem Live.slot_ne (live : Live T t) (live' : Live T t') (ne : t' ≠ t) : txgSlot t' ≠ txgSlot t := by
  simp only [Live, txgConcurrentStates] at live live'
  rw [txgSlot_eq, txgSlot_eq]
  omega

theorem Live.slot_ne_done (live : Live T t) : txgSlot T ≠ txgSlot t := by
  simp only [Live, txgConcurrentStates] at live
  rw [txgSlot_eq, txgSlot_eq]
  omega

theorem live_next (T) : Live T (T + 1) := by
  simp only [Live, txgConcurrentStates]
  omega

theorem txgSlot_clean (T) : txgSlot (txgClean (T + 1)) = txgSlot T := by
  rw [txgSlot_txgClean, txgSlot_eq]

theorem txgSlot_next (T) : txgSlot (T + 1 + txgConcurrentStates) = txgSlot T := by
  simp only [txgConcurrentStates, txgSlot_eq]
  omega

theorem setSlot_same (maps) (txg) (sm) :
    setSlot maps txg sm (txgSlot txg) = sm := Function.update_self _ _ _

theorem setSlot_other (maps) (sm) (ne : s ≠ txgSlot txg) :
    setSlot maps txg sm s = maps s := Function.update_of_ne ne _ _

theorem setSlot_setSlot (maps) (txg) (sm sm' : SpaceMap) :
    setSlot (setSlot maps txg sm) txg sm' = setSlot maps txg sm' := Function.update_idem _ _ _

variable {sm : SpaceMap}

theorem setSlot_on (on : ∀ s, (maps s).On R) (smOn : sm.On R) (txg s : ℕ) : (setSlot maps txg sm s).On R := by
  by_cases same : s = txgSlot txg
  · rw [same, setSlot_same]
    exact smOn
  · rw [setSlot_other maps sm same]
    exact on s

theorem setSlot_live (eq : ∀ t, Live T t → (maps (txgSlot t)).offsets = sets t) (live : Live T txg)
    (offsets : sm.offsets = s) :
    ∀ t, Live T t → (setSlot maps txg sm (txgSlot t)).offsets = Function.update sets txg s t := by
  intro t live'
  by_cases same : t = txg
  · rw [same, setSlot_same, Function.update_self, offsets]
  · rw [setSlot_other _ _ (live.slot_ne live' same), Function.update_of_ne same, eq t live']

/-! ## What the books say -/

namespace MsBooks

theorem inside (books : MsBooks R T ledger msp acc log) {x} (used : acc.InUse x) : x ∈ R.set := by
  rcases used with logged | freed | ⟨t, allocated⟩
  · exact books.logOf.subset logged
  · rw [← books.freed_eq] at freed
    exact (books.freeOn _).subset freed
  · rw [← books.allocs_eq t (books.ok.live_of_mem allocated)] at allocated
    exact (books.allocOn _).subset allocated

variable {x : ℕ}

section

variable (books : MsBooks R T ledger msp acc log)

include books

section

variable (free : x ∈ msp.msMap.offsets)

include free

theorem loaded_of_free : msp.msMap.smLoaded = true := by
  by_contra unloaded
  have empty := (books.unloaded (by simpa using unloaded)).1
  rw [books.mapOn.space_eq_card, Finset.card_eq_zero] at empty
  simp [empty] at free

theorem not_inUse : x ∈ R.set ∧ ¬ acc.InUse x :=
  (books.loaded (books.loaded_of_free free) x).mp free

theorem idle_of_free : ledger x = .idle := by
  obtain ⟨inside, available⟩ := books.not_inUse free
  exact books.ok.idle inside available

end

theorem congr (same : ∀ x ∈ R.set, ledger' x = ledger x) : MsBooks R T ledger' msp acc log :=
  { books with ok := books.ok.congr (fun _ used => books.inside used) same }

theorem setWeight (weight : ℕ) : MsBooks R T ledger { msp with msWeight := weight } acc log :=
  ⟨books.ok, books.mapOn, books.allocOn, books.freeOn, books.logOf, books.noObject,
    books.allocs_eq, books.frees_eq, books.spare, books.freed_eq, books.loaded, books.unloaded⟩

theorem setMap {sm} (on : sm.On R)
    (isLoaded : sm.smLoaded = true) (free : ∀ x, x ∈ sm.offsets ↔ x ∈ R.set ∧ ¬ acc.InUse x) :
    MsBooks R T ledger { msp with msMap := sm } acc log :=
  ⟨books.ok, on, books.allocOn, books.freeOn, books.logOf, books.noObject, books.allocs_eq,
    books.frees_eq, books.spare, books.freed_eq, fun _ => free,
    fun unloaded => by simp [isLoaded] at unloaded⟩

end

end MsBooks

/-! ## Loading -/

theorem SpaceMap.On.setFlags (on : sm.On R) (isLoaded ops : Bool) (ppd) :
    SpaceMap.On { sm with smLoaded := isLoaded, smOps := ops, smPpd := ppd } R :=
  ⟨⟨on.separated, on.lower, on.upper, on.space, on.bounded⟩, on.start_eq, on.size_eq, on.shift_eq⟩

section

variable (books : MsBooks R T ledger msp acc log)

include books

theorem MsBooks.setPpd (ppd) :
    MsBooks R T ledger { msp with msMap := { msp.msMap with smPpd := ppd } } acc log :=
  ⟨books.ok, books.mapOn.setFlags _ _ ppd, books.allocOn, books.freeOn, books.logOf,
    books.noObject, books.allocs_eq, books.frees_eq, books.spare, books.freed_eq, books.loaded,
    books.unloaded⟩

/-- Loading the free map from the last synced log accounts for everything: nothing has been
    allocated since, and what was freed since is still waiting. -/
theorem MsBooks.load (load : spaceMapLoad msp.msMap ops .smFree msp.msSmo msp.msObject = some sm) :
    MsBooks R T ledger { msp with msMap := sm } acc log := by
  cases isLoaded : msp.msMap.smLoaded with
  | true =>
    rw [spaceMapLoad, if_pos isLoaded, Option.some.injEq] at load
    exact load ▸ books
  | false =>
    obtain ⟨empty, noAllocs, old, rest, -, logOf⟩ := books.unloaded isLoaded
    obtain ⟨sm', load', becomes⟩ :=
      spaceMapLoad_spec logOf books.mapOn isLoaded empty ops .smFree
    rw [load, Option.some.injEq] at load'
    subst load'
    refine books.setMap ((becomes.on books.mapOn).setFlags true ops _) rfl ?_
    intro x
    have view : x ∈ sm'.offsets ↔ x ∈ R.set ∧ x ∉ acc.logged ∪ acc.freed := by
      rw [becomes.offsets_eq, MapType.view, Finset.mem_sdiff]
    refine view.trans (and_congr_right fun _ => not_congr ?_)
    simp [Accounts.InUse, noAllocs]

theorem MsBooks.activate (activate : metaslabActivate msp weight = some msp') : MsBooks R T ledger msp' acc log := by
  unfold metaslabActivate at activate
  split at activate
  · simp only [Option.bind_eq_bind, Option.bind_eq_some_iff, Option.pure_def, Option.some.injEq] at activate
    obtain ⟨sm, load, rfl⟩ := activate
    exact (books.load load).setWeight _
  · rw [Option.some.injEq] at activate
    exact activate ▸ books

end

end MacZfs
