import MacZfs.Lib.Runs
import MacZfs.Metaslab.Calls

/-!
# Runs of a metaslab group

Any sequence of allocations, claims, frees, loads and syncs that the transaction group protocol
allows. The ledger goes along as a ghost: it records what callers were given and what they gave
back, and has no influence on what the code does.
-/

namespace MacZfs

open Extents Runs

attribute [local irreducible] txgSlot txgClean

/-- A group in the middle of a run. `synced` is the last transaction group that is done, and
    `finishing` says that `vdev_sync_done` of the next one has begun. -/
structure MgState (vd : Vdev) where
  mg : MetaslabGroup vd
  synced : ℕ
  finishing : Bool
  ledger : Ledger ℕ

variable {vd : Vdev}

namespace MgState

def allocated (s : MgState vd) : Set ℕ := {x | ∃ birth, s.ledger x = .held birth}

/-- The offsets given to a deferred free whose `metaslab_sync_done` is still to come. -/
def pending (s : MgState vd) : Set ℕ := {x | ∃ txg, s.ledger x = .freeing txg}

structure Initial (s : MgState vd) : Prop where
  finishing : s.finishing = false
  clean : ∀ slot, s.mg.vdevMsList slot = []
  init : ∀ i, ∃ order smo object log logged, LogOf (vd.msRange i) smo object log logged ∧
    (smo.smoObject = 0 → log = []) ∧
    (∀ x ∈ (vd.msRange i).set, x ∈ s.allocated → x ∈ logged) ∧
    (∀ x ∈ (vd.msRange i).set, x ∉ s.pending) ∧
    metaslabSyncDone vd order
      (metaslabInit vd smo object (vd.msRange i).start (vd.msRange i).size) 0 = some (s.mg.vdevMs i)

def handOut (ledger : Ledger ℕ) (offset : Option ℕ) (size txg : ℕ) : Ledger ℕ :=
  match offset with
  | none => ledger
  | some start => ledger.assign (Finset.Ico start (start + size)) (.held txg)

inductive Step : MgState vd → MgState vd → Prop
  | alloc {s : MgState vd} {meets : List SpaceSeg → ℕ} {size txg minDistance : ℕ} {dva : List Dva}
      {offset : Option ℕ} {mg : MetaslabGroup vd}
      (usable : Usable s.synced s.finishing txg) (small : size < 2 ^ 63)
      (call : metaslabGroupAlloc meets s.mg size txg minDistance dva = some (offset, mg)) :
      Step s { s with mg, ledger := handOut s.ledger offset size txg }
  /-- A claim takes an extent by its address, when the intent log is replayed. -/
  | claim {s : MgState vd} {dva : Dva} {txg : ℕ} {mg : MetaslabGroup vd}
      (usable : Usable s.synced s.finishing txg) (small : dvaSize vd dva < 2 ^ 63)
      (call : metaslabClaimDva s.mg dva txg = some mg) :
      Step s { s with
        mg
        ledger := if dvaMetaslab vd dva = none then s.ledger
          else s.ledger.assign (dvaOffsets vd dva) (.held txg) }
  /-- A deferred free, of space that was allocated in this transaction group or before. -/
  | free {s : MgState vd} {dva : Dva} {txg freezeTxg : ℕ} {mg : MetaslabGroup vd}
      (usable : Usable s.synced s.finishing txg) (small : dvaSize vd dva < 2 ^ 63)
      (held : ∀ x ∈ dvaOffsets vd dva, ∃ birth ≤ txg, s.ledger x = .held birth)
      (call : metaslabFreeDva s.mg dva txg false freezeTxg = some mg) :
      Step s { s with
        mg
        ledger := if txg > freezeTxg ∨ dvaMetaslab vd dva = none then s.ledger
          else s.ledger.assign (dvaOffsets vd dva) (.freeing txg) }
  /-- An immediate free, of space that was allocated in this transaction group. -/
  | freeNow {s : MgState vd} {dva : Dva} {txg freezeTxg : ℕ} {mg : MetaslabGroup vd}
      (usable : Usable s.synced s.finishing txg) (small : dvaSize vd dva < 2 ^ 63)
      (held : ∀ x ∈ dvaOffsets vd dva, s.ledger x = .held txg)
      (call : metaslabFreeDva s.mg dva txg true freezeTxg = some mg) :
      Step s { s with
        mg
        ledger := if txg > freezeTxg ∨ dvaMetaslab vd dva = none then s.ledger
          else s.ledger.assign (dvaOffsets vd dva) .idle }
  /-- Another thread activates a metaslab, which loads its map. -/
  | activate {s : MgState vd} {i : Fin vd.vdevMsCount} {weight : ℕ} {msp : Metaslab}
      (call : metaslabActivate (s.mg.vdevMs i) weight = some msp) :
      Step s { s with mg := s.mg.setMs i msp }
  /-- Another thread passivates a metaslab. With size 0 this is what a load that fails leaves. -/
  | passivate {s : MgState vd} (i : Fin vd.vdevMsCount) (size : ℕ) :
      Step s { s with mg := s.mg.setMs i (metaslabPassivate (s.mg.vdevMs i) size) }
  /-- A round of `vdev_sync`, in any pass. -/
  | sync {s : MgState vd} {order : DestroyOrder} {syncpass newObject : ℕ} {mg : MetaslabGroup vd}
      (syncing : s.finishing = false) (new : newObject ≠ 0)
      (call : vdevSyncOne order s.mg (s.synced + 1) syncpass newObject = some mg) :
      Step s { s with mg }
  /-- The last pass is over. -/
  | converged {s : MgState vd} (syncing : s.finishing = false)
      (clean : s.mg.vdevMsList (txgSlot (s.synced + 1)) = []) :
      Step s { s with finishing := true }
  /-- A round of `vdev_sync_done`. -/
  | syncDone {s : MgState vd} {order : DestroyOrder} {i : Fin vd.vdevMsCount}
      {rest : List (Fin vd.vdevMsCount)} {mg : MetaslabGroup vd} (finishing : s.finishing = true)
      (head : s.mg.vdevMsList (txgSlot s.synced) = i :: rest)
      (call : vdevSyncDoneOne order s.mg (s.synced + 1) = some mg) :
      Step s { s with mg, ledger := s.ledger.settle (vd.msRange i).set (s.synced + 1) }
  /-- The transaction group is done in every metaslab. -/
  | next {s : MgState vd} (finishing : s.finishing = true)
      (clean : s.mg.vdevMsList (txgSlot s.synced) = []) :
      Step s { s with
        synced := s.synced + 1
        finishing := false
        ledger := s.ledger.settleAll (s.synced + 1) }

def runs (vd : Vdev) : System (MgState vd) := ⟨Initial, Step⟩

def Inv (s : MgState vd) : Prop :=
  ∃ msSynced, MgInv vd s.synced s.finishing msSynced s.ledger s.mg

theorem Initial.empty {s : MgState vd} (initial : s.Initial) (i : Fin vd.vdevMsCount) (txg) :
    (s.mg.vdevMs i).allocs txg = ∅ ∧ (s.mg.vdevMs i).frees txg = ∅ := by
  obtain ⟨order, smo, object, log, logged, -, -, -, -, init⟩ := initial.init i
  rw [metaslabInit_done, Option.some.injEq] at init
  rw [← init]
  exact ⟨rfl, rfl⟩

theorem Initial.inv {s : MgState vd} (initial : s.Initial) : s.Inv := by
  refine ⟨fun _ => s.synced, ?_, fun _ => .inl rfl, ?_, ?_, by simp [initial.clean], by simp,
    by simp [initial.clean], by simp [initial.finishing]⟩
  · intro i
    obtain ⟨order, smo, object, log, logged, logOf, noObject, held, settled, init⟩ := initial.init i
    exact metaslabInit_inv vd order (vd.msRange i) rfl s.synced logOf noObject
      (fun x inside b holds => held x inside ⟨b, holds⟩)
      (fun x inside t freeing => settled x inside ⟨t, freeing⟩) init
  · intro i t _ some
    simp [initial.empty i t] at some
  · intro i _ some
    simp [initial.empty i s.synced] at some

def fresh (vd : Vdev) : MgState vd where
  mg.vdevMs i :=
    let sm := (vd.msRange i).create
    let msp : Metaslab := ⟨⟨0, 0, 0⟩, ⟨0, 0, 0⟩, fun _ => sm, fun _ => sm, sm, 0, fun _ => 0⟩
    { msp with msWeight := metaslabWeight vd msp }
  mg.vdevMsList _ := []
  synced := 0
  finishing := false
  ledger _ := .idle

theorem fresh_initial (vd) : (fresh vd).Initial where
  finishing := rfl
  clean _ := rfl
  init i := by
    refine ⟨⟨id, fun _ => .refl _⟩, ⟨0, 0, 0⟩, fun _ => 0, [], ∅, logOf_empty rfl rfl _, fun _ => rfl,
      by simp [allocated, fresh], by simp [pending, fresh], ?_⟩
    rw [metaslabInit_done]
    rfl

theorem Step.inv (inv : s.Inv) (step : Step s s') : s'.Inv := by
  obtain ⟨msSynced, inv⟩ := inv
  cases step with
  | @alloc _ _ _ _ _ offset _ usable small call =>
    obtain ⟨failed, found⟩ := groupAllocLoop_spec usable small _ inv call
    cases offset with
    | none => exact ⟨msSynced, failed rfl⟩
    | some start => exact ⟨msSynced, (found start rfl).1⟩
  | claim usable small call => exact ⟨msSynced, (metaslabClaimDva_spec usable small inv call).1⟩
  | free usable small held call =>
    exact ⟨msSynced, metaslabFreeDva_deferred usable small inv held call⟩
  | freeNow usable small held call =>
    exact ⟨msSynced, metaslabFreeDva_now usable small inv held call⟩
  | activate call => exact ⟨msSynced, inv.activate _ call⟩
  | passivate i size => exact ⟨msSynced, inv.passivate i size⟩
  | sync syncing new call =>
    rw [syncing] at inv
    exact ⟨msSynced, by simpa [syncing] using vdevSyncOne_spec new inv call⟩
  | converged syncing clean =>
    rw [syncing] at inv
    exact ⟨msSynced, inv.startDone clean⟩
  | syncDone finishing head call =>
    rw [finishing] at inv
    exact ⟨_, by simpa [finishing] using vdevSyncDoneOne_spec inv head call⟩
  | next finishing clean =>
    rw [finishing] at inv
    exact ⟨_, inv.next clean⟩

theorem inv_of_reachable (reachable : (runs vd).Reachable s) : s.Inv := by
  refine reachable.invariant ?_ ?_
  · intro s initial
    exact Initial.inv initial
  · intro s s' inv step
    exact Step.inv inv step

end MgState

/-! ## A small group -/

def tinyVdev : Vdev where
  vdevId := 0
  vdevMsShift := 12
  vdevMsCount := 1
  vdevAshift := 9
  psizeToAsize := id
  bounded := by decide
  unit_le := by decide
  units := by decide

def tinyAlloc (mg : MetaslabGroup tinyVdev) : Option (Option ℕ × MetaslabGroup tinyVdev) :=
  metaslabGroupAlloc (fun _ => 0) mg 512 1 0 []

theorem tinyAlloc_first : (tinyAlloc (MgState.fresh tinyVdev).mg).isSome = true := by decide +kernel

def tinyState : MgState tinyVdev :=
  { MgState.fresh tinyVdev with
    mg := ((tinyAlloc (MgState.fresh tinyVdev).mg).get tinyAlloc_first).2
    ledger := MgState.handOut (MgState.fresh tinyVdev).ledger
      ((tinyAlloc (MgState.fresh tinyVdev).mg).get tinyAlloc_first).1 512 1 }

theorem tinyUsable : Usable 0 false 1 := ⟨live_next 0, by simp⟩

theorem tinyState_reachable : (MgState.runs tinyVdev).Reachable tinyState :=
  .next (.first (MgState.fresh_initial tinyVdev))
    (.alloc tinyUsable (by decide) (Option.some_get tinyAlloc_first).symm)

/-! ## What is handed out -/

/-- In every run, an allocation hands out an extent that no caller holds, and no part of which
    waits in a deferred free. -/
theorem group_alloc_disjoint {s : MgState vd} (reachable : (MgState.runs vd).Reachable s)
    {meets : List SpaceSeg → ℕ} {size txg minDistance : ℕ} {dva : List Dva} {start : ℕ}
    {mg : MetaslabGroup vd} (usable : Usable s.synced s.finishing txg) (small : size < 2 ^ 63)
    (call : metaslabGroupAlloc meets s.mg size txg minDistance dva = some (some start, mg)) :
    Disjoint (Set.Ico start (start + size)) s.allocated ∧
      Disjoint (Set.Ico start (start + size)) s.pending := by
  obtain ⟨msSynced, inv⟩ := MgState.inv_of_reachable reachable
  have idle := ((groupAllocLoop_spec usable small _ inv call).2 start rfl).2
  constructor
  · rw [Set.disjoint_left]
    rintro x inside ⟨birth, held⟩
    simp [idle x (by simpa using inside)] at held
  · rw [Set.disjoint_left]
    rintro x inside ⟨txg, freeing⟩
    simp [idle x (by simpa using inside)] at freeing

theorem group_alloc_disjoint_second :
    ∃ start mg, tinyAlloc tinyState.mg = some (some start, mg) ∧ 0 ∈ tinyState.allocated ∧
      Disjoint (Set.Ico start (start + 512)) tinyState.allocated ∧
      Disjoint (Set.Ico start (start + 512)) tinyState.pending := by
  have found : (tinyAlloc tinyState.mg).map Prod.fst = some (some 512) := by decide +kernel
  obtain ⟨⟨_, mg⟩, call, rfl⟩ := Option.map_eq_some_iff.mp found
  have held : tinyState.ledger 0 = .held 1 := by decide +kernel
  exact ⟨512, mg, call, ⟨1, held⟩, group_alloc_disjoint tinyState_reachable tinyUsable (by decide) call⟩

/-! ## What syncing leaves in the log -/

/-- The allocated set that a log decodes to: what `space_map_load` makes of it as `SM_ALLOC`. -/
def decodedAlloc (R : MapRange) (msp : Metaslab) : Option (Finset ℕ) :=
  (spaceMapLoad R.create false .smAlloc msp.msSmoSyncing msp.msObject).map SpaceMap.offsets

theorem MsBooks.decodedAlloc (books : MsBooks R T ledger msp acc log) : decodedAlloc R msp = some acc.logged := by
  obtain ⟨sm, load, becomes⟩ :=
    spaceMapLoad_spec books.logOf (SpaceMap.on_create R) rfl rfl false .smAlloc
  rw [MacZfs.decodedAlloc, load, Option.map_some]
  exact congrArg some becomes.offsets_eq

/-- In every run, for the transaction group that syncs: condensing the log and appending to it both
    go through, and leave logs that decode to the same set under the same `smo_alloc`. -/
theorem condense_eq_append {s : MgState vd} (reachable : (MgState.runs vd).Reachable s)
    (syncing : s.finishing = false) (i : Fin vd.vdevMsCount)
    (loaded : (s.mg.vdevMs i).msMap.smLoaded = true) (order : DestroyOrder)
    (syncpass : ℕ) {newObject : ℕ} (new : newObject ≠ 0) :
    ∃ ready appended condensed allocated,
      metaslabSyncFreed (metaslabObject (s.mg.vdevMs i) newObject) (s.synced + 1) = some ready ∧
      metaslabSyncMaps order ready (s.synced + 1) syncpass = some appended ∧
      (metaslabCondense ready (s.synced + 1)).bind
        (fun msp => metaslabSyncMaps order msp (s.synced + 1) syncpass) = some condensed ∧
      decodedAlloc (vd.msRange i) appended = some allocated ∧
      decodedAlloc (vd.msRange i) condensed = some allocated ∧
      appended.msSmoSyncing.smoAlloc = condensed.msSmoSyncing.smoAlloc := by
  obtain ⟨msSynced, inv⟩ := MgState.inv_of_reachable reachable
  have synced : msSynced i = s.synced := by simpa [syncing] using inv.synced i
  obtain ⟨acc, log, books⟩ := inv.books i
  rw [synced] at books
  obtain ⟨ready, freed, isReady⟩ := (books.object newObject).syncFreed (metaslabObject_ne new)
  have stillLoaded : ready.msMap.smLoaded = true := by
    rw [metaslabSyncFreed_map freed]
    exact loaded
  obtain ⟨appended, rest, append, booksA⟩ := isReady.append order (vd.encodable i) syncpass
  obtain ⟨condensed, log', condense, booksC⟩ :=
    isReady.rewrite order (vd.encodable i) stillLoaded syncpass
  exact ⟨ready, appended, condensed, _, freed, append, condense, booksA.decodedAlloc,
    booksC.decodedAlloc, booksA.logOf.alloc.trans booksC.logOf.alloc.symm⟩

def laterAlloc : Option (Option ℕ × MetaslabGroup tinyVdev) :=
  metaslabGroupAlloc (fun _ => 0) tinyState.mg 512 2 0 []

theorem laterAlloc_offset : laterAlloc.map Prod.fst = some (some 512) := by decide +kernel

def firstDva : Dva := ⟨0, 0, 512, false⟩

def firstFreed : Option (MetaslabGroup tinyVdev) :=
  laterAlloc.bind fun later => metaslabFreeDva later.2 firstDva 1 false 9

/-- Of two allocations, the second one for a later transaction group, the first is freed. -/
theorem firstFreed_reachable : ∃ s, (MgState.runs tinyVdev).Reachable s ∧ firstFreed = some s.mg ∧
    s.synced = 0 ∧ s.finishing = false := by
  obtain ⟨⟨_, later⟩, call, rfl⟩ := Option.map_eq_some_iff.mp laterAlloc_offset
  have reachable := tinyState_reachable.next (.alloc ⟨⟨by decide, by decide⟩, (absurd · Bool.false_ne_true)⟩ (by decide) call)
  have held : ∀ x ∈ dvaOffsets tinyVdev firstDva, ∃ birth ≤ 1,
      MgState.handOut tinyState.ledger (some 512) 512 2 x = .held birth := by
    intro x inside
    have first : ((tinyAlloc (MgState.fresh tinyVdev).mg).get tinyAlloc_first).1 = some 0 := by decide +kernel
    have small : x < 512 := by simpa [dvaOffsets, dvaSize, firstDva] using inside
    refine ⟨1, le_rfl, ?_⟩
    simp [MgState.handOut, tinyState, first, Ledger.assign, small]
  have works : firstFreed.isSome = true := by decide +kernel
  obtain ⟨freed, call'⟩ := Option.isSome_iff_exists.mp works
  have done := call'
  rw [firstFreed, call, Option.bind_some] at done
  exact ⟨_, reachable.next (.free ⟨live_next 0, (absurd · Bool.false_ne_true)⟩ (by decide) held done), call', rfl, rfl⟩

theorem condense_eq_append_freed : ∃ mg, firstFreed = some mg ∧ ∃ order : DestroyOrder, ∃ i : Fin tinyVdev.vdevMsCount,
    ∃ ready appended condensed allocated,
      metaslabSyncFreed (metaslabObject (mg.vdevMs i) 1) 1 = some ready ∧
      metaslabSyncMaps order ready 1 1 = some appended ∧
      (metaslabCondense ready 1).bind (fun msp => metaslabSyncMaps order msp 1 1) = some condensed ∧
      decodedAlloc (tinyVdev.msRange i) appended = some allocated ∧
      decodedAlloc (tinyVdev.msRange i) condensed = some allocated ∧
      appended.msSmoSyncing.smoAlloc = condensed.msSmoSyncing.smoAlloc := by
  obtain ⟨⟨mg, synced, finishing, ledger⟩, reachable, freed, rfl, rfl⟩ := firstFreed_reachable
  have loaded : firstFreed.map (fun mg => (mg.vdevMs ⟨0, by decide⟩).msMap.smLoaded) = some true := by decide +kernel
  rw [freed, Option.map_some, Option.some.injEq] at loaded
  exact ⟨mg, freed, ⟨id, fun _ => .refl _⟩, _, condense_eq_append reachable rfl _ loaded _ 1 (by decide)⟩

end MacZfs
