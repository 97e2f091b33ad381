import MacZfs.Metaslab.Basic

/-!
# Metaslab groups

The metaslabs of one top-level vdev, as `metaslab_group_alloc`, `metaslab_claim_dva`,
`metaslab_free_dva`, `vdev_sync` and `vdev_sync_done` work on them. The group's tree is the
metaslabs in the order of `metaslab_compare`.
-/

namespace MacZfs

/-- The fields of a `dva_t`. -/
structure Dva where
  dvaVdev : ℕ
  dvaOffset : ℕ
  dvaAsize : ℕ
  dvaGang : Bool
  deriving Repr, DecidableEq

/-- The metaslabs of a vdev and its `vdev_ms_list`: for each slot, the metaslabs that a
    transaction group has dirtied, or that wait for its `metaslab_sync_done`. -/
structure MetaslabGroup (vd : Vdev) where
  vdevMs : Fin vd.vdevMsCount → Metaslab
  vdevMsList : ℕ → List (Fin vd.vdevMsCount)

variable {vd : Vdev}

/-- `txg_list_add`: nothing happens to a member. -/
def txgListAdd {α : Type} [DecidableEq α] (list : ℕ → List α) (x : α) (txg : ℕ) : ℕ → List α :=
  if x ∈ list (txgSlot txg) then list
  else Function.update list (txgSlot txg) (x :: list (txgSlot txg))

/-- The metaslab `i` replaced. -/
def MetaslabGroup.setMs (mg : MetaslabGroup vd) (i : Fin vd.vdevMsCount) (msp : Metaslab) :
    MetaslabGroup vd :=
  { mg with vdevMs := Function.update mg.vdevMs i msp }

/-- `vdev_dirty(vd, VDD_METASLAB, msp, txg)`. -/
def MetaslabGroup.vdevDirty (mg : MetaslabGroup vd) (i : Fin vd.vdevMsCount) (txg : ℕ) :
    MetaslabGroup vd :=
  { mg with vdevMsList := txgListAdd mg.vdevMsList i txg }

def MetaslabGroup.dirtyFirst (mg : MetaslabGroup vd) (i : Fin vd.vdevMsCount) (sm : SpaceMap)
    (txg : ℕ) : MetaslabGroup vd :=
  if sm.smSpace = 0 then mg.vdevDirty i txg else mg

/-! ## Allocation -/

/-- `metaslab_compare`. -/
def metaslabCompare (m1 m2 : Metaslab) : Ordering :=
  if m1.msWeight < m2.msWeight then .gt
  else if m1.msWeight > m2.msWeight then .lt
  else if m1.msMap.smStart < m2.msMap.smStart then .lt
  else if m1.msMap.smStart > m2.msMap.smStart then .gt
  else .eq

/-- `mg_metaslab_tree`, in order. -/
def MetaslabGroup.tree (mg : MetaslabGroup vd) : List (Fin vd.vdevMsCount) :=
  (List.finRange vd.vdevMsCount).insertionSort
    fun i j => metaslabCompare (mg.vdevMs i) (mg.vdevMs j) ≠ .gt

/-- `metaslab_distance`. -/
def metaslabDistance (vd : Vdev) (msp : Metaslab) (dva : Dva) : ℕ :=
  let offset := dva.dvaOffset >>> vd.vdevMsShift
  let start := msp.msMap.smStart >>> vd.vdevMsShift
  if vd.vdevId ≠ dva.dvaVdev then 1 <<< 63
  else if offset < start then u64 ((start - offset) <<< vd.vdevMsShift)
  else if offset > start then u64 ((offset - start) <<< vd.vdevMsShift)
  else 0

/-- The metaslab that `metaslab_group_alloc` settles on, walking the tree; `none` where it gives
    up. -/
def groupSelect (mg : MetaslabGroup vd) (size minDistance activationWeight : ℕ) (dva : List Dva) :
    List (Fin vd.vdevMsCount) → Option (Fin vd.vdevMsCount)
  | [] => none
  | i :: rest =>
    let msp := mg.vdevMs i
    if msp.msWeight < size then none
    else if activationWeight = metaslabWeightPrimary then some i
    else
      let targetDistance := u64 (minDistance +
        if msp.msSmo.smoAlloc ≠ 0 then 0 else minDistance >>> 1)
      if dva.all fun d => !decide (metaslabDistance vd msp d < targetDistance) then some i
      else groupSelect mg size minDistance activationWeight dva rest

/-- The end of `metaslab_group_alloc`: the extent goes to the allocmap of the txg. -/
def groupRecord (mg : MetaslabGroup vd) (i : Fin vd.vdevMsCount) (offset size txg : ℕ) :
    Option (MetaslabGroup vd) := do
  let msp := mg.vdevMs i
  let allocmap := msp.msAllocmap (txgSlot txg)
  let mg := mg.dirtyFirst i allocmap txg
  let allocmap ← spaceMapAdd allocmap offset size
  return mg.setMs i { msp with msAllocmap := setSlot msp.msAllocmap txg allocmap }

def groupActivationWeight (vd : Vdev) (dva : List Dva) : ℕ :=
  if dva.any fun d => d.dvaVdev == vd.vdevId then metaslabWeightSecondary
  else metaslabWeightPrimary

/-- `~METASLAB_ACTIVE_MASK`. -/
def metaslabInactiveMask : ℕ := 2 ^ 64 - 1 - metaslabActiveMask

/-- The loop of `metaslab_group_alloc`, for at most `rounds` rounds; `dva` holds the copies
    allocated before. The result is the offset, `none` standing for `-1ULL`, and the group. The
    second look at the weight, under `ms_lock`, is for other threads only. -/
def groupAllocLoop (meets : List SpaceSeg → ℕ) (size txg minDistance : ℕ) (dva : List Dva) :
    (rounds : ℕ) → MetaslabGroup vd → Option (Option ℕ × MetaslabGroup vd)
  | 0, _ => none
  | rounds + 1, mg =>
    let activationWeight := groupActivationWeight vd dva
    match groupSelect mg size minDistance activationWeight dva mg.tree with
    | none => some (none, mg)
    | some i =>
      let msp := mg.vdevMs i
      if msp.msWeight &&& metaslabWeightSecondary ≠ 0 ∧
          activationWeight = metaslabWeightPrimary then
        groupAllocLoop meets size txg minDistance dva rounds
          (mg.setMs i (metaslabPassivate msp (msp.msWeight &&& metaslabInactiveMask)))
      else do
        let msp ← metaslabActivate msp activationWeight
        let (offset, sm) ← spaceMapAlloc meets msp.msMap size
        let mg := mg.setMs i { msp with msMap := sm }
        match offset with
        | some offset =>
          let mg ← groupRecord mg i offset size txg
          return (some offset, mg)
        | none =>
          groupAllocLoop meets size txg minDistance dva rounds
            (mg.setMs i (metaslabPassivate (mg.vdevMs i) (u64Sub size 1)))

/-- `metaslab_group_alloc`. Every round that does not end it passivates a metaslab, from
    secondary to inactive or from active to below `size`, so two rounds for each are enough. -/
def metaslabGroupAlloc (meets : List SpaceSeg → ℕ) (mg : MetaslabGroup vd)
    (size txg minDistance : ℕ) (dva : List Dva) : Option (Option ℕ × MetaslabGroup vd) :=
  groupAllocLoop meets size txg minDistance dva (2 * vd.vdevMsCount + 1) mg

/-! ## Claiming and freeing -/

def dvaMetaslab (vd : Vdev) (dva : Dva) : Option (Fin vd.vdevMsCount) :=
  if dva.dvaVdev ≠ vd.vdevId then none
  else if h : dva.dvaOffset >>> vd.vdevMsShift < vd.vdevMsCount then
    some ⟨dva.dvaOffset >>> vd.vdevMsShift, h⟩
  else none

/-- `SPA_GANGBLOCKSIZE`. -/
def spaGangblocksize : ℕ := 512

def dvaSize (vd : Vdev) (dva : Dva) : ℕ :=
  if dva.dvaGang then vd.psizeToAsize spaGangblocksize else dva.dvaAsize

def dvaOffsets (vd : Vdev) (dva : Dva) : Finset ℕ :=
  Finset.Ico dva.dvaOffset (dva.dvaOffset + dvaSize vd dva)

/-- `metaslab_claim_dva`. A bad DVA is refused with `ENXIO`. -/
def metaslabClaimDva (mg : MetaslabGroup vd) (dva : Dva) (txg : ℕ) : Option (MetaslabGroup vd) :=
  match dvaMetaslab vd dva with
  | none => some mg
  | some i => do
      let msp ← metaslabActivate (mg.vdevMs i) metaslabWeightSecondary
      let sm ← spaceMapClaim msp.msMap dva.dvaOffset (dvaSize vd dva)
      groupRecord (mg.setMs i { msp with msMap := sm }) i dva.dvaOffset (dvaSize vd dva) txg

/-- The check in `metaslab_free_dva` that the region is allocated. -/
def freeAllocd (msp : Metaslab) (offset size txg : ℕ) : Option Bool := do
  if ← spaceMapContains msp.msMap offset size then
    (List.range txgConcurrentStates).anyM fun i =>
      spaceMapContains (msp.msAllocmap (txgSlot (u64Sub txg i))) offset size
  else return true

/-- `metaslab_free_dva` once the metaslab is known, with `now` set. -/
def freeNow (msp : Metaslab) (offset size txg : ℕ) : Option Metaslab := do
  let allocmap ← spaceMapRemove (msp.msAllocmap (txgSlot txg)) offset size
  let sm ← spaceMapFree msp.msMap offset size
  return { msp with msAllocmap := setSlot msp.msAllocmap txg allocmap, msMap := sm }

/-- `metaslab_free_dva` once the metaslab is known, with `now` unset. -/
def freeDeferred (msp : Metaslab) (offset size txg : ℕ) : Option Metaslab := do
  let freemap ← spaceMapAdd (msp.msFreemap (txgSlot txg)) offset size
  let msp := { msp with msFreemap := setSlot msp.msFreemap txg freemap }
  if msp.msMap.smLoaded then
    let allocd ← freeAllocd msp offset size txg
    guard allocd
  return msp

/-- `metaslab_free_dva`. A free past the freeze txg and a bad DVA are ignored. -/
def metaslabFreeDva (mg : MetaslabGroup vd) (dva : Dva) (txg : ℕ) (now : Bool) (freezeTxg : ℕ) :
    Option (MetaslabGroup vd) :=
  if txg > freezeTxg then some mg
  else match dvaMetaslab vd dva with
    | none => some mg
    | some i => do
        let msp := mg.vdevMs i
        if now then
          let msp ← freeNow msp dva.dvaOffset (dvaSize vd dva) txg
          return mg.setMs i msp
        else
          let mg := mg.dirtyFirst i (msp.msFreemap (txgSlot txg)) txg
          let msp ← freeDeferred msp dva.dvaOffset (dvaSize vd dva) txg
          return mg.setMs i msp

/-! ## Syncing -/

/-- One round of the loop of `vdev_sync`: the head of the dirty list is synced and put on the list
    of metaslabs that wait for `metaslab_sync_done`. -/
def vdevSyncOne (order : DestroyOrder) (mg : MetaslabGroup vd) (txg syncpass newObject : ℕ) :
    Option (MetaslabGroup vd) :=
  match mg.vdevMsList (txgSlot txg) with
  | [] => some mg
  | i :: rest => do
      let msp ← metaslabSync order (mg.vdevMs i) txg syncpass newObject
      let list := Function.update mg.vdevMsList (txgSlot txg) rest
      return { (mg.setMs i msp) with vdevMsList := txgListAdd list i (txgClean txg) }

/-- One round of the loop of `vdev_sync_done`. -/
def vdevSyncDoneOne (order : DestroyOrder) (mg : MetaslabGroup vd) (txg : ℕ) :
    Option (MetaslabGroup vd) :=
  match mg.vdevMsList (txgSlot (txgClean txg)) with
  | [] => some mg
  | i :: rest => do
      let msp ← metaslabSyncDone vd order (mg.vdevMs i) txg
      return { (mg.setMs i msp) with
        vdevMsList := Function.update mg.vdevMsList (txgSlot (txgClean txg)) rest }

end MacZfs
