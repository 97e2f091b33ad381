import MacZfs.SpaceMap.Log

/-!
# Metaslabs

The part of `metaslab.c` that works on one metaslab: the first-fit picker, the weight that
orders the metaslabs of a group, activation, `metaslab_sync` and `metaslab_sync_done`. Each
function runs under `ms_lock`; the lock is dropped around DMU calls, but by the comment in
`metaslab_sync` nothing that the function works on changes meanwhile, and a load in progress is
waited for, so each call is one step here.

The space map object of a metaslab is kept in the meta-objset; its content is the field
`msObject`. Space accounting of the vdev (`vdev_space_update`) is left out.
-/

namespace MacZfs

open Extents

/-- The static part of a top-level vdev: its metaslabs are `2 ^ vdevMsShift` bytes each, from
    offset zero on, allocated in units of `2 ^ vdevAshift`. -/
structure Vdev where
  vdevId : ℕ
  vdevMsShift : ℕ
  vdevMsCount : ℕ
  vdevAshift : ℕ
  /-- `vdev_psize_to_asize`. -/
  psizeToAsize : ℕ → ℕ
  /-- Device sizes are signed 64-bit numbers. -/
  bounded : vdevMsCount * 2 ^ vdevMsShift < 2 ^ 63
  unit_le : vdevAshift ≤ vdevMsShift
  /-- A vdev is cut into some two hundred metaslabs, so one has less than `2 ^ 47` units. -/
  units : vdevMsShift ≤ vdevAshift + 47

/-- `metaslab_t`. The per-txg maps are indexed by slot. -/
structure Metaslab where
  msSmo : SpaceMapObj
  msSmoSyncing : SpaceMapObj
  msAllocmap : ℕ → SpaceMap
  msFreemap : ℕ → SpaceMap
  msMap : SpaceMap
  msWeight : ℕ
  msObject : DmuObject

/-! ## The first-fit block allocator -/

/-- The loop of `metaslab_ff_alloc`: the first segment from here on with room for `size` bytes
    at a multiple of `align`. -/
def ffScan (align size : ℕ) : List SpaceSeg → Option ℕ
  | [] => none
  | ss :: rest =>
    let offset := p2roundup ss.start align
    if u64 (offset + size) ≤ ss.stop then some offset else ffScan align size rest

/-- Where the loop starts: at a node that overlaps the search, or at the next one after it.
    With several overlapping nodes `meets` says which of them the descent runs into; that depends
    on the shape of the tree. -/
def ffStart (meets : List SpaceSeg → ℕ) (root : List SpaceSeg) (cursor size : ℕ) :
    List SpaceSeg :=
  let key : SpaceSeg := ⟨cursor, u64 (cursor + size)⟩
  let overlapping := root.filter fun ss => spaceMapSegCompare key ss = .eq
  let pos := avlFind spaceMapSegCompare key root
  if overlapping = [] then pos.after
  else root.drop (pos.before.length + min (meets overlapping) (overlapping.length - 1))

/-- `metaslab_ff_alloc`: the offset, `none` standing for `-1ULL`, and the map with its cursor
    moved. The retry from the beginning is made once, with the cursor at zero. -/
def metaslabFfAlloc (meets : List SpaceSeg → ℕ) (sm : SpaceMap) (size : ℕ) :
    Option (Option ℕ × SpaceMap) := do
  let align := size &&& u64Sub 0 size
  guard (0 < highbit align)
  let index := highbit align - 1
  let cursor ← sm.smPpd[index]?
  let moved (c : ℕ) : SpaceMap := { sm with smPpd := sm.smPpd.set index c }
  match ffScan align size (ffStart meets sm.smRoot cursor size) with
  | some offset => return (some offset, moved (u64 (offset + size)))
  | none =>
    if cursor = 0 then return (none, sm)
    else match ffScan align size (ffStart meets sm.smRoot 0 size) with
      | some offset => return (some offset, moved (u64 (offset + size)))
      | none => return (none, moved 0)

/-- `space_map_alloc`. -/
def spaceMapAlloc (meets : List SpaceSeg → ℕ) (sm : SpaceMap) (size : ℕ) :
    Option (Option ℕ × SpaceMap) := do
  guard sm.smOps
  let (start, sm) ← metaslabFfAlloc meets sm size
  match start with
  | none => return (none, sm)
  | some start =>
    let sm ← spaceMapRemove sm start size
    return (some start, sm)

/-- `space_map_claim`; `metaslab_ff_claim` does nothing. -/
def spaceMapClaim (sm : SpaceMap) (start size : ℕ) : Option SpaceMap := do
  guard sm.smOps
  spaceMapRemove sm start size

/-- `space_map_free`; `metaslab_ff_free` does nothing. -/
def spaceMapFree (sm : SpaceMap) (start size : ℕ) : Option SpaceMap := do
  let sm ← spaceMapAdd sm start size
  guard sm.smOps
  return sm

/-! ## Weights -/

def metaslabWeightPrimary : ℕ := 1 <<< 63
def metaslabWeightSecondary : ℕ := 1 <<< 62
def metaslabActiveMask : ℕ := metaslabWeightPrimary ||| metaslabWeightSecondary
def metaslabSmoBonusMultiplier : ℕ := 2

/-- `metaslab_weight`. -/
def metaslabWeight (vd : Vdev) (msp : Metaslab) : ℕ :=
  let space := u64Sub msp.msMap.smSize msp.msSmo.smoAlloc
  let weight := u64Sub (u64 (2 * space))
    (u64 ((msp.msMap.smStart >>> vd.vdevMsShift) * space) / vd.vdevMsCount)
  let weight := if msp.msSmo.smoObject ≠ 0 then u64 (weight * metaslabSmoBonusMultiplier) else weight
  weight ||| (msp.msWeight &&& metaslabActiveMask)

/-- `metaslab_activate`. A load either succeeds or stops the machine. -/
def metaslabActivate (msp : Metaslab) (activationWeight : ℕ) : Option Metaslab :=
  if msp.msWeight &&& metaslabActiveMask = 0 then do
    let sm ← spaceMapLoad msp.msMap true .smFree msp.msSmo msp.msObject
    return { msp with msMap := sm, msWeight := msp.msWeight ||| activationWeight }
  else some msp

/-- `metaslab_passivate`. -/
def metaslabPassivate (msp : Metaslab) (size : ℕ) : Metaslab :=
  { msp with msWeight := min msp.msWeight size }

/-! ## Syncing -/

def setSlot (maps : ℕ → SpaceMap) (txg : ℕ) (sm : SpaceMap) : ℕ → SpaceMap :=
  Function.update maps (txgSlot txg) sm

/-- The first part of `metaslab_sync`: a space map object if there is none yet. `newObject` is
    what `dmu_object_alloc` returns. -/
def metaslabObject (msp : Metaslab) (newObject : ℕ) : Metaslab :=
  if msp.msSmoSyncing.smoObject = 0 then
    { msp with
      msSmoSyncing := { msp.msSmoSyncing with smoObject := newObject }
      msObject := fun _ => 0 }
  else msp

def metaslabSyncFreed (msp : Metaslab) (txg : ℕ) : Option Metaslab := do
  let freedMap ← spaceMapWalk (msp.msFreemap (txgSlot txg)) spaceMapAdd
    (msp.msFreemap (txgSlot (txgClean txg)))
  return { msp with msFreemap := setSlot msp.msFreemap (txgClean txg) freedMap }

/-- The condensing part of `metaslab_sync`: the allocmap from first principles, and an empty
    object. -/
def metaslabCondense (msp : Metaslab) (txg : ℕ) : Option Metaslab := do
  let allocmap := (msp.msAllocmap (txgSlot txg)).vacated
  let freemap := (msp.msFreemap (txgSlot txg)).vacated
  let allocmap ← spaceMapAdd allocmap allocmap.smStart allocmap.smSize
  let allocmap ← spaceMapWalk msp.msMap spaceMapRemove allocmap
  let allocmap ← spaceMapWalk (msp.msFreemap (txgSlot (txgClean txg))) spaceMapRemove allocmap
  let allocmap ← (List.range' 1 (txgConcurrentStates - 1)).foldlM
    (fun allocmap t => spaceMapWalk (msp.msAllocmap (txgSlot (txg + t))) spaceMapRemove allocmap)
    allocmap
  let (smo, object) := spaceMapTruncate msp.msSmoSyncing
  return { msp with
    msAllocmap := setSlot msp.msAllocmap txg allocmap
    msFreemap := setSlot msp.msFreemap txg freemap
    msSmoSyncing := smo
    msObject := object }

/-- The last part of `metaslab_sync`: the allocmap and the freemap go to the log. -/
def metaslabSyncMaps (order : DestroyOrder) (msp : Metaslab) (txg syncpass : ℕ) :
    Option Metaslab := do
  let (allocmap, smo, object) ← spaceMapSync order (msp.msAllocmap (txgSlot txg)) .smAlloc
    msp.msSmoSyncing msp.msObject syncpass txg
  let (freemap, smo, object) ← spaceMapSync order (msp.msFreemap (txgSlot txg)) .smFree
    smo object syncpass txg
  return { msp with
    msAllocmap := setSlot msp.msAllocmap txg allocmap
    msFreemap := setSlot msp.msFreemap txg freemap
    msSmoSyncing := smo
    msObject := object }

/-- When `metaslab_sync` condenses. -/
def metaslabShouldCondense (msp : Metaslab) (syncpass : ℕ) : Bool :=
  msp.msMap.smLoaded && syncpass == 1 &&
    decide (msp.msSmoSyncing.smoObjsize ≥ 2 * 8 * msp.msMap.smRoot.length)

/-- `metaslab_sync`. -/
def metaslabSync (order : DestroyOrder) (msp : Metaslab) (txg syncpass newObject : ℕ) :
    Option Metaslab := do
  let msp ← metaslabSyncFreed (metaslabObject msp newObject) txg
  let msp ← if metaslabShouldCondense msp syncpass then metaslabCondense msp txg else some msp
  metaslabSyncMaps order msp txg syncpass

/-- What `metaslab_sync_done` does first to a metaslab that is just becoming available. -/
def metaslabAvailable (msp : Metaslab) (txg : ℕ) : Metaslab :=
  if (msp.msFreemap (txgSlot (txgClean txg))).smSize = 0 then
    let sm := msp.msMap
    { msp with
      msAllocmap := fun _ => spaceMapCreate sm.smStart sm.smSize sm.smShift
      msFreemap := fun _ => spaceMapCreate sm.smStart sm.smSize sm.smShift }
  else msp

/-- The maps of `metaslab_sync_done` that decide whether the in-core map may be evicted. -/
def metaslabEvictable (msp : Metaslab) (txg : ℕ) : Bool :=
  (List.range' 1 (txgConcurrentStates - 1)).all fun t =>
    (msp.msAllocmap (txgSlot (txg + t))).smSpace == 0

def metaslabVacateFreed (order : DestroyOrder) (msp : Metaslab) (txg : ℕ) :
    Option (SpaceMap × SpaceMap) :=
  let freedMap := msp.msFreemap (txgSlot (txgClean txg))
  if msp.msMap.smLoaded then spaceMapVacate order freedMap spaceMapFree msp.msMap
  else some (freedMap.vacated, msp.msMap)

def metaslabEvict (msp : Metaslab) (txg : ℕ) : Metaslab :=
  if msp.msMap.smLoaded ∧ msp.msWeight &&& metaslabActiveMask = 0 ∧ metaslabEvictable msp txg then
    { msp with msMap := spaceMapUnload msp.msMap }
  else msp

/-- `metaslab_sync_done`. -/
def metaslabSyncDone (vd : Vdev) (order : DestroyOrder) (msp : Metaslab) (txg : ℕ) :
    Option Metaslab := do
  let msp := metaslabAvailable msp txg
  let (freedMap, sm) ← metaslabVacateFreed order msp txg
  let msp := metaslabEvict { msp with
    msFreemap := setSlot msp.msFreemap (txgClean txg) freedMap
    msMap := sm
    msSmo := msp.msSmoSyncing } txg
  return { msp with msWeight := metaslabWeight vd msp }

/-- `metaslab_init` for a metaslab whose space is available at once, up to its call of
    `metaslab_sync_done(msp, 0)`. The per-txg maps are still zeroed. -/
def metaslabInit (vd : Vdev) (smo : SpaceMapObj) (object : DmuObject) (start size : ℕ) :
    Metaslab where
  msSmo := ⟨0, 0, 0⟩
  msSmoSyncing := smo
  msAllocmap := fun _ => spaceMapCreate 0 0 0
  msFreemap := fun _ => spaceMapCreate 0 0 0
  msMap := spaceMapCreate start size vd.vdevAshift
  msWeight := 0
  msObject := object

end MacZfs
