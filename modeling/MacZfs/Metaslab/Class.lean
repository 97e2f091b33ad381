import MacZfs.Metaslab.Group

/-!
# Metaslab classes

The groups of the top-level vdevs of a class, in a ring that `mc_rotor` walks, and
`metaslab_alloc` over it: up to three copies of a block, each from the first group of the ring
that has room, and all given back when one copy finds none.

The hint of a block pointer names a vdev of the pool. One of another class is a vdev that the
class does not have. The assertions of `metaslab_alloc` are left out, as a build without `DEBUG`
does.
-/

namespace MacZfs.Alloc

/-- What is fixed of the groups of a class: `mg_next` of a group is the next one here. -/
structure ClassVdevs where
  count : ℕ
  vdev : Fin count → Vdev
  vdevAsize : Fin count → ℕ
  mgAliquot : Fin count → ℕ
  /-- A vdev is looked up by its index among the children of the root. -/
  ids : ∀ v w, (vdev v).vdevId = (vdev w).vdevId → v = w
  id_lt : ∀ v, (vdev v).vdevId < 2 ^ 32
  /-- `SPA_MINBLOCKSHIFT` is the least `vdev_ashift`. -/
  ashift_ge : ∀ v, 9 ≤ (vdev v).vdevAshift

/-- `metaslab_class_t` with its groups. -/
structure MetaslabClass (cv : ClassVdevs) where
  mcGroup : (v : Fin cv.count) → MetaslabGroup (cv.vdev v)
  mgBias : Fin cv.count → ℤ
  mcRotor : Option (Fin cv.count)
  mcAllocated : ℕ

structure SpaceStats (cv : ClassVdevs) where
  vsAlloc : Fin cv.count → ℕ
  vsSpace : Fin cv.count → ℕ
  spaAlloc : ℕ
  spaSpace : ℕ

variable {cv : ClassVdevs}

/-- `mg_next`. -/
def mgNext (v : Fin cv.count) : Fin cv.count := ⟨(v + 1) % cv.count, Nat.mod_lt _ v.pos⟩

/-- The groups in the order in which the ring is walked from `v`. -/
def ring (v : Fin cv.count) : List (Fin cv.count) :=
  (List.range cv.count).map fun k => mgNext^[k] v

/-- `vdev_lookup_top`, among the vdevs of the class. -/
def vdevLookupTop (cv : ClassVdevs) (id : ℕ) : Option (Fin cv.count) :=
  (List.finRange cv.count).find? fun v => (cv.vdev v).vdevId == id

/-! ## Block pointers -/

/-- `BF64_SET_SB` with `SPA_MINBLOCKSHIFT` and no bias, read back. -/
def sectorField (len x : ℕ) : ℕ := u64 (((x >>> 9) % 2 ^ len) <<< 9)

/-- `DVA_SET_VDEV`, `DVA_SET_OFFSET`, `DVA_SET_GANG` and `DVA_SET_ASIZE`. -/
def dvaSet (vdev offset asize : ℕ) : Dva where
  dvaVdev := vdev % 2 ^ 32
  dvaOffset := sectorField 63 offset
  dvaGang := false
  dvaAsize := sectorField 24 asize

def zeroDva : Dva := ⟨0, 0, 0, false⟩

/-- The fields of a `blkptr_t` that belong to its place on disk. -/
structure Blkptr where
  blkDva : Fin 3 → Dva
  blkBirth : ℕ

def Blkptr.zero : Blkptr := ⟨fun _ => zeroDva, 0⟩

def Blkptr.setDvas (bp : Blkptr) (dva : List Dva) : Blkptr :=
  { bp with blkDva := fun d => dva.getD d (bp.blkDva d) }

/-! ## One copy -/

namespace MetaslabClass

def setGroup (mc : MetaslabClass cv) (v : Fin cv.count) (mg : MetaslabGroup (cv.vdev v)) :
    MetaslabClass cv :=
  { mc with mcGroup := Function.update mc.mcGroup v mg }

def pass (mc : MetaslabClass cv) (v : Fin cv.count) : MetaslabClass cv :=
  { mc with mcRotor := some (mgNext v), mcAllocated := 0 }

/-- `mg_bias` by the use of the vdev and of the pool, in units of 1/1024: at most a quarter of the
    aliquot either way. -/
def bias (stats : SpaceStats cv) (v : Fin cv.count) : ℤ :=
  let vu : ℤ := (u64 (stats.vsAlloc v <<< 10) / (stats.vsSpace v + 1) : ℕ)
  let su : ℤ := (u64 (stats.spaAlloc <<< 10) / (stats.spaSpace + 1) : ℕ)
  ((su - vu) * cv.mgAliquot v).tdiv (1024 * 4)

/-- What `metaslab_alloc_dva` keeps account of when a group has given space: once it has given its
    aliquot, the rotor moves on. -/
def charge (stats : SpaceStats cv) (mc : MetaslabClass cv) (v : Fin cv.count) (asize : ℕ) :
    MetaslabClass cv :=
  let mc := if mc.mcAllocated = 0 then
      { mc with mgBias := Function.update mc.mgBias v (bias stats v) } else mc
  let mcAllocated := u64 (mc.mcAllocated + asize)
  if mcAllocated ≥ ((cv.mgAliquot v + mc.mgBias v) % 2 ^ 64).toNat then mc.pass v
  else { mc with mcAllocated }

end MetaslabClass

def allocDistance (cv : ClassVdevs) (dshift : ℕ) (v : Fin cv.count) : ℕ :=
  let distance := cv.vdevAsize v >>> dshift
  if distance ≤ 1 <<< (cv.vdev v).vdevMsShift then 0 else distance

/-- What the functions below are called with: the picker's choice among the segments it may meet,
    the statistics, the size, the transaction group, the DVAs of the hint, and whether to avoid
    its vdevs. -/
structure AllocArgs (cv : ClassVdevs) where
  meets : List SpaceSeg → ℕ
  stats : SpaceStats cv
  psize : ℕ
  txg : ℕ
  hintdva : Option (Fin 3 → Dva)
  hintAvoid : Bool

/-- The `do` loop of `metaslab_alloc_dva` over the groups that are left; `dva` holds the copies
    allocated before. -/
def allocFromGroups (args : AllocArgs cv) (dva : List Dva) (dshift : ℕ) :
    List (Fin cv.count) → MetaslabClass cv → Option (Option Dva × MetaslabClass cv)
  | [], mc => some (none, mc)
  | v :: rest, mc => do
      let asize := (cv.vdev v).psizeToAsize args.psize
      let (offset, mg) ← metaslabGroupAlloc args.meets (mc.mcGroup v) asize args.txg
        (allocDistance cv dshift v) dva
      let mc := mc.setGroup v mg
      match offset with
      | some offset =>
        return (some (dvaSet (cv.vdev v).vdevId offset asize), mc.charge args.stats v asize)
      | none => allocFromGroups args dva dshift rest (mc.pass v)

/-- The walks around the ring, with distances that get smaller until all are zero. `dshift` stays
    below 64; `left` counts what is left of it. -/
def allocRounds (args : AllocArgs cv) (dva : List Dva) (rotor : Fin cv.count) :
    (left : ℕ) → MetaslabClass cv → Option (Option Dva × MetaslabClass cv)
  | 0, _ => none
  | left + 1, mc => do
      let dshift := 63 - left
      let (found, mc) ← allocFromGroups args dva dshift (ring rotor) mc
      if found.isSome ∨ (ring rotor).all fun v => allocDistance cv dshift v = 0 then
        return (found, mc)
      else allocRounds args dva rotor left mc

/-- The group where the search for copy `dva.length` starts. -/
def allocStart (args : AllocArgs cv) (mc : MetaslabClass cv) (dva : List Dva) :
    Option (Fin cv.count) :=
  let hinted := match args.hintdva with
    | some hintdva =>
      (vdevLookupTop cv (hintdva (Fin.ofNat 3 dva.length)).dvaVdev).map fun v =>
        if args.hintAvoid then mgNext v else v
    | none => dva.getLast?.bind fun last => (vdevLookupTop cv last.dvaVdev).map mgNext
  hinted.or mc.mcRotor

/-- `metaslab_alloc_dva` for copy `dva.length`; no DVA stands for `ENOSPC`. -/
def metaslabAllocDva (args : AllocArgs cv) (mc : MetaslabClass cv) (dva : List Dva) :
    Option (Option Dva × MetaslabClass cv) := do
  let rotor ← allocStart args mc dva
  allocRounds args dva rotor 61 mc

/-- `metaslab_free_dva`. -/
def classFreeDva (mc : MetaslabClass cv) (dva : Dva) (txg : ℕ) (now : Bool) (freezeTxg : ℕ) :
    Option (MetaslabClass cv) :=
  match vdevLookupTop cv dva.dvaVdev with
  | none => some mc
  | some v => (metaslabFreeDva (mc.mcGroup v) dva txg now freezeTxg).map (mc.setGroup v)

/-! ## All copies -/

/-- The loop of `metaslab_alloc` with `left` copies to go. The result is whether all were
    allocated, the class and the copies so far. -/
def allocCopies (args : AllocArgs cv) :
    (left : ℕ) → MetaslabClass cv → List Dva → Option (Bool × MetaslabClass cv × List Dva)
  | 0, mc, dva => some (true, mc, dva)
  | left + 1, mc, dva => do
      let (found, mc) ← metaslabAllocDva args mc dva
      match found with
      | some copy => allocCopies args left mc (dva ++ [copy])
      | none => return (false, mc, dva)

/-- The inner loop of `metaslab_alloc`: the copies, the last one first, are freed at once. -/
def undoCopies (txg freezeTxg : ℕ) (mc : MetaslabClass cv) (dva : List Dva) :
    Option (MetaslabClass cv) :=
  dva.reverse.foldlM (fun mc copy => classFreeDva mc copy txg true freezeTxg) mc

/-- The two results of `metaslab_alloc`. -/
inductive AllocError where
  | ok
  | enospc
  deriving Repr, DecidableEq

/-- `metaslab_alloc`. A DVA that has been freed or was not found is set to zero. -/
def metaslabAlloc (args : AllocArgs cv) (mc : MetaslabClass cv) (bp : Blkptr) (ndvas freezeTxg : ℕ) :
    Option (AllocError × MetaslabClass cv × Blkptr) :=
  if mc.mcRotor = none then some (.enospc, mc, bp)
  else do
    let (all, mc, dva) ← allocCopies args ndvas mc []
    if all then return (.ok, mc, bp.setDvas dva)
    else
      let mc ← undoCopies args.txg freezeTxg mc dva
      return (.enospc, mc, bp.setDvas (List.replicate (dva.length + 1) zeroDva))

end MacZfs.Alloc
