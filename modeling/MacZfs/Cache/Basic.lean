import MacZfs.Base

/-!
# The read-ahead cache of a vdev

`vdev_cache.c`. A small read that misses reads a whole cache line from the device; reads of the same
line that come before the data wait on the I/O that fills it. Writes update the lines when they
complete.

Every function here runs under `vc_lock`. `lbolt` is the clock when it is called.
-/

namespace MacZfs.Cache

open Alignment

/-! ## State -/

/-- The tunables. `zfs_vdev_cache_bshift` gives the size of a line. -/
structure Tunables where
  zfsVdevCacheMax : ℕ
  zfsVdevCacheSize : ℕ
  zfsVdevCacheBshift : ℕ

def vcbs (t : Tunables) : ℕ := 2 ^ t.zfsVdevCacheBshift

def p2cross (x y align : ℕ) : Bool := x ^^^ y > align - 1

abbrev Disk := ℕ → UInt8

structure WriteZio where
  ioOffset : ℕ
  ioSize : ℕ
  ioData : ℕ → UInt8
  positive : 0 < ioSize

/-- A write that was issued and has not completed. Once it has taken effect, `replaced` is what the
    device held before. -/
structure InFlight where
  zio : WriteZio
  replaced : Option Disk

/-- A read. The last two fields are there for the specification: how often the device had changed
    when the read was issued, and the writes that were in flight. -/
structure ReadZio where
  ioOffset : ℕ
  ioSize : ℕ
  dontCache : Bool
  metadata : Bool
  issued : ℕ
  inFlight : List InFlight
  positive : 0 < ioSize

/-- The I/O that fills a line. `taken` says that the device has read the data. -/
structure FillZio where
  ioDelegateList : List ReadZio
  taken : Bool

/-- `vdev_cache_entry_t`. -/
structure CacheEntry where
  veData : ℕ → UInt8
  veOffset : ℕ
  veLastused : ℕ
  veHits : ℕ
  veMissedUpdate : Bool
  veFillIo : Option FillZio

/-- `vdev_cache_t`. The trees hold pointers to entries, in order; `next` is one that is not in use. -/
structure VdevCache where
  ve : ℕ → CacheEntry
  next : ℕ
  vcOffsetTree : List ℕ
  vcLastusedTree : List ℕ

/-- `vdev_cache_lastused_compare`, for at most. -/
def lastusedLe (ve₁ ve₂ : CacheEntry) : Prop :=
  ve₁.veLastused < ve₂.veLastused ∨ ve₁.veLastused = ve₂.veLastused ∧ ve₁.veOffset ≤ ve₂.veOffset

instance : DecidableRel lastusedLe := fun ve₁ ve₂ => by
  unfold lastusedLe
  infer_instance

namespace VdevCache

def modify (vc : VdevCache) (id : ℕ) (f : CacheEntry → CacheEntry) : VdevCache :=
  { vc with ve := Function.update vc.ve id (f (vc.ve id)) }

/-- `avl_add` to the offset tree. -/
def addOffset (vc : VdevCache) (id : ℕ) : VdevCache :=
  { vc with vcOffsetTree :=
      vc.vcOffsetTree.orderedInsert (fun i j => (vc.ve i).veOffset ≤ (vc.ve j).veOffset) id }

/-- `avl_add` to the tree of last uses. -/
def addLastused (vc : VdevCache) (id : ℕ) : VdevCache :=
  { vc with vcLastusedTree := vc.vcLastusedTree.orderedInsert (fun i j => lastusedLe (vc.ve i) (vc.ve j)) id }

/-- `avl_find` in the offset tree. -/
def find (vc : VdevCache) (offset : ℕ) : Option ℕ :=
  vc.vcOffsetTree.find? fun id => (vc.ve id).veOffset = offset

end VdevCache

/-! ## Entries -/

/-- `vdev_cache_evict`. -/
def vdevCacheEvict (vc : VdevCache) (id : ℕ) : VdevCache :=
  { vc with vcLastusedTree := vc.vcLastusedTree.erase id, vcOffsetTree := vc.vcOffsetTree.erase id }

/-- The eviction in `vdev_cache_allocate`; `none` if the oldest entry is still filling. -/
def makeRoom (t : Tunables) (vc : VdevCache) : Option VdevCache :=
  if vc.vcLastusedTree.length * vcbs t > t.zfsVdevCacheSize then
    match vc.vcLastusedTree with
    | [] => some vc
    | id :: _ => if (vc.ve id).veFillIo.isSome then none else some (vdevCacheEvict vc id)
  else some vc

def addEntry (vc : VdevCache) (offset lbolt : ℕ) (buffer : ℕ → UInt8) (fio : FillZio) : VdevCache :=
  let id := vc.next
  let vc := { vc with
    ve := Function.update vc.ve id
      { veData := buffer
        veOffset := offset
        veLastused := lbolt
        veHits := 0
        veMissedUpdate := false
        veFillIo := some fio }
    next := vc.next + 1 }
  (vc.addOffset id).addLastused id

/-- `vdev_cache_allocate`, with the fill I/O that its caller sets. -/
def vdevCacheAllocate (t : Tunables) (vc : VdevCache) (zio : ReadZio) (lbolt : ℕ) (buffer : ℕ → UInt8)
    (fio : FillZio) : Option VdevCache :=
  if t.zfsVdevCacheSize = 0 then none
  else (makeRoom t vc).map fun vc => addEntry vc (p2align zio.ioOffset (vcbs t)) lbolt buffer fio

/-- The data that `vdev_cache_hit` copies. -/
def hitData (t : Tunables) (ve : CacheEntry) (zio : ReadZio) : ℕ → UInt8 :=
  fun i => ve.veData (p2phase zio.ioOffset (vcbs t) + i)

/-- `vdev_cache_hit`, what it does to the entry. -/
def vdevCacheHit (vc : VdevCache) (id lbolt : ℕ) : VdevCache :=
  let vc :=
    if (vc.ve id).veLastused ≠ lbolt then
      ({ vc with vcLastusedTree := vc.vcLastusedTree.erase id }.modify id
        fun ve => { ve with veLastused := lbolt }).addLastused id
    else vc
  vc.modify id fun ve => { ve with veHits := ve.veHits + 1 }

/-! ## Operations -/

structure Served where
  zio : ReadZio
  data : ℕ → UInt8

/-- `vdev_cache_fill`. The reads that wait get the data, unless the I/O has failed. -/
def vdevCacheFill (t : Tunables) (vc : VdevCache) (id : ℕ) (fio : FillZio) (error : Bool) (lbolt : ℕ) :
    VdevCache × List Served :=
  let vc := vc.modify id fun ve => { ve with veFillIo := none }
  let served := fio.ioDelegateList.map fun dio => ⟨dio, hitData t (vc.ve id) dio⟩
  let vc := fio.ioDelegateList.foldl (fun vc _ => vdevCacheHit vc id lbolt) vc
  let vc := if error || (vc.ve id).veMissedUpdate then vdevCacheEvict vc id else vc
  (vc, if error then [] else served)

/-- The errors of `vdev_cache_read`; the read then goes to the device. -/
inductive ReadError where
  | einval
  | eoverflow
  | exdev
  | estale
  | enomem
  deriving Repr, DecidableEq

inductive ReadResult where
  | miss (error : ReadError)
  | hit (served : Served)
  | waits

/-- `vdev_cache_read`. -/
def vdevCacheRead (t : Tunables) (vc : VdevCache) (zio : ReadZio) (lbolt : ℕ) (buffer : ℕ → UInt8) :
    VdevCache × ReadResult :=
  if zio.dontCache then (vc, .miss .einval)
  else if zio.ioSize > t.zfsVdevCacheMax then (vc, .miss .eoverflow)
  else if p2cross zio.ioOffset (zio.ioOffset + zio.ioSize - 1) (vcbs t) then (vc, .miss .exdev)
  else
    match vc.find (p2align zio.ioOffset (vcbs t)) with
    | some id =>
      if (vc.ve id).veMissedUpdate then (vc, .miss .estale)
      else
        match (vc.ve id).veFillIo with
        | some fio =>
          (vc.modify id fun ve =>
            { ve with veFillIo := some { fio with ioDelegateList := zio :: fio.ioDelegateList } }, .waits)
        | none => (vdevCacheHit vc id lbolt, .hit ⟨zio, hitData t (vc.ve id) zio⟩)
    | none =>
      if zio.metadata then
        match vdevCacheAllocate t vc zio lbolt buffer ⟨[zio], false⟩ with
        | none => (vc, .miss .enomem)
        | some vc => (vc, .waits)
      else (vc, .miss .einval)

/-- What `vdev_cache_write` does to an entry: from `start` to `end` it gets the data. -/
def writeEntry (t : Tunables) (zio : WriteZio) (ve : CacheEntry) : CacheEntry :=
  let start := max ve.veOffset zio.ioOffset
  let stop := min (ve.veOffset + vcbs t) (zio.ioOffset + zio.ioSize)
  if ve.veFillIo.isSome then { ve with veMissedUpdate := true }
  else
    { ve with veData := fun phase =>
        if start ≤ ve.veOffset + phase ∧ ve.veOffset + phase < stop then
          zio.ioData (ve.veOffset + phase - zio.ioOffset)
        else ve.veData phase }

/-- The entries that the loop of `vdev_cache_write` visits. -/
def writeIds (t : Tunables) (vc : VdevCache) (zio : WriteZio) : List ℕ :=
  let minOffset := p2align zio.ioOffset (vcbs t)
  let maxOffset := roundUp (zio.ioOffset + zio.ioSize) (vcbs t)
  (vc.vcOffsetTree.dropWhile fun id => (vc.ve id).veOffset < minOffset).takeWhile
    fun id => (vc.ve id).veOffset < maxOffset

/-- `vdev_cache_write`. -/
def vdevCacheWrite (t : Tunables) (vc : VdevCache) (zio : WriteZio) : VdevCache :=
  (writeIds t vc zio).foldl (fun vc id => vc.modify id (writeEntry t zio)) vc

/-- `vdev_cache_purge`. Its callers see to it that nothing is being filled, as `vdev_cache_evict`
    asserts. -/
def vdevCachePurge (vc : VdevCache) : Option VdevCache :=
  if ∀ id ∈ vc.vcOffsetTree, (vc.ve id).veFillIo.isNone then some (vc.vcOffsetTree.foldl vdevCacheEvict vc)
  else none

/-! ## Runs -/

/-- The cache, what the device holds, what it has held before (the latest first), and the writes in
    flight. -/
structure Vdev where
  vc : VdevCache
  disk : Disk
  past : List Disk
  writes : List InFlight

def WriteZio.apply (zio : WriteZio) (disk : Disk) : Disk := fun offset =>
  if zio.ioOffset ≤ offset ∧ offset < zio.ioOffset + zio.ioSize then zio.ioData (offset - zio.ioOffset) else disk offset

def WriteZio.overlaps (zio zio' : WriteZio) : Bool :=
  zio.ioOffset < zio'.ioOffset + zio'.ioSize ∧ zio'.ioOffset < zio.ioOffset + zio.ioSize

structure Request where
  ioOffset : ℕ
  ioSize : ℕ
  dontCache : Bool
  metadata : Bool
  positive : 0 < ioSize

/-- The steps: a read is issued; the device reads for a fill, and the fill completes; a write is
    issued, takes effect, and completes; the cache is purged. Writes in flight are told apart by
    their offsets. -/
inductive Event where
  | read (request : Request) (lbolt : ℕ) (buffer : ℕ → UInt8)
  | fillTake (id : ℕ)
  | fillDone (id : ℕ) (error : Bool) (lbolt : ℕ)
  | writeIssue (zio : WriteZio)
  | writeTake (offset : ℕ)
  | writeDone (offset : ℕ)
  | purge

def Vdev.issue (vd : Vdev) (request : Request) : ReadZio where
  ioOffset := request.ioOffset
  ioSize := request.ioSize
  dontCache := request.dontCache
  metadata := request.metadata
  issued := vd.past.length
  inFlight := vd.writes
  positive := request.positive

def Vdev.fillIo (vd : Vdev) (id : ℕ) : Option FillZio :=
  if id ∈ vd.vc.vcOffsetTree then (vd.vc.ve id).veFillIo else none

def Vdev.writeAt (vd : Vdev) (offset : ℕ) : Option InFlight :=
  vd.writes.find? fun write => write.zio.ioOffset = offset

def exec (t : Tunables) (vd : Vdev) : Event → Option (Vdev × List Served)
  | .read request lbolt buffer =>
    let (vc, result) := vdevCacheRead t vd.vc (vd.issue request) lbolt buffer
    match result with
    | .hit served => some ({ vd with vc }, [served])
    | _ => some ({ vd with vc }, [])
  | .fillTake id =>
    match vd.fillIo id with
    | some fio =>
      let vc := vd.vc.modify id fun ve =>
        { ve with veData := fun phase => vd.disk (ve.veOffset + phase), veFillIo := some { fio with taken := true } }
      if fio.taken then none else some ({ vd with vc }, [])
    | none => none
  | .fillDone id error lbolt =>
    match vd.fillIo id with
    | some fio =>
      let (vc, served) := vdevCacheFill t vd.vc id fio error lbolt
      -- without an error the device has read the data
      if error || fio.taken then some ({ vd with vc }, served) else none
    | none => none
  | .writeIssue zio =>
    if vd.writes.any fun write => write.zio.overlaps zio then none
    else some ({ vd with writes := ⟨zio, none⟩ :: vd.writes }, [])
  | .writeTake offset =>
    match vd.writeAt offset with
    | some ⟨zio, none⟩ =>
      some ({ vd with
        disk := zio.apply vd.disk
        past := vd.disk :: vd.past
        writes := vd.writes.map fun write =>
          if write.zio.ioOffset = offset then { write with replaced := some vd.disk } else write }, [])
    | _ => none
  | .writeDone offset =>
    match vd.writeAt offset with
    | some ⟨zio, some _⟩ =>
      some ({ vd with
        vc := vdevCacheWrite t vd.vc zio
        writes := vd.writes.filter fun write => write.zio.ioOffset ≠ offset }, [])
    | _ => none
  | .purge => (vdevCachePurge vd.vc).map fun vc => ({ vd with vc }, [])

end MacZfs.Cache
