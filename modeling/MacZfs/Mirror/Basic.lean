import MacZfs.Base

/-!
# Mirrors

`vdev_mirror.c`: a read of a mirror, a replacing or spare vdev, or of a block with several DVAs.
A plain read goes to one child after the other until one returns good data; a scrubbing read goes
to all children at once. Each child checks the checksum of what it reads, so a read that comes
back without an error has a good copy.

One call of `mirrorRead` is `vdev_mirror_io_start` and all the calls of `vdev_mirror_io_done` that
follow it, up to the stage after it.
-/

namespace MacZfs.Mirror

/-- The values of `mc_error` other than zero. -/
inductive IoError where
  | eio
  | ecksum
  | enxio
  | estale
  deriving Repr, DecidableEq

/-- `mirror_child_t`. -/
structure MirrorChild where
  mcError : Option IoError
  mcTried : Bool
  mcSkipped : Bool
  deriving Repr, DecidableEq

inductive ChildRead (α : Type) where
  | good (data : α)
  | ioError (data : α)
  | badChecksum (data : α)
  deriving Repr, DecidableEq

namespace ChildRead

variable {α : Type}

def error : ChildRead α → Option IoError
  | good _ => none
  | ioError _ => some .eio
  | badChecksum _ => some .ecksum

def data : ChildRead α → α
  | good data => data
  | ioError data => data
  | badChecksum data => data

end ChildRead

/-- What a read is addressed to: the DVAs of a block, one of which is picked at random, or a vdev
    at an offset. -/
inductive Target (n : ℕ) where
  | root (dvaVdev : Fin n → ℕ) (random : Fin n)
  | vdev (replacing : Bool) (ioOffset : ℕ)

/-- A read: what it is addressed to, the children as it finds them, and its flags. There is at
    least one child: `vdev_mirror_open` refuses to open a mirror of none, and a block that is read
    has a DVA. -/
structure Zio (n : ℕ) (α : Type) where
  target : Target n
  /-- `vdev_is_dead`. -/
  dead : Fin n → Bool
  /-- `vdev_dtl_contains` for the birth txg of the block. -/
  dtlContains : Fin n → Bool
  read : Fin n → ChildRead α
  scrub : Bool
  resilver : Bool
  /-- `spa_mode & FWRITE`. -/
  fwrite : Bool
  children_pos : 0 < n

variable {n : ℕ} {α : Type}

/-! ## The map -/

def vdevMirrorShift : ℕ := 21

/-- `mm_replacing`. -/
def mmReplacing (zio : Zio n α) : Bool :=
  match zio.target with
  | .root _ _ => false
  | .vdev replacing _ => replacing

/-- The DVAs before `d`, from the last one on: the first of those on the vdev of `c`, or
    `preferred`. -/
def lowerDva (dvaVdev : Fin n → ℕ) (c : Fin n) : (d : ℕ) → d ≤ n → Fin n → Fin n
  | 0, _, preferred => preferred
  | d + 1, bound, preferred =>
    lowerDva dvaVdev c d (Nat.le_of_succ_le bound)
      (if dvaVdev ⟨d, bound⟩ = dvaVdev c then ⟨d, bound⟩ else preferred)

/-- `mm_preferred`. -/
def mmPreferred (zio : Zio n α) : Fin n :=
  match zio.target with
  | .root dvaVdev random => lowerDva dvaVdev random random (Nat.le_of_lt random.isLt) random
  | .vdev replacing ioOffset =>
    if replacing then ⟨0, zio.children_pos⟩
    else ⟨(ioOffset >>> vdevMirrorShift) % n, Nat.mod_lt _ zio.children_pos⟩

/-- A map as `vdev_mirror_map_alloc` leaves it. -/
def mapAlloc (n : ℕ) : Fin n → MirrorChild := fun _ => ⟨none, false, false⟩

/-! ## Selection -/

def passOrder (preferred : Fin n) : List (Fin n) :=
  (List.range n).map fun i => ⟨(preferred + i) % n, Nat.mod_lt _ preferred.pos⟩

/-- The first pass of `vdev_mirror_child_select`: a child that is up and whose DTL does not have the
    block. A dead child counts as tried. -/
def selectPass (zio : Zio n α) :
    List (Fin n) → (Fin n → MirrorChild) → Option (Fin n) × (Fin n → MirrorChild)
  | [], mm => (none, mm)
  | c :: rest, mm =>
    if (mm c).mcTried || (mm c).mcSkipped then selectPass zio rest mm
    else if zio.dead c then
      selectPass zio rest (Function.update mm c ⟨some .enxio, true, true⟩)
    else if !zio.dtlContains c then (some c, mm)
    else
      selectPass zio rest
        (Function.update mm c { mm c with mcError := some .estale, mcSkipped := true })

/-- `vdev_mirror_child_select`. -/
def childSelect (zio : Zio n α) (mm : Fin n → MirrorChild) :
    Option (Fin n) × (Fin n → MirrorChild) :=
  match selectPass zio (passOrder (mmPreferred zio)) mm with
  | (some c, mm) => (some c, mm)
  | (none, mm) => ((List.finRange n).find? fun c => !(mm c).mcTried, mm)

/-! ## Reading -/

structure ReadState (n : ℕ) (α : Type) where
  mm : Fin n → MirrorChild
  ioData : α
  issued : List (Fin n)

/-- A read of one child into the buffer, up to `vdev_mirror_child_done`. -/
def childRead (zio : Zio n α) (s : ReadState n α) (c : Fin n) : ReadState n α where
  mm := Function.update s.mm c ⟨(zio.read c).error, true, false⟩
  ioData := (zio.read c).data
  issued := s.issued ++ [c]

/-- `vdev_mirror_scrub_done`: good data is copied to the buffer. -/
def scrubDone (zio : Zio n α) (s : ReadState n α) (c : Fin n) : ReadState n α where
  mm := Function.update s.mm c ⟨(zio.read c).error, true, false⟩
  ioData := if (zio.read c).error = none then (zio.read c).data else s.ioData
  issued := s.issued ++ [c]

structure Completion (n : ℕ) where
  order : List (Fin n)
  perm : order.Perm (List.finRange n)

/-- Whether `vdev_mirror_io_start` reads all children. -/
def readsAll (zio : Zio n α) : Bool := zio.scrub && !mmReplacing zio

/-- `vdev_mirror_io_start` of a read, up to the completion of the reads it issues; `buffer` is what
    `io_data` held before. -/
def ioStart (zio : Zio n α) (completion : Completion n) (buffer : α) : ReadState n α :=
  let s : ReadState n α := ⟨mapAlloc n, buffer, []⟩
  if readsAll zio then completion.order.foldl (scrubDone zio) s
  else
    match childSelect zio s.mm with
    | (some c, mm) => childRead zio { s with mm } c
    | (none, mm) => { s with mm }

def goodCopies (mm : Fin n → MirrorChild) : ℕ :=
  (List.finRange n).countP fun c => (mm c).mcTried && (mm c).mcError.isNone

/-- `unexpected_errors`. -/
def unexpectedErrors (mm : Fin n → MirrorChild) : ℕ :=
  (List.finRange n).countP fun c => (mm c).mcError.isSome && !(mm c).mcSkipped

/-- `io_error` after the loop of `vdev_mirror_io_done`: the last error, unless one is `EIO`. -/
def lastError (mm : Fin n → MirrorChild) : Option IoError :=
  (List.finRange n).foldl (fun error c =>
    if (mm c).mcError.isSome && !decide (error = some .eio) then (mm c).mcError else error) none

/-- The children that the repair loop of `vdev_mirror_io_done` writes to. -/
def repairTargets (zio : Zio n α) (mm : Fin n → MirrorChild) : List (Fin n) :=
  (List.finRange n).filter fun c =>
    !((mm c).mcError.isNone && ((mm c).mcTried || (!zio.scrub && !zio.dtlContains c)))

/-- How a read ends: its error and buffer, the children that were read, and those that the good
    data is written to. -/
structure ReadResult (n : ℕ) (α : Type) where
  ioError : Option IoError
  ioData : α
  issued : List (Fin n)
  repairs : List (Fin n)
  deriving Repr, DecidableEq

/-- The rest of `vdev_mirror_io_done` when there is a good copy. -/
def succeed (zio : Zio n α) (s : ReadState n α) : ReadResult n α where
  ioError := none
  ioData := s.ioData
  issued := s.issued
  repairs :=
    if zio.fwrite && (!decide (unexpectedErrors s.mm = 0) || zio.resilver || zio.scrub && mmReplacing zio) then
      repairTargets zio s.mm
    else []

/-- `vdev_mirror_io_done` of a read, which issues another read and comes back after it as long as
    there is no good copy and a child to try; at most `rounds` times. -/
def ioDone (zio : Zio n α) : (rounds : ℕ) → ReadState n α → Option (ReadResult n α)
  | 0, _ => none
  | rounds + 1, s =>
    if goodCopies s.mm = 0 then
      match childSelect zio s.mm with
      | (some c, mm) => ioDone zio rounds (childRead zio { s with mm } c)
      | (none, _) => some ⟨lastError s.mm, s.ioData, s.issued, []⟩
    else some (succeed zio s)

def mirrorRead (zio : Zio n α) (completion : Completion n) (buffer : α) : Option (ReadResult n α) :=
  ioDone zio (n + 1) (ioStart zio completion buffer)

end MacZfs.Mirror
