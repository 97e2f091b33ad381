import MacZfs.Raidz.Parity

/-! # Reads

`vdev_raidz_io_start` and `vdev_raidz_io_done` for reads: the columns that are read at first, the
attempts to produce data with a valid checksum, the second round that reads all other columns, and the
combinatorial reconstruction. Statistics, ereports and the priority of the I/Os are left out.
-/

namespace MacZfs.Raidz

structure Child where
  /-- `vdev_is_dead` -/
  isDead : Bool
  /-- `vdev_dtl_contains` for the birth of the block -/
  dtlContains : Bool
  ioError : Option Errno
  /-- What the read leaves in the buffer, word by word; after an error it may be anything. -/
  ioWord : ℕ → Word

/-- A read is decided by its flags, its children and its checksum: `zio_checksum_error(zio) == 0` for the
    data in the buffer. -/
structure ReadEnv where
  scrub : Bool
  resilver : Bool
  /-- `spa_mode & FWRITE` -/
  writable : Bool
  child : ℕ → Child
  checksumOk : List Word → Bool

/-- The child I/O and `vdev_raidz_child_done`. -/
def vdevRaidzChildDone (cvd : Child) (rc : RaidzCol) : RaidzCol :=
  { rc with
    rcData := (List.range rc.rcData.length).map cvd.ioWord
    rcError := cvd.ioError
    rcTried := true
    rcSkipped := false }

def countMissing (rm : RaidzMap) (c : ℕ) : RaidzMap :=
  if rm.rmFirstdatacol ≤ c then { rm with rmMissingdata := rm.rmMissingdata + 1 }
  else { rm with rmMissingparity := rm.rmMissingparity + 1 }

/-- One round of the loop of `vdev_raidz_io_start`. -/
def ioStartCol (env : ReadEnv) (rm : RaidzMap) (c : ℕ) : RaidzMap :=
  let cvd := env.child (rm.col c).rcDevidx
  if cvd.isDead then
    (countMissing rm c).setCol c fun rc => { rc with rcError := some .enxio, rcTried := true, rcSkipped := true }
  else if cvd.dtlContains then
    (countMissing rm c).setCol c fun rc => { rc with rcError := some .estale, rcSkipped := true }
  else if rm.rmFirstdatacol ≤ c ∨ 0 < rm.rmMissingdata ∨ env.scrub then
    rm.setCol c (vdevRaidzChildDone cvd)
  else rm

/-- `vdev_raidz_io_start` for a read, and the wait for the children. -/
def vdevRaidzIoStart (env : ReadEnv) (rm : RaidzMap) : RaidzMap :=
  (List.range rm.rmCols).reverse.foldl (ioStartCol env) rm

/-! ## What was read -/

/-- The counts at the start of `vdev_raidz_io_done`. -/
structure Counts where
  ioError : Option Errno
  ioNumerrors : ℕ
  unexpectedErrors : ℕ
  parityErrors : ℕ
  parityUntried : ℕ
  dataErrors : ℕ

def countCol (firstdatacol : ℕ) (n : Counts) (e : RaidzCol × ℕ) : Counts :=
  let (rc, c) := e
  if rc.rcError.isSome then
    { n with
      ioError := if n.ioError = some .eio then n.ioError else rc.rcError
      ioNumerrors := n.ioNumerrors + 1
      unexpectedErrors := if rc.rcSkipped then n.unexpectedErrors else n.unexpectedErrors + 1
      parityErrors := if c < firstdatacol then n.parityErrors + 1 else n.parityErrors
      dataErrors := if c < firstdatacol then n.dataErrors else n.dataErrors + 1 }
  else if c < firstdatacol ∧ !rc.rcTried then { n with parityUntried := n.parityUntried + 1 }
  else n

def countCols (rm : RaidzMap) : Counts :=
  rm.rmCol.zipIdx.foldl (countCol rm.rmFirstdatacol) ⟨none, 0, 0, 0, 0, 0⟩

/-- `raidz_parity_verify`: the parity is generated again, and a parity column that was read without error
    and differs gets an error. Returns the number of such columns. -/
def raidzParityVerify (rm : RaidzMap) : RaidzMap × ℕ :=
  let fresh := generateParity rm
  (List.range rm.rmFirstdatacol).foldl (fun (acc : RaidzMap × ℕ) c =>
    if (rm.col c).rcTried ∧ (rm.col c).rcError = none ∧ (rm.col c).rcData ≠ (fresh.col c).rcData then
      (acc.1.setCol c fun rc => { rc with rcError := some .ecksum }, acc.2 + 1)
    else acc) (fresh, 0)

/-- The first column from `c` on that reported an error. -/
def findError (rm : RaidzMap) (c : ℕ) : ℕ :=
  c + ((rm.rmCol.drop c).takeWhile fun rc => rc.rcError.isNone).length

/-! ## `vdev_raidz_io_done` -/

/-- How a call of `vdev_raidz_io_done` goes on. -/
inductive IoDone where
  /-- The columns that were not tried are read, and the call is made again. -/
  | reread (rm : RaidzMap)
  /-- The jump to `done`. -/
  | done (rm : RaidzMap) (ioError : Option Errno) (unexpectedErrors : ℕ)

/-- The first attempt to produce valid data, when there are no more errors than parity columns read:
    the map that it leaves, and the number of unexpected errors if it succeeded. -/
def tryKnown (env : ReadEnv) (rm : RaidzMap) (n : Counts) : RaidzMap × Option ℕ :=
  match n.dataErrors with
  | 0 =>
    if env.checksumOk rm.ioData then
      if n.parityErrors + n.parityUntried < rm.rmFirstdatacol ∨ env.resilver then
        let (rm, bad) := raidzParityVerify rm
        (rm, some (n.unexpectedErrors + bad))
      else (rm, some n.unexpectedErrors)
    else (rm, none)
  | 1 =>
    let c := findError rm rm.rmFirstdatacol
    let rm := if (rm.col 0).rcError = none then vdevRaidzReconstructP rm c else vdevRaidzReconstructQ rm c
    if env.checksumOk rm.ioData then
      if n.parityErrors < rm.rmFirstdatacol - 1 ∨ env.resilver then
        let (rm, bad) := raidzParityVerify rm
        (rm, some (n.unexpectedErrors + bad))
      else (rm, some n.unexpectedErrors)
    else (rm, none)
  | 2 =>
    let c1 := findError rm rm.rmFirstdatacol
    let c := findError rm (c1 + 1)
    let rm := vdevRaidzReconstructPq rm c1 c
    (rm, if env.checksumOk rm.ioData then some n.unexpectedErrors else none)
  | _ => (rm, none)

/-- Column `c` is marked as the one that was wrong. -/
def setEcksum (rm : RaidzMap) (c : ℕ) : RaidzMap := rm.setCol c fun rc => { rc with rcError := some .ecksum }

/-- One loop of the combinatorial reconstruction: column after column is reconstructed, and put back when
    the checksum fails. -/
def tryEach (env : ReadEnv) (reconstruct : RaidzMap → ℕ → RaidzMap) : RaidzMap → List ℕ → Except RaidzMap RaidzMap
  | rm, [] => .error rm
  | rm, c :: rest =>
    let orig := (rm.col c).rcData
    let rm := reconstruct rm c
    if env.checksumOk rm.ioData then .ok (setEcksum rm c)
    else tryEach env reconstruct (rm.setData c orig) rest

def tryPairs (env : ReadEnv) (c : ℕ) : RaidzMap → List ℕ → Except RaidzMap RaidzMap
  | rm, [] => .error rm
  | rm, c1 :: rest =>
    let orig1 := (rm.col c1).rcData
    let rm := vdevRaidzReconstructPq rm c c1
    if env.checksumOk rm.ioData then .ok (setEcksum (setEcksum rm c) c1)
    else tryPairs env c (rm.setData c1 orig1) rest

def tryAllPairs (env : ReadEnv) : RaidzMap → List ℕ → Except RaidzMap RaidzMap
  | rm, [] => .error rm
  | rm, c :: rest =>
    let orig := (rm.col c).rcData
    match tryPairs env c rm ((List.range rm.rmCols).drop (c + 1)) with
    | .ok rm => .ok rm
    | .error rm => tryAllPairs env (rm.setData c orig) rest

def RaidzMap.dataIdx (rm : RaidzMap) : List ℕ := (List.range rm.rmCols).drop rm.rmFirstdatacol

def stage (cond : Prop) [Decidable cond] (run : RaidzMap → Except RaidzMap RaidzMap) (rm : RaidzMap) :
    Except RaidzMap RaidzMap :=
  if cond then run rm else .error rm

def orElse (first : Except RaidzMap RaidzMap) (next : RaidzMap → Except RaidzMap RaidzMap) :
    Except RaidzMap RaidzMap :=
  match first with
  | .ok rm => .ok rm
  | .error rm => next rm

def combinatorial (env : ReadEnv) (rm : RaidzMap) : Except RaidzMap RaidzMap :=
  let p := (rm.col 0).rcError = none
  let q := 1 < rm.rmFirstdatacol ∧ (rm.col 1).rcError = none
  orElse (orElse
    (stage p (fun rm => tryEach env vdevRaidzReconstructP rm rm.dataIdx) rm)
    (stage q fun rm => tryEach env vdevRaidzReconstructQ rm rm.dataIdx))
    (stage (p ∧ q) fun rm => tryAllPairs env rm rm.dataIdx.dropLast)

/-- `vdev_raidz_io_done` for a read, up to the repairs. -/
def vdevRaidzIoDone (env : ReadEnv) (rm : RaidzMap) : IoDone :=
  let n := countCols rm
  let (rm, success) := if n.ioNumerrors ≤ rm.rmFirstdatacol - n.parityUntried then tryKnown env rm n
    else (rm, none)
  match success with
  | some unexpected => .done rm none unexpected
  | none =>
    let rm := { rm with rmMissingdata := 0, rmMissingparity := 0 }
    if rm.rmCol.any fun rc => !rc.rcTried then .reread rm
    else if rm.rmFirstdatacol ≤ n.ioNumerrors then .done rm n.ioError 1
    else
      match combinatorial env rm with
      | .ok rm => .done rm none 1
      | .error rm => .done rm (some .ecksum) 1

def readUntried (env : ReadEnv) (rm : RaidzMap) : RaidzMap :=
  { rm with rmCol := rm.rmCol.map fun rc => if rc.rcTried then rc else vdevRaidzChildDone (env.child rc.rcDevidx) rc }

def vdevRaidzRead (env : ReadEnv) (rm : RaidzMap) : Option (RaidzMap × Option Errno × ℕ) :=
  match vdevRaidzIoDone env (vdevRaidzIoStart env rm) with
  | .done rm err unexpected => some (rm, err, unexpected)
  | .reread rm =>
    match vdevRaidzIoDone env (readUntried env rm) with
    | .done rm err unexpected => some (rm, err, unexpected)
    | .reread _ => none

def repairs (env : ReadEnv) (rm : RaidzMap) (ioError : Option Errno) (unexpectedErrors : ℕ) : List (ℕ × List Word) :=
  if ioError = none ∧ env.writable ∧ (unexpectedErrors ≠ 0 ∨ env.resilver) then
    (rm.rmCol.zipIdx.filter fun e => e.1.rcError.isSome).map fun e => (e.2, e.1.rcData)
  else []

end MacZfs.Raidz
