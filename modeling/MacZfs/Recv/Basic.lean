import MacZfs.Recv.Swap

/-! # Reading a backup stream

The part of `dmu_send.c` that takes a stream apart: `restore_read` and the functions that call it. What the rest of the
system answers is given from outside, and every access to the restore buffer is noted. The machine is little-endian.
-/

namespace MacZfs.Recv

/-- What a call of `vn_rdwr` does: how much it reads, if it is asked for that much, and whether it fails. -/
structure Rdwr where
  got : ℕ
  err : Bool
  deriving DecidableEq, Repr

/-- `struct restorearg`. `err` says whether there is an error, and `buf` is the memory around the start of the
    buffer. -/
structure RestoreArg where
  err : Bool
  byteswap : Bool
  voff : ℕ
  buf : ℤ → UInt8
  buflen : ℤ
  bufoff : ℤ

/-- `ra->bufsize` -/
def bufsize : ℤ := 1 <<< 20

inductive Access
  /-- By `restore_read`, to make room and to read. -/
  | buffer (place len : ℤ)
  /-- Of so many bytes of what a call of `restore_read` for `got` bytes has returned. -/
  | data (place len got : ℤ)
  deriving DecidableEq, Repr

/-- `memmove(ra->buf, ra->buf + ra->bufoff, leftover)` -/
def memmove (ra : RestoreArg) (leftover : ℤ) (x : ℤ) : UInt8 :=
  if 0 ≤ x ∧ x < leftover then ra.buf (x + ra.bufoff) else ra.buf x

/-- The bytes of the stream that are read from `voff` to a place of the buffer. -/
def fill (stream : ℕ → UInt8) (voff : ℕ) (place n : ℤ) (buf : ℤ → UInt8) (x : ℤ) : UInt8 :=
  if place ≤ x ∧ x < place + n then stream (voff + (x - place).toNat) else buf x

/-- One turn of the loop of `restore_read`: what is left over is moved to the start of the buffer, and what is read follows
    it. Nothing at all is an error. -/
def refill (stream : ℕ → UInt8) (answer : Rdwr) (ra : RestoreArg) : RestoreArg :=
  let leftover := ra.buflen - ra.bufoff
  let got := min (answer.got : ℤ) (bufsize - leftover)
  let resid := bufsize - leftover - got
  { ra with
    buf := fill stream ra.voff leftover got (memmove ra leftover)
    voff := ra.voff + got.toNat
    buflen := bufsize - resid
    bufoff := 0
    err := answer.err || decide (resid = bufsize - leftover) }

def refillAccesses (answer : Rdwr) (ra : RestoreArg) : List Access :=
  let leftover := ra.buflen - ra.bufoff
  [.buffer ra.bufoff leftover, .buffer 0 leftover, .buffer leftover (min (answer.got : ℤ) (bufsize - leftover))]

/-- What `restore_read` leaves: the pointer that it returns if it is not `NULL`, and the answers of `vn_rdwr` that it did
    not need. -/
structure ReadResult where
  rv : Option ℤ
  ra : RestoreArg
  accesses : List Access
  reads : List Rdwr

/-- The end of `restore_read`. The checksum goes through whole words. -/
def give (len : ℤ) (reads : List Rdwr) (ra : RestoreArg) : ReadResult where
  rv := some ra.bufoff
  ra := { ra with bufoff := ra.bufoff + len }
  accesses := [.data ra.bufoff (len % 2 ^ 64 / 4 * 4) len]
  reads := reads

/-- `restore_read`. Where there are no more answers, `vn_rdwr` fails. -/
def restoreRead (stream : ℕ → UInt8) (len : ℤ) : List Rdwr → RestoreArg → ReadResult
  | [], ra =>
    if ra.buflen - ra.bufoff < len then
      { rv := none, ra := refill stream ⟨0, true⟩ ra, accesses := refillAccesses ⟨0, true⟩ ra, reads := [] }
    else give len [] ra
  | answer :: reads, ra =>
    if ra.buflen - ra.bufoff < len then
      if (refill stream answer ra).err then
        { rv := none, ra := refill stream answer ra, accesses := refillAccesses answer ra, reads := reads }
      else
        let next := restoreRead stream len reads (refill stream answer ra)
        { next with accesses := refillAccesses answer ra ++ next.accesses }
    else give len (answer :: reads) ra

/-! ## Records -/

/-- `sizeof (dmu_replay_record_t)` -/
def recordSize : ℤ := 312

/-- `struct drr_object` -/
structure DrrObject where
  drrObject : ℕ
  drrType : ℕ
  drrBonustype : ℕ
  drrBlksz : ℕ
  drrBonuslen : ℕ
  drrChecksum : ℕ
  drrCompress : ℕ
  deriving DecidableEq, Repr

/-- `struct drr_write` -/
structure DrrWrite where
  drrObject : ℕ
  drrType : ℕ
  drrOffset : ℕ
  drrLength : ℕ
  deriving DecidableEq, Repr

/-- `dmu_replay_record_t`, of which only the records that are followed by data matter here. -/
inductive Record
  | object (drro : DrrObject)
  | write (drrw : DrrWrite)
  /-- `DRR_FREEOBJECTS` and `DRR_FREE` -/
  | free
  /-- `DRR_END`, or no record at all. -/
  | last
  deriving DecidableEq, Repr

def recordAt (swap : Bool) (buf : ℤ → UInt8) (place : ℤ) : Record :=
  let field (offset : ℤ) (size : ℕ) := number swap buf (place + offset) size
  match field 0 4 with
  | 1 => .object
      { drrObject := field 8 8, drrType := field 16 4, drrBonustype := field 20 4, drrBlksz := field 24 4
        drrBonuslen := field 28 4, drrChecksum := field 32 1, drrCompress := field 33 1 }
  | 2 => .free
  | 3 => .write { drrObject := field 8 8, drrType := field 16 4, drrOffset := field 24 8, drrLength := field 32 8 }
  | 4 => .free
  | _ => .last

structure Answers where
  reads : List Rdwr
  /-- There is a signal. -/
  issig : Bool
  /-- `dmu_object_info` finds the object; if it does not, there may be another error than `ENOENT`. -/
  objectInfo : Bool
  objectInfoBad : Bool
  /-- `dmu_tx_assign`, `dmu_object_claim`, `dmu_object_reclaim` or what a record without data asks for fails. -/
  fails : Bool

/-- The check of `restore_object`. -/
def DrrObject.bad (drro : DrrObject) : Bool :=
  decide (drro.drrType = 0) || decide (dmuOtNumtypes ≤ drro.drrType) || decide (dmuOtNumtypes ≤ drro.drrBonustype) ||
    decide (9 ≤ drro.drrChecksum) || decide (14 ≤ drro.drrCompress) || decide (p2phase drro.drrBlksz 512 ≠ 0) ||
    decide (drro.drrBlksz < 512) || decide (131072 < drro.drrBlksz) || decide (320 < drro.drrBonuslen)

/-- The check of `restore_write`. -/
def DrrWrite.bad (drrw : DrrWrite) : Bool :=
  decide (u64 (drrw.drrOffset + drrw.drrLength) < drrw.drrOffset) || decide (dmuOtNumtypes ≤ drrw.drrType)

/-- `restore_object` -/
def restoreObject (stream : ℕ → UInt8) (answers : Answers) (reads : List Rdwr) (drro : DrrObject) (ra : RestoreArg) :
    RestoreArg × List Access :=
  if !answers.objectInfo && answers.objectInfoBad || drro.bad || answers.fails then ({ ra with err := true }, [])
  else if drro.drrBonuslen ≠ 0 then
    let read := restoreRead stream (p2roundup drro.drrBonuslen 8) reads ra
    match read.rv with
    | none => (read.ra, read.accesses)
    | some data => (read.ra, read.accesses ++ [.data data drro.drrBonuslen (p2roundup drro.drrBonuslen 8)])
  else (ra, [])

/-- `restore_write` -/
def restoreWrite (stream : ℕ → UInt8) (answers : Answers) (reads : List Rdwr) (drrw : DrrWrite) (ra : RestoreArg) :
    RestoreArg × List Access :=
  if drrw.bad then ({ ra with err := true }, [])
  else
    let read := restoreRead stream (toInt drrw.drrLength) reads ra
    match read.rv with
    | none => (read.ra, read.accesses)
    | some data =>
      if !answers.objectInfo || answers.fails then ({ read.ra with err := true }, read.accesses)
      else
        -- `ot_byteswap`, which changes bytes that are not read again, and `dmu_write`
        let swap := .data data (swapEnd drrw.drrType drrw.drrLength fun x => read.ra.buf (data + x)) (toInt drrw.drrLength)
        let use := .data data drrw.drrLength (toInt drrw.drrLength)
        (read.ra, read.accesses ++ if ra.byteswap then [swap, use] else [use])

/-- One turn of the loop of `dmu_recvbackup`, which ends it if there is an error. -/
def recvRecord (stream : ℕ → UInt8) (answers : Answers) (ra : RestoreArg) : RestoreArg × List Access :=
  let read := restoreRead stream recordSize answers.reads ra
  match read.rv with
  | none => (read.ra, read.accesses)
  | some drr =>
    let accesses := read.accesses ++ [.data drr recordSize recordSize]
    if answers.issig then ({ read.ra with err := true }, accesses)
    else
      let (ra, more) :=
        match recordAt ra.byteswap read.ra.buf drr with
        | .object drro => restoreObject stream answers read.reads drro read.ra
        | .write drrw => restoreWrite stream answers read.reads drrw read.ra
        | .free => ({ read.ra with err := answers.fails }, [])
        | .last => ({ read.ra with err := true }, [])
      (ra, accesses ++ more)

end MacZfs.Recv
