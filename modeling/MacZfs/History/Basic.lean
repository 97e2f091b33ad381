import MacZfs.Base
import MacZfs.Lib.Ring

/-! # The history of a pool

`spa_history.c`. A log record is its packed nvlist, which is stored after its length. Logical offsets, which count every
byte that was ever logged, do not reach `2 ^ 64` and are natural numbers. Reads and writes of the history object succeed.
-/

namespace MacZfs.History

/-- `spa_history_phys_t`, and the bytes of the history object. -/
structure HistoryPhys where
  shPoolCreateLen : ℕ
  shPhysMaxOff : ℕ
  shBof : ℕ
  shEof : ℕ
  shRecordsLost : ℕ
  object : ℕ → UInt8

/-- `history_log_type_t` -/
inductive HistoryLogType
  | poolCreate
  | normal
  | internal
  deriving DecidableEq, Repr

/-- The bytes of a `uint64_t` in little-endian order. -/
def le64 (n : ℕ) : List UInt8 := (List.range 8).map fun i => UInt8.ofNat (n / 256 ^ i)

/-- The `uint64_t` of some bytes in little-endian order. -/
def ofLe64 (bytes : List UInt8) : ℕ := Nat.ofDigits 256 (bytes.map UInt8.toNat)

/-- `dmu_read` -/
def dmuRead (h : HistoryPhys) (offset n : ℕ) : List UInt8 := Ring.fetch h.object offset n

/-- `dmu_write` -/
def dmuWrite (h : HistoryPhys) (offset : ℕ) (buf : List UInt8) : HistoryPhys :=
  { h with object := Ring.store h.object offset buf }

/-- `spa_history_log_to_phys` -/
def spaHistoryLogToPhys (logOff : ℕ) (h : HistoryPhys) : ℕ :=
  let physLen := h.shPhysMaxOff - h.shPoolCreateLen
  (logOff - h.shPoolCreateLen) % physLen + h.shPoolCreateLen

/-- `spa_history_create_obj`, with the size of the pool. -/
def spaHistoryCreateObj (dspace : ℕ) : HistoryPhys where
  shPoolCreateLen := 0
  shPhysMaxOff := max (min (dspace / 100) (32 <<< 20)) (128 <<< 10)
  shBof := 0
  shEof := 0
  shRecordsLost := 0
  object := fun _ => 0

/-- `spa_history_advance_bof` -/
def spaHistoryAdvanceBof (h : HistoryPhys) : HistoryPhys :=
  let physBof := spaHistoryLogToPhys h.shBof h
  let firstread := min 8 (h.shPhysMaxOff - physBof)
  let buf := dmuRead h physBof firstread
  let buf := if firstread ≠ 8 then buf ++ dmuRead h h.shPoolCreateLen (8 - firstread) else buf
  { h with shBof := h.shBof + (ofLe64 buf + 8), shRecordsLost := h.shRecordsLost + 1 }

/-- The loop that makes room for so many bytes, in at most so many turns. The beginning of the log comes eight bytes
    further every time, so that there is nothing left to drop after as many turns as there are bytes. -/
def makeRoom (len : ℕ) : ℕ → HistoryPhys → Option HistoryPhys
  | 0, _ => none
  | n + 1, h =>
    if h.shPhysMaxOff - h.shPoolCreateLen - (h.shEof - h.shBof) ≤ len then makeRoom len n (spaHistoryAdvanceBof h)
    else some h

/-- `spa_history_write` -/
def spaHistoryWrite (buf : List UInt8) (h : HistoryPhys) : Option HistoryPhys := do
  let h ← makeRoom buf.length (h.shEof - h.shBof + 1) h
  let physEof := spaHistoryLogToPhys h.shEof h
  let firstwrite := min buf.length (h.shPhysMaxOff - physEof)
  let h := { h with shEof := h.shEof + buf.length }
  let h := dmuWrite h physEof (buf.take firstwrite)
  let rest := buf.drop firstwrite
  if rest.length > 0 then
    -- the rest goes to the beginning of the physical file
    return dmuWrite h h.shPoolCreateLen rest
  return h

/-- `spa_history_log_sync` of a packed record. `none` is where a `VERIFY` fails. -/
def spaHistoryLogSync (logType : HistoryLogType) (recordPacked : List UInt8) (h : HistoryPhys) : Option HistoryPhys := do
  if logType = .poolCreate ∧ h.shEof ≠ h.shPoolCreateLen then none
  let h ← spaHistoryWrite (le64 recordPacked.length) h
  let h ← spaHistoryWrite recordPacked h
  if logType = .poolCreate then
    let len := h.shPoolCreateLen + (8 + recordPacked.length)
    return { h with shPoolCreateLen := len, shBof := len }
  return h

def readLengths (h : HistoryPhys) (physReadOff physEof len : ℕ) : ℕ × ℕ :=
  if physReadOff ≤ physEof then (min len (physEof - physReadOff), 0)
  else
    let readLen := min len (h.shPhysMaxOff - physReadOff)
    (readLen,
      if physReadOff + len > h.shPhysMaxOff then min (len - readLen) (physEof - h.shPoolCreateLen) else 0)

/-- `spa_history_get`: the offset to use next, how much was read, and what was read. -/
def spaHistoryGet (h : HistoryPhys) (off len : ℕ) : ℕ × ℕ × List UInt8 :=
  let physEof := spaHistoryLogToPhys h.shEof h
  let (off, physReadOff, readLen, leftover) :=
    if off < h.shPoolCreateLen then (off, off, min len (h.shPoolCreateLen - off), 0)
    else
      -- what was overwritten is passed over
      let off := max off h.shBof
      let physReadOff := spaHistoryLogToPhys off h
      (off, physReadOff, readLengths h physReadOff physEof len)
  let buf :=
    if readLen = 0 then []
    else if leftover ≠ 0 then dmuRead h physReadOff readLen ++ dmuRead h h.shPoolCreateLen leftover
    else dmuRead h physReadOff readLen
  (off + (readLen + leftover), readLen + leftover, buf)

def gets (h : HistoryPhys) : ℕ → List ℕ → List (List UInt8)
  | _, [] => []
  | off, len :: sizes =>
    let (off, _, buf) := spaHistoryGet h off len
    buf :: gets h off sizes

end MacZfs.History
