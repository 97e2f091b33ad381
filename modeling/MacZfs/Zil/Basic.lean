import Mathlib

/-! # Parsing the intent log

`zil_parse` of `zil.c` and the passes that go through a log with it: the claim when the pool is opened, and the replay,
the destruction and the traversal of a log that has been claimed. A pass may fail to read any block. Sequence numbers
start at 1 and do not overflow.
-/

namespace MacZfs.Zil

/-- `zio_cksum_t` of a log block, which is its place in its chain. -/
structure Cksum where
  guid0 : ℕ
  guid1 : ℕ
  objset : ℕ
  seq : ℕ
  deriving DecidableEq, Repr

/-- What is used of a `blkptr_t`. `dva` is `BP_IDENTITY`. -/
structure Blkptr where
  dva : ℕ
  blkBirth : ℕ
  blkCksum : Cksum
  deriving DecidableEq, Repr

/-- `BP_IS_HOLE` -/
def Blkptr.isHole (bp : Blkptr) : Bool := decide (bp.blkBirth = 0)

/-- What the passes use of a log record. `lrBlkptr` is that of a `lr_write_t`, and `indirect` says that the record is no
    longer than that. -/
structure LogRecord where
  lrcTxtype : ℕ
  lrcTxg : ℕ
  lrcSeq : ℕ
  indirect : Bool
  lrBlkptr : Blkptr
  deriving DecidableEq, Repr

/-- `TX_WRITE` -/
def txWrite : ℕ := 9

/-- The contents of a log block. `overflow` says that `zit_nused` is more than there is. -/
structure LogBlock where
  zitNextBlk : Blkptr
  overflow : Bool
  records : List LogRecord
  deriving DecidableEq, Repr

structure Disk where
  size : ℕ
  block : ℕ → Option LogBlock
  finite : ∀ dva, size ≤ dva → block dva = none

/-- `zil_header_t` -/
structure Header where
  zhClaimTxg : ℕ
  zhReplaySeq : ℕ
  zhLog : Blkptr
  zhClaimSeq : ℕ
  deriving DecidableEq, Repr

/-- `zil_read_log_block`: the contents if there is no error. `fails` are the blocks that a pass cannot read. -/
def zilReadLogBlock (disk : Disk) (fails : Blkptr → Bool) (bp : Blkptr) : Option LogBlock :=
  if fails bp then none
  else
    match disk.block bp.dva with
    | none => none
    | some data =>
      if data.zitNextBlk.blkCksum ≠ { bp.blkCksum with seq := bp.blkCksum.seq + 1 } then none
      else if data.zitNextBlk.isHole then none
      else if data.overflow then none
      else some data

/-- The loop of `zil_parse`, for at most so many blocks. -/
def zilParseLoop {σ : Type} (disk : Disk) (fails : Blkptr → Bool) (claimSeq : ℕ) (parseBlkFunc : Blkptr → σ → σ)
    (parseLrFunc : LogRecord → σ → σ) : ℕ → Blkptr → ℕ → σ → Option (ℕ × σ)
  | 0, _, _, _ => none
  | fuel + 1, blk, maxSeq, arg =>
    let seq := blk.blkCksum.seq
    if claimSeq ≠ 0 ∧ claimSeq < seq then some (maxSeq, arg)
    else
      match zilReadLogBlock disk fails blk with
      | none => some (seq, parseBlkFunc blk arg)
      | some data =>
        zilParseLoop disk fails claimSeq parseBlkFunc parseLrFunc fuel data.zitNextBlk seq
          (data.records.foldl (fun arg lr => parseLrFunc lr arg) (parseBlkFunc blk arg))

/-- `zil_parse` -/
def zilParse {σ : Type} (disk : Disk) (fails : Blkptr → Bool) (zh : Header) (parseBlkFunc : Blkptr → σ → σ)
    (parseLrFunc : LogRecord → σ → σ) (fuel : ℕ) (arg : σ) : Option (ℕ × σ) :=
  if zh.zhLog.isHole then some (0, arg)
  else zilParseLoop disk fails zh.zhClaimSeq parseBlkFunc parseLrFunc fuel zh.zhLog 0 arg

/-! ## The claim -/

/-- `zil_claim_log_block`, on the addresses that have been claimed. -/
def zilClaimLogBlock (firstTxg : ℕ) (bp : Blkptr) (dvaTree : List ℕ) : List ℕ :=
  if firstTxg ≤ bp.blkBirth ∧ bp.dva ∉ dvaTree then bp.dva :: dvaTree else dvaTree

/-- `zil_claim_log_record` -/
def zilClaimLogRecord (firstTxg : ℕ) (lr : LogRecord) (dvaTree : List ℕ) : List ℕ :=
  if lr.lrcTxtype = txWrite then zilClaimLogBlock firstTxg lr.lrBlkptr dvaTree else dvaTree

/-- `zil_claim`: the header that is left and the addresses that are claimed. -/
def zilClaim (disk : Disk) (fails : Blkptr → Bool) (firstTxg fuel : ℕ) (zh : Header) : Option (Header × List ℕ) :=
  if zh.zhClaimTxg = 0 ∧ ¬zh.zhLog.isHole then
    (zilParse disk fails zh (zilClaimLogBlock firstTxg) (zilClaimLogRecord firstTxg) fuel []).map fun (maxSeq, claimed) =>
      ({ zh with zhClaimTxg := firstTxg, zhClaimSeq := maxSeq }, claimed)
  else some (zh, [])

/-! ## Later passes -/

/-- A log while it is freed: `zl_dva_tree` and all blocks that have been freed. -/
structure Freeing where
  dvaTree : List ℕ
  freed : List Blkptr
  deriving DecidableEq, Repr

/-- `zil_free_log_block` -/
def zilFreeLogBlock (bp : Blkptr) (arg : Freeing) : Freeing := { arg with freed := bp :: arg.freed }

/-- `zil_free_log_record` -/
def zilFreeLogRecord (claimTxg : ℕ) (lr : LogRecord) (arg : Freeing) : Freeing :=
  if claimTxg ≠ 0 ∧ lr.lrcTxtype = txWrite ∧ claimTxg ≤ lr.lrBlkptr.blkBirth ∧ lr.lrBlkptr.dva ∉ arg.dvaTree then
    { dvaTree := lr.lrBlkptr.dva :: arg.dvaTree, freed := lr.lrBlkptr :: arg.freed }
  else arg

/-- The pass of `zil_destroy` and `zil_rollback_destroy`: all blocks that it frees. -/
def zilDestroy (disk : Disk) (fails : Blkptr → Bool) (fuel : ℕ) (zh : Header) : Option (List Blkptr) :=
  (zilParse disk fails zh zilFreeLogBlock (zilFreeLogRecord zh.zhClaimTxg) fuel ⟨[], []⟩).map fun (_, arg) => arg.freed

/-- A log while it is replayed: `zl_stop_replay`, and all blocks that have been used. -/
structure Replaying where
  stopReplay : Bool
  used : List Blkptr
  deriving DecidableEq, Repr

/-- `zil_incr_blks`, for a block of which the records are replayed next. -/
def zilIncrBlks (bp : Blkptr) (arg : Replaying) : Replaying := { arg with used := bp :: arg.used }

/-- `zil_replay_log_record`. The replay of a record may fail. -/
def zilReplayLogRecord (works : LogRecord → Bool) (claimTxg replaySeq : ℕ) (lr : LogRecord) (arg : Replaying) : Replaying :=
  if arg.stopReplay then arg
  else if lr.lrcTxg < claimTxg then arg
  else if lr.lrcSeq ≤ replaySeq then arg
  else
    { stopReplay := !works lr
      used :=
        if lr.lrcTxtype = txWrite ∧ lr.indirect ∧ ¬lr.lrBlkptr.isHole then lr.lrBlkptr :: arg.used else arg.used }

/-- The pass of `zil_replay`: all log blocks that it goes through, and the write blocks that it reads. -/
def zilReplay (disk : Disk) (fails : Blkptr → Bool) (works : LogRecord → Bool) (fuel : ℕ) (zh : Header) :
    Option (List Blkptr) :=
  (zilParse disk fails zh zilIncrBlks (zilReplayLogRecord works zh.zhClaimTxg zh.zhReplaySeq) fuel ⟨false, []⟩).map
    fun (_, arg) => arg.used

/-- `traverse_zil_block`, for a log that has been claimed. -/
def traverseZilBlock (mintxg : ℕ) (bp : Blkptr) (visited : List Blkptr) : List Blkptr :=
  if bp.blkBirth ≤ mintxg then visited else bp :: visited

/-- `traverse_zil_record` -/
def traverseZilRecord (mintxg claimTxg : ℕ) (lr : LogRecord) (visited : List Blkptr) : List Blkptr :=
  if lr.lrcTxtype = txWrite then
    if lr.lrBlkptr.blkBirth ≤ mintxg then visited
    else if claimTxg ≠ 0 ∧ claimTxg ≤ lr.lrBlkptr.blkBirth then lr.lrBlkptr :: visited
    else visited
  else visited

/-- `traverse_zil`: all blocks that the callback is called for. In a pool that can be
    written, a log that has not been claimed is not traversed. -/
def traverseZil (disk : Disk) (fails : Blkptr → Bool) (mintxg fuel : ℕ) (zh : Header) : Option (List Blkptr) :=
  if zh.zhClaimTxg = 0 then some []
  else
    (zilParse disk fails zh (traverseZilBlock mintxg) (traverseZilRecord mintxg zh.zhClaimTxg) fuel []).map fun (_, visited) =>
      visited

end MacZfs.Zil
