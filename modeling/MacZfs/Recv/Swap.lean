import MacZfs.Base

/-! # The byte order of data

The functions `ot_byteswap` of `dmu_ot`. They are given a buffer and its size, but many of them go as far as a structure or
what they find in it says. So the end of what they have touched is kept with the bytes.
-/

namespace MacZfs.Recv

/-- An `int` that is given a 64-bit number. -/
def toInt (x : ℕ) : ℤ := Int.bmod x (2 ^ 32)

def number (swap : Bool) (buf : ℤ → UInt8) (place : ℤ) (size : ℕ) : ℕ :=
  ((List.range size).map fun i : ℕ => (buf (place + i)).toNat * 256 ^ (if swap then size - 1 - i else i)).sum

/-- A buffer, and the end of what was touched of it. -/
structure Swap where
  bytes : ℤ → UInt8
  stop : ℤ

def touch (n : ℕ) (place : ℤ) (s : Swap) : Swap := { s with stop := max s.stop (place + n) }

/-- `BSWAP_16`, `BSWAP_32` or `BSWAP_64` of so many words of `size` bytes, one after the other. -/
def bswap (size count : ℕ) (place : ℤ) (s : Swap) : Swap where
  bytes x :=
    if place ≤ x ∧ x < place + size * count then s.bytes (x + (size - 1) - 2 * ((x - place) % size)) else s.bytes x
  stop := if count = 0 then s.stop else max s.stop (place + size * count)

/-- `zfs_ace_byteswap`. The number of entries is an `int` that the loop counts to. -/
def zfsAceByteswap (aceCnt : ℕ) (ace : ℤ) (s : Swap) : Swap :=
  (List.range (aceCnt % 2 ^ 32)).foldl (fun s i => bswap 2 2 (ace + 12 * i + 8) (bswap 4 2 (ace + 12 * i) s)) s

/-- `zfs_znode_byteswap` -/
def zfsZnodeByteswap (zp : ℤ) (s : Swap) : Swap :=
  zfsAceByteswap 6 (zp + 192) (bswap 2 2 (zp + 188) (bswap 4 1 (zp + 184) (bswap 8 23 zp s)))

/-- `mzap_byteswap` -/
def mzapByteswap (size : ℕ) (buf : ℤ) (s : Swap) : Swap :=
  (List.range (toInt (u64Sub (size / 64) 1)).toNat).foldl
    (fun s i => bswap 4 1 (buf + 64 * (i + 1) + 8) (bswap 8 1 (buf + 64 * (i + 1)) s)) (bswap 8 2 buf s)

/-- A turn of the second loop of `zap_leaf_byteswap`, for the type of the chunk that is in its first byte. -/
def swapChunk (lc : ℤ) (s : Swap) : Swap :=
  let s := touch 1 lc s
  match (s.bytes lc).toNat with
  | 252 => bswap 8 1 (lc + 16) (bswap 4 1 (lc + 12) (bswap 2 5 (lc + 2) s))
  | 253 | 251 => bswap 2 1 (lc + 22) s
  | _ => s

/-- `zap_leaf_byteswap` -/
def zapLeafByteswap (size buf : ℤ) (s : Swap) : Swap :=
  let bs := highbit (size % 2 ^ 64).toNat - 1
  let hashNumentries := 2 ^ (bs - 5)
  let s := bswap 2 4 (buf + 28) (bswap 4 1 (buf + 24) (bswap 8 1 (buf + 16) (bswap 8 1 buf s)))
  (List.range ((2 ^ bs - 2 * hashNumentries) / 24 - 2)).foldl
    (fun s i => swapChunk (buf + 48 + 2 * hashNumentries + 24 * i) s) (bswap 2 hashNumentries (buf + 48) s)

/-- `zap_byteswap` and `fzap_byteswap`, which look at the type of the block in both byte orders. -/
def zapByteswap (size : ℕ) (buf : ℤ) (s : Swap) : Swap :=
  let s := touch 8 buf s
  let blockType := [number false s.bytes buf 8, number true s.bytes buf 8]
  if 2 ^ 63 + 3 ∈ blockType then mzapByteswap size buf s
  else if 2 ^ 63 ∈ blockType then zapLeafByteswap (toInt size) buf s
  else bswap 8 (size / 8) buf s

/-- `dnode_byteswap`, with `ot_byteswap` for the type and the size of a bonus buffer. That starts after the last block
    pointer, and its size is what would be left of the dnode. -/
def dnodeByteswap (otByteswap : ℕ → ℕ → ℤ → Swap → Swap) (dnp : ℤ) (s : Swap) : Swap :=
  let s := touch 1 dnp s
  if s.bytes dnp = 0 then
    { touch 512 dnp s with bytes := fun x => if dnp ≤ x ∧ x < dnp + 512 then 0 else s.bytes x }
  else
    let s := bswap 8 2 (dnp + 16) (bswap 2 2 (dnp + 8) s)
    let nblkptr := (s.bytes (dnp + 3)).toNat
    let s := bswap 8 (nblkptr * 16) (dnp + 64) s
    if s.bytes (dnp + 10) ≠ 0 ∨ s.bytes (dnp + 11) ≠ 0 then
      otByteswap (s.bytes (dnp + 4)).toNat ((448 - 128 * nblkptr : ℤ) % 2 ^ 64).toNat (dnp + 64 + 128 * nblkptr) s
    else s

inductive ByteswapFunc
  | uint8Array
  | uint64Array
  | zap
  | dnodeBuf
  | objset
  | znode
  | acl
  deriving DecidableEq, Repr

open ByteswapFunc in
/-- `ot_byteswap` in `dmu_ot`. -/
def dmuOt : List ByteswapFunc :=
  [ uint8Array, zap, uint64Array, uint8Array, uint64Array, uint64Array, uint64Array, uint64Array, uint64Array, uint64Array
  , dnodeBuf, objset, uint64Array, zap, zap, zap, uint64Array, znode, acl, uint8Array
  , zap, zap, zap, uint8Array, zap, uint8Array, uint64Array, zap, zap, uint8Array
  , uint64Array, zap, zap ]

/-- `DMU_OT_NUMTYPES` -/
def dmuOtNumtypes : ℕ := 33

/-- `dmu_ot[type].ot_byteswap(buf, size)`, for at most so many dnodes in the bonus buffers of each other. -/
def otByteswap : (depth : ℕ) → (type size : ℕ) → ℤ → Swap → Swap
  | 0, _, _, _, s => s
  | depth + 1, type, size, buf, s =>
    match dmuOt[type]? with
    -- no entry of the table, and no function
    | none => touch (2 ^ 64) buf s
    | some .uint8Array => s
    | some .uint64Array => bswap 8 (size / 8) buf s
    | some .zap => zapByteswap size buf s
    | some .dnodeBuf =>
      (List.range (size / 512)).foldl (fun s i => dnodeByteswap (otByteswap depth) (buf + 512 * i) s) s
    -- the dnode, the header of the intent log and the type
    | some .objset => bswap 8 25 (buf + 512) (dnodeByteswap (otByteswap depth) buf s)
    | some .znode => zfsZnodeByteswap buf s
    | some .acl => zfsAceByteswap (size / 12) buf s

/-- How far `ot_byteswap` goes in `size` bytes. What is found behind them does not matter any more, and a dnode in the
    bonus buffer of another one is at least 64 bytes further on. -/
def swapEnd (type size : ℕ) (bytes : ℤ → UInt8) : ℤ :=
  (otByteswap (size / 64 + 2) type size 0 ⟨fun x => if 0 ≤ x ∧ x < size then bytes x else 0, 0⟩).stop

end MacZfs.Recv
