import MacZfs.Base
import MacZfs.Lib.BackReference

/-! # Lempel-Ziv compression

`lzjb.c`, and what `zio_compress.c` does with it. A buffer is the bytes from its start on, and a pointer into it is its
distance from the start. Source and destination do not overlap.
-/

namespace MacZfs.Lzjb

open BackReference

abbrev Bytes := ℕ → UInt8

/-- `NBBY` -/
def nbby : ℕ := 8

/-- `MATCH_BITS` -/
def matchBits : ℕ := 6

/-- `MATCH_MIN` -/
def matchMin : ℕ := 3

/-- `MATCH_MAX` -/
def matchMax : ℕ := (1 <<< matchBits) + (matchMin - 1)

/-- `OFFSET_MASK` -/
def offsetMask : ℕ := (1 <<< (16 - matchBits)) - 1

/-- `LEMPEL_SIZE` -/
def lempelSize : ℕ := 256

/-! ## Compression -/

/-- The variables of `lzjb_compress`. `out` is the destination. -/
structure Compressing where
  src : ℕ
  dst : ℕ
  copymap : ℕ
  copymask : ℕ
  lempel : ℕ → UInt16
  out : Bytes

section Compress

variable (source : Bytes) (sStart sLen dLen : ℕ)

def lempelIndex (src : ℕ) : ℕ :=
  (((source src + 13) ^^^ (source (src + 1) - 13)) ^^^ source (src + 2)).toNat &&& (lempelSize - 1)

def matchLength (src cpy : ℕ) : ℕ → ℕ → ℕ
  | 0, mlen => mlen
  | n + 1, mlen => if source (src + mlen) ≠ source (cpy + mlen) then mlen else matchLength src cpy n (mlen + 1)

def control (c : Compressing) : Option Compressing :=
  if c.copymask <<< 1 = 1 <<< nbby then
    if dLen ≤ c.dst + 1 + 2 * nbby then none
    else some { c with copymask := 1, copymap := c.dst, out := Function.update c.out c.dst 0, dst := c.dst + 1 }
  else some { c with copymask := c.copymask <<< 1 }

def literal (c : Compressing) : Compressing :=
  { c with out := Function.update c.out c.dst (source c.src), dst := c.dst + 1, src := c.src + 1 }

def reference (c : Compressing) (offset : ℕ) : Compressing :=
  let mlen := matchLength source c.src (c.src - offset) (matchMax - matchMin) matchMin
  let flagged := Function.update c.out c.copymap (UInt8.ofNat ((c.out c.copymap).toNat ||| c.copymask))
  let first := UInt8.ofNat (((mlen - matchMin) <<< (nbby - matchBits)) ||| (offset >>> nbby))
  { c with
    out := Function.update (Function.update flagged c.dst first) (c.dst + 1) (UInt8.ofNat offset)
    dst := c.dst + 2
    src := c.src + mlen }

/-- What follows for the byte at `src`. `sStart` is the address of the source. -/
def item (c : Compressing) : Compressing :=
  if sLen < c.src + matchMax then literal source c
  else
    let hp := lempelIndex source c.src
    let offset := u64Sub (sStart + c.src) (c.lempel hp).toNat &&& offsetMask
    let c := { c with lempel := Function.update c.lempel hp (UInt16.ofNat (sStart + c.src)) }
    if offset ≤ c.src ∧ offset ≠ 0 ∧ source c.src = source (c.src - offset) ∧
        source (c.src + 1) = source (c.src - offset + 1) ∧ source (c.src + 2) = source (c.src - offset + 2) then
      reference source c offset
    else literal source c

def compressLoop : ℕ → Compressing → ℕ × Bytes
  | 0, c => (c.dst, c.out)
  | n + 1, c =>
    if c.src < sLen then
      match control dLen c with
      | none =>
        if dLen ≠ sLen then (sLen, c.out)
        else (sLen, fun x => if x < sLen then source x else c.out x)
      | some c => compressLoop n (item source sStart sLen c)
    else (c.dst, c.out)

/-- `lzjb_compress`: what it returns, and the destination afterwards. The table starts with anything. -/
def lzjbCompress (lempel : ℕ → UInt16) (dest : Bytes) : ℕ × Bytes :=
  compressLoop source sStart sLen dLen (sLen + 1)
    { src := 0, dst := 0, copymap := 0, copymask := 1 <<< (nbby - 1), lempel := lempel, out := dest }

end Compress

/-! ## Decompression -/

/-- The variables of `lzjb_decompress`. -/
structure Decompressing where
  src : ℕ
  dst : ℕ
  copymap : UInt8
  copymask : ℕ
  out : Bytes

section Decompress

variable (packed : Bytes) (dLen : ℕ)

def nextFlag (d : Decompressing) : Decompressing :=
  if d.copymask <<< 1 = 1 <<< nbby then { d with copymask := 1, copymap := packed d.src, src := d.src + 1 }
  else { d with copymask := d.copymask <<< 1 }

/-- What the flag stands for, or `none` where the function gives up. -/
def nextItem (d : Decompressing) : Option Decompressing :=
  if d.copymap.toNat &&& d.copymask ≠ 0 then
    let mlen := ((packed d.src).toNat >>> (nbby - matchBits)) + matchMin
    let offset := (((packed d.src).toNat <<< nbby) ||| (packed (d.src + 1)).toNat) &&& offsetMask
    if d.dst < offset then none
    else
      let n := min mlen (dLen - d.dst)
      some { d with src := d.src + 2, out := copyBack offset n d.dst d.out, dst := d.dst + n }
  else some { d with out := Function.update d.out d.dst (packed d.src), src := d.src + 1, dst := d.dst + 1 }

def decompressLoop : ℕ → Decompressing → ℤ × Bytes
  | 0, d => (0, d.out)
  | n + 1, d =>
    if d.dst < dLen then
      match nextItem packed dLen (nextFlag packed d) with
      | none => (-1, d.out)
      | some d => decompressLoop n d
    else (0, d.out)

/-- `lzjb_decompress`: what it returns, and the destination afterwards. `copymap` starts with anything. -/
def lzjbDecompress (copymap : UInt8) (dest : Bytes) : ℤ × Bytes :=
  decompressLoop packed dLen (dLen + 1)
    { src := 0, dst := 0, copymap := copymap, copymask := 1 <<< (nbby - 1), out := dest }

end Decompress

/-! ## Blocks -/

/-- `SPA_MINBLOCKSIZE` -/
def spaMinblocksize : ℕ := 512

inductive Compressed where
  /-- It is all zeros, and needs no space. -/
  | hole
  /-- It does not get smaller. -/
  | asIs
  | smaller (dest : Bytes) (destsize destbufsize : ℕ)

/-- `zio_compress_data` with a compression function, which is given the destination and its size. `dest` is what is in
    the buffer that it allocates. -/
def zioCompressData (ciCompress : ℕ → Bytes → ℕ × Bytes) (src : Bytes) (srcsize : ℕ) (dest : Bytes) : Compressed :=
  -- the loop over words
  if ∀ x, x < (srcsize + 7) / 8 * 8 → src x = 0 then .hole
  else
    let destbufsize := p2align (srcsize - srcsize >>> 3) spaMinblocksize
    if destbufsize = 0 then .asIs
    else
      let (ciosize, dest) := ciCompress destbufsize dest
      if destbufsize < ciosize then .asIs
      else
        let gapsize := p2roundup ciosize spaMinblocksize - ciosize
        .smaller (fun x => if ciosize ≤ x ∧ x < ciosize + gapsize then 0 else dest x) (ciosize + gapsize) destbufsize

end MacZfs.Lzjb
