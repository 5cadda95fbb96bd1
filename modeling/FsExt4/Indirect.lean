import FsExt4.Extent
import FsExt4.Inode

namespace FsExt4.Indirect

open Lib

def directCount : Nat := 12

def ppb (blockSize : Nat) : Nat := blockSize / 4

def ptrAt (buf : Bytes) (i : Nat) : Nat := (u32leAt buf (i * 4)).toNat

def present (phys : Nat) : Option Nat := if phys = 0 then none else some phys

/-- Read a pointer block through, as `IndirectCache::get` does on a fresh cache. -/
def getBlock (blockSize blockNo : Nat) : DevIo Bytes :=
  if 2 ^ 64 ≤ blockNo * blockSize then .fail (.corrupt "indirect: block byte offset overflow")
  else readAt (blockNo * blockSize) blockSize

/-- Follow one pointer per level from `blockNo`; a zero pointer is a hole. -/
def follow (blockSize : Nat) : List Nat → Nat → DevIo (Option Nat)
  | [], phys => pure (present phys)
  | i :: rest, blockNo =>
    if blockNo = 0 then pure none
    else do
      let buf ← getBlock blockSize blockNo
      follow blockSize rest (ptrAt buf i)

def lookup (iBlock : Bytes) (blockSize logical : Nat) : DevIo (Option Nat) :=
  let p := ppb blockSize
  let singleEnd := directCount + p
  let doubleEnd := singleEnd + p * p
  let tripleEnd := doubleEnd + p * p * p
  if blockSize < 1024 ∨ ¬ blockSize.isPowerOfTwo then
    .fail (.corrupt "indirect: block_size out of range")
  else if logical < directCount then
    follow blockSize [] (ptrAt iBlock logical)
  else if logical < singleEnd then
    follow blockSize [logical - directCount] (ptrAt iBlock 12)
  else if logical < doubleEnd then
    let off := logical - singleEnd
    follow blockSize [off / p, off % p] (ptrAt iBlock 13)
  else if logical < tripleEnd then
    let off := logical - doubleEnd
    follow blockSize [off / (p * p), off % (p * p) / p, off % (p * p) % p] (ptrAt iBlock 14)
  else
    .fail (.corrupt "indirect: logical block exceeds triple-indirect address space")

/-- `map_logical_any`: the extent tree or the block map, as the inode's flags say. -/
def mapLogicalAny (iBlock : Bytes) (flags : UInt32) (blockSize logical : Nat) :
    DevIo (Option Nat) :=
  if flags &&& inodeFlagExtents != 0 then Extent.mapLogical iBlock blockSize logical
  else lookup iBlock blockSize logical

end FsExt4.Indirect
