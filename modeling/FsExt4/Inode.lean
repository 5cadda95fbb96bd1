import FsExt4.Error

namespace FsExt4

open Lib

def inodeBaseSize : Nat := 128
def inodeExtraOffset : Nat := 128

def inodeFlagExtents : UInt32 := 0x00080000

/-- The fields of an inode that the block maps, the journal and the namespace read. -/
structure Inode where
  mode : UInt16
  size : Nat
  linksCount : UInt16
  blocks : Nat
  flags : UInt32
  /-- The 60-byte `i_block` area. -/
  block : Bytes
  generation : UInt32
  fileAcl : Nat
  deriving DecidableEq

def join32 (hi lo : Nat) : Nat := hi * 2 ^ 32 + lo

def Inode.parse (raw : Bytes) : Result Inode := do
  if raw.length < inodeBaseSize then
    throw (.corrupt "inode buffer too small")
  if inodeExtraOffset + 4 ≤ raw.length ∧
      raw.length < inodeExtraOffset + (u16leAt raw 0x80).toNat then
    throw (.corrupt "i_extra_isize exceeds inode size")
  return {
    mode := u16leAt raw 0x00
    size := join32 (u32leAt raw 0x6C).toNat (u32leAt raw 0x04).toNat
    linksCount := u16leAt raw 0x1A
    blocks := join32 (u16leAt raw 0x74).toNat (u32leAt raw 0x1C).toNat
    flags := u32leAt raw 0x20
    block := slice raw 0x28 60
    generation := u32leAt raw 0x64
    fileAcl := join32 (u16leAt raw 0x76).toNat (u32leAt raw 0x68).toNat }

def Inode.isFile (inode : Inode) : Bool := inode.mode &&& 0xF000 == 0x8000

def Inode.hasExtents (inode : Inode) : Bool := inode.flags &&& inodeFlagExtents != 0

end FsExt4
