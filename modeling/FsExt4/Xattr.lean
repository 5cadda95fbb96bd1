import FsExt4.Inode

namespace FsExt4.Xattr

open Lib

def xattrMagic : UInt32 := 0xEA020000

/-- The namespace prefixes by `e_name_index`, as the bytes of their text. -/
def namePrefixes : List (Nat × Bytes) := [
  -- "user."
  (1, [0x75, 0x73, 0x65, 0x72, 0x2E]),
  -- "system.posix_acl_access"
  (2, [0x73, 0x79, 0x73, 0x74, 0x65, 0x6D, 0x2E, 0x70, 0x6F, 0x73, 0x69, 0x78, 0x5F,
  0x61, 0x63, 0x6C, 0x5F, 0x61, 0x63, 0x63, 0x65, 0x73, 0x73]),
  -- "system.posix_acl_default"
  (3, [0x73, 0x79, 0x73, 0x74, 0x65, 0x6D, 0x2E, 0x70, 0x6F, 0x73, 0x69, 0x78, 0x5F,
  0x61, 0x63, 0x6C, 0x5F, 0x64, 0x65, 0x66, 0x61, 0x75, 0x6C, 0x74]),
  -- "trusted."
  (4, [0x74, 0x72, 0x75, 0x73, 0x74, 0x65, 0x64, 0x2E]),
  -- "lustre."
  (5, [0x6C, 0x75, 0x73, 0x74, 0x72, 0x65, 0x2E]),
  -- "security."
  (6, [0x73, 0x65, 0x63, 0x75, 0x72, 0x69, 0x74, 0x79, 0x2E]),
  -- "system."
  (7, [0x73, 0x79, 0x73, 0x74, 0x65, 0x6D, 0x2E]),
  -- "system.richacl"
  (8, [0x73, 0x79, 0x73, 0x74, 0x65, 0x6D, 0x2E, 0x72, 0x69, 0x63, 0x68, 0x61, 0x63, 0x6C])]

def prefixForIndex (idx : UInt8) : Option Bytes :=
  (namePrefixes.find? (fun p => p.1 == idx.toNat)).map Prod.snd

def systemData : Bytes := [0x73, 0x79, 0x73, 0x74, 0x65, 0x6D, 0x2E, 0x64, 0x61, 0x74, 0x61]

structure XattrEntry where
  name : Bytes
  value : Bytes
  valueInum : UInt32
  valueSize : UInt32
  deriving DecidableEq

def isUtf8 (b : Bytes) : Bool := (ByteArray.mk b.toArray).validateUTF8

/-- The value of the entry at `pos`: in the region unless another inode holds it. -/
def valueAt (buf : Bytes) (outOfRange : String) (pos : Nat) : Result Bytes :=
  let valueOffs := (u16leAt buf (pos + 2)).toNat
  let valueSize := (u32leAt buf (pos + 8)).toNat
  if u32leAt buf (pos + 4) ≠ 0 ∨ valueSize = 0 then .ok []
  else if buf.length < valueOffs + valueSize then .error (.corrupt outOfRange)
  else .ok (slice buf valueOffs valueSize)

/-- The entries from `pos` to the zero word that ends them or the end of `buf`; value offsets count
from the start of `buf`. Every entry takes at least 16 bytes. -/
def entriesFrom (buf : Bytes) (nameOverruns outOfRange : String) : Nat → Nat →
    Result (List XattrEntry)
  | 0, _ => .ok []
  | fuel + 1, pos => do
    if buf.length < pos + 16 ∨ u32leAt buf pos = 0 then return []
    let nameLen := (buf.getD pos 0).toNat
    if buf.length < pos + 16 + nameLen then throw (.corrupt nameOverruns)
    let nameBytes := slice buf (pos + 16) nameLen
    if !isUtf8 nameBytes then throw (.corrupt "xattr name not utf-8")
    let value ← valueAt buf outOfRange pos
    let rest ← entriesFrom buf nameOverruns outOfRange fuel (pos + (16 + nameLen + 3) / 4 * 4)
    return {
      name := (prefixForIndex (buf.getD (pos + 1) 0)).getD [] ++ nameBytes
      value := value
      valueInum := u32leAt buf (pos + 4)
      valueSize := u32leAt buf (pos + 8) } :: rest

def parseEntries (entriesBuf : Bytes) : Result (List XattrEntry) :=
  entriesFrom entriesBuf "xattr entry name overruns region" "xattr value out of range"
    entriesBuf.length 0

def parseEntriesBlock (block : Bytes) : Result (List XattrEntry) :=
  if block.length < 32 then .error (.corrupt "xattr block too small")
  else
    entriesFrom block "xattr entry name overruns block" "xattr block value out of range"
      block.length 32

def inInode (inodeRaw : Bytes) (inodeSize : Nat) : Result (List XattrEntry) :=
  let extraIsize := (u16leAt inodeRaw 128).toNat
  let start := 128 + extraIsize
  if inodeRaw.length < 128 + 4 ∨ extraIsize = 0 ∨ inodeSize < start + 4 ∨ inodeRaw.length <
    start + 4 then
    .ok []
  else
    let region := slice inodeRaw start (min inodeSize inodeRaw.length - start)
    if u32leAt region 0 = xattrMagic then parseEntries (region.drop 4) else .ok []

def readAll (inode : Inode) (inodeRaw : Bytes) (inodeSize blockSize : Nat) :
    DevIo (List XattrEntry) := do
  let inner ← liftM (inInode inodeRaw inodeSize)
  if inode.fileAcl = 0 then return inner
  let buf ← readAt (inode.fileAcl * blockSize) blockSize
  if u32leAt buf 0 ≠ xattrMagic then .fail (.corrupt "xattr block magic mismatch")
  else
    let outer ← liftM (parseEntriesBlock buf)
    return inner ++ outer

def get (inode : Inode) (inodeRaw : Bytes) (inodeSize blockSize : Nat) (name : Bytes) :
    DevIo (Option Bytes) := do
  let all ← readAll inode inodeRaw inodeSize blockSize
  return (all.find? (fun e => e.name == name)).map XattrEntry.value

end FsExt4.Xattr
