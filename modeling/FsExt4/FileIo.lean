import FsExt4.InlineData
import FsExt4.Path
import FsExt4.IndirectLookup
import FsExt4.WritePaths

namespace FsExt4

open Lib Jbd2

/-- What an extent node's checksum is computed with, and whether there is one to check. -/
structure ExtentVerifyCtx where
  ino : UInt32
  generation : UInt32
  csum : Checksummer

/-- `lookup_verified` fails on a node that this refuses. -/
def ExtentVerifyCtx.accepts (crc : Crc) (ctx : ExtentVerifyCtx) (node : Bytes) : Bool :=
  !ctx.csum.enabled || ctx.csum.verifyExtentTail crc ctx.ino ctx.generation node

namespace InlineData

def readAll (inode : Inode) (inodeRaw : Bytes) (inodeSize blockSize : Nat) : DevIo Bytes := do
  let total := inode.size
  let fromBlock := inode.block.take (min total inlineBlockSize)
  if total ≤ inlineBlockSize then return fromBlock
  let need := total - inlineBlockSize
  match ← Xattr.get inode inodeRaw inodeSize blockSize Xattr.systemData with
  | none => .fail (.corrupt "inline file larger than 60 bytes has no system.data xattr")
  | some extra =>
    if extra.length < need then
      .fail (.corrupt "inline file's system.data xattr is shorter than its size claims")
    else return fromBlock ++ extra.take need

def readRange (inode : Inode) (inodeRaw : Bytes) (inodeSize blockSize offset : Nat) (dst : Bytes) :
    DevIo (Nat × Bytes) := do
  let total := inode.size
  if total ≤ offset then return (0, dst)
  let full ← readAll inode inodeRaw inodeSize blockSize
  let want := min (total - offset) dst.length
  let avail := full.length - offset
  let n := min want avail
  return (n, copyAt dst 0 (slice full offset n))

end InlineData

namespace FileIo

def refuseEncrypted (inode : Inode) : Result Unit :=
  if inode.flags &&& inodeFlagEncrypt ≠ 0 ∧ !inode.isDir then
    .error (.unsupported "the file is encrypted (EXT4_ENCRYPT_FL) and this driver holds no key")
  else .ok ()

/-- What the loop keeps from one block to the next. -/
structure Caches where
  cachedExtent : Option Extent
  indirectCache : Indirect.IndirectCache

section Read

variable (fs : Filesystem) (d : Disk) (inode : Inode) (lookupExtent : Nat → DevIo (Option Extent))

def readPart (physicalBlock offInBlock copyLen : Nat) (overflow : Error) : Result Bytes :=
  if 2 ^ 64 ≤ physicalBlock * fs.sb.blockSize + offInBlock then .error overflow
  else ((readAt (physicalBlock * fs.sb.blockSize + offInBlock) copyLen).exec d).1

/-- The extent of a logical block: the one of the block before, when it covers this one too. -/
def extentOf (cachedExtent : Option Extent) (logicalBlock : Nat) : Result (Option Extent) :=
  match cachedExtent with
  | some e => if e.contains logicalBlock
      then .ok (some e) else ((lookupExtent logicalBlock).exec d).1
  | none => ((lookupExtent logicalBlock).exec d).1

def fill (physOpt : Option Nat) (offInBlock copyLen : Nat) (overflow : Error) : Result Bytes :=
  match physOpt with
  | none => .ok (List.replicate copyLen 0)
  | some physicalBlock => readPart fs d physicalBlock offInBlock copyLen overflow

def physicalOf (extOpt : Option Extent) (logicalBlock : Nat) : Option Nat :=
  match extOpt with
  | none => none
  | some ext => if ext.uninitialized then none else some (ext.map logicalBlock)

/-- What one turn of the loop puts into the buffer, and the caches after it. -/
def readBlock (c : Caches) (logicalBlock offInBlock copyLen : Nat) : Result (Bytes × Caches) :=
  if inode.hasExtents then do
    let extOpt ← extentOf d lookupExtent c.cachedExtent logicalBlock
    let bytes ← fill fs d (physicalOf extOpt logicalBlock) offInBlock copyLen
      (.corruptExtentTree "physical block offset overflow")
    return (bytes, { c with cachedExtent := extOpt })
  else
    match Indirect.lookupCached inode.block d fs.sb.blockSize logicalBlock c.indirectCache with
    | (.error e, _) => .error e
    | (.ok physOpt, indirectCache) => do
      let bytes ← fill fs d physOpt offInBlock copyLen
        (.corrupt "indirect: physical block offset overflow")
      return (bytes, { c with indirectCache := indirectCache })

/-- The loop from `curOffset`; it takes a byte at least in each turn, so as many turns as bytes are
enough. -/
def readLoop (endOffset : Nat) : Nat → Nat → Nat → Caches → Bytes → Result (Nat × Bytes)
  | 0, _, written, _, out => .ok (written, out)
  | turns + 1, curOffset, written, c, out =>
    if curOffset < endOffset then do
      let offInBlock := curOffset % fs.sb.blockSize
      let copyLen := min (fs.sb.blockSize - offInBlock) (endOffset - curOffset)
      let (bytes, c) ← readBlock fs d inode lookupExtent c (curOffset / fs.sb.blockSize)
        offInBlock copyLen
      readLoop endOffset turns (curOffset + copyLen) (written + copyLen) c
        (copyAt out written bytes)
    else .ok (written, out)

def readBy (offset length : Nat) (out : Bytes) : Result (Nat × Bytes) := do
  let _ ← refuseEncrypted inode
  if length = 0 ∨ out.isEmpty then return (0, out)
  else if inode.hasInlineData then
    throw (.corrupt "inline-data file: caller must use file_io::read_inline with raw inode bytes")
  else if inode.size ≤ offset then return (0, out)
  else
    let maxRead := min (min (inode.size - offset) length) out.length
    if maxRead = 0 then return (0, out)
    else readLoop fs d inode lookupExtent (offset + maxRead) maxRead offset 0 ⟨none, .new⟩ out

def read (offset length : Nat) (out : Bytes) : Result (Nat × Bytes) :=
  readBy fs d inode (Extent.lookup inode.block fs.sb.blockSize) offset length out

def readVerified (crc : Crc) (csum : Checksummer) (ino : UInt32) (offset length : Nat)
    (out : Bytes) :
    Result (Nat × Bytes) :=
  let ctx : ExtentVerifyCtx := ⟨ino, inode.generation, csum⟩
  readBy fs d inode (Extent.lookupVerified (ctx.accepts crc) inode.block fs.sb.blockSize)
    offset length out

def readWithRaw (inodeRaw : Bytes) (offset length : Nat) (out : Bytes) : Result (Nat × Bytes) := do
  let _ ← refuseEncrypted inode
  if inode.hasInlineData then
    ((InlineData.readRange inode inodeRaw fs.sb.inodeSize fs.sb.blockSize offset out).exec d).1
  else read fs d inode offset length out

def readWithRawVerified (crc : Crc) (csum : Checksummer) (inodeRaw : Bytes) (ino : UInt32)
    (offset length : Nat) (out : Bytes) : Result (Nat × Bytes) := do
  let _ ← refuseEncrypted inode
  if inode.hasInlineData then
    ((InlineData.readRange inode inodeRaw fs.sb.inodeSize fs.sb.blockSize offset out).exec d).1
  else readVerified fs d inode crc csum ino offset length out

end Read

end FileIo

end FsExt4
