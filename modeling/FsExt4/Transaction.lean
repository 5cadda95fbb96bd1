import FsExt4.Jbd2
import FsExt4.Lib.Chunks

namespace FsExt4

open Lib Jbd2

def tagEscaped : UInt32 := 0x1
def tagSameUuid : UInt32 := 0x2
def tagLast : UInt32 := 0x8

structure JournaledBlock where
  fsBlock : UInt64
  bytes : Bytes
  deriving DecidableEq

/-- How a journal lays out and checksums its transaction blocks. -/
structure Layout where
  tagBytes : Nat
  uses64bit : Bool
  tailBytes : Nat
  seed : Option UInt32
  csumV3 : Bool

structure Transaction where
  sequence : UInt32
  blockSize : UInt32
  uses64bit : Bool
  usesCsumV3 : Bool
  writes : List JournaledBlock
  revokes : List UInt64
  deriving DecidableEq

def needsEscape (bytes : Bytes) : Bool := slice bytes 0 4 == u32be magicNumber

/-- The copy that goes into the log: the magic, if it is there, zeroed. -/
def loggedCopy (bytes : Bytes) : Bytes :=
  if needsEscape bytes then copyAt bytes 0 [0, 0, 0, 0] else bytes

namespace Transaction

def begin (sequence blockSize : UInt32) (uses64bit usesCsumV3 : Bool) : Transaction :=
  ⟨sequence, blockSize, uses64bit, usesCsumV3, [], []⟩

def addWrite (tx : Transaction) (fsBlock : UInt64) (bytes : Bytes) : Result Transaction :=
  if bytes.length ≠ tx.blockSize.toNat then
    .error (.corrupt "add_write: bytes size != block_size")
  else .ok { tx with writes := tx.writes ++ [⟨fsBlock, bytes⟩] }

def addRevoke (tx : Transaction) (fsBlock : UInt64) : Transaction :=
  { tx with revokes := tx.revokes ++ [fsBlock] }

def tagsPerDescriptor (tx : Transaction) (layout : Layout) : Nat :=
  max ((tx.blockSize.toNat - 12 - layout.tailBytes) / layout.tagBytes) 1

def recordSize (uses64bit : Bool) : Nat := if uses64bit then 8 else 4

def revokesPerBlock (tx : Transaction) (layout : Layout) : Nat :=
  max ((tx.blockSize.toNat - 16 - layout.tailBytes) / recordSize layout.uses64bit) 1

def writeHeader (tx : Transaction) (blk : Bytes) (blockType : UInt32) : Bytes :=
  copyAt (copyAt (copyAt blk 0 (u32be magicNumber)) 4 (u32be blockType)) 8 (u32be tx.sequence)

def sealTail (crc : Crc) (layout : Layout) (blk : Bytes) : Bytes :=
  match layout.seed with
  | some seed => copyAt blk (blk.length - blockTailBytes) (u32be (blockTailChecksum crc seed blk))
  | none => blk

def blocknrLo (fsBlock : UInt64) : UInt32 := (fsBlock &&& 0xFFFFFFFF).toUInt32
def blocknrHi (fsBlock : UInt64) : UInt32 := (fsBlock >>> 32).toUInt32

def tagFlags (last : Bool) (bytes : Bytes) : UInt32 :=
  (if last then tagLast else 0) ||| tagSameUuid ||| (if needsEscape bytes then tagEscaped else 0)

def putTag (crc : Crc) (tx : Transaction) (layout : Layout) (last : Bool) (w : JournaledBlock)
    (blk : Bytes) (pos : Nat) : Bytes :=
  let flags := tagFlags last w.bytes
  let checksum := layout.seed.map (fun seed => tagChecksum crc seed tx.sequence
    (loggedCopy w.bytes))
  let blk := copyAt blk pos (u32be (blocknrLo w.fsBlock))
  if layout.csumV3 then
    let blk := copyAt blk (pos + 4) (u32be flags)
    let blk := if layout.uses64bit then copyAt blk (pos + 8) (u32be (blocknrHi w.fsBlock)) else blk
    match checksum with
    | some c => copyAt blk (pos + 12) (u32be c)
    | none => blk
  else
    let c16 : UInt16 := (checksum.map UInt32.toUInt16).getD 0
    let blk := copyAt blk (pos + 4) (u16be c16)
    let blk := copyAt blk (pos + 6) (u16be flags.toUInt16)
    if layout.uses64bit then copyAt blk (pos + 8) (u32be (blocknrHi w.fsBlock)) else blk

def putTags (crc : Crc) (tx : Transaction) (layout : Layout) :
    List JournaledBlock → Bytes → Nat → Result Bytes
  | [], blk, _ => .ok blk
  | w :: rest, blk, pos =>
    if blk.length - layout.tailBytes < pos + layout.tagBytes then
      .error (.corrupt "descriptor block overflow (too many tags)")
    else
      putTags crc tx layout rest (putTag crc tx layout rest.isEmpty w blk pos)
        (pos + layout.tagBytes)

def zeroBlock (tx : Transaction) : Bytes := List.replicate tx.blockSize.toNat 0

def buildDescriptorBlock (crc : Crc) (tx : Transaction) (layout : Layout)
    (writes : List JournaledBlock) : Result Bytes := do
  let blk ← putTags crc tx layout writes (tx.writeHeader tx.zeroBlock descriptorBlock) 12
  return sealTail crc layout blk

def putRevokes (layout : Layout) : List UInt64 → Bytes → Nat → Bytes
  | [], blk, _ => blk
  | b :: rest, blk, pos =>
    let blk := if layout.uses64bit then copyAt blk pos (u64be b)
      else copyAt blk pos (u32be b.toUInt32)
    putRevokes layout rest blk (pos + recordSize layout.uses64bit)

def buildRevokeBlock (crc : Crc) (tx : Transaction) (layout : Layout) (revokes : List UInt64) :
    Result Bytes :=
  let blk := tx.writeHeader tx.zeroBlock revokeBlock
  let totalBytes := 16 + revokes.length * recordSize layout.uses64bit
  if blk.length - layout.tailBytes < totalBytes then .error (.corrupt "revoke block overflow")
  else
    let blk := copyAt blk 12 (u32be (UInt32.ofNat totalBytes))
    .ok (sealTail crc layout (putRevokes layout revokes blk 16))

def buildCommitBlock (crc : Crc) (tx : Transaction) (layout : Layout) : Bytes :=
  let blk := tx.writeHeader tx.zeroBlock commitBlock
  match layout.seed with
  | some seed => copyAt blk commitChecksumAt (u32be (commitBlockChecksum crc seed blk))
  | none => blk

def descriptorGroup (crc : Crc) (tx : Transaction) (layout : Layout)
    (chunk : List JournaledBlock) : Result (List Bytes) := do
  let d ← buildDescriptorBlock crc tx layout chunk
  return d :: chunk.map (fun w => loggedCopy w.bytes)

def serialize (crc : Crc) (tx : Transaction) (layout : Layout) : Result (List Bytes) := do
  let groups ← (chunks (tx.tagsPerDescriptor layout) tx.writes).mapM (descriptorGroup crc tx layout)
  let revokes ← (chunks (tx.revokesPerBlock layout) tx.revokes).mapM
    (buildRevokeBlock crc tx layout)
  return groups.flatten ++ revokes ++ [buildCommitBlock crc tx layout]

/-- The layout `commit_for` serialises `jsb`'s journal with. -/
def layoutFor (crc : Crc) (jsb : JournalSuperblock) : Layout where
  tagBytes := jsb.tagBytes
  uses64bit := jsb.uses64bit
  tailBytes := jsb.tailBytes
  seed := jsb.seed crc
  csumV3 := jsb.usesCsumV3

/-- Serialise for `jsb`'s journal, refusing one this driver does not write and a transaction
begun for another layout. -/
def commitFor (crc : Crc) (tx : Transaction) (jsb : JournalSuperblock) : Result (List Bytes) :=
  if jsb.unsupportedIncompat ≠ 0 then
    .error (.unsupported "journal declares an incompat feature this driver does not write")
  else match jsb.checksumDeclarationError with
  | some why => .error (.corrupt why)
  | none =>
    if tx.blockSize ≠ jsb.blockSize ∨ tx.uses64bit ≠ jsb.uses64bit ∨
        tx.usesCsumV3 ≠ jsb.usesCsumV3 then
      .error (.invalidArgument "transaction was begun for a different journal layout")
    else tx.serialize crc (layoutFor crc jsb)

end Transaction

end FsExt4
