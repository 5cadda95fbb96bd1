import FsExt4.Journal

namespace FsExt4.JournalApply

open Lib Jbd2 Journal

/-- Set or clear `needs_recovery` in a 1024-byte superblock image, redoing its checksum. -/
def setNeedsRecoveryIn (crc : Crc) (sb : Bytes) (on : Bool) : Bytes :=
  let incompat := u32leAt sb 0x60
  let incompat := if on then incompat ||| incompatRecover else incompat &&& ~~~incompatRecover
  let sb := copyAt sb 0x60 (u32le incompat)
  if u32leAt sb 0x64 &&& roCompatMetadataCsum != 0 then
    copyAt sb 0x3FC (u32le (crc 0xFFFFFFFF (slice sb 0 0x3FC)))
  else sb

def writeNeedsRecovery (crc : Crc) (on : Bool) : DevIo Unit := do
  let sb ← readAt superblockOffset 1024
  writeAt superblockOffset (setNeedsRecoveryIn crc sb on)

def byteOffsetIn (block blocksCount blockSize deviceBytes : Nat) : Result Nat :=
  if blocksCount ≤ block then
    .error (.corrupt "journal: names a block past the end of the filesystem")
  else if 2 ^ 64 ≤ block * blockSize then .error (.corrupt "journal: block offset overflows")
  else if 2 ^ 64 ≤ block * blockSize + blockSize then
    .error (.corrupt "journal: block offset overflows")
  else if deviceBytes < block * blockSize + blockSize then
    .error (.corrupt "journal: names a block past the end of the device")
  else .ok (block * blockSize)

def byteOffsetOf (fs : Filesystem) (block : Nat) : Result Nat :=
  byteOffsetIn block fs.sb.blocksCount fs.sb.blockSize fs.sizeBytes

/-- The journal superblock of a finished replay: `s_start` 0 and the given sequence. -/
def cleanJsb (crc : Crc) (jsb : JournalSuperblock) (sequence : UInt32) (buf : Bytes) : Bytes :=
  let buf := copyAt buf 0x18 (u32be sequence)
  let buf := copyAt buf 0x1C (u32be 0)
  if jsb.usesCsumV2OrV3 then
    let buf := copyAt buf 0xFC [0, 0, 0, 0]
    copyAt buf 0xFC (u32be (crc 0xFFFFFFFF buf))
  else buf

def markJournalClean (crc : Crc) (fs : Filesystem) (jsb : JournalSuperblock) (plan : ReplayPlan) :
    DevIo Unit := do
  let jinode ← fs.journalInode
  match ← fs.journalBlockToPhysical jinode 0 with
  | none => .fail (.corrupt "journal_apply: journal superblock unmapped")
  | some phys =>
    let off ← liftM (byteOffsetOf fs phys)
    let buf ← readAt off 1024
    if u32beAt buf 0 ≠ magicNumber then
      .fail (.corrupt "journal_apply: journal superblock lost its magic during replay")
    else
      writeAt off (cleanJsb crc jsb (plan.nextSequence.getD jsb.sequence + 1) buf)
      flush

/-- One entry's journal source and filesystem destination, as device byte offsets. -/
def resolveEntry (fs : Filesystem) (jinode : Inode) (w : ReplayEntry) : DevIo (Nat × Nat) := do
  match ← fs.journalBlockToPhysical jinode w.journalBlock with
  | none => .fail (.corrupt "journal_apply: journal block unmapped")
  | some phys =>
    let source ← liftM (byteOffsetOf fs phys)
    let destination ← liftM (byteOffsetOf fs w.fsBlock.toNat)
    return (source, destination)

def resolveEntries (fs : Filesystem) (jinode : Inode) : List ReplayEntry → DevIo (List (Nat × Nat))
  | [] => pure []
  | w :: rest => do
    let r ← resolveEntry fs jinode w
    let rs ← resolveEntries fs jinode rest
    return r :: rs

def resolve (fs : Filesystem) (plan : ReplayPlan) : DevIo (List (Nat × Nat)) := do
  let jinode ← fs.journalInode
  resolveEntries fs jinode plan.writes

def unescape (w : ReplayEntry) (buf : Bytes) : Bytes :=
  if hasFlag w.flags tagEscaped then copyAt buf 0 (u32be magicNumber) else buf

def applyEntries (blockSize : Nat) : List (ReplayEntry × Nat × Nat) → DevIo Unit
  | [] => pure ()
  | (w, source, destination) :: rest => do
    let buf ← readAt source blockSize
    writeAt destination (unescape w buf)
    applyEntries blockSize rest

def apply (fs : Filesystem) (plan : ReplayPlan) : DevIo Nat := do
  if plan.writes.isEmpty then return 0
  if !fs.isWritable then
    .fail (.corrupt "journal_apply: device is not writable; cannot replay")
  else
    let resolved ← resolve fs plan
    applyEntries fs.sb.blockSize (plan.writes.zip resolved)
    flush
    return plan.writes.length

/-- The replayed blocks with their numbers, every source read before any is pinned. -/
def readSources (blockSize : Nat) : List (ReplayEntry × Nat × Nat) → DevIo (List (Nat × Bytes))
  | [] => pure []
  | (w, source, _) :: rest => do
    let buf ← readAt source blockSize
    let blocks ← readSources blockSize rest
    return (w.fsBlock.toNat, unescape w buf) :: blocks

def populateAll : List (Nat × Bytes) → DevIo Unit
  | [] => pure ()
  | (block, bytes) :: rest => do
    populateCache block bytes
    populateAll rest

def replayIntoCache (crc : Crc) (fs : Filesystem) : DevIo Nat := do
  match ← fs.readSuperblock with
  | none => return 0
  | some jsb =>
    if jsb.isClean then return 0
    let plan ← walk crc fs jsb
    if plan.writes.isEmpty then return 0
    let resolved ← resolve fs plan
    let blocks ← readSources fs.sb.blockSize (plan.writes.zip resolved)
    populateAll blocks
    return blocks.length

def replayIfDirty (crc : Crc) (fs : Filesystem) : DevIo Nat := do
  if !fs.isWritable then return 0
  match ← fs.readSuperblock with
  | none => return 0
  | some jsb =>
    if jsb.isClean then
      if fs.sb.featureIncompat &&& incompatRecover ≠ 0 then
        writeNeedsRecovery crc false
        flush
      return 0
    else if writeBreakingIncompat fs.sb.featureIncompat ≠ 0 then
      .fail (.unsupportedIncompat (writeBreakingIncompat fs.sb.featureIncompat))
    else
      let plan ← walk crc fs jsb
      let applied ← apply fs plan
      markJournalClean crc fs jsb plan
      writeNeedsRecovery crc false
      flush
      return applied

end FsExt4.JournalApply
