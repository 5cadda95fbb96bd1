import FsExt4.JournalApply

namespace FsExt4

open Lib Jbd2 JournalApply

structure JournalWriter where
  healthy : Bool
  holdNeedsRecovery : Bool
  physicalMap : List Nat
  blockSize : Nat
  jsb : JournalSuperblock
  blocksCount : Nat
  deriving DecidableEq

namespace JournalWriter

def journalLenFits (maxLen inodeSize blockSize deviceBytes : Nat) : Result Unit :=
  if inodeSize / max blockSize 1 < maxLen then
    .error (.corrupt "journal declares more blocks than its inode holds")
  else if deviceBytes / max blockSize 1 < maxLen then
    .error (.corrupt "journal declares more blocks than the device holds")
  else .ok ()

/-- Past the superblock, group 0's descriptor table and its reserved growth. -/
def group0MetadataEnd (sb : Superblock) : Nat :=
  sb.firstDataBlock.toNat + 1 + divCeil (sb.blockGroupCount * sb.descSize) sb.blockSize +
    sb.reservedGdtBlocks

def mapJournal (fs : Filesystem) (jinode : Inode) : List Nat → DevIo (List Nat)
  | [] => pure []
  | logical :: rest => do
    match ← fs.journalBlockToPhysical jinode logical with
    | none => .fail (.corrupt "journal_writer: journal inode has unmapped logical block")
    | some phys =>
      if phys < group0MetadataEnd fs.sb ∨ fs.sb.blocksCount ≤ phys then
        .fail (.corrupt ("journal_writer: journal inode maps a block onto the superblock, " ++
          "group 0's descriptor table, or past the end of the filesystem"))
      else
        let physicalMap ← mapJournal fs jinode rest
        return phys :: physicalMap

def openWriter (fs : Filesystem) : DevIo (Option JournalWriter) := do
  match ← fs.readSuperblock with
  | none => return none
  | some jsb =>
    let jinode ← fs.journalInode
    if fs.sb.blocksCount < jsb.maxLen.toNat then
      .fail (.corrupt "journal declares more blocks than the filesystem holds")
    else
      liftM (journalLenFits jsb.maxLen.toNat jinode.size fs.sb.blockSize fs.sizeBytes)
      let physicalMap ← mapJournal fs jinode (List.range jsb.maxLen.toNat)
      return some {
        healthy := true
        holdNeedsRecovery := false
        physicalMap
        blockSize := fs.sb.blockSize
        jsb
        blocksCount := fs.sb.blocksCount }

def begin (self : JournalWriter) : Transaction :=
  Transaction.begin self.jsb.sequence (UInt32.ofNat self.blockSize) self.jsb.uses64bit
    self.jsb.usesCsumV3

def maxBlocksPerTransaction (self : JournalWriter) : Nat := self.jsb.maxLen.toNat - 1

def sbBlock (self : JournalWriter) : Nat := superblockOffset / self.blockSize

def sbOffsetInBlock (self : JournalWriter) : Nat := superblockOffset % self.blockSize

/-- The journal superblock block with the writer's sequence and start in it. -/
def patchJsb (crc : Crc) (self : JournalWriter) (buf : Bytes) : Bytes :=
  let buf := copyAt buf 0x08 (u32be self.jsb.sequence)
  let buf := copyAt buf 0x18 (u32be self.jsb.sequence)
  let buf := copyAt buf 0x1C (u32be self.jsb.start)
  if self.jsb.usesCsumV2OrV3 then
    let buf := copyAt buf 0xFC (u32be 0)
    copyAt buf 0xFC (u32be (crc 0xFFFFFFFF (slice buf 0 1024)))
  else buf

def writeJsb (crc : Crc) (self : JournalWriter) : DevIo Unit := do
  let off := self.physicalMap.getD 0 0 * self.blockSize
  let buf ← readAt off self.blockSize
  if u32beAt buf 0x00 ≠ magicNumber then
    .fail (.corrupt "journal_writer: jsb block lost its magic between mount and commit")
  else if u32beAt buf 0x04 ≠ self.jsb.blockType then
    .fail (.corrupt "journal_writer: jsb block_type changed since mount")
  else writeAt off (self.patchJsb crc buf)

def writeBlockAt (self : JournalWriter) (sizeBytes phys : Nat) (bytes : Bytes) : DevIo Unit := do
  let off ← liftM (byteOffsetIn phys self.blocksCount self.blockSize sizeBytes)
  writeAt off bytes

def writeLog (self : JournalWriter) (sizeBytes : Nat) : List Bytes → Nat → DevIo Unit
  | [], _ => pure ()
  | block :: rest, jblock => do
    self.writeBlockAt sizeBytes (self.physicalMap.getD jblock 0) block
    writeLog self sizeBytes rest (jblock + 1)

def writeFinal (self : JournalWriter) (sizeBytes : Nat) : List JournaledBlock → DevIo Unit
  | [] => pure ()
  | w :: rest => do
    self.writeBlockAt sizeBytes w.fsBlock.toNat w.bytes
    writeFinal self sizeBytes rest

/-- The image of block `sbBlock` with `needs_recovery` set in the superblock it holds. -/
def keepNeedsRecovery (crc : Crc) (self : JournalWriter) (w : JournaledBlock) : JournaledBlock :=
  if w.fsBlock.toNat = self.sbBlock then
    let sb := setNeedsRecoveryIn crc (slice w.bytes self.sbOffsetInBlock 1024) true
    ⟨w.fsBlock, copyAt w.bytes self.sbOffsetInBlock sb⟩
  else w

/-- The superblock block, if journaled, keeps `needs_recovery` set until step 4 clears it. -/
def patchSuperblock (crc : Crc) (self : JournalWriter) (tx : Transaction) : Transaction :=
  { tx with writes := tx.writes.map (self.keepNeedsRecovery crc) }

/-- The refusals `commit_inner` makes before it writes anything, else the blocks to log. -/
def prepare (crc : Crc) (self : JournalWriter) (isWritable : Bool) (tx : Transaction) :
    Result (Transaction × List Bytes) :=
  if !isWritable then .error .readOnly
  else if tx.sequence ≠ self.jsb.sequence then
    .error (.corrupt "journal_writer: transaction sequence does not match writer state")
  else if tx.blockSize.toNat ≠ self.blockSize then
    .error (.invalidArgument "journal_writer: transaction block size does not match the volume")
  else if tx.writes.any (fun w => w.bytes.length ≠ self.blockSize) then
    .error (.invalidArgument "journal_writer: a journaled write is not exactly one block")
  else
    let tx := self.patchSuperblock crc tx
    match tx.commitFor crc self.jsb with
    | .error e => .error e
    | .ok blocks =>
      if self.maxBlocksPerTransaction < blocks.length then
        .error (.corrupt "journal_writer: transaction too large for journal")
      else .ok (tx, blocks)

def dirty (self : JournalWriter) : JournalWriter :=
    { self with jsb := { self.jsb with start := 1 } }

def clean (self : JournalWriter) : JournalWriter :=
  { self with jsb := { self.jsb with start := 0, sequence := self.jsb.sequence + 1 } }

/-- Step 1: the transaction into the log, `needs_recovery` on, flushed. -/
def logStep (crc : Crc) (self : JournalWriter) (sizeBytes : Nat) (blocks : List Bytes) :
    DevIo Unit := do
  self.writeLog sizeBytes blocks 1
  writeNeedsRecovery crc true
  flush

def dirtyStep (crc : Crc) (self : JournalWriter) : DevIo Unit := do
  self.dirty.writeJsb crc
  flush

def finalStep (self : JournalWriter) (sizeBytes : Nat) (tx : Transaction) : DevIo Unit := do
  self.writeFinal sizeBytes tx.writes
  flush

/-- Step 4: the journal marked clean with the next sequence, `needs_recovery` off. -/
def cleanStep (crc : Crc) (self : JournalWriter) : DevIo Unit := do
  self.clean.writeJsb crc
  if self.holdNeedsRecovery then pure () else writeNeedsRecovery crc false
  flush

/-- The four fenced steps in order, each with the writer's state while it runs. -/
def steps (crc : Crc) (self : JournalWriter) (sizeBytes : Nat) (tx : Transaction)
    (blocks : List Bytes) : List (JournalWriter × DevIo Unit) :=
  [(self, self.logStep crc sizeBytes blocks), (self.dirty, self.dirtyStep crc),
    (self.dirty, self.finalStep sizeBytes tx), (self.clean, self.cleanStep crc)]

/-- Run the steps; a step that fails leaves the writer unusable, in the state it was in. -/
def publish : List (JournalWriter × DevIo Unit) → JournalWriter →
    DevIo (Result Unit × JournalWriter)
  | [], w => return (.ok (), { w with healthy := true })
  | (w, step) :: rest, _ => do
    match ← step.attempt with
    | .error e => return (.error e, { w with healthy := false })
    | .ok () => publish rest w

def commit (crc : Crc) (self : JournalWriter) (sizeBytes : Nat) (isWritable : Bool)
    (tx : Transaction) : DevIo (Result Unit × JournalWriter) := do
  if !self.healthy then
    return (.error (.corrupt "journal writer failed; reopen for recovery"), self)
  match self.prepare crc isWritable tx with
  | .error e => return (.error e, self)
  | .ok (tx, blocks) =>
    if blocks.isEmpty then return (.ok (), self)
    publish (self.steps crc sizeBytes tx blocks) self

end JournalWriter

end FsExt4
