import FsExt4.Alloc
import FsExt4.JournalWriter
import FsExt4.Lib.SortedMap

namespace FsExt4

open Lib Jbd2 Alloc

/-- The blocks an open transaction has staged, and the descriptor flags left by the uninit flags it
clears. -/
structure BlockBuffer where
  dirty : SortedMap Bytes
  uninitCleared : SortedMap UInt16

namespace BlockBuffer

def new : BlockBuffer := ⟨SortedMap.empty, SortedMap.empty⟩

def put (buf : BlockBuffer) (block : Nat) (bytes : Bytes) : BlockBuffer :=
  { buf with dirty := buf.dirty.insert block bytes }

def getMut (buf : BlockBuffer) (read : Nat → Result Bytes) (block : Nat) :
    Result (Bytes × BlockBuffer) :=
  match buf.dirty.get? block with
  | some bytes => .ok (bytes, buf)
  | none => do
    let bytes ← read block
    return (bytes, buf.put block bytes)

/-- Edit a block through `get_mut`. -/
def edit (buf : BlockBuffer) (read : Nat → Result Bytes) (block : Nat) (f : Bytes → Bytes) :
    Result BlockBuffer := do
  let (bytes, buf) ← buf.getMut read block
  return buf.put block (f bytes)

def bufferedBlock (buf : BlockBuffer) (read : Nat → Result Bytes) (block : Nat) : Result Bytes :=
  match buf.dirty.get? block with
  | some bytes => .ok bytes
  | none => read block

end BlockBuffer

def Filesystem.reader (fs : Filesystem) (d : Disk) (block : Nat) : Result Bytes :=
  ((fs.readBlock block).exec d).1

/-- Add `delta` to the counter stored at `lo` and, in wide descriptors, `hi`. -/
def patchCounterU32 (buf : Bytes) (lo : Nat) (hi : Option Nat) (delta : Int) : Bytes :=
  let curHi := match hi with
    | some h => (u16leAt buf h).toNat
    | none => 0
  let cur : Nat := curHi * 2 ^ 16 + (u16leAt buf lo).toNat
  let new := (max 0 (min ((cur : Int) + delta) (2 ^ 32 - 1))).toNat
  let buf := copyAt buf lo (u16le (UInt16.ofNat (new % 2 ^ 16)))
  match hi with
  | some h => copyAt buf h (u16le (UInt16.ofNat (new / 2 ^ 16)))
  | none => buf

def patchBgdCounterFields (block : Bytes) (off descSize : Nat) (freeBlocksDelta freeInodesDelta
    usedDirsDelta : Int) : Bytes :=
  let hi := fun h => if 64 ≤ descSize then some (off + h) else none
  let block := patchCounterU32 block (off + 0x0C) (hi 0x2C) freeBlocksDelta
  let block := patchCounterU32 block (off + 0x0E) (hi 0x2E) freeInodesDelta
  patchCounterU32 block (off + 0x10) (hi 0x30) usedDirsDelta

/-- A mounted volume with what its write paths keep: the uninit flags cleared since the descriptors
were read, the journal writer, and whether a commit without one has failed. -/
structure Mount where
  fs : Filesystem
  csum : Checksummer
  cleared : SortedMap UInt16
  journal : Option JournalWriter
  directCommitFailed : Bool

namespace Mount

def overrideFlags (groups : List BlockGroupDescriptor) (flags : SortedMap UInt16) :
    List BlockGroupDescriptor :=
  groups.mapIdx fun gi g => match flags.get? gi with
    | some f => { g with flags := f }
    | none => g

def allocationGroups (m : Mount) : List BlockGroupDescriptor := overrideFlags m.fs.groups m.cleared

/-- One published clear: a group's flags lose what the clear took out. -/
def publishOne (cleared : SortedMap UInt16) (e : Nat × UInt16) : SortedMap UInt16 :=
  cleared.insert e.1 (match cleared.get? e.1 with
    | some f => f &&& e.2
    | none => e.2)

def publish (m : Mount) (cleared : SortedMap UInt16) : Mount :=
  { m with cleared := cleared.entries.foldl publishOne m.cleared }

def reset (m : Mount) (groups : List BlockGroupDescriptor) : Mount :=
  { m with fs := { m.fs with groups }, cleared := SortedMap.empty }

section Staging

variable (crc : Crc) (m : Mount) (read : Nat → Result Bytes)

def restampGroupDescCsum (block : Bytes) (off gi : Nat) : Bytes :=
  match groupDescCsum crc m.fs.sb m.csum gi (slice block off m.fs.sb.descSize) with
  | some c => copyAt block (off + 0x1E) (u16le c)
  | none => block

/-- Clear an uninit flag of a group in the buffer, and say whether it was set. -/
def clearBgdUninitFlagIfSet (buf : BlockBuffer) (gi : Nat) (flag : UInt16) :
    Result (Bool × BlockBuffer) := do
  let (bgtBlock, off) := m.fs.sb.descriptorLocation gi
  let (block, buf) ← buf.getMut read bgtBlock
  let flags := u16leAt block (off + 0x12)
  if flags &&& flag = 0 then return (false, buf)
  let newFlags := flags &&& ~~~flag
  let buf := buf.put bgtBlock (copyAt block (off + 0x12) (u16le newFlags))
  let entry := match buf.uninitCleared.get? gi with
    | some f => f &&& ~~~flag
    | none => newFlags
  return (true, { buf with uninitCleared := buf.uninitCleared.insert gi entry })

/-- The descriptor with a bitmap checksum stored in it, and its own restamped. -/
def stampBitmapCsum (block : Bytes) (off gi lo hi : Nat) (c : UInt32) : Bytes :=
  let block := copyAt block (off + lo) (u16le c.toUInt16)
  let block := if 0x40 ≤ m.fs.sb.descSize then copyAt block (off + hi) (u16le (c >>> 16).toUInt16)
    else block
  m.restampGroupDescCsum crc block off gi

/-- Which bitmap of a group, and where its descriptor keeps the bitmap's checksum. -/
inductive BitmapKind where
  | block
  | inode
  deriving DecidableEq

namespace BitmapKind

def flag : BitmapKind → UInt16
  | block => blockUninit
  | inode => inodeUninit

def bitmapBlock (bgd : BlockGroupDescriptor) : BitmapKind → Nat
  | block => bgd.blockBitmap
  | inode => bgd.inodeBitmap

def coverage (sb : Superblock) : BitmapKind → Nat
  | block => divCeil sb.blocksPerGroup.toNat 8
  | inode => divCeil sb.inodesPerGroup.toNat 8

def csumLo : BitmapKind → Nat
  | block => 0x18
  | inode => 0x1A

def csumHi : BitmapKind → Nat
  | block => 0x38
  | inode => 0x3A

end BitmapKind

def bufferRefreshBitmapCsum (buf : BlockBuffer) (gi : Nat) (bgd : BlockGroupDescriptor)
    (kind : BitmapKind) : Result BlockBuffer := do
  if !m.csum.enabled then return buf
  let (bm, buf) ← buf.getMut read (kind.bitmapBlock bgd)
  let c := crc m.csum.seed (bm.take (kind.coverage m.fs.sb))
  let (bgtBlock, off) := m.fs.sb.descriptorLocation gi
  buf.edit read bgtBlock (fun block => m.stampBitmapCsum crc block off gi kind.csumLo kind.csumHi c)

def bufferPatchBgdCounters (buf : BlockBuffer) (gi : Nat) (freeBlocksDelta freeInodesDelta
    usedDirsDelta : Int) : Result BlockBuffer :=
  let (bgtBlock, off) := m.fs.sb.descriptorLocation gi
  buf.edit read bgtBlock (fun block =>
    m.restampGroupDescCsum crc
      (patchBgdCounterFields block off m.fs.sb.descSize freeBlocksDelta freeInodesDelta
        usedDirsDelta)
      off gi)

/-- The bits of the run, in a bitmap that starts from what the flag stood for if it was set. -/
def markedBlockBitmap (gi bitStart len : Nat) (wasUninit : Bool) (bm : Bytes) : Bytes :=
  let bm := if wasUninit then
      let implied := uninitBlockBitmap m.fs.sb m.fs.groups gi
      copyAt bm 0 (implied.take (min implied.length bm.length))
    else bm
  setBits bm bitStart len

def bufferMarkBlockRunUsed (buf : BlockBuffer) (start len : Nat) : Result BlockBuffer := do
  let bpg := m.fs.sb.blocksPerGroup.toNat
  let firstData := m.fs.sb.firstDataBlock.toNat
  let gi := (start - firstData) / bpg
  match m.fs.groups[gi]? with
  | none => .error (.invalidBlock start)
  | some bgd =>
    let bitStart := start - (firstData + gi * bpg)
    let (wasUninit, buf) ← m.clearBgdUninitFlagIfSet read buf gi blockUninit
    let buf ← buf.edit read bgd.blockBitmap (m.markedBlockBitmap gi bitStart len wasUninit)
    m.bufferRefreshBitmapCsum crc read buf gi bgd .block

/-- `[start, stop)` from `at` on, split at group boundaries: group, bit, length. -/
def groupChunksFrom (stop : Nat) : Nat → Nat → Result (List (Nat × Nat × Nat))
  | 0, at_ => if at_ < stop then .error (.invalidBlock at_) else .ok []
  | n + 1, at_ =>
    if at_ < stop then
      let bpg := m.fs.sb.blocksPerGroup.toNat
      let firstData := m.fs.sb.firstDataBlock.toNat
      let gi := (at_ - firstData) / bpg
      if m.fs.groups.length ≤ gi then .error (.invalidBlock at_)
      else
        let groupStart := firstData + gi * bpg
        let chunk := min stop (groupStart + bpg) - at_
        match groupChunksFrom stop n (at_ + chunk) with
        | .error e => .error e
        | .ok chunks => .ok ((gi, at_ - groupStart, chunk) :: chunks)
    else .ok []

def groupChunks (start len : Nat) : Result (List (Nat × Nat × Nat)) :=
  if 2 ^ 64 ≤ start + len then .error (.invalidBlock start)
  else if start < m.fs.sb.firstDataBlock.toNat ∨ m.fs.sb.blocksPerGroup = 0 then
    .error (.invalidBlock start)
  else if m.fs.sb.blocksCount < start + len then .error (.invalidBlock m.fs.sb.blocksCount)
  else m.groupChunksFrom (start + len) (m.fs.groups.length + 1) start

def bufferFreeChunk (buf : BlockBuffer) (gi bitStart len : Nat) : Result BlockBuffer := do
  match m.fs.groups[gi]? with
  | none => .error .outOfBounds
  | some bgd =>
    let buf ← buf.edit read bgd.blockBitmap (fun bm => clearBits bm bitStart len)
    let buf ← m.bufferRefreshBitmapCsum crc read buf gi bgd .block
    m.bufferPatchBgdCounters crc read buf gi len 0 0

def bufferFreeChunks (buf : BlockBuffer) : List (Nat × Nat × Nat) → Result BlockBuffer
  | [] => .ok buf
  | (gi, bitStart, len) :: rest => do
    let buf ← m.bufferFreeChunk crc read buf gi bitStart len
    bufferFreeChunks buf rest

def bufferFreeBlockRunAndBgd (buf : BlockBuffer) (start len : Nat) : Result BlockBuffer := do
  let chunks ← m.groupChunks start len
  m.bufferFreeChunks crc read buf chunks

def bufferFreeInodeSlot (buf : BlockBuffer) (ino : Nat) : Result BlockBuffer := do
  let ipg := m.fs.sb.inodesPerGroup.toNat
  let gi := (ino - 1) / ipg
  match m.fs.groups[gi]? with
  | none => .error (.invalidInode (UInt32.ofNat ino))
  | some bgd =>
    let buf ← buf.edit read bgd.inodeBitmap (fun bm => clearBit bm ((ino - 1) % ipg))
    let buf ← m.bufferRefreshBitmapCsum crc read buf gi bgd .inode
    m.bufferPatchBgdCounters crc read buf gi 0 1 0

/-- The bit of an inode, in a bitmap emptied but for its padding if it was uninitialised. -/
def markedInodeBitmap (bitIdx : Nat) (wasUninit : Bool) (bm : Bytes) : Bytes :=
  let ipg := m.fs.sb.inodesPerGroup.toNat
  let bm := if wasUninit then setBits (List.replicate bm.length 0) ipg (bm.length * 8 - ipg) else bm
  setBit bm bitIdx

/-- `bg_itable_unused` lowered to the inodes after this one. -/
def lowerItableUnused (block : Bytes) (off gi unusedMax : Nat) : Bytes :=
  let hasHi := decide (0x40 ≤ m.fs.sb.descSize)
  let cur := BlockGroupDescriptor.splitU16 block hasHi (off + 0x1C) (off + 0x32)
  if unusedMax < cur then
    let block := copyAt block (off + 0x1C) (u16le (UInt16.ofNat (unusedMax % 2 ^ 16)))
    let block := if hasHi then copyAt block (off + 0x32) (u16le (UInt16.ofNat (unusedMax / 2 ^ 16)))
      else block
    m.restampGroupDescCsum crc block off gi
  else block

def bufferMarkInodeUsed (buf : BlockBuffer) (ino : Nat) : Result BlockBuffer := do
  let ipg := m.fs.sb.inodesPerGroup.toNat
  let gi := (ino - 1) / ipg
  match m.fs.groups[gi]? with
  | none => .error (.invalidInode (UInt32.ofNat ino))
  | some bgd =>
    let bitIdx := (ino - 1) % ipg
    let (wasUninit, buf) ← m.clearBgdUninitFlagIfSet read buf gi inodeUninit
    let buf ← buf.edit read bgd.inodeBitmap (m.markedInodeBitmap bitIdx wasUninit)
    let buf ← m.bufferRefreshBitmapCsum crc read buf gi bgd .inode
    let (bgtBlock, off) := m.fs.sb.descriptorLocation gi
    buf.edit read bgtBlock (fun block => m.lowerItableUnused crc block off gi (ipg - (bitIdx + 1)))

/-- The superblock's free counts moved by the deltas, and its checksum. -/
def patchSbCounters (sb : Bytes) (freeBlocksDelta freeInodesDelta : Int) : Bytes :=
  let fi := (max 0 (((u32leAt sb 0x10).toNat : Int) + freeInodesDelta)).toNat
  let sb := copyAt sb 0x10 (u32le (UInt32.ofNat fi))
  let cur : Nat := (u32leAt sb 0x158).toNat * 2 ^ 32 + (u32leAt sb 0x0C).toNat
  let new := (max 0 ((cur : Int) + freeBlocksDelta)).toNat
  let sb := copyAt sb 0x0C (u32le (UInt32.ofNat new))
  let sb := copyAt sb 0x158 (u32le (UInt32.ofNat (new / 2 ^ 32)))
  if m.csum.enabled then copyAt sb 0x3FC (u32le (crc 0xFFFFFFFF (slice sb 0 0x3FC))) else sb

/-- Edit the 1024 bytes of the superblock inside the block that holds it. -/
def editSuperblock (buf : BlockBuffer) (f : Bytes → Bytes) : Result BlockBuffer :=
  let off := superblockOffset % m.fs.sb.blockSize
  buf.edit read m.fs.sb.primarySuperblockBlock
    (fun block => copyAt block off (f (slice block off 1024)))

def bufferPatchSbCounters (buf : BlockBuffer) (freeBlocksDelta freeInodesDelta : Int) :
    Result BlockBuffer :=
  m.editSuperblock read buf (fun sb => m.patchSbCounters crc sb freeBlocksDelta freeInodesDelta)

end Staging

/-- Plan over the descriptors of the mount and the bitmaps of the device. -/
def planBlocks (m : Mount) (read : Nat → Result Bytes) (count hint : Nat) :
    Result BlockAllocationPlan :=
  planBlockAllocation m.fs.sb m.allocationGroups count hint read

/-- Plan inside an open transaction: staged bitmaps and staged flags first. -/
def planBufferedBlockAllocationExcluding (m : Mount) (read : Nat → Result Bytes)
    (buf : BlockBuffer) (count hint : Nat) (reserved : List Nat) : Result BlockAllocationPlan :=
  planBlockAllocationExcluding m.fs.sb (overrideFlags m.allocationGroups buf.uninitCleared) count
    hint reserved (buf.bufferedBlock read)

def planBufferedBlockAllocation (m : Mount) (read : Nat → Result Bytes) (buf : BlockBuffer)
    (count hint : Nat) : Result BlockAllocationPlan :=
  m.planBufferedBlockAllocationExcluding read buf count hint []

def planInode (m : Mount) (read : Nat → Result Bytes) (isDir : Bool) (hint : Nat) :
    Result InodeAllocationPlan :=
  planInodeAllocation m.fs.sb m.allocationGroups isDir hint read

def writeEach (bs : Nat) : List (Nat × Bytes) → DevIo Unit
  | [] => pure ()
  | e :: rest => do
    writeAt (e.1 * bs) e.2
    writeEach bs rest

def writeStages (bs : Nat) : List (List (Nat × Bytes)) → DevIo Unit
  | [] => pure ()
  | stage :: rest => do
    if stage.isEmpty then writeStages bs rest
    else
      writeEach bs stage
      flush
      writeStages bs rest

/-- The three stages of a commit without a journal: everything else, the descriptor blocks that
clear an uninit flag, the superblock. -/
def directStages (m : Mount) (dirty : SortedMap Bytes) (descriptors : List Nat) :
    List (List (Nat × Bytes)) :=
  let sbBlock := superblockOffset / m.fs.sb.blockSize
  [dirty.entries.filter (fun e => e.1 ≠ sbBlock ∧ e.1 ∉ descriptors),
    dirty.entries.filter (fun e => e.1 ≠ sbBlock ∧ e.1 ∈ descriptors),
    dirty.entries.filter (fun e => e.1 = sbBlock)]

def writeDirect (m : Mount) (dirty : SortedMap Bytes) (descriptors : List Nat) : DevIo Unit :=
  writeStages m.fs.sb.blockSize (m.directStages dirty descriptors)

def addWrites (tx : Transaction) : List (Nat × Bytes) → Result Transaction
  | [] => .ok tx
  | (block, bytes) :: rest => do
    let tx ← tx.addWrite (UInt64.ofNat block) bytes
    addWrites tx rest

/-- The mount after a commit through the journal: clears are published only if it succeeded. -/
def afterJournal (m : Mount) (buf : BlockBuffer) : Result Unit × JournalWriter → Result Unit × Mount
  | (.error e, jw) => (.error e, { m with journal := some jw })
  | (.ok (), jw) => (.ok (), { m with journal := some jw }.publish buf.uninitCleared)

/-- The mount after a commit without one: a failure stops it writing. -/
def afterDirect (m : Mount) (buf : BlockBuffer) : Result Unit → Result Unit × Mount
  | .error e => (.error e, { m with directCommitFailed := true })
  | .ok () => (.ok (), m.publish buf.uninitCleared)

def clearedDescriptors (m : Mount) (buf : BlockBuffer) : List Nat :=
  buf.uninitCleared.entries.map (fun e => (m.fs.sb.descriptorLocation e.1).1)

def commitBlockBuffer (crc : Crc) (m : Mount) (buf : BlockBuffer) : DevIo (Result Unit × Mount) :=
  if buf.dirty.entries.isEmpty then return (.ok (), m)
  else
    match m.journal with
    | some jw =>
      match addWrites jw.begin buf.dirty.entries with
      | .error e => return (.error e, m)
      | .ok tx => do
        let r ← jw.commit crc m.fs.sizeBytes m.fs.isWritable tx
        return m.afterJournal buf r
    | none => do
      let r ← (m.writeDirect buf.dirty (m.clearedDescriptors buf)).attempt
      return m.afterDirect buf r

end Mount

end FsExt4
