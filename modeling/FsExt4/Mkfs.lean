import FsExt4.Checksums
import FsExt4.IndirectPlan

namespace FsExt4

open Lib Jbd2

def compatHasJournal : UInt32 := 0x4
def incompatExtents : UInt32 := 0x40

inductive FsFlavor where
  | ext2
  | ext3
  | ext4
  deriving DecidableEq

namespace FsFlavor

def geometry (self : FsFlavor) : Nat × Nat × Bool × Nat :=
  let csumEnabled := decide (self = ext4)
  (if csumEnabled then 256 else 128, if csumEnabled then 64 else 32, csumEnabled,
    if csumEnabled then 12 else 0)

def usesExtents (self : FsFlavor) : Bool := decide (self = ext4)

end FsFlavor

namespace Mkfs

def ext4Magic : UInt16 := 0xEF53
def validFs : UInt16 := 0x0001
def rootIno : UInt32 := 2
def extraIsize : UInt16 := 32
def rootMode : UInt16 := 0o40755
def lostFoundIno : UInt32 := 11
def lostFoundMode : UInt16 := 0o40700
def lostFoundName : Bytes := [0x6C, 0x6F, 0x73, 0x74, 0x2B, 0x66, 0x6F, 0x75, 0x6E, 0x64]
def extentMagic : UInt16 := 0xF30A
def ext3JournalInode : UInt32 := 8
def maxBlocksPerGroup : Nat := 2 ^ 16 - 8
def inodesPerGroup : Nat := 8192

def blocksPerGroupFor (blockSize : Nat) : Nat := min (8 * blockSize) maxBlocksPerGroup

/-- The blocks that `/lost+found` is given: 16 KiB of them, from two to twelve. -/
def lostFoundBlocks (blockSize : Nat) : Nat := min (max (16 * 1024 / blockSize) 2) 12

def minBlockSize : Nat := 1024
def maxBlockSize : Nat := 65536

def isValidBlockSize (blockSize : Nat) : Bool :=
  decide (blockSize.isPowerOfTwo ∧ minBlockSize ≤ blockSize ∧ blockSize ≤ maxBlockSize)

abbrev Uuid := Vector UInt8 16

def generateUuid (random : Uuid) : Uuid :=
  (random.set 6 (random[6] &&& 0x0F ||| 0x40)).set 8 (random[8] &&& 0x3F ||| 0x80)

def setBitmapRange (bitmap : Bytes) (start stop : Nat) : Bytes :=
  setBits bitmap start (min stop (bitmap.length * 8) - start)

section Directories

variable (crc : Crc) (csum : Checksummer)

/-- One unused record over the block, up to the checksum tail's place. -/
def emptyDirBlock (blockSize dirCsumTail : Nat) : Bytes :=
  copyAll (List.replicate blockSize 0)
    [(0, u32le 0), (4, u16le (UInt16.ofNat (blockSize - dirCsumTail)))]

def addDirectories (dirCsumTail : Nat) (block : Bytes) : List (UInt32 × Bytes) → Result Bytes
  | [] => .ok block
  | (ino, name) :: rest => do
    let block ← Dir.addEntryToBlock block ino name .directory true dirCsumTail
    addDirectories dirCsumTail block rest

def rootEntries : List (UInt32 × Bytes) :=
  [(rootIno, [0x2E]), (rootIno, [0x2E, 0x2E]), (lostFoundIno, lostFoundName)]

def lostFoundEntries : List (UInt32 × Bytes) := [(lostFoundIno, [0x2E]), (rootIno, [0x2E, 0x2E])]

def buildRootDir (blockSize dirCsumTail : Nat) : Result Bytes := do
  let rootDir ← addDirectories dirCsumTail (emptyDirBlock blockSize dirCsumTail) rootEntries
  pure (csum.patchDirEntryTail crc rootIno 0 rootDir)

def lostFoundBlock (blockSize dirCsumTail i : Nat) : Result Bytes := do
  let block ← addDirectories dirCsumTail (emptyDirBlock blockSize dirCsumTail)
    (if i = 0 then lostFoundEntries else [])
  pure (csum.patchDirEntryTail crc lostFoundIno 0 block)

def buildLostFoundDir (blockSize dirCsumTail : Nat) : Nat → Result Bytes
  | 0 => .ok []
  | blocks + 1 => do
    let out ← buildLostFoundDir blockSize dirCsumTail blocks
    let block ← lostFoundBlock crc csum blockSize dirCsumTail blocks
    pure (out ++ block)

/-- A directory inode and the run of blocks that holds the directory. -/
structure DirInode where
  ino : UInt32
  mode : UInt16
  links : UInt16
  firstBlock : Nat
  blocks : Nat
  inRange : 1 ≤ blocks ∧ blocks ≤ 12

/-- The bytes of `i_flags` and `i_block`: one extent over the run, or a direct pointer for each of
its blocks. -/
def dirInodeMapping (dir : DirInode) (flavor : FsFlavor) : List (Nat × Bytes) :=
  if flavor.usesExtents then
    [(0x20, u32le inodeFlagExtents),
      (0x28, u16le extentMagic), (0x2A, u16le 1), (0x2C, u16le 4), (0x2E, u16le 0), (0x30, u32le 0),
      (0x34, u32le 0), (0x38, u16le (UInt16.ofNat dir.blocks)),
      (0x3A, u16le (UInt16.ofNat (dir.firstBlock / 2 ^ 32))),
      (0x3C, u32le (UInt32.ofNat dir.firstBlock))]
  else
    (0x20, u32le 0) :: (List.range dir.blocks).map (fun i =>
      (0x28 + 4 * i, u32le (UInt32.ofNat (dir.firstBlock + i))))

def writeDirInode (slot : Bytes) (dir : DirInode) (blockSize : Nat) (flavor : FsFlavor)
    (inodeSize : Nat) : Bytes :=
  let size := dir.blocks * blockSize
  let slot := copyAll slot [(0x00, u16le dir.mode), (0x04, u32le (UInt32.ofNat size)),
    (0x1A, u16le dir.links), (0x1C, u32le (UInt32.ofNat (size / 512)))]
  let slot := copyAll slot (dirInodeMapping dir flavor)
  let slot := copyAt slot 0x64 (u32le 0)
  let slot := if 160 ≤ inodeSize ∧ 0x80 < slot.length then copyAt slot 0x80
    (u16le extraIsize) else slot
  if csum.enabled then csum.patchInodeChecksum crc dir.ino 0 slot else slot

theorem lostFoundBlocks_inRange (blockSize : Nat) :
    1 ≤ lostFoundBlocks blockSize ∧ lostFoundBlocks blockSize ≤ 12 := by
  unfold lostFoundBlocks
  omega

def writeDirInodes (inodeTable : Bytes) (rootDirBlock lostFoundStart blockSize : Nat)
    (flavor : FsFlavor) (inodeSize : Nat) : Bytes :=
  let put (table : Bytes) (dir : DirInode) : Bytes :=
    let off := (dir.ino.toNat - 1) * inodeSize
    copyAt table off (writeDirInode crc csum (slice table off inodeSize) dir blockSize
      flavor inodeSize)
  let root : DirInode := ⟨rootIno, rootMode, 3, rootDirBlock, 1, by decide⟩
  let lostFound : DirInode := ⟨lostFoundIno, lostFoundMode, 2, lostFoundStart,
    lostFoundBlocks blockSize, lostFoundBlocks_inRange blockSize⟩
  put (put inodeTable root) lostFound

end Directories

def buildJbd2Superblock (blockSize maxLen : Nat) (uuid : Uuid) : Bytes :=
  copyAll (List.replicate blockSize 0)
    [(0x00, u32be magicNumber), (0x04, u32be superblockV2), (0x08, u32be 1),
      (0x0C, u32be (UInt32.ofNat blockSize)), (0x10, u32be (UInt32.ofNat maxLen)), (0x14, u32be 1),
      (0x18, u32be 1), (0x1C, u32be 0), (0x30, uuid.toList), (0x40, u32be 1)]

def writeJournalInode (slot : Bytes) (sizeBytes blocks512 : Nat) (iBlock : Bytes) : Bytes :=
  copyAll slot [(0x00, u16le 0o100600), (0x04, u32le (UInt32.ofNat sizeBytes)), (0x1A, u16le 1),
    (0x1C, u32le (UInt32.ofNat blocks512)), (0x20, u32le 0), (0x28, iBlock)]

def flavorFeatures : FsFlavor → UInt32 × UInt32 × UInt32
  | .ext2 => (0, incompatFiletype, 0)
  | .ext3 => (compatHasJournal, incompatFiletype, 0)
  | .ext4 => (0, incompatFiletype ||| incompatExtents ||| incompat64bit,
      roCompatMetadataCsum ||| roCompatSparseSuper)

/-- What the superblock of a fresh volume says about it. -/
structure Geometry where
  inodesCount : Nat
  blocksCount : Nat
  freeBlocks : Nat
  freeInodes : Nat
  firstDataBlock : Nat
  logBlockSize : Nat
  blocksPerGroup : Nat
  flavor : FsFlavor
  inodeSize : Nat
  descSize : Nat
  journalInum : UInt32

def buildSuperblock (g : Geometry) (uuid : Uuid) (label : Bytes) : Bytes :=
  let low (v : Nat) : Bytes := u32le (UInt32.ofNat v)
  let high (v : Nat) : Bytes := u32le (UInt32.ofNat (v / 2 ^ 32))
  let (featCompat, featIncompat, featRoCompat) := flavorFeatures g.flavor
  let sb := copyAll (List.replicate 1024 0)
    [(0x00, low g.inodesCount), (0x04, low g.blocksCount), (0x0C, low g.freeBlocks),
      (0x10, low g.freeInodes), (0x14, low g.firstDataBlock), (0x18, low g.logBlockSize),
      (0x1C, low g.logBlockSize), (0x20, low g.blocksPerGroup), (0x24, low g.blocksPerGroup),
      (0x28, low inodesPerGroup), (0x34, u16le 0), (0x36, u16le 0xFFFF), (0x38, u16le ext4Magic),
      (0x3A, u16le validFs), (0x3C, u16le 1), (0x3E, u16le 0), (0x48, u32le 0), (0x4C, u32le 1),
      (0x50, u16le 0), (0x52, u16le 0), (0x54, u32le 11), (0x58, u16le (UInt16.ofNat g.inodeSize)),
      (0x5A, u16le 0), (0x5C, u32le featCompat), (0x60, u32le featIncompat),
      (0x64, u32le featRoCompat),
      (0x68, uuid.toList), (0x78, label.take 16), (0xE0, u32le g.journalInum),
      (0xEC, u32le 0xC1A2B3C4), (0xF0, u32le 0xD5E6F7A8), (0xF4, u32le 0xB9CADBEC),
      (0xF8, u32le 0xFD0E1F2A), (0xFC, [1]),
      (0xFE, u16le (if g.flavor = .ext4 then UInt16.ofNat g.descSize else 0)),
      (0x150, high g.blocksCount), (0x158, high g.freeBlocks)]
  let sb := if 160 ≤ g.inodeSize then
      copyAll sb [(0x15C, u16le extraIsize), (0x15E, u16le extraIsize)] else sb
  let sb := copyAt sb 0x160 (u32le 1)
  if g.flavor = .ext4 then copyAt sb 0x175 [1] else sb

def sealSuperblock (crc : Crc) (sb : Bytes) : Bytes :=
  copyAt sb 0x3FC (u32le (crc 0xFFFFFFFF (slice sb 0 0x3FC)))

def writeBgdGroup (out : Bytes)
    (blockBitmapBlock inodeBitmapBlock inodeTableBlock freeBlocks freeInodes
    usedDirs descSize : Nat) : Bytes :=
  let out := copyAll out
    [(0x00, u32le (UInt32.ofNat blockBitmapBlock)), (0x04, u32le (UInt32.ofNat inodeBitmapBlock)),
      (0x08, u32le (UInt32.ofNat inodeTableBlock)), (0x0C, u16le (UInt16.ofNat freeBlocks)),
      (0x0E, u16le (UInt16.ofNat freeInodes)), (0x10, u16le (UInt16.ofNat usedDirs)),
      (0x12, u16le 0), (0x1C, u16le 0)]
  if 64 ≤ descSize then
    copyAll out
      [(0x20, u32le (UInt32.ofNat (blockBitmapBlock / 2 ^ 32))),
        (0x24, u32le (UInt32.ofNat (inodeBitmapBlock / 2 ^ 32))),
        (0x28, u32le (UInt32.ofNat (inodeTableBlock / 2 ^ 32))),
        (0x2C, u16le (UInt16.ofNat (freeBlocks / 2 ^ 16))), (0x2E, u16le 0), (0x30, u16le 0),
        (0x32, u16le 0), (0x38, u16le 0), (0x3A, u16le 0)]
  else out

/-- The checksums of the two bitmaps, and the one of the descriptor that holds them. -/
def finalizeBgdChecksum (crc : Crc) (csum : Checksummer) (bgd : Bytes) (group : Nat)
    (bbCsum ibCsum : UInt32) (descSize : Nat) : Bytes :=
  let bgd := copyAll bgd [(0x18, u16le bbCsum.toUInt16), (0x1A, u16le ibCsum.toUInt16)]
  let bgd := if 64 ≤ descSize then
      copyAll bgd [(0x38, u16le (bbCsum >>> 16).toUInt16), (0x3A, u16le (ibCsum >>> 16).toUInt16)]
    else bgd
  let tmp := copyAt bgd 0x1E [0, 0]
  copyAt bgd 0x1E (u16le (csum.crcWithPrefix crc (UInt32.ofNat group) tmp).toUInt16)

/-- The places in group 0 of a volume of one group. -/
structure OneGroup where
  flavor : FsFlavor
  blockSize : Nat
  blocksCount : Nat

namespace OneGroup

variable (v : OneGroup)

def inodeSize : Nat := v.flavor.geometry.1
def descSize : Nat := v.flavor.geometry.2.1
def csumEnabled : Bool := v.flavor.geometry.2.2.1
def dirCsumTail : Nat := v.flavor.geometry.2.2.2
def journalBlocks : Nat := if v.flavor = .ext3 then 1024 else 0
def inodeTableBlocks : Nat := divCeil (inodesPerGroup * v.inodeSize) v.blockSize
def firstDataBlock : Nat := if v.blockSize = 1024 then 1 else 0
def bgtBlock : Nat := v.firstDataBlock + 1
def blkBitmap : Nat := v.firstDataBlock + 2
def inoBitmap : Nat := v.firstDataBlock + 3
def inodeTableStart : Nat := v.firstDataBlock + 4
def rootDirBlock : Nat := v.inodeTableStart + v.inodeTableBlocks
def lostFoundStart : Nat := v.rootDirBlock + 1
def lostFoundEnd : Nat := v.lostFoundStart + lostFoundBlocks v.blockSize
def journalDataStart : Nat := v.lostFoundEnd
def journalDataEnd : Nat := v.journalDataStart + v.journalBlocks
def journalIndirectBlocks : Nat :=
  if v.flavor = .ext3 then Indirect.countIndirectBlocks v.journalBlocks v.blockSize else 0
def journalEnd : Nat := v.journalDataEnd + v.journalIndirectBlocks
def usedBlocks : Nat := if v.flavor = .ext3 then v.journalEnd else v.lostFoundEnd
def freeBlocks : Nat := v.blocksCount - v.usedBlocks
def freeInodes : Nat := inodesPerGroup - lostFoundIno.toNat

def superblock (crc : Crc) (uuid : Uuid) (label : Bytes) : Bytes :=
  let sb := buildSuperblock
    { inodesCount := inodesPerGroup
      blocksCount := v.blocksCount
      freeBlocks := v.freeBlocks
      freeInodes := freeInodes
      firstDataBlock := v.firstDataBlock
      logBlockSize := v.blockSize.log2 - 10
      blocksPerGroup := blocksPerGroupFor v.blockSize
      flavor := v.flavor
      inodeSize := v.inodeSize
      descSize := v.descSize
      journalInum := if v.flavor = .ext3 then ext3JournalInode else 0 } uuid label
  if v.csumEnabled then sealSuperblock crc sb else sb

def blockBitmap : Bytes :=
  let bitmap := setBitmapRange (List.replicate v.blockSize 0) 0 (v.usedBlocks - v.firstDataBlock)
  setBitmapRange bitmap (v.blocksCount - v.firstDataBlock) (v.blockSize * 8)

def inodeBitmap : Bytes :=
  let bitmap := setBitmapRange (List.replicate v.blockSize 0) 0 lostFoundIno.toNat
  setBitmapRange bitmap inodesPerGroup (v.blockSize * 8)

def descriptor (crc : Crc) (csum : Checksummer) : Bytes :=
  let bgd := writeBgdGroup (List.replicate v.descSize 0) v.blkBitmap v.inoBitmap v.inodeTableStart
    v.freeBlocks freeInodes 2 v.descSize
  if v.csumEnabled then
    let bbCsum := crc csum.seed (v.blockBitmap.take (blocksPerGroupFor v.blockSize / 8))
    let ibCsum := crc csum.seed (v.inodeBitmap.take (inodesPerGroup / 8))
    finalizeBgdChecksum crc csum bgd 0 bbCsum ibCsum v.descSize
  else bgd

/-- The inode table with the journal's inode in it, and the pointer blocks of the journal. -/
def journalInode (inodeTable : Bytes) : Result (Bytes × List (Nat × Bytes)) :=
  if v.flavor = .ext3 then do
    let off := (ext3JournalInode.toNat - 1) * v.inodeSize
    let plan ← (Indirect.planContiguous v.blockSize v.journalDataStart
      (fun k => .ok (v.journalDataEnd + k)) v.journalBlocks).1
    let slot := writeJournalInode (slice inodeTable off v.inodeSize) (v.journalBlocks * v.blockSize)
      ((v.journalBlocks + v.journalIndirectBlocks) * v.blockSize / 512) plan.iBlock
    pure (copyAt inodeTable off slot, plan.blockWrites)
  else pure (inodeTable, [])

def writeBlocks (blockSize : Nat) : List (Nat × Bytes) → DevIo Unit
  | [] => pure ()
  | (block, bytes) :: rest => do
    writeAt (block * blockSize) bytes
    writeBlocks blockSize rest

def format (crc : Crc) (uuid : Uuid) (label : Bytes) : DevIo Unit :=
  if v.blocksCount < v.journalEnd then
    Io.fail (.invalidArgument "mkfs: device too small for layout (journal won't fit)")
  else do
    let csum : Checksummer := ⟨crc 0xFFFFFFFF uuid.toList, v.csumEnabled⟩
    let (inodeTable, journalIndirectWrites) ← v.journalInode
      (writeDirInodes crc csum (List.replicate (v.inodeTableBlocks * v.blockSize) 0)
        v.rootDirBlock v.lostFoundStart v.blockSize v.flavor v.inodeSize)
    let rootDir ← buildRootDir crc csum v.blockSize v.dirCsumTail
    let lostFound ← buildLostFoundDir crc csum v.blockSize v.dirCsumTail
      (lostFoundBlocks v.blockSize)
    writeAt 0 (List.replicate (max v.blockSize 2048) 0)
    writeAt superblockOffset (v.superblock crc uuid label)
    flush
    writeBlocks v.blockSize
      [(v.bgtBlock, copyAt (List.replicate v.blockSize 0) 0 (v.descriptor crc csum)),
        (v.blkBitmap, v.blockBitmap), (v.inoBitmap, v.inodeBitmap), (v.inodeTableStart, inodeTable),
        (v.rootDirBlock, rootDir), (v.lostFoundStart, lostFound)]
    writeBlocks v.blockSize
      (if v.flavor = .ext3 then
        (v.journalDataStart, buildJbd2Superblock v.blockSize v.journalBlocks uuid) ::
          journalIndirectWrites
      else [])
    flush

end OneGroup

/-- An ext4 volume of as many groups as its blocks make. -/
structure Groups where
  blockSize : Nat
  blocksCount : Nat

structure Formatting where
  gdt : Bytes
  totalFreeBlocks : Nat
  rootDirBlock : Nat

namespace Groups

variable (v : Groups)

def inodeSize : Nat := FsFlavor.ext4.geometry.1
def descSize : Nat := FsFlavor.ext4.geometry.2.1
def dirCsumTail : Nat := FsFlavor.ext4.geometry.2.2.2
def blocksPerGroup : Nat := blocksPerGroupFor v.blockSize
def inodeTableBlocks : Nat := divCeil (inodesPerGroup * inodeSize) v.blockSize
def groupCount : Nat := divCeil v.blocksCount v.blocksPerGroup
def gdtBlocks : Nat := divCeil (v.groupCount * descSize) v.blockSize % 2 ^ 32
def inodesCount : Nat := v.groupCount * inodesPerGroup

section Group

variable (g : Nat)

def groupStart : Nat := g * v.blocksPerGroup
def groupLength : Nat := min v.blocksPerGroup (v.blocksCount - v.groupStart g)
def groupMeta : Nat := if classicSparseSuper g then 1 + v.gdtBlocks else 0
def bbBlock : Nat := v.groupStart g + v.groupMeta g
def ibBlock : Nat := v.bbBlock g + 1
def itBlock : Nat := v.ibBlock g + 1
def dataStart : Nat := v.itBlock g + v.inodeTableBlocks

def used : Nat :=
  v.dataStart g - v.groupStart g + if g = 0 then 1 + lostFoundBlocks v.blockSize else 0

def blockBitmap : Bytes :=
  let bitmap := setBitmapRange (List.replicate v.blockSize 0) 0 (v.used g)
  setBitmapRange bitmap (v.groupLength g) (v.blockSize * 8)

def inodeBitmap : Bytes :=
  let bitmap := List.replicate v.blockSize 0
  let bitmap := if g = 0 then setBitmapRange bitmap 0 lostFoundIno.toNat else bitmap
  setBitmapRange bitmap inodesPerGroup (v.blockSize * 8)

def inodeTable (crc : Crc) (csum : Checksummer) : Bytes :=
  let table := List.replicate (v.inodeTableBlocks * v.blockSize) 0
  if g = 0 then
    writeDirInodes crc csum table (v.dataStart 0) (v.dataStart 0 + 1) v.blockSize .ext4 inodeSize
  else table

/-- The descriptor of the group, over what is in its place in the table. -/
def descriptor (crc : Crc) (csum : Checksummer) (bgd : Bytes) : Bytes :=
  let bbCsum := crc csum.seed ((v.blockBitmap g).take (v.blocksPerGroup / 8))
  let ibCsum := crc csum.seed ((v.inodeBitmap g).take (inodesPerGroup / 8))
  let freeInodes := if g = 0 then inodesPerGroup - lostFoundIno.toNat else inodesPerGroup
  let bgd := writeBgdGroup bgd (v.bbBlock g) (v.ibBlock g) (v.itBlock g)
    (v.groupLength g - v.used g) freeInodes (if g = 0 then 2 else 0) descSize
  finalizeBgdChecksum crc csum bgd g bbCsum ibCsum descSize

def formatGroup (crc : Crc) (csum : Checksummer) (st : Formatting) : DevIo Formatting :=
  if v.groupLength g < v.used g then
    Io.fail (.invalidArgument "mkfs: group overhead exceeds group size")
  else do
    let bgd := v.descriptor g crc csum (slice st.gdt (g * descSize) descSize)
    writeAt (v.bbBlock g * v.blockSize) (v.blockBitmap g)
    writeAt (v.ibBlock g * v.blockSize) (v.inodeBitmap g)
    writeAt (v.itBlock g * v.blockSize) (v.inodeTable g crc csum)
    pure
      { gdt := copyAt st.gdt (g * descSize) bgd
        totalFreeBlocks := st.totalFreeBlocks + (v.groupLength g - v.used g)
        rootDirBlock := if g = 0 then v.dataStart 0 else st.rootDirBlock }

end Group

def formatGroups (crc : Crc) (csum : Checksummer) : List Nat → Formatting → DevIo Formatting
  | [], st => pure st
  | g :: rest, st => do
    let st ← v.formatGroup g crc csum st
    formatGroups crc csum rest st

def superblock (crc : Crc) (uuid : Uuid) (label : Bytes) (totalFreeBlocks : Nat) : Bytes :=
  sealSuperblock crc (buildSuperblock
    { inodesCount := v.inodesCount
      blocksCount := v.blocksCount
      freeBlocks := totalFreeBlocks
      freeInodes := v.inodesCount - lostFoundIno.toNat
      firstDataBlock := 0
      logBlockSize := v.blockSize.log2 - 10
      blocksPerGroup := v.blocksPerGroup
      flavor := .ext4
      inodeSize := inodeSize
      descSize := descSize
      journalInum := 0 } uuid label)

def superblockCopy (crc : Crc) (sb : Bytes) (g : Nat) : Bytes :=
  let block := copyAt (List.replicate v.blockSize 0) 0 sb
  sealSuperblock crc (copyAt block 0x5A (u16le (UInt16.ofNat g)))

def writeBackups (crc : Crc) (sb gdt : Bytes) : List Nat → DevIo Unit
  | [] => pure ()
  | g :: rest => do
    if classicSparseSuper g then
      writeAt (v.groupStart g * v.blockSize) (v.superblockCopy crc sb g)
      writeAt ((v.groupStart g + 1) * v.blockSize) gdt
    writeBackups crc sb gdt rest

/-- `format_block_groups` -/
def format (crc : Crc) (uuid : Uuid) (label : Bytes) : DevIo Unit :=
  if v.blocksPerGroup ≤ 4 + v.gdtBlocks + v.inodeTableBlocks then
    Io.fail (.invalidArgument "mkfs: group descriptor table does not fit in a single block group")
  else if 2 ^ 32 - 1 < v.inodesCount then
    Io.fail (.invalidArgument "mkfs: too many inodes for layout")
  else do
    let csum : Checksummer := ⟨crc 0xFFFFFFFF uuid.toList, true⟩
    let st ← v.formatGroups crc csum (List.range v.groupCount)
      ⟨List.replicate (v.gdtBlocks * v.blockSize) 0, 0, 0⟩
    let sb := v.superblock crc uuid label st.totalFreeBlocks
    let rootDir ← buildRootDir crc csum v.blockSize dirCsumTail
    let lostFound ← buildLostFoundDir crc csum v.blockSize dirCsumTail (lostFoundBlocks v.blockSize)
    writeAt 0 (List.replicate v.blockSize 0)
    writeAt superblockOffset sb
    writeAt v.blockSize st.gdt
    writeAt (st.rootDirBlock * v.blockSize) rootDir
    writeAt ((st.rootDirBlock + 1) * v.blockSize) lostFound
    v.writeBackups crc sb st.gdt (List.range' 1 (v.groupCount - 1))
    flush

end Groups

/-- What the caller asks for, and the bytes that a volume without a UUID takes its own from. -/
structure Request where
  label : Option String
  uuid : Option Uuid
  random : Uuid
  sizeBytes : UInt64
  blockSize : UInt32
  flavor : FsFlavor

def Request.labelBytes (r : Request) : Bytes := (r.label.getD "").toUTF8.toList

def Request.volumeUuid (r : Request) : Uuid := r.uuid.getD (generateUuid r.random)

/-- `format_filesystem_with_flavor`, on a device that is writable or not -/
def formatFilesystemWithFlavor (crc : Crc) (isWritable : Bool) (r : Request) : DevIo Unit :=
  let blockSize := r.blockSize.toNat
  let blocksCount := r.sizeBytes.toNat / blockSize
  if !isValidBlockSize blockSize then Io.fail (.invalidArgument "mkfs: block_size out of range")
  else if r.sizeBytes.toNat < blockSize * 64 then Io.fail
    (.invalidArgument "mkfs: device too small")
  else if !isWritable then Io.fail .readOnly
  else if blocksCount < 64 then Io.fail (.invalidArgument "mkfs: too few blocks")
  else if r.flavor = .ext4 ∧ 2048 ≤ blockSize then
    (⟨blockSize, blocksCount⟩ : Groups).format crc r.volumeUuid r.labelBytes
  else if blocksPerGroupFor blockSize < blocksCount then
    Io.fail (.invalidArgument "mkfs: multi-group volumes require ext4 with block_size >= 2048")
  else (⟨r.flavor, blockSize, blocksCount⟩ : OneGroup).format crc r.volumeUuid r.labelBytes

end Mkfs

end FsExt4
