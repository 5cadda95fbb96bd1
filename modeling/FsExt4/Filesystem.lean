import FsExt4.Indirect
import FsExt4.Jbd2

namespace FsExt4

open Lib

def divCeil (a n : Nat) : Nat := (a + n - 1) / n

def superblockOffset : Nat := 1024

def incompatRecover : UInt32 := 0x4
def incompatMmp : UInt32 := 0x100
def incompatEncrypt : UInt32 := 0x10000
def incompatCasefold : UInt32 := 0x20000
def roCompatMetadataCsum : UInt32 := 0x400

def writeBreakingIncompat (featureIncompat : UInt32) : UInt32 :=
  featureIncompat &&& (incompatMmp ||| incompatCasefold ||| incompatEncrypt)

structure Superblock where
  inodesCount : UInt32
  blocksCount : Nat
  firstDataBlock : UInt32
  logBlockSize : Nat
  blocksPerGroup : UInt32
  inodesPerGroup : UInt32
  inodeSize : Nat
  featureIncompat : UInt32
  descSize : Nat
  reservedGdtBlocks : Nat
  journalInode : UInt32
  featureCompat : UInt32
  featureRoCompat : UInt32
  firstInode : UInt32
  /-- `s_first_meta_bg`, as stored. -/
  metaBgField : UInt32
  backupBgs : List UInt32
  uuid : Bytes
  deriving DecidableEq

def Superblock.blockSize (sb : Superblock) : Nat := 1024 <<< sb.logBlockSize

theorem blockSize_ge (sb : Superblock) : 1024 ≤ sb.blockSize := by
  unfold Superblock.blockSize
  rw [Nat.shiftLeft_eq]
  have h := Nat.one_le_two_pow (n := sb.logBlockSize)
  omega

def Superblock.blockGroupCount (sb : Superblock) : Nat :=
  divCeil (sb.blocksCount - sb.firstDataBlock.toNat) (max sb.blocksPerGroup.toNat 1)

structure BlockGroupDescriptor where
  blockBitmap : Nat
  inodeBitmap : Nat
  inodeTable : Nat
  freeBlocksCount : Nat
  freeInodesCount : Nat
  usedDirsCount : Nat
  flags : UInt16
  deriving DecidableEq

/-- A mounted volume: what the mount parsed, and what its device reports about itself. -/
structure Filesystem where
  sb : Superblock
  groups : List BlockGroupDescriptor
  sizeBytes : Nat
  isWritable : Bool

def locateInode (sb : Superblock) (groups : List BlockGroupDescriptor) (ino : UInt32) :
    Result (Nat × Nat) := do
  if ino = 0 ∨ sb.inodesCount < ino then throw (.invalidInode ino)
  if sb.inodesPerGroup = 0 ∨ sb.inodeSize = 0 then
    throw (.corrupt "superblock: zero inodes_per_group or inode_size")
  let groupIdx := (ino.toNat - 1) / sb.inodesPerGroup.toNat
  let localIdx := (ino.toNat - 1) % sb.inodesPerGroup.toNat
  match groups[groupIdx]? with
  | none => throw (.invalidInode ino)
  | some bgd =>
    if sb.blockSize < sb.inodeSize then
      throw (.corrupt "superblock: inode_size larger than block_size")
    let inodesPerBlock := sb.blockSize / sb.inodeSize
    let block := bgd.inodeTable + localIdx / inodesPerBlock
    if 2 ^ 64 ≤ block then throw (.corrupt "inode table block number overflow")
    return (block, localIdx % inodesPerBlock * sb.inodeSize)

theorem locateInode_eq_ok {sb : Superblock} {groups : List BlockGroupDescriptor} {ino : UInt32}
    {block off : Nat} : locateInode sb groups ino = .ok (block, off) ↔
      (ino ≠ 0 ∧ ino ≤ sb.inodesCount) ∧ (sb.inodesPerGroup ≠ 0 ∧ 0 < sb.inodeSize) ∧
        sb.inodeSize ≤ sb.blockSize ∧ block < 2 ^ 64 ∧
        ∃ bgd, groups[(ino.toNat - 1) / sb.inodesPerGroup.toNat]? = some bgd ∧
          block = bgd.inodeTable +
            (ino.toNat - 1) % sb.inodesPerGroup.toNat / (sb.blockSize / sb.inodeSize) ∧
          off = (ino.toNat - 1) % sb.inodesPerGroup.toNat %
            (sb.blockSize / sb.inodeSize) * sb.inodeSize := by
  unfold locateInode
  simp only [throw, throwThe, MonadExceptOf.throw, bind, Except.bind, pure, Except.pure]
  constructor
  · intro h
    split at h
    · cases h
    rename_i hno
    split at h
    · cases h
    rename_i hzero
    cases hg : groups[(ino.toNat - 1) / sb.inodesPerGroup.toNat]? with
    | none =>
      rw [hg] at h
      cases h
    | some bgd =>
      rw [hg] at h
      dsimp only at h
      split at h
      · cases h
      rename_i hsize
      split at h
      · cases h
      rename_i hbig
      obtain ⟨rfl, rfl⟩ := Prod.mk.inj (Except.ok.inj h)
      obtain ⟨hne, hcount⟩ := not_or.mp hno
      obtain ⟨hipg, hpos⟩ := not_or.mp hzero
      exact ⟨⟨hne, UInt32.not_lt.mp hcount⟩, ⟨hipg, Nat.pos_of_ne_zero hpos⟩,
        Nat.le_of_not_lt hsize, Nat.lt_of_not_le hbig, bgd, rfl, rfl, rfl⟩
  · rintro ⟨⟨hne, hcount⟩, ⟨hipg, hpos⟩, hsize, hbig, bgd, hg, rfl, rfl⟩
    rw [if_neg (not_or.mpr ⟨hne, UInt32.not_lt.mpr hcount⟩), if_neg (not_or.mpr ⟨hipg, by omega⟩),
      hg]
    dsimp only
    rw [if_neg (Nat.not_lt.mpr hsize), if_neg (Nat.not_le.mpr hbig)]

namespace Filesystem

def readBlock (fs : Filesystem) (block : Nat) : DevIo Bytes :=
  if 2 ^ 64 ≤ block * fs.sb.blockSize then .fail (.corrupt "block byte offset overflow")
  else readAt (block * fs.sb.blockSize) fs.sb.blockSize

def readInodeRaw (fs : Filesystem) (ino : UInt32) : DevIo Bytes := do
  let (block, off) ← liftM (locateInode fs.sb fs.groups ino)
  let data ← fs.readBlock block
  if data.length < off + fs.sb.inodeSize then
    .fail (.corrupt "inode slice exceeds block data")
  else
    return slice data off fs.sb.inodeSize

def journalInode (fs : Filesystem) : DevIo Inode := do
  let raw ← fs.readInodeRaw fs.sb.journalInode
  liftM (Inode.parse raw)

def journalBlockToPhysical (fs : Filesystem) (jinode : Inode) (journalBlock : Nat) :
    DevIo (Option Nat) :=
  Indirect.mapLogicalAny jinode.block jinode.flags fs.sb.blockSize journalBlock

def readSuperblock (fs : Filesystem) : DevIo (Option Jbd2.JournalSuperblock) := do
  if fs.sb.journalInode = 0 then return none
  let jinode ← fs.journalInode
  match ← fs.journalBlockToPhysical jinode 0 with
  | none => .fail (.corrupt "journal block 0 unmapped (sparse journal?)")
  | some phys =>
    let buf ← readAt (phys * fs.sb.blockSize) fs.sb.blockSize
    return some (← liftM (Jbd2.JournalSuperblock.parse buf))

end Filesystem

end FsExt4
