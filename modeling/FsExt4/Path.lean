import FsExt4.Htree
import FsExt4.InlineData

namespace FsExt4

open Lib Jbd2 Dir

def inodeFlagEncrypt : UInt32 := 0x00000800
def inodeFlagIndex : UInt32 := 0x00001000
def inodeFlagInlineData : UInt32 := 0x10000000

def incompatFiletype : UInt32 := 0x2

def Inode.hasInlineData (inode : Inode) : Bool := inode.flags &&& inodeFlagInlineData != 0

def Inode.isIndexed (inode : Inode) : Bool := inode.flags &&& inodeFlagIndex != 0

def refuseEncryptedNames (dir : Inode) : Result Unit :=
  if dir.flags &&& inodeFlagEncrypt ≠ 0 then
    .error (.unsupported
      "the directory's names are encrypted (EXT4_ENCRYPT_FL) and this driver holds no key")
  else .ok ()

def Superblock.hasFiletype (sb : Superblock) : Bool := sb.featureIncompat &&& incompatFiletype != 0

/-- `s_hash_seed` and the unsigned-hash bit of `s_flags`, which only directory lookups read. -/
structure HashParams where
  hashSeed : List UInt32
  unsignedHash : Bool

namespace Path

/-- What every lookup is given besides the directory: the superblock and the checksummer. -/
structure Volume where
  sb : Superblock
  hash : HashParams
  csum : Checksummer

namespace Volume

def blockSize (v : Volume) : Nat := v.sb.blockSize

def totalBlocks (v : Volume) (dir : Inode) : Nat := divCeil dir.size v.blockSize

def mapBlock (v : Volume) (dir : Inode) (logical : Nat) : DevIo (Option Nat) :=
  Indirect.mapLogicalAny dir.block dir.flags v.blockSize logical

def readPhys (v : Volume) (phys : Nat) : DevIo Bytes := readAt (phys * v.blockSize) v.blockSize

end Volume

/-- The first entry of the name among what a block yields, before its first error. -/
def findIn (name : Bytes) : List (Result DirEntry) → Result (Option UInt32)
  | [] => .ok none
  | .error e :: _ => .error e
  | .ok entry :: rest => if entry.name = name then .ok (some entry.inode) else findIn name rest

section Lookup

variable (crc : Crc) (v : Volume) (dirIno : UInt32) (dirInode : Inode) (name : Bytes)

def findInBlocks : List Nat → DevIo UInt32
  | [] => .fail .notFound
  | logical :: rest => do
    match ← v.mapBlock dirInode logical with
    | none => findInBlocks rest
    | some phys =>
      let block ← v.readPhys phys
      match parseBlockVerified crc block v.sb.hasFiletype dirIno dirInode.generation v.csum with
      | .ok entries =>
        match entries.find? (fun e => e.name == name) with
        | some entry => return entry.inode
        | none => findInBlocks rest
      | .error e =>
        -- the root of an index is not a run of entries
        if logical = 0 ∧ dirInode.isIndexed then findInBlocks rest else .fail e

def findEntryLinear : DevIo UInt32 :=
  findInBlocks crc v dirIno dirInode name (List.range (v.totalBlocks dirInode))

def readDxBlock (logical : UInt32) : DevIo Bytes := do
  match ← v.mapBlock dirInode logical.toNat with
  | none => .fail (.corruptDirEntry "htree pointed at sparse block")
  | some phys => v.readPhys phys

def findEntryHtree : DevIo (Option UInt32) := do
  match ← v.mapBlock dirInode 0 with
  | none => return none
  | some phys0 =>
    let rootBlock ← v.readPhys phys0
    match ← Htree.lookupLeafWith name rootBlock v.hash.hashSeed v.hash.unsignedHash
        (readDxBlock v dirInode) with
    | none => return none
    | some leafLogical =>
      match ← v.mapBlock dirInode leafLogical.toNat with
      | none => .fail (.corruptDirEntry "htree leaf at sparse block")
      | some phys =>
        let leaf ← v.readPhys phys
        if v.csum.enabled && hasCsumTail leaf &&
            !v.csum.verifyDirEntryTail crc dirIno dirInode.generation leaf then
          .fail (.badChecksum "directory block")
        else
          liftM (findIn name (dirBlockIter v.sb.hasFiletype leaf))

/-- The on-disk bytes of an inode, found through the one group descriptor it needs; they must be
the inode the lookup was given. -/
def readRawInode (ino : UInt32) (expected : Inode) : DevIo Bytes := do
  if ino = 0 ∨ v.sb.inodesCount < ino ∨ v.sb.inodesPerGroup = 0 then
    .fail (.invalidInode ino)
  else
    let group := (ino.toNat - 1) / v.sb.inodesPerGroup.toNat
    if v.sb.blockGroupCount ≤ group then .fail (.invalidInode ino)
    else
      let (descBlock, descOff) := v.sb.descriptorLocation group
      if 2 ^ 64 ≤ descBlock * v.blockSize then
        .fail (.corrupt "group descriptor block number overflow")
      else
        let table ← readAt (descBlock * v.blockSize) v.blockSize
        if table.length < descOff + v.sb.descSize then
          .fail (.corrupt "group descriptor outside its block")
        else
          let bgd ← liftM (BlockGroupDescriptor.parse (slice table descOff v.sb.descSize)
            v.sb.descSize)
          let loc := (ino.toNat - 1) % v.sb.inodesPerGroup.toNat
          let offset := bgd.inodeTable * v.blockSize + loc * v.sb.inodeSize
          if 2 ^ 64 ≤ offset then .fail (.corrupt "inode table offset overflow")
          else
            let raw ← readAt offset v.sb.inodeSize
            let parsed ← liftM (Inode.parse raw)
            if v.csum.enabled && !v.csum.verifyInode crc ino parsed.generation raw then
              .fail (.badChecksum "inode")
            else if parsed.block ≠ expected.block ∨ parsed.size ≠ expected.size ∨
                parsed.generation ≠ expected.generation then
              .fail (.corrupt
                "inline directory: the inode table disagrees with the inode being looked up")
            else
              return raw

def findInline : DevIo UInt32 := do
  let inBlock ← liftM (InlineData.dirEntries dirIno dirInode [] v.sb.hasFiletype)
  match inBlock.find? (fun e => e.name == name) with
  | some entry => return entry.inode
  | none =>
    if dirInode.size ≤ InlineData.inlineBlockSize then .fail .notFound
    else
      let raw ← readRawInode crc v dirIno dirInode
      let continuation ← InlineData.dirContinuation dirInode raw v.sb.inodeSize v.blockSize
      match ← liftM (findIn name (dirBlockIter v.sb.hasFiletype continuation)) with
      | some ino => return ino
      | none => .fail .notFound

/-- The inode of an entry of a directory, by name: through the index first where there is one. -/
def findEntry : DevIo UInt32 := do
  let _ ← liftM (refuseEncryptedNames dirInode)
  if dirInode.hasInlineData then findInline crc v dirIno dirInode name
  else if dirInode.isIndexed then
    match ← findEntryHtree crc v dirIno dirInode name with
    | some found => return found
    | none => findEntryLinear crc v dirIno dirInode name
  else findEntryLinear crc v dirIno dirInode name

end Lookup

def maxDirEntries : Nat := 1000000

def pushAll : List DirEntry → List (Result DirEntry) → Result (List DirEntry)
  | entries, [] => .ok entries
  | _, .error e :: _ => .error e
  | entries, .ok e :: rest =>
    if maxDirEntries ≤ entries.length then .error (.corrupt "dir entries exceed MAX_DIR_ENTRIES")
    else pushAll (entries ++ [e]) rest

section Listing

variable (v : Volume) (ino : UInt32) (inode : Inode) (inodeRaw : Bytes)

def listBlocks : List Nat → List DirEntry → DevIo (List DirEntry)
  | [], entries => pure entries
  | logical :: rest, entries => do
    match ← Extent.mapLogical inode.block v.blockSize logical with
    | none => listBlocks rest entries
    | some phys =>
      let block ← v.readPhys phys
      let entries ← liftM (pushAll entries (dirBlockIter v.sb.hasFiletype block))
      listBlocks rest entries

def dirEntries : DevIo (List DirEntry) := do
  let _ ← liftM (refuseEncryptedNames inode)
  if inode.hasInlineData then
    InlineData.readDir ino inode inodeRaw v.sb.inodeSize v.blockSize v.sb.hasFiletype
  else if !inode.hasExtents then .fail (.corrupt "legacy (non-extent) dirs not yet supported")
  else listBlocks v inode (List.range (v.totalBlocks inode)) []

end Listing

end Path

end FsExt4
