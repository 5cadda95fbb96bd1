import FsExt4.DirRuns
import FsExt4.HtreeLeaf
import FsExt4.HtreeRouting

namespace FsExt4

open Lib Jbd2 Dir Hash

namespace Mount

/-- What splitting a leaf stages: the new leaf, the halved one and the index block that routes to
both. -/
structure HtreeSplit where
  right : Bytes
  leafPhys : Nat
  left : Bytes
  parentPhys : Nat
  parent : Bytes

section Model

variable (crc : Crc) (m : Mount) (d : Disk)

/-- The index block that names the leaf of a hash, with the offset of its count and limit, and that
leaf. -/
def splitParent (buf : BlockBuffer) (dirIno : UInt32) (dir : Inode) (rootPhys : Nat) (root : Bytes)
    (indirectLevels : Nat) (major : UInt32) : Result (Nat × Bytes × Nat × UInt32) := do
  let (_, rootEntries) ← Htree.parseRootEntries root
  let routed := (Htree.findEntryForHash rootEntries major).block
  if indirectLevels = 0 then return (rootPhys, root, 32, routed)
  else
    let nodePhys ← m.physical d dir routed.toNat
    let node ← buf.bufferedBlock (m.fs.reader d) nodePhys
    m.checkDxBlock crc dirIno dir node false
    let (_, entries) ← Htree.parseNodeEntries node
    return (nodePhys, node, 8, (Htree.findEntryForHash entries major).block)

/-- How many bytes at the end of the leaf are the checksum's, which must be right. -/
def splitTail (dirIno : UInt32) (dir : Inode) (leaf : Bytes) : Result Nat :=
  if m.csum.enabled && hasCsumTail leaf then
    if m.csum.verifyDirEntryTail crc dirIno dir.generation leaf then .ok 12
    else .error (.badChecksum "directory block")
  else .ok 0

/-- The halves with the entry in the one its hash belongs in, when it fits there. -/
def addToHalf (split : LeafSplit) (major : UInt32) (targetIno : UInt32) (name : Bytes)
    (fileType : DirEntryType) (hasFt : Bool) (reserved : Nat) : Result (Bytes × Bytes) :=
  if split.splitOutHash ≤ major then
    (addEntryToBlock split.rightBytes targetIno name fileType hasFt reserved).map
      (fun b => (split.leftBytes, b))
  else (addEntryToBlock split.leftBytes targetIno name fileType hasFt reserved).map
    (fun b => (b, split.rightBytes))

/-- The split of the leaf that the name is routed to; none when this is not a split that is made. -/
def planHtreeSplit (hash : HashParams) (buf : BlockBuffer) (dirIno : UInt32) (name : Bytes)
    (targetIno : UInt32) (fileType : DirEntryType) (hasFt : Bool) : Result (Option HtreeSplit) := do
  let (dir, _) ← m.bufferedInodeVerified crc d buf dirIno
  if !dir.isIndexed ∨ dir.flags &&& (inodeFlagCasefold ||| inodeFlagEncrypt) ≠ 0 then return none
  let rootPhys ← m.physical d dir 0
  let root ← buf.bufferedBlock (m.fs.reader d) rootPhys
  m.checkDxBlock crc dirIno dir root true
  let info ← Htree.parseRootInfo root
  if 1 < info.indirectLevels then return none
  let version := effectiveVersion info.hashVersion hash.unsignedHash
  let major := (nameHash name version hash.hashSeed).major
  let (parentPhys, parent, countOffset, leafLogical) ←
    m.splitParent crc d buf dirIno dir rootPhys root info.indirectLevels major
  if leafLogical = 0 then throw (.corruptDirEntry "htree routes a name to its own root")
  let leafPhys ← m.physical d dir leafLogical.toNat
  let leaf ← buf.bufferedBlock (m.fs.reader d) leafPhys
  let reserved ← m.splitTail crc dirIno dir leaf
  match planLeafSplit leaf version hash.hashSeed hasFt m.fs.sb.blockSize reserved with
  | .error _ => return none
  | .ok split =>
    let newLogical := divCeil dir.size m.fs.sb.blockSize
    if 2 ^ 32 ≤ newLogical then throw (.corrupt "directory too large to index another block")
    let routed := if countOffset = 32 then
        Htree.planInsertDxEntryRoot parent 32 split.splitOutHash (UInt32.ofNat newLogical)
      else Htree.planInsertDxEntryNode parent split.splitOutHash (UInt32.ofNat newLogical)
    match routed with
    | .error (.corruptExtentTree _) => return none
    | .error e => throw e
    | .ok parent =>
      match addToHalf split major targetIno name fileType hasFt reserved with
      | .error .outOfBounds => return none
      | .error e => throw e
      | .ok (left, right) =>
        return some {
          right := m.retailed crc dirIno dir reserved right
          leafPhys := leafPhys
          left := m.retailed crc dirIno dir reserved left
          parentPhys := parentPhys
          parent := (m.csum.patchDxTail crc dirIno dir.generation parent countOffset).getD parent }

/-- Split the full leaf that the name is routed to and add the entry; none when nothing is
staged. -/
def bufferSplitHtreeLeafAndAddEntry (fuel : Nat) (hash : HashParams) (buf : BlockBuffer)
    (dirIno : UInt32) (name : Bytes) (targetIno : UInt32) (fileType : DirEntryType) (hasFt : Bool) :
    Option (Result (Option BlockBuffer)) :=
  match m.planHtreeSplit crc d hash buf dirIno name targetIno fileType hasFt with
  | .error e => some (.error e)
  | .ok none => some (.ok none)
  | .ok (some split) =>
    (m.bufferAppendDirBlock crc d fuel buf dirIno split.right).map (fun grown => do
      let buf ← grown
      return some ((buf.put split.leafPhys split.left).put split.parentPhys split.parent))

/-- Add an entry by growing the directory: a split of a leaf, or else a block of its own, the index
dropped. -/
def extendDirAndAddEntry (fuel : Nat) (hash : HashParams) (buf : BlockBuffer) (parentIno : UInt32)
    (name : Bytes) (targetIno : UInt32) (fileType : DirEntryType) : Option (Result BlockBuffer) :=
  let hasFt := m.fs.sb.hasFiletype
  match m.bufferSplitHtreeLeafAndAddEntry crc d fuel hash buf parentIno name targetIno
    fileType hasFt with
  | none => none
  | some (.error e) => some (.error e)
  | some (.ok (some buf)) => some (.ok buf)
  | some (.ok none) =>
    let seeded : Result (BlockBuffer × Bytes) := do
      let buf ← bufferDropHtreeIndex crc m d buf parentIno
      let (parentInode, _) ← m.bufferedInodeVerified crc d buf parentIno
      let block ← seededDirBlock crc m parentInode parentIno name targetIno fileType hasFt
      return (buf, block)
    match seeded with
    | .error e => some (.error e)
    | .ok (buf, block) => m.bufferAppendDirBlock crc d fuel buf parentIno block

end Model

theorem extendDirAndAddEntry_of_unsplit {crc : Crc} {m : Mount} {d : Disk} {hash : HashParams}
    {buf buf' : BlockBuffer}
    {dirIno targetIno : UInt32} {dir dir' : Inode} {raw raw' name block : Bytes}
      {fileType : DirEntryType}
    (hinode : m.bufferedInodeVerified crc d buf dirIno = .ok (dir, raw))
    (hunsplit : !dir.isIndexed ∨ dir.flags &&& (inodeFlagCasefold ||| inodeFlagEncrypt) ≠ 0)
    (hdrop : bufferDropHtreeIndex crc m d buf dirIno = .ok buf')
    (hdropped : m.bufferedInodeVerified crc d buf' dirIno = .ok (dir', raw'))
    (hblock : seededDirBlock crc m dir' dirIno name targetIno fileType m.fs.sb.hasFiletype =
      .ok block) (fuel : Nat) :
    m.extendDirAndAddEntry crc d fuel hash buf dirIno name targetIno fileType =
      m.bufferAppendDirBlock crc d fuel buf' dirIno block := by
  have hplan : m.planHtreeSplit crc d hash buf dirIno name targetIno fileType m.fs.sb.hasFiletype =
      .ok none := by
    rw [planHtreeSplit, hinode, Result.ok_bind]
    exact if_pos hunsplit
  rw [extendDirAndAddEntry, bufferSplitHtreeLeafAndAddEntry, hplan]
  dsimp only
  rw [hdrop, Result.ok_bind, hdropped, Result.ok_bind]
  dsimp only
  rw [hblock]
  rfl

/-- Adding `b` to a directory of casefolded names drops its index: the node under a root of a hash
version that is not known is missed, and the drop succeeds. -/
theorem drop_misses_node : ∃ buf' block,
    (∀ fuel, oneNodeMount.extendDirAndAddEntry linuxCrc32c (oneNodeDisk false) fuel Path.small.hash
      oneNodeBuffer 12 [0x62] 14 .regFile =
      oneNodeMount.bufferAppendDirBlock linuxCrc32c (oneNodeDisk false) fuel buf' 12 block) ∧
      oneNodeMount.bufferDropHtreeIndex linuxCrc32c (oneNodeDisk false) oneNodeBuffer
        12 = .ok buf' ∧
      oneNodeMount.bufferedInodeVerified linuxCrc32c (oneNodeDisk false) oneNodeBuffer 12 =
        .ok (oneNodeInode, oneNodeRaw) ∧
      oneNodeMount.IndexedDirectory linuxCrc32c (oneNodeDisk false) 12 oneNodeInode
        (oneNodeView false) oneNodeDot (oneNodeDotdot false) ∧
      ¬ oneNodeMount.DropsIndex linuxCrc32c (oneNodeDisk false) 12 oneNodeInode (oneNodeView false)
        oneNodeDot (oneNodeDotdot false) buf' := by
  obtain ⟨buf', h⟩ := oneNode_drops false
  have hdir := oneNode_directory false
  have hinode := oneNode_inode false
  have hdropped := hdir.dropped hinode h
  obtain ⟨raw', hinode'⟩ := hdropped.flag
  have hadded : Result.Ends (fun _ => True)
    (seededDirBlock linuxCrc32c oneNodeMount oneNodeInode.unindexed 12
      [0x62] 14 .regFile oneNodeMount.fs.sb.hasFiletype) := by decide +kernel
  obtain ⟨block, hblock, -⟩ := hadded.exists_ok
  refine ⟨buf', block, extendDirAndAddEntry_of_unsplit hinode (.inr (by decide)) h hinode' hblock,
    h, hinode, hdir, ?_⟩
  intro hdrops
  obtain hoff | hversion | hnone := IndexedDirectory.findsNodes hdir hdropped hdrops
  · cases hoff
  · rw [← oneNodeView, oneNode_root] at hversion
    exact absurd hversion (by decide)
  · rw [← oneNodeView, oneNode_levels] at hnone
    cases hnone

end Mount

end FsExt4
