import FsExt4.Filesystem

namespace FsExt4

open Lib Jbd2

def compatSparseSuper2 : UInt32 := 0x200
def incompatMetaBg : UInt32 := 0x10
def incompat64bit : UInt32 := 0x80
def incompatFlexBg : UInt32 := 0x200
def roCompatSparseSuper : UInt32 := 0x1
def roCompatGdtCsum : UInt32 := 0x10

/-- `while g % base == 0 { g /= base }; g == 1`, in at most the given number of divisions. -/
def isPowerOf (base : Nat) : Nat → Nat → Bool
  | 0, g => g == 1
  | n + 1, g => if g % base = 0 then isPowerOf base n (g / base) else g == 1

def classicSparseSuper (g : Nat) : Bool :=
  decide (g ≤ 1) || isPowerOf 3 g g || isPowerOf 5 g g || isPowerOf 7 g g

namespace Superblock

def groupHasSuper (sb : Superblock) (g : Nat) : Bool :=
  if g = 0 then true
  else if sb.featureCompat &&& compatSparseSuper2 ≠ 0 then sb.backupBgs.any (fun b => b.toNat == g)
  else if sb.featureRoCompat &&& roCompatSparseSuper = 0 then true
  else classicSparseSuper g

def descsPerBlock (sb : Superblock) : Nat := sb.blockSize / max sb.descSize 1

def hasMetaBg (sb : Superblock) : Bool := sb.featureIncompat &&& incompatMetaBg != 0

def firstMetaBg (sb : Superblock) : Nat := if sb.hasMetaBg then sb.metaBgField.toNat else 0

def primarySuperblockBlock (sb : Superblock) : Nat := superblockOffset / sb.blockSize

def firstBlockOfGroup (sb : Superblock) (group : Nat) : Nat :=
  sb.firstDataBlock.toNat + group * sb.blocksPerGroup.toNat

/-- The meta group whose own descriptor block describes `group`, if it is not described by the run
after the superblock. -/
def metaGroupHolding (sb : Superblock) (group : Nat) : Option Nat :=
  if sb.hasMetaBg then
    let metaGroup := group / sb.descsPerBlock
    if sb.firstMetaBg ≤ metaGroup then some metaGroup else none
  else none

def sharedDescriptorRun (sb : Superblock) : Nat :=
  if sb.hasMetaBg then sb.firstMetaBg else divCeil sb.blockGroupCount sb.descsPerBlock

def descriptorLocation (sb : Superblock) (group : Nat) : Nat × Nat :=
  let perBlock := sb.descsPerBlock
  let offset := group % perBlock * sb.descSize
  let block := match sb.metaGroupHolding group with
    | none => sb.primarySuperblockBlock + 1 + group / perBlock
    | some metaGroup =>
      let headGroup := metaGroup * perBlock
      if headGroup = 0 then sb.primarySuperblockBlock + 1
      else sb.firstBlockOfGroup headGroup + (sb.groupHasSuper headGroup).toNat
  (block, offset)

/-- The blocks at the head of a group: superblock copy, descriptors, reserved descriptor blocks. -/
def groupHeadMetadataBlocks (sb : Superblock) (group : Nat) : Nat :=
  let superblock := (sb.groupHasSuper group).toNat
  match sb.metaGroupHolding group with
  | some metaGroup =>
    let perBlock := sb.descsPerBlock
    let place := group - metaGroup * perBlock
    superblock + (decide (place = 0 ∨ place = 1 ∨ place = perBlock - 1)).toNat
  | none => if superblock = 1 then 1 + sb.sharedDescriptorRun + sb.reservedGdtBlocks else 0

def inodeTableBlocks (sb : Superblock) : Nat :=
  divCeil (sb.inodesPerGroup.toNat * sb.inodeSize) sb.blockSize

end Superblock

namespace Superblock

def roCompatBigalloc : UInt32 := 0x200

def maxLogClusterSize : Nat := 20

/-- `check_group_fits_bitmap`, which reads `s_log_cluster_size` and `s_clusters_per_group` under
BIGALLOC. -/
def checkGroupFitsBitmap (sb : Superblock) (logClusterSize clustersPerGroup : UInt32) :
    Result Unit :=
  if sb.featureRoCompat &&& roCompatBigalloc = 0 then
    if sb.blockSize * 8 < sb.blocksPerGroup.toNat then
      .error (.corrupt "superblock: blocks_per_group exceeds the bits in one bitmap block")
    else .ok ()
  else if logClusterSize.toNat < sb.logBlockSize ∨ maxLogClusterSize < logClusterSize.toNat then
    .error (.corrupt "superblock: bigalloc cluster is smaller than a block or larger than ext4 allows")
  else if clustersPerGroup = 0 ∨ sb.blockSize * 8 < clustersPerGroup.toNat then
    .error (.corrupt "superblock: clusters_per_group is zero or exceeds the bits in one bitmap block")
  else if clustersPerGroup.toNat * 2 ^ (logClusterSize.toNat - sb.logBlockSize) ≠
    sb.blocksPerGroup.toNat then
    .error (.corrupt "superblock: blocks_per_group is not clusters_per_group clusters")
  else .ok ()

/-- The refusals of `Superblock::parse` that bound the geometry, over the words that only BIGALLOC
reads. -/
def checkGeometry (sb : Superblock) (logClusterSize clustersPerGroup : UInt32) : Result Unit := do
  if sb.blocksPerGroup = 0 then .error (.corrupt "superblock: blocks_per_group == 0")
  else if sb.inodesPerGroup = 0 then .error (.corrupt "superblock: inodes_per_group == 0")
  else if sb.inodeSize = 0 then .error (.corrupt "superblock: inode_size == 0")
  else if 6 < sb.logBlockSize then
    .error (.corrupt "superblock: log_block_size exceeds the largest ext4 block")
  else
    sb.checkGroupFitsBitmap logClusterSize clustersPerGroup
    if sb.featureIncompat &&& incompat64bit ≠ 0 ∧ sb.descSize ∉ [64, 128, 256, 512, 1024] then
      .error (.corrupt "superblock: desc_size is not a group descriptor size")
    else if sb.blocksCount = 0 then .error (.corrupt "superblock: blocks_count == 0")
    else if sb.blocksCount ≤ sb.firstDataBlock.toNat then
      .error (.corrupt "superblock: first_data_block is at or past the end of the filesystem")
    else if sb.firstDataBlock = 0 ∧ sb.logBlockSize = 0 ∧
      sb.featureRoCompat &&& roCompatBigalloc = 0 then
      .error (.corrupt "superblock: a 1 KiB-block filesystem's first data block is 0, not 1")
    else .ok ()

/-- A superblock that parsing accepted; without 64BIT the descriptor size field is not read. -/
structure Parsed (sb : Superblock) : Prop where
  geometry : ∃ logClusterSize clustersPerGroup, sb.checkGeometry logClusterSize clustersPerGroup =
    .ok ()
  legacy : sb.featureIncompat &&& incompat64bit = 0 → sb.descSize = 32
  firstInode : 11 ≤ sb.firstInode

structure Sizes (sb : Superblock) : Prop where
  blocksPerGroup : 0 < sb.blocksPerGroup.toNat
  inodesPerGroup : 0 < sb.inodesPerGroup.toNat
  inodeSize : 0 < sb.inodeSize
  descSize : 32 ≤ sb.descSize ∧ sb.descSize ≤ 1024
  firstDataBlock : sb.firstDataBlock.toNat < sb.blocksCount

/-- The bounds of a volume whose bitmaps count blocks. -/
structure Bounds (sb : Superblock) : Prop extends Sizes sb where
  bitmap : sb.blocksPerGroup.toNat ≤ sb.blockSize * 8
  bootBlock : sb.firstDataBlock.toNat = 0 → sb.logBlockSize ≠ 0

theorem checkGroupFitsBitmap_blocks {sb : Superblock} {logClusterSize clustersPerGroup : UInt32}
    (hclusters : sb.featureRoCompat &&& roCompatBigalloc = 0)
    (h : sb.checkGroupFitsBitmap logClusterSize clustersPerGroup = .ok ()) :
    sb.blocksPerGroup.toNat ≤ sb.blockSize * 8 := by
  rw [checkGroupFitsBitmap, if_pos hclusters] at h
  by_contra hlt
  rw [if_pos (Nat.lt_of_not_le hlt)] at h
  cases h

theorem Parsed.checks {sb : Superblock} (h : sb.Parsed) : sb.Sizes ∧
    (sb.featureRoCompat &&& roCompatBigalloc = 0 → sb.blocksPerGroup.toNat ≤ sb.blockSize * 8 ∧
      (sb.firstDataBlock.toNat = 0 → sb.logBlockSize ≠ 0)) := by
  obtain ⟨logClusterSize, clustersPerGroup, hg⟩ := h.geometry
  unfold checkGeometry at hg
  split at hg
  · cases hg
  rename_i hbpg
  split at hg
  · cases hg
  rename_i hipg
  split at hg
  · cases hg
  rename_i hinode
  split at hg
  · cases hg
  obtain ⟨⟨⟩, hgroup, hg⟩ := Result.bind_eq_ok hg
  split at hg
  · cases hg
  rename_i hdesc
  split at hg
  · cases hg
  split at hg
  · cases hg
  rename_i hfirst
  split at hg
  · cases hg
  rename_i hboot
  have hne : ∀ v : UInt32, v ≠ 0 → 0 < v.toNat := by
    intro v hv
    apply Nat.pos_of_ne_zero
    intro h0
    exact hv (UInt32.toNat_inj.mp h0)
  refine ⟨⟨hne _ hbpg, hne _ hipg, Nat.pos_of_ne_zero hinode, ?_, Nat.lt_of_not_le hfirst⟩,
      fun hclusters =>
    ⟨checkGroupFitsBitmap_blocks hclusters hgroup, ?_⟩⟩
  · by_cases hbit : sb.featureIncompat &&& incompat64bit = 0
    · rw [h.legacy hbit]
      decide
    · have hmem : sb.descSize ∈ [64, 128, 256, 512, 1024] := by
        by_contra hn
        exact hdesc ⟨hbit, hn⟩
      simp only [List.mem_cons, List.not_mem_nil, or_false] at hmem
      omega
  · intro h0 hlog
    exact hboot ⟨UInt32.toNat_inj.mp h0, hlog, hclusters⟩

theorem Parsed.sizes {sb : Superblock} (h : sb.Parsed) : sb.Sizes := h.checks.1

theorem Parsed.bounds {sb : Superblock} (h : sb.Parsed)
    (hclusters : sb.featureRoCompat &&& roCompatBigalloc = 0) :
    sb.Bounds :=
  ⟨h.sizes, (h.checks.2 hclusters).1, (h.checks.2 hclusters).2⟩

theorem Sizes.descsPerBlock_pos {sb : Superblock} (h : sb.Sizes) : 0 < sb.descsPerBlock := by
  have hbs := blockSize_ge sb
  have hds := h.descSize
  unfold descsPerBlock
  rw [Nat.max_eq_left (by omega)]
  exact Nat.div_pos (by omega) (by omega)

theorem Sizes.descriptor_fits {sb : Superblock} (h : sb.Sizes) (g : Nat) :
    (sb.descriptorLocation g).2 + sb.descSize ≤ sb.blockSize := by
  have hpos := h.descsPerBlock_pos
  have hds := h.descSize
  have hlt : g % sb.descsPerBlock < sb.descsPerBlock := Nat.mod_lt _ hpos
  have hmul : (g % sb.descsPerBlock + 1) * sb.descSize ≤ sb.descsPerBlock * sb.descSize :=
    Nat.mul_le_mul_right _ hlt
  have hper : sb.descsPerBlock * sb.descSize ≤ sb.blockSize := by
    unfold descsPerBlock
    rw [Nat.max_eq_left (by omega)]
    exact Nat.div_mul_le_self _ _
  change g % sb.descsPerBlock * sb.descSize + sb.descSize ≤ sb.blockSize
  rw [Nat.succ_mul] at hmul
  omega

theorem descriptor_disjoint {sb : Superblock} {g g' : Nat}
    (hne : sb.descriptorLocation g ≠ sb.descriptorLocation g')
    (hblock : (sb.descriptorLocation g).1 = (sb.descriptorLocation g').1) :
    (sb.descriptorLocation g).2 + sb.descSize ≤ (sb.descriptorLocation g').2 ∨
      (sb.descriptorLocation g').2 + sb.descSize ≤ (sb.descriptorLocation g).2 := by
  have hoff : g % sb.descsPerBlock ≠ g' % sb.descsPerBlock := by
    intro heq
    apply hne
    apply Prod.ext hblock
    change g % sb.descsPerBlock * sb.descSize = g' % sb.descsPerBlock * sb.descSize
    rw [heq]
  exact block_disjoint sb.descSize _ _ hoff

end Superblock

def inodeUninit : UInt16 := 0x1
def blockUninit : UInt16 := 0x2

namespace BlockGroupDescriptor

/-- A counter or pointer stored as a low part and, in wide descriptors, a high part. -/
def splitU16 (buf : Bytes) (wide : Bool) (lo hi : Nat) : Nat :=
  (u16leAt buf lo).toNat + if wide then (u16leAt buf hi).toNat * 2 ^ 16 else 0

def splitU32 (buf : Bytes) (wide : Bool) (lo hi : Nat) : Nat :=
  (u32leAt buf lo).toNat + if wide then (u32leAt buf hi).toNat * 2 ^ 32 else 0

def parse (buf : Bytes) (descSize : Nat) : Result BlockGroupDescriptor :=
  if buf.length < descSize then .error (.corrupt "bgd buffer too small")
  else
    let wide := decide (64 ≤ descSize)
    .ok {
      blockBitmap := splitU32 buf wide 0x00 0x20
      inodeBitmap := splitU32 buf wide 0x04 0x24
      inodeTable := splitU32 buf wide 0x08 0x28
      freeBlocksCount := splitU16 buf wide 0x0C 0x2C
      freeInodesCount := splitU16 buf wide 0x0E 0x2E
      usedDirsCount := splitU16 buf wide 0x10 0x30
      flags := u16leAt buf 0x12 }

def isUninit (bgd : BlockGroupDescriptor) (flag : UInt16) : Bool := bgd.flags &&& flag != 0

end BlockGroupDescriptor

structure Checksummer where
  seed : UInt32
  enabled : Bool

def crc16Bit (c : UInt16) : UInt16 := if c &&& 1 ≠ 0 then (c >>> 1) ^^^ 0xA001 else c >>> 1

def crc16 (crc : UInt16) (data : Bytes) : UInt16 :=
  data.foldl (fun c b => Nat.iterate crc16Bit 8 (c ^^^ b.toUInt16)) crc

/-- The checksum a group descriptor must carry at 0x1E, if the volume asks for one. -/
def groupDescCsum (crc : Crc) (sb : Superblock) (csum : Checksummer) (group : Nat) (desc : Bytes) :
    Option UInt16 :=
  let n := sb.descSize
  let leGroup := u32le (UInt32.ofNat group)
  if desc.length < n ∨ n < 0x20 then none
  else if sb.featureRoCompat &&& roCompatMetadataCsum ≠ 0 then
    let c := crc csum.seed leGroup
    let c := crc c (slice desc 0 0x1E)
    let c := crc c [0, 0]
    let c := crc c (slice desc 0x20 (n - 0x20))
    some c.toUInt16
  else if sb.featureRoCompat &&& roCompatGdtCsum = 0 then none
  else
    let c := crc16 0xFFFF sb.uuid
    let c := crc16 c leGroup
    let c := crc16 c (slice desc 0 0x1E)
    some (if sb.featureIncompat &&& incompat64bit ≠ 0 then crc16 c
      (slice desc 0x20 (n - 0x20)) else c)

/-- Bounded below by group 0's head, and without FLEX_BG by the descriptor's own group. -/
def checkPointersWithin (sb : Superblock) (group : Nat) (bgd : BlockGroupDescriptor)
    (tableBlocks : Nat) : Result Unit :=
  let group0MetadataEnd := superblockOffset / sb.blockSize + sb.groupHeadMetadataBlocks 0
  let tableLast := bgd.inodeTable + max tableBlocks 1 - 1
  if bgd.blockBitmap < group0MetadataEnd ∨ bgd.inodeBitmap < group0MetadataEnd ∨
      bgd.inodeTable < group0MetadataEnd then
    .error (.corrupt "a block group descriptor points into group 0's superblock or descriptor table")
  else if sb.featureIncompat &&& incompatFlexBg ≠ 0 then .ok ()
  else
    let first := sb.firstBlockOfGroup group
    let last := min (first + sb.blocksPerGroup.toNat) sb.blocksCount - 1
    let within := fun b => first ≤ b ∧ b ≤ last
    if ¬ (within bgd.blockBitmap ∧ within bgd.inodeBitmap ∧ within bgd.inodeTable) ∨
        last < tableLast then
      .error (.corrupt "a block group descriptor points outside its own group, without flex_bg")
    else .ok ()

def acceptDescriptor (crc : Crc) (sb : Superblock) (csum : Checksummer) (group : Nat)
    (raw : Bytes) : Result BlockGroupDescriptor := do
  let stored := u16leAt raw 0x1E
  if (groupDescCsum crc sb csum group raw).any (fun want => want != stored) then
    throw (.badChecksum "block group descriptor")
  let bgd ← BlockGroupDescriptor.parse raw sb.descSize
  let tableBlocks := sb.inodeTableBlocks
  if sb.blocksCount ≤ bgd.blockBitmap ∨ sb.blocksCount ≤ bgd.inodeBitmap ∨
      sb.blocksCount < bgd.inodeTable + tableBlocks then
    throw (.corrupt "a block group descriptor points outside the filesystem")
  checkPointersWithin sb group bgd tableBlocks
  return bgd

/-- The table block of `block`: the one at hand, or read from the device. -/
def tableBlock (sb : Superblock) (sizeBytes block : Nat) (held : Option (Nat × Bytes)) :
    DevIo Bytes := do
  match held with
  | some (b, bytes) => if b = block then return bytes
  | none => pure ()
  if 2 ^ 64 ≤ (block + 1) * sb.blockSize then
    .fail (.corrupt "superblock: the group descriptor table's extent overflows")
  else if sizeBytes < (block + 1) * sb.blockSize then
    .fail (.corrupt "superblock: the group descriptor table reaches past the end of the device")
  else readAt (block * sb.blockSize) sb.blockSize

def readDescriptors (crc : Crc) (sb : Superblock) (csum : Checksummer) (sizeBytes : Nat) :
    List Nat → Option (Nat × Bytes) → DevIo (List BlockGroupDescriptor)
  | [], _ => pure []
  | i :: rest, held => do
    let (block, off) := sb.descriptorLocation i
    let bytes ← tableBlock sb sizeBytes block held
    let bgd ← liftM (acceptDescriptor crc sb csum i (slice bytes off sb.descSize))
    let groups ← readDescriptors crc sb csum sizeBytes rest (some (block, bytes))
    return bgd :: groups

def readAll (crc : Crc) (sb : Superblock) (csum : Checksummer) (sizeBytes : Nat) :
    DevIo (List BlockGroupDescriptor) := do
  let groupCount := sb.blockGroupCount
  if 2 ^ 64 ≤ groupCount * sb.descSize then
    .fail (.corrupt "superblock: the group descriptor table's size overflows")
  else if sizeBytes < groupCount * sb.descSize then
    .fail (.corrupt "superblock: the group descriptor table reaches past the end of the device")
  else readDescriptors crc sb csum sizeBytes (List.range groupCount) none

end FsExt4
