import FsExt4.GroupDescriptors
import FsExt4.Lib.Bitmap

namespace FsExt4.Alloc

open Lib

structure BitmapWrite where
  bitmapBlock : Nat
  bitStart : Nat
  count : Nat
  set : Bool
  deriving DecidableEq

structure BgdCounterUpdate where
  groupIdx : Nat
  freeBlocksDelta : Int
  freeInodesDelta : Int
  usedDirsDelta : Int
  deriving DecidableEq

structure SuperblockCounterUpdate where
  freeBlocksDelta : Int
  freeInodesDelta : Int
  deriving DecidableEq

structure BlockAllocationPlan where
  firstBlock : Nat
  count : Nat
  bitmap : BitmapWrite
  bgd : BgdCounterUpdate
  sb : SuperblockCounterUpdate
  deriving DecidableEq

structure InodeAllocationPlan where
  inode : Nat
  isDir : Bool
  bitmap : BitmapWrite
  bgd : BgdCounterUpdate
  sb : SuperblockCounterUpdate
  deriving DecidableEq

def bitIsSet (bitmap : Bytes) (idx : Nat) : Bool :=
  decide (idx / 8 < bitmap.length) && (bitmap.getD (idx / 8) 0 &&& bitMask idx != 0)

/-- `max_bits.min(8 * bitmap.len())`: a bit that is not in the bitmap is not a free bit. -/
def clampBits (bitmap : Bytes) (maxBits : Nat) : Nat := min maxBits (bitmap.length * 8)

def trailingOnes : Nat → Nat → Nat
  | 0, _ => 0
  | n + 1, w => if w % 2 = 1 then trailingOnes n (w / 2) + 1 else 0

def scanTail (bitmap : Bytes) : Nat → Nat → Option Nat
  | 0, _ => none
  | n + 1, i => if !bitIsSet bitmap i then some i else scanTail bitmap n (i + 1)

def scanWords (bitmap : Bytes) (maxBits : Nat) : Nat → Nat → Option Nat
  | 0, i => scanTail bitmap (maxBits - i) i
  | n + 1, i =>
    if i + 64 ≤ maxBits ∧ i / 8 + 8 ≤ bitmap.length then
      let word := ofLe (slice bitmap (i / 8) 8)
      if word ≠ 2 ^ 64 - 1 then
        let cand := i + trailingOnes 64 word
        if cand < maxBits then some cand else none
      else scanWords bitmap maxBits n (i + 64)
    else scanTail bitmap (maxBits - i) i

def scanHead (bitmap : Bytes) (maxBits : Nat) : Nat → Nat → Option Nat
  | 0, i => scanWords bitmap maxBits maxBits i
  | n + 1, i =>
    if i < maxBits ∧ i % 64 ≠ 0 then
      if !bitIsSet bitmap i then some i else scanHead bitmap maxBits n (i + 1)
    else scanWords bitmap maxBits maxBits i

def findFirstFree (bitmap : Bytes) (start maxBits : Nat) : Option Nat :=
  let maxBits := clampBits bitmap maxBits
  if maxBits ≤ start then none else scanHead bitmap maxBits 64 start

def freeUntil (bitmap : Bytes) : Nat → Nat → Nat
  | 0, j => j
  | n + 1, j => if !bitIsSet bitmap j then freeUntil bitmap n (j + 1) else j

def freeRunFrom (bitmap : Bytes) (maxBits count : Nat) : Nat → Nat → Option Nat
  | 0, _ => none
  | n + 1, i =>
    if i + count ≤ maxBits then
      match findFirstFree bitmap i maxBits with
      | none => none
      | some runStart =>
        if runStart + count ≤ maxBits then
          let j := freeUntil bitmap (count - 1) (runStart + 1)
          if j = runStart + count then some runStart
          else freeRunFrom bitmap maxBits count n (j + 1)
        else none
    else none

def findFreeRun (bitmap : Bytes) (start maxBits count : Nat) : Option Nat :=
  if count = 0 then none
  else
    let maxBits := clampBits bitmap maxBits
    freeRunFrom bitmap maxBits count (maxBits + 1) start

def blocksInGroup (sb : Superblock) (gi : Nat) : Nat :=
  let ngroups := sb.blockGroupCount % 2 ^ 32
  if gi + 1 < ngroups then sb.blocksPerGroup.toNat
  else
    let remainder := (sb.blocksCount - sb.firstDataBlock.toNat) % sb.blocksPerGroup.toNat
    if remainder = 0 then sb.blocksPerGroup.toNat else remainder

/-- The ranges `(start, end)` of group-relative blocks an uninitialised group has in use. -/
def uninitGroupUsedRanges (sb : Superblock) (groups : List BlockGroupDescriptor) (gi : Nat) :
    List (Nat × Nat) :=
  let groupFirst := sb.firstBlockOfGroup gi
  let groupLen := blocksInGroup sb gi
  let head := sb.groupHeadMetadataBlocks gi
  let own := match groups[gi]? with
    | none => []
    | some desc =>
      [(desc.blockBitmap, 1), (desc.inodeBitmap, 1),
        (desc.inodeTable, sb.inodeTableBlocks)].filterMap
        fun (start, len) =>
          if groupFirst ≤ start ∧ start - groupFirst < groupLen then
            some (start - groupFirst, min (start - groupFirst + len) groupLen)
          else none
  (if 0 < head then [(0, min head groupLen)] else []) ++ own

def uninitBlockBitmap (sb : Superblock) (groups : List BlockGroupDescriptor) (gi : Nat) : Bytes :=
  let capacity := sb.blockSize * 8
  let padding := (min (blocksInGroup sb gi) capacity, capacity)
  (uninitGroupUsedRanges sb groups gi ++ [padding]).foldl
    (fun bitmap r => setBits bitmap (min r.1 capacity) (min r.2 capacity - min r.1 capacity))
    (List.replicate sb.blockSize 0)

def markReservedInGroup (sb : Superblock) (gi maxBits : Nat) (reserved : List Nat)
    (bitmap : Bytes) : Bytes :=
  let groupFirstBlock := sb.firstBlockOfGroup gi
  reserved.foldl
    (fun bitmap block =>
      if groupFirstBlock ≤ block ∧ block - groupFirstBlock < maxBits then
        setBit bitmap (block - groupFirstBlock)
      else bitmap)
    bitmap

def reservedBlocks (data : BlockAllocationPlan) (handedOut : List BlockAllocationPlan) : List Nat :=
  (data :: handedOut).flatMap (fun plan => (List.range plan.count).map (plan.firstBlock + ·))

def groupOrder (ngroups start : Nat) : List Nat :=
  (List.range ngroups).map (fun step => (start + step) % 2 ^ 32 % ngroups)

def blockBitmapOf (sb : Superblock) (groups : List BlockGroupDescriptor)
    (bitmapReader : Nat → Result Bytes) (gi : Nat) (bgd : BlockGroupDescriptor) : Result Bytes :=
  if bgd.isUninit blockUninit then .ok (uninitBlockBitmap sb groups gi)
  else bitmapReader bgd.blockBitmap

def blockPlan (sb : Superblock) (count gi : Nat) (bgd : BlockGroupDescriptor) (bitStart : Nat) :
    BlockAllocationPlan where
  firstBlock := sb.firstBlockOfGroup gi + bitStart
  count := count
  bitmap := { bitmapBlock := bgd.blockBitmap, bitStart, count, set := true }
  bgd := { groupIdx := gi, freeBlocksDelta := -count, freeInodesDelta := 0, usedDirsDelta := 0 }
  sb := { freeBlocksDelta := -count, freeInodesDelta := 0 }

/-- The first group that answers, in order, or `e` when every one is passed over. -/
def firstAnswer {β : Type} (e : Error) (answer : Nat → Option (Result β)) : List Nat → Result β
  | [] => .error e
  | gi :: rest =>
    match answer gi with
    | none => firstAnswer e answer rest
    | some r => r

def tryBlockGroup (sb : Superblock) (groups : List BlockGroupDescriptor) (count : Nat)
    (reserved : List Nat) (bitmapReader : Nat → Result Bytes) (gi : Nat) :
    Option (Result BlockAllocationPlan) :=
  match groups[gi]? with
  | none => some (.error .outOfBounds)
  | some bgd =>
    if bgd.freeBlocksCount < count then none
    else
      match blockBitmapOf sb groups bitmapReader gi bgd with
      | .error e => some (.error e)
      | .ok bitmap =>
        let maxBits := blocksInGroup sb gi
        match findFreeRun (markReservedInGroup sb gi maxBits reserved bitmap) 0 maxBits count with
        | none => none
        | some bitStart => some (.ok (blockPlan sb count gi bgd bitStart))

def planBlockAllocationExcluding (sb : Superblock) (groups : List BlockGroupDescriptor)
    (count hintGroup : Nat) (reserved : List Nat) (bitmapReader : Nat → Result Bytes) :
    Result BlockAllocationPlan :=
  let ngroups := groups.length % 2 ^ 32
  if count = 0 then .error (.corrupt "plan_block_allocation: count == 0")
  else if ngroups = 0 then .error (.corrupt "no block groups")
  else
    let hint := min hintGroup (ngroups - 1)
    firstAnswer (.corrupt "no group has a contiguous free run of this size")
      (tryBlockGroup sb groups count reserved bitmapReader) (groupOrder ngroups hint)

def planBlockAllocation (sb : Superblock) (groups : List BlockGroupDescriptor)
    (count hintGroup : Nat) (bitmapReader : Nat → Result Bytes) : Result BlockAllocationPlan :=
  planBlockAllocationExcluding sb groups count hintGroup [] bitmapReader

def orlovStep (groups : List BlockGroupDescriptor) (avgFreeInodes avgUsedDirs : Nat)
    (best : Option Nat × Int) (gi : Nat) : Option Nat × Int :=
  match groups[gi]? with
  | none => best
  | some g =>
    let fi : Int := g.freeInodesCount
    let ud : Int := g.usedDirsCount
    let score := fi - ud + (if (avgFreeInodes : Int) ≤ fi then 1000 else 0) +
      (if ud ≤ (avgUsedDirs : Int) then 500 else 0)
    if best.2 < score ∧ 0 < g.freeInodesCount then (some gi, score) else best

def orlovSelectGroup (groups : List BlockGroupDescriptor) (hint : Nat) : Nat :=
  let ngroups := groups.length % 2 ^ 32
  if ngroups = 0 then 0
  else
    let hint := min hint (ngroups - 1)
    let avgFreeInodes := (groups.map (·.freeInodesCount)).sum / ngroups
    let avgUsedDirs := (groups.map (·.usedDirsCount)).sum / ngroups
    let best := (groupOrder ngroups hint).foldl (orlovStep groups avgFreeInodes avgUsedDirs)
      (none, -(2 ^ 63))
    best.1.getD hint

def inodeBitmapOf (sb : Superblock) (bitmapReader : Nat → Result Bytes)
    (bgd : BlockGroupDescriptor) : Result Bytes :=
  if bgd.isUninit inodeUninit then .ok (List.replicate sb.blockSize 0)
  else bitmapReader bgd.inodeBitmap

def reservedFloor (sb : Superblock) (gi : Nat) : Nat :=
  sb.firstInode.toNat - 1 - gi * sb.inodesPerGroup.toNat

def inodePlan (sb : Superblock) (isDir : Bool) (gi : Nat) (bgd : BlockGroupDescriptor)
    (bitStart : Nat) : InodeAllocationPlan where
  inode := gi * sb.inodesPerGroup.toNat + (bitStart + 1)
  isDir := isDir
  bitmap := { bitmapBlock := bgd.inodeBitmap, bitStart, count := 1, set := true }
  bgd := { groupIdx := gi, freeBlocksDelta := 0, freeInodesDelta := -1,
           usedDirsDelta := if isDir then 1 else 0 }
  sb := { freeBlocksDelta := 0, freeInodesDelta := -1 }

def tryInodeGroup (sb : Superblock) (groups : List BlockGroupDescriptor) (isDir : Bool)
    (bitmapReader : Nat → Result Bytes) (gi : Nat) : Option (Result InodeAllocationPlan) :=
  match groups[gi]? with
  | none => some (.error .outOfBounds)
  | some bgd =>
    if bgd.freeInodesCount = 0 then none
    else
      match inodeBitmapOf sb bitmapReader bgd with
      | .error e => some (.error e)
      | .ok bitmap =>
        match findFirstFree bitmap (reservedFloor sb gi) sb.inodesPerGroup.toNat with
        | none => none
        | some bitStart =>
          if gi * sb.inodesPerGroup.toNat + (bitStart + 1) ≤ sb.inodesCount.toNat then
            some (.ok (inodePlan sb isDir gi bgd bitStart))
          else
            some (.error (.corrupt "the group's inode range does not fit in the filesystem"))

def planInodeAllocation (sb : Superblock) (groups : List BlockGroupDescriptor) (isDir : Bool)
    (hintGroup : Nat) (bitmapReader : Nat → Result Bytes) : Result InodeAllocationPlan :=
  let ngroups := groups.length % 2 ^ 32
  if ngroups = 0 then .error (.corrupt "no block groups")
  else
    let startGroup := if isDir then orlovSelectGroup groups hintGroup
      else min hintGroup (ngroups - 1)
    firstAnswer (.corrupt "no group has a free inode")
      (tryInodeGroup sb groups isDir bitmapReader) (groupOrder ngroups startGroup)

end FsExt4.Alloc
