import FsExt4.Alloc
import FsExt4.ExtentWalk
import FsExt4.Path

namespace FsExt4

open Lib

def refuseBigalloc (sb : Superblock) : Result Unit :=
  if sb.featureRoCompat &&& Superblock.roCompatBigalloc != 0 then
    .error (.unsupported
      "bigalloc: bitmaps and group free counts are in clusters, which the audit does not model")
  else .ok ()

namespace Verify

def ext4Magic : UInt16 := 0xEF53

/-- A mounted volume, with the fields of its superblock that only the verifier reads. -/
structure Volume where
  fs : Filesystem
  magic : UInt16
  freeBlocksCount : Nat
  freeInodesCount : UInt32

structure VerifyReport where
  errors : List String
  warnings : List String
  inodesWalked : Nat
  blocksClaimed : Nat

namespace VerifyReport

def empty : VerifyReport := ⟨[], [], 0, 0⟩

def error (r : VerifyReport) (message : String) : VerifyReport :=
  { r with errors := r.errors ++ [message] }

def warning (r : VerifyReport) (message : String) : VerifyReport :=
  { r with warnings := r.warnings ++ [message] }

def check (r : VerifyReport) (fails : Bool) (message : String) : VerifyReport :=
  if fails then r.error message else r

end VerifyReport

def hex4 (n : UInt16) : String :=
  String.ofList (((Nat.toDigits 16 n.toNat).map Char.toUpper).leftpad 4 '0')

def verifySuperblock (v : Volume) (r : VerifyReport) : VerifyReport :=
  let magic := hex4 v.magic
  let expected := hex4 ext4Magic
  let bs := v.fs.sb.blockSize
  let blocks := v.fs.sb.blocksCount
  let freeBlocks := v.freeBlocksCount
  let freeInodes := v.freeInodesCount
  let inodes := v.fs.sb.inodesCount
  let r := r.check (v.magic != ext4Magic) s!"superblock: magic 0x{magic} != 0x{expected}"
  let r := r.check (decide (bs = 0 ∨ ¬ bs.isPowerOfTwo ∨ ¬ (1024 ≤ bs ∧ bs ≤ 65536)))
    s!"superblock: block_size {bs} out of range [1024..=65536, power of 2]"
  let r := r.check (decide (blocks = 0)) "superblock: blocks_count == 0"
  let r := r.check (decide (blocks < freeBlocks))
    s!"superblock: free_blocks_count {freeBlocks} > blocks_count {blocks}"
  r.check (decide (inodes < freeInodes))
    s!"superblock: free_inodes_count {freeInodes} > inodes_count {inodes}"

def verifyBgd (v : Volume) (r : VerifyReport) (group : BlockGroupDescriptor × Nat) : VerifyReport :=
  let total := v.fs.sb.blocksCount
  let bpg := v.fs.sb.blocksPerGroup.toNat
  let ipg := v.fs.sb.inodesPerGroup.toNat
  let gi := group.2
  let blockBitmap := group.1.blockBitmap
  let inodeBitmap := group.1.inodeBitmap
  let inodeTable := group.1.inodeTable
  let freeBlocks := group.1.freeBlocksCount
  let freeInodes := group.1.freeInodesCount
  let r := r.check (decide (total ≤ blockBitmap))
    s!"bgd[{gi}]: block_bitmap {blockBitmap} >= blocks_count {total}"
  let r := r.check (decide (total ≤ inodeBitmap))
    s!"bgd[{gi}]: inode_bitmap {inodeBitmap} >= blocks_count {total}"
  let r := r.check (decide (total ≤ inodeTable))
    s!"bgd[{gi}]: inode_table {inodeTable} >= blocks_count {total}"
  let r := r.check (decide (bpg < freeBlocks))
    s!"bgd[{gi}]: free_blocks_count {freeBlocks} > blocks_per_group {bpg}"
  r.check (decide (ipg < freeInodes))
    s!"bgd[{gi}]: free_inodes_count {freeInodes} > inodes_per_group {ipg}"

def verifyBgds (v : Volume) (r : VerifyReport) : VerifyReport :=
  v.fs.groups.zipIdx.foldl (verifyBgd v) r

structure ClaimedBitmap where
  bits : Bytes
  total : Nat

namespace ClaimedBitmap

def new (total : Nat) : ClaimedBitmap := ⟨List.replicate (divCeil total 8) 0, total⟩

/-- Whether the block was claimed already, and the bitmap with it claimed. -/
def set (c : ClaimedBitmap) (block : Nat) : Bool × ClaimedBitmap :=
  (bit c.bits block, { c with bits := setBit c.bits block })

def get (c : ClaimedBitmap) (block : Nat) : Bool := bit c.bits block

def countSet (c : ClaimedBitmap) : Nat :=
  (c.bits.map (fun b => (List.range 8).countP (fun i => b.toNat.testBit i))).sum

def mark (c : ClaimedBitmap) (block : Nat) : ClaimedBitmap :=
  if block < c.total then (c.set block).2 else c

end ClaimedBitmap

def metadataMarks (v : Volume) : List Nat :=
  let bs := v.fs.sb.blockSize
  [1024 / bs, 0] ++
    v.fs.groups.flatMap (fun bgd => [bgd.blockBitmap, bgd.inodeBitmap] ++
      (List.range (divCeil (v.fs.sb.inodesPerGroup.toNat * v.fs.sb.inodeSize) bs)).map
        (bgd.inodeTable + ·)) ++
    [v.fs.sb.firstDataBlock.toNat + 1]

def markMetadataBlocks (v : Volume) (claimed : ClaimedBitmap) : ClaimedBitmap :=
  (metadataMarks v).foldl ClaimedBitmap.mark claimed

structure Walk where
  claimed : ClaimedBitmap
  report : VerifyReport

namespace Walk

def error (w : Walk) (message : String) : Walk := { w with report := w.report.error message }

def mark (w : Walk) (block : Nat) : Walk := { w with claimed := w.claimed.mark block }

/-- Claim a data block: one past the end, or one claimed already, is an error. -/
def claim (w : Walk) (phys : Nat) (outOfRange doubleClaimed : String) : Walk :=
  if w.claimed.total ≤ phys then w.error outOfRange
  else
    let (was, claimed) := w.claimed.set phys
    { claimed := claimed, report := w.report.check was doubleClaimed }

end Walk

section WalkInodes

variable (debug : Error → String) (v : Volume)

def claimExtentBlock (ino : UInt32) (w : Walk) (phys : Nat) : Walk :=
  let total := w.claimed.total
  w.claim phys s!"inode {ino}: extent block {phys} >= blocks_count {total}"
    s!"inode {ino}: block {phys} double-claimed (extent)"

def claimMappedBlock (ino : UInt32) (w : Walk) (phys : Nat) : Walk :=
  let total := w.claimed.total
  w.claim phys s!"inode {ino}: indirect block {phys} >= blocks_count {total}"
    s!"inode {ino}: block {phys} double-claimed (indirect)"

def extentBlocks (e : Extent) : List Nat := (List.range e.length).map (e.physicalBlock + ·)

/-- The pointer block in a slot past the direct ones, and below the double and triple one the blocks
it points at. -/
def markSlot (inode : Inode) (w : Walk) (slot : Nat) : DevIo Walk := do
  let bs := v.fs.sb.blockSize
  let total := w.claimed.total
  let p := Indirect.ptrAt inode.block slot
  if p ≠ 0 ∧ p < total then
    let w := w.mark p
    match ← (readAt (p * bs) bs).attempt with
    | .error _ => return w
    | .ok buf =>
      return (List.range (bs / 4)).foldl (fun w i =>
        let inner := Indirect.ptrAt buf i
        if inner ≠ 0 ∧ inner < total ∧ 13 ≤ slot then w.mark inner else w) w
  else return w

def walkInodeBlockTree (ino : UInt32) (inode : Inode) (w : Walk) : DevIo Walk := do
  let bs := v.fs.sb.blockSize
  let nBlocks := divCeil inode.size bs
  if inode.flags &&& inodeFlagExtents != 0 then
    match ← (Extent.collectAll inode.block bs).attempt with
    | .error e =>
      let e := debug e
      return w.error s!"inode {ino}: extent walk failed: {e}"
    | .ok extents => return (extents.flatMap extentBlocks).foldl (claimExtentBlock ino) w
  else
    let w ← (List.range nBlocks).foldlM (fun w logical => do
      match ← Indirect.mapLogicalAny inode.block inode.flags bs logical with
      | none => return w
      | some phys => return claimMappedBlock ino w phys) w
    [12, 13, 14].foldlM (markSlot v inode) w

/-- One inode of the walk: those without blocks of their own are passed over. -/
def walkInode (ino : UInt32) (w : Walk) : DevIo Walk := do
  let w := { w with report := { w.report with inodesWalked := w.report.inodesWalked + 1 } }
  match ← (v.fs.readInodeRaw ino).attempt with
  | .error e =>
    let e := debug e
    return w.error s!"inode {ino}: read failed: {e}"
  | .ok raw =>
    match Inode.parse raw with
    | .error e =>
      let e := debug e
      return w.error s!"inode {ino}: parse failed: {e}"
    | .ok inode =>
      if inode.hasInlineData then return w
      if inode.blocks = 0 then return w
      walkInodeBlockTree debug v ino inode w

/-- Is the inode in use, and not one the file system keeps for itself? -/
def isWalked (bm : Bytes) (gi : Nat) (i : Nat) : Bool :=
  let ino := UInt32.ofNat (gi * v.fs.sb.inodesPerGroup.toNat + i + 1)
  Alloc.bitIsSet bm i && !(decide (ino < v.fs.sb.firstInode) && ino != 2)

def walkGroupInodes (w : Walk) (group : BlockGroupDescriptor × Nat) : DevIo Walk := do
  let bs := v.fs.sb.blockSize
  let ipg := v.fs.sb.inodesPerGroup.toNat
  let bm ← readAt (group.1.inodeBitmap * bs) bs
  (List.range ipg).foldlM (fun w i =>
    if isWalked v bm group.2 i then walkInode debug v (UInt32.ofNat (group.2 * ipg + i + 1)) w
    else return w) w

def walkAllAllocatedInodes (w : Walk) : DevIo Walk :=
  v.fs.groups.zipIdx.foldlM (walkGroupInodes debug v) w

end WalkInodes

section Reconcile

variable (v : Volume)

def groupStart (gi : Nat) : Nat := v.fs.sb.firstDataBlock.toNat + gi * v.fs.sb.blocksPerGroup.toNat

def groupLen (gi : Nat) : Nat :=
  min (groupStart v gi + v.fs.sb.blocksPerGroup.toNat) v.fs.sb.blocksCount - groupStart v gi

def reconcileBlock (claimed : ClaimedBitmap) (bm : Bytes) (gi : Nat) (r : VerifyReport) (i : Nat) :
    VerifyReport :=
  let b := groupStart v gi + i
  match Alloc.bitIsSet bm i, claimed.get b with
  | true, true => r
  | false, false => r
  | false, true => r.error s!"block {b} (group {gi}): claimed by inode but marked free in bitmap"
  | true, false => r.warning s!"block {b} (group {gi}): allocated but unclaimed"

def reconcileGroup (claimed : ClaimedBitmap) (r : VerifyReport)
    (group : BlockGroupDescriptor × Nat) :
    DevIo VerifyReport := do
  let bs := v.fs.sb.blockSize
  let bm ← readAt (group.1.blockBitmap * bs) bs
  return (List.range (groupLen v group.2)).foldl (reconcileBlock v claimed bm group.2) r

def reconcileWithBitmaps (claimed : ClaimedBitmap) (r : VerifyReport) : DevIo VerifyReport :=
  v.fs.groups.zipIdx.foldlM (reconcileGroup v claimed) r

end Reconcile

def verify (debug : Error → String) (v : Volume) : DevIo VerifyReport := do
  liftM (refuseBigalloc v.fs.sb)
  let report := verifyBgds v (verifySuperblock v .empty)
  let bs := v.fs.sb.blockSize
  let totalBlocks := v.fs.sb.blocksCount
  if totalBlocks = 0 ∨ bs = 0 then return report
  if 2 ^ 32 ≤ totalBlocks then
    return report.error
      "verify: volume exceeds u32 blocks (multi-group triple-indirect tier untested)"
  let claimed := markMetadataBlocks v (.new totalBlocks)
  let w ← walkAllAllocatedInodes debug v ⟨claimed, report⟩
  let report ← reconcileWithBitmaps v w.claimed w.report
  return { report with blocksClaimed := w.claimed.countSet }

end Verify

end FsExt4
