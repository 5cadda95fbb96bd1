import FsExt4.VerifyClaims

namespace FsExt4.Verify

open Lib

section Tree

variable (v : Volume) (d : Disk)

def entriesOn (ino : UInt32) : Result (List DirEntry) := do
  let raw ← ((v.fs.readInodeRaw ino).exec d).1
  let inode ← Inode.parse raw
  if inode.hasInlineData then
    ((InlineData.readDir ino inode raw v.fs.sb.inodeSize v.fs.sb.blockSize v.fs.sb.hasFiletype).exec
      d).1
  else
    let blocks ← (List.range (divCeil inode.size v.fs.sb.blockSize)).mapM (fun logical => do
      match ← ((Indirect.mapLogicalAny inode.block inode.flags v.fs.sb.blockSize logical).exec
        d).1 with
      | none => .ok []
      | some phys => do
        let block ← blockOn v d phys
        (Dir.dirBlockIter v.fs.sb.hasFiletype block).mapM id)
    .ok blocks.flatten

def isDirectory (inode : Inode) : Bool := inode.mode &&& 0xF000 == 0x4000

inductive Reachable : UInt32 → Prop where
  | root : Reachable 2
  | entry (dir : UInt32) (inode : Inode) (es : List DirEntry) (e : DirEntry) (hdir : Reachable dir)
      (hinode : inodeOn v d dir = some inode) (hkind : isDirectory inode = true)
      (hes : entriesOn v d dir = .ok es) (he : e ∈ es) : Reachable e.inode

def TreeParses : Prop :=
  ∀ ino, Reachable v d ino → ∃ inode, inodeOn v d ino = some inode ∧
    (isDirectory inode = true → ∃ es, entriesOn v d ino = .ok es)

def pointerBlocks : Nat → Nat → List Nat
  | 0, _ => []
  | level + 1, p =>
    if p = 0 then []
    else p :: match blockOn v d p with
      | .error _ => []
      | .ok buf => (List.range (v.fs.sb.blockSize / 4)).flatMap
          (fun i => pointerBlocks level (Indirect.ptrAt buf i))

/-- Every block an inode refers to: data, pointer, tree node and attribute blocks. -/
def references (inode : Inode) : List Nat :=
  (if inode.hasInlineData || holdsNoMap inode then []
  else if inode.hasExtents then
    match ((Extent.collectAllWithNodes inode.block v.fs.sb.blockSize).exec d).1 with
    | .error _ => []
    | .ok (extents, nodes) => extents.flatMap extentBlocks ++ nodes
  else
    (List.range (divCeil inode.size v.fs.sb.blockSize)).filterMap (mappedBlock v d inode) ++
      pointerBlocks v d 1 (Indirect.ptrAt inode.block 12) ++
      pointerBlocks v d 2 (Indirect.ptrAt inode.block 13) ++
      pointerBlocks v d 3 (Indirect.ptrAt inode.block 14)) ++
  (if inode.fileAcl = 0 then [] else [inode.fileAcl])

def MarkedUsed (b : Nat) : Prop :=
  ∃ group ∈ v.fs.groups.zipIdx, ∃ i < groupLen v group.2, groupStart v group.2 + i = b ∧
    Alloc.bitIsSet (usedBitmap v d group) i = true

/-- Every block referred to from the tree is in range, referred to once and marked used. -/
structure TreeOwned : Prop where
  inRange : ∀ ino inode, Reachable v d ino → inodeOn v d ino = some inode →
    ∀ b ∈ references v d inode, b < v.fs.sb.blocksCount
  marked : ∀ ino inode, Reachable v d ino → inodeOn v d ino = some inode →
    ∀ b ∈ references v d inode, MarkedUsed v d b
  once : ∀ ino inode, Reachable v d ino → inodeOn v d ino = some inode →
    (references v d inode).Nodup
  apart : ∀ ino inode ino' inode', Reachable v d ino → inodeOn v d ino = some inode →
    Reachable v d ino' → inodeOn v d ino' = some inode' → ino ≠ ino' →
    ∀ b ∈ references v d inode, b ∉ references v d inode'

end Tree

def strayXattrSb : Superblock where
  inodesCount := 16
  blocksCount := 64
  firstDataBlock := 1
  logBlockSize := 0
  blocksPerGroup := 8192
  inodesPerGroup := 16
  inodeSize := 128
  featureIncompat := incompatFiletype
  descSize := 32
  reservedGdtBlocks := 0
  journalInode := 0
  featureCompat := 0
  featureRoCompat := 0
  firstInode := 11
  metaBgField := 0
  backupBgs := []
  uuid := []

/-- One group of blocks 1 to 63, of which 1 to 7 are in use: superblock, descriptors, bitmaps, inode
table and the root directory. -/
def strayXattr : Volume where
  fs := ⟨strayXattrSb, [⟨3, 4, 5, 56, 6, 1, 0⟩], 65536, true⟩
  magic := ext4Magic
  freeBlocksCount := 56
  freeInodesCount := 6

/-- The root inode: one extent, at block 7, and an attribute block at 20. -/
def strayXattrInode : Bytes :=
  [0xED, 0x41, 0, 0, 0, 4, 0, 0] ++ List.replicate 18 0 ++ [2, 0, 4, 0, 0, 0] ++ [0, 0, 8, 0] ++
    List.replicate 4 0 ++ buildInlineLeafRoot 0 [⟨0, 1, 7, false⟩] ++ List.replicate 4 0 ++
    [20, 0, 0, 0] ++ List.replicate 20 0

def strayXattrEntries : Bytes :=
  [2, 0, 0, 0, 12, 0, 1, 2, 0x2E, 0, 0, 0] ++ [2, 0, 0, 0, 0xF4, 3, 2, 2, 0x2E, 0x2E]

def strayXattrDisk : Disk where
  size := 65536
  img := Image.write (Image.write
    (Image.write (Image.write (fun _ => 0) 3072 [0x7F]) 4096 [0xFF, 3])
    5248 strayXattrInode) 7168 strayXattrEntries

example : (inodeOn strayXattr strayXattrDisk 2).map Inode.fileAcl = some 20 := by decide +kernel

theorem strayXattr_verify :
    (((verify (fun _ => "") strayXattr).exec strayXattrDisk).1.toOption.map VerifyReport.errors) =
      some [] := by
  decide +kernel

theorem strayXattr_root :
    (inodeOn strayXattr strayXattrDisk 2).map (fun i => (isDirectory i, holdsNoMap i,
      decide (20 ∈ references strayXattr strayXattrDisk i))) = some (true, false, true) := by
  decide +kernel

example : (inodeOn strayXattr strayXattrDisk 2).map Inode.size = some 1024 := by decide +kernel

theorem strayXattr_entries :
    (entriesOn strayXattr strayXattrDisk 2).Ends (fun es => es.map DirEntry.inode = [2, 2]) := by
  decide +kernel

theorem strayXattr_reachable {ino : UInt32} (h : Reachable strayXattr strayXattrDisk ino) :
    ino = 2 := by
  induction h with
  | root => rfl
  | entry dir inode es e hdir hinode hkind hes he ih =>
    subst ih
    obtain ⟨es', hes', hinodes⟩ := strayXattr_entries.exists_ok
    cases hes.symm.trans hes'
    have hmem := List.mem_map_of_mem (f := DirEntry.inode) he
    rw [hinodes] at hmem
    simpa using hmem

theorem strayXattr_free : ¬ MarkedUsed strayXattr strayXattrDisk 20 := by
  rintro ⟨group, hgroup, i, -, hblock, hset⟩
  obtain rfl := List.mem_singleton.mp (show group ∈ [(⟨3, 4, 5, 56, 6, 1, 0⟩, 0)] from hgroup)
  obtain rfl : i = 19 := by
    have hstart : groupStart strayXattr 0 = 1 := by decide
    dsimp only at hblock
    omega
  have hclear : Alloc.bitIsSet (usedBitmap strayXattr strayXattrDisk (⟨3, 4, 5, 56, 6, 1, 0⟩, 0))
    19 =
      false := by decide +kernel
  rw [hclear] at hset
  cases hset

theorem strayXattr_walked : walkedInodes strayXattr strayXattrDisk = [2] := by decide +kernel

end FsExt4.Verify
