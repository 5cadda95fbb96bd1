import FsExt4.AllocationSafety
import FsExt4.ExtentWalk
import FsExt4.InodePatch

namespace FsExt4

open Lib Jbd2 Alloc

namespace Checksummer

/-- The checksum of an extent node, over all but its last four bytes. -/
def extentTailSum (crc : Crc) (csum : Checksummer) (ino generation : UInt32)
    (block : Bytes) : UInt32 :=
  crc (crc (crc csum.seed (u32le ino)) (u32le generation)) (block.take (block.length - 4))

def verifyExtentTail (crc : Crc) (csum : Checksummer) (ino generation : UInt32)
    (block : Bytes) : Bool :=
  if !csum.enabled then true
  else if block.length < 4 then false
  else csum.extentTailSum crc ino generation block == u32leAt block (block.length - 4)

end Checksummer

namespace Mount

section Model

variable (crc : Crc) (m : Mount) (d : Disk)

def checkExtentNodes (ino : UInt32) (inode : Inode) : List Nat → Result Unit
  | [] => .ok ()
  | node :: rest => do
    let bytes ← m.fs.reader d node
    if !m.csum.verifyExtentTail crc ino inode.generation bytes
      then throw (.badChecksum "extent block")
    checkExtentNodes ino inode rest

/-- Every block an extent-mapped inode holds, as runs: its extents and the nodes below its root. -/
def extentTreeRuns (ino : UInt32) (inode : Inode) : Result (List (Nat × Nat)) := do
  let (extents, nodes) ← ((Extent.collectAllWithNodes inode.block m.fs.sb.blockSize).exec d).1
  m.checkExtentNodes crc d ino inode nodes
  return extents.map (fun e => (e.physicalBlock, e.length)) ++ nodes.map (fun n => (n, 1))

def bufferFreeRuns (buf : BlockBuffer) : List (Nat × Nat) → Result (Nat × BlockBuffer)
  | [] => .ok (0, buf)
  | (start, len) :: rest => do
    let buf ← m.bufferFreeBlockRunAndBgd crc (m.fs.reader d) buf start len
    let (freed, buf) ← bufferFreeRuns buf rest
    return (len + freed, buf)

end Model

theorem Open.freeRuns {crc : Crc} {m : Mount} {d : Disk} {buf buf' : BlockBuffer}
    {taken freed : Set Slot} {runs : List (Nat × Nat)} {count : Nat} (hbnd : m.fs.sb.Bounds)
    (hsep : m.Separate) (ho : Open crc m d buf taken freed)
    (h : m.bufferFreeRuns crc d buf runs = .ok (count, buf')) :
    ∃ taken' freed', Open crc m d buf' taken' freed' := by
  induction runs generalizing buf taken freed count with
  | nil =>
    obtain ⟨-, rfl⟩ := Prod.mk.inj (Except.ok.inj h)
    exact ⟨taken, freed, ho⟩
  | cons run rest ih =>
    obtain ⟨start, len⟩ := run
    obtain ⟨buf₁, hfree, h⟩ := Result.bind_eq_ok h
    obtain ⟨⟨count', buf₂⟩, hrest, h⟩ := Result.bind_eq_ok h
    obtain ⟨-, rfl⟩ := Prod.mk.inj (Except.ok.inj h)
    exact ih (ho.freeBlocks hbnd hsep hfree) hrest

/-- A volume whose mount agrees with it: the superblock opens group 0, descriptors lie in the heads
of groups, inodes fill the blocks of their tables, an extent can name every block, and the journal's
blocks are in use and none of the tables'. -/
structure Consistent (crc : Crc) (m : Mount) (d : Disk) : Prop where
  coherent : Coherent crc m d
  blockSize : m.fs.sb.blockSize ≤ 65536
  addressable : m.fs.sb.blocksCount ≤ 2 ^ 48
  origin : m.fs.sb.firstDataBlock.toNat = m.fs.sb.primarySuperblockBlock
  inodeSize : m.fs.sb.inodeSize ∣ m.fs.sb.blockSize
  descriptors : ∀ g, g < m.fs.groups.length → m.IsMetadata (m.descAt g).1
  inodeTables : ∀ (g : Nat) (bgd : BlockGroupDescriptor), m.fs.groups[g]? = some bgd →
    ∀ b, bgd.inodeTable ≤ b → b < bgd.inodeTable + m.fs.sb.inodeTableBlocks → m.OffTables b
  journal : ∀ jw, m.journal = some jw → ∀ b ∈ jw.physicalMap,
    ¬ m.IsMetadata b ∧ m.used (d.img.block m.fs.sb.blockSize) (m.blockSlot b) = true

theorem offTables_of_le {m : Mount} (limit : Nat)
    (hall : ∀ g < m.fs.groups.length, ∀ bgd ∈ m.fs.groups[g]?, bgd.blockBitmap < limit ∧
      bgd.inodeBitmap < limit ∧ limit ≤ bgd.inodeTable ∧ (m.descAt g).1 < limit) :
    ∀ (g : Nat) (bgd : BlockGroupDescriptor), m.fs.groups[g]? = some bgd →
      ∀ b, bgd.inodeTable ≤ b → b < bgd.inodeTable + m.fs.sb.inodeTableBlocks → m.OffTables b := by
  intro g bgd hbgd b hlow hhigh
  obtain ⟨-, -, htable, -⟩ := hall g (lt_of_getElem?_eq_some hbgd) bgd hbgd
  refine ⟨fun g' hg' => ?_, fun kind g' bgd' hbgd' => ?_⟩
  · obtain ⟨-, -, -, hdesc⟩ := hall g' hg' _ (List.getElem?_eq_getElem hg')
    omega
  · obtain ⟨hblock, hinode, -⟩ := hall g' (lt_of_getElem?_eq_some hbgd') bgd' hbgd'
    cases kind with
    | block => exact fun h => absurd (h.trans_lt hblock) (by omega)
    | inode => exact fun h => absurd (h.trans_lt hinode) (by omega)

/-- A planned run: what was asked for, free in the view, in the volume, in the group it names. -/
structure PlannedRun (m : Mount) (v : Nat → Bytes) (reserved : List Nat) (count : Nat)
    (plan : BlockAllocationPlan) : Prop where
  pos : 0 < count
  free : FreeBlocks m v reserved plan
  group : plan.bgd.groupIdx = (m.blockSlot plan.firstBlock).group
  inGroups : (m.blockSlot plan.firstBlock).group < m.fs.groups.length
  inVolume : plan.firstBlock + count ≤ m.fs.sb.blocksCount
  count : plan.count = count

section Plans

variable {m : Mount} {v : Nat → Bytes} {groups : List BlockGroupDescriptor}

theorem firstBlockOfGroup_add_le {sb : Superblock} (hbnd : sb.Bounds) {g n : Nat}
    (hg : g < sb.blockGroupCount % 2 ^ 32) (hn : n ≤ blocksInGroup sb g) :
    sb.firstBlockOfGroup g + n ≤ sb.blocksCount := by
  have hfirst := hbnd.firstDataBlock
  have hpos := hbnd.blocksPerGroup
  have hle := Nat.mod_le sb.blockGroupCount (2 ^ 32)
  have hcount : sb.blockGroupCount * sb.blocksPerGroup.toNat ≤
      sb.blocksCount - sb.firstDataBlock.toNat + sb.blocksPerGroup.toNat - 1 := by
    unfold Superblock.blockGroupCount divCeil
    rw [Nat.max_eq_left hpos]
    exact Nat.div_mul_le_self _ _
  have hsplit := Nat.div_add_mod (sb.blocksCount - sb.firstDataBlock.toNat) sb.blocksPerGroup.toNat
  have hmul : ∀ k, k ≤ sb.blockGroupCount →
      k * sb.blocksPerGroup.toNat ≤ sb.blockGroupCount * sb.blocksPerGroup.toNat :=
    fun k hk => Nat.mul_le_mul_right _ hk
  unfold Superblock.firstBlockOfGroup
  unfold blocksInGroup at hn
  dsimp only at hn
  generalize hp : sb.blocksPerGroup.toNat = p at hpos hcount hsplit hmul hn ⊢
  split at hn
  · rename_i hlast
    have hnext := hmul (g + 2) (by omega)
    rw [Nat.add_mul] at hnext
    omega
  · have hself := hmul (g + 1) (by omega)
    rw [Nat.succ_mul] at hself
    have hquot : g ≤ (sb.blocksCount - sb.firstDataBlock.toNat) / p := by
      rw [Nat.le_div_iff_mul_le hpos]
      omega
    generalize (sb.blocksCount - sb.firstDataBlock.toNat) / p = q at hsplit hquot
    have hgp : p * g ≤ p * q := Nat.mul_le_mul_left _ hquot
    rw [Nat.mul_comm g p] at hself ⊢
    split at hn
    · rename_i hzero
      have hlt : g < q := Nat.lt_of_mul_lt_mul_left (a := p) (by omega)
      have hstep := Nat.mul_le_mul_left p hlt
      rw [Nat.mul_succ] at hstep
      omega
    · omega

theorem Mirrors.plannedRun (h : m.Mirrors v groups) (hacc : m.Accepted)
    {read : Nat → Result Bytes} (hread : ∀ b bytes, read b = .ok bytes → bytes = v b)
    {count hint : Nat} {reserved : List Nat} {plan : BlockAllocationPlan}
    (hp : planBlockAllocationExcluding m.fs.sb groups count hint reserved read = .ok plan) :
    PlannedRun m v reserved count plan := by
  have hfree := h.planned hacc.bounds hread hp
  obtain ⟨hcount, g, hg, bgd, bitmap, j, hcand, rfl⟩ := planBlockAllocationExcluding_ok hp
  have hrun := hcand.run.1
  have hclamp : clampBits bitmap (blocksInGroup m.fs.sb g) ≤ blocksInGroup m.fs.sb g :=
    Nat.min_le_left _ _
  have hle := blocksInGroup_le hacc.bounds g
  have hslot : m.blockSlot (m.fs.sb.firstBlockOfGroup g + j) = ⟨.block, g, j⟩ :=
    blockSlot_firstBlockOfGroup (by omega)
  have hin : g < groups.length := Nat.lt_of_lt_of_le hg (Nat.mod_le _ _)
  rw [h.length, hacc.count] at hg
  refine ⟨hcount, hfree, ?_, ?_, ?_, rfl⟩
  · change g = (m.blockSlot (m.fs.sb.firstBlockOfGroup g + j)).group
    rw [hslot]
  · change (m.blockSlot (m.fs.sb.firstBlockOfGroup g + j)).group < _
    rw [hslot, ← h.length]
    exact hin
  · change m.fs.sb.firstBlockOfGroup g + j + count ≤ m.fs.sb.blocksCount
    rw [Nat.add_assoc]
    exact firstBlockOfGroup_add_le hacc.bounds hg (by omega)

end Plans

section Consistent

variable {crc : Crc} {m : Mount} {d : Disk} {buf : BlockBuffer} {taken freed : Set Slot}

theorem Coherent.plannedRun (h : Coherent crc m d) {count hint : Nat} {plan : BlockAllocationPlan}
    (hp : m.planBlocks (m.fs.reader d) count hint = .ok plan) :
    PlannedRun m (d.img.block m.fs.sb.blockSize) [] count plan :=
  h.mirrors_disk.plannedRun h.accepted (fun _ _ hb => Filesystem.reader_ok hb) hp

theorem Open.plannedRun (ho : Open crc m d buf taken freed) (h : Coherent crc m d)
    {count hint : Nat} {reserved : List Nat} {plan : BlockAllocationPlan}
    (hp : m.planBufferedBlockAllocationExcluding (m.fs.reader d) buf count hint
      reserved = .ok plan) :
    PlannedRun m (buf.view d.img m.fs.sb.blockSize) reserved count plan :=
  (h.mirrors_buffer ho).plannedRun h.accepted (fun _ _ hb => BlockBuffer.bufferedBlock_ok hb) hp

theorem Consistent.offTables (h : Consistent crc m d) {b : Nat}
    (hfirst : m.fs.sb.firstDataBlock.toNat ≤ b) (hmeta : ¬ m.IsMetadata b) : m.OffTables b := by
  refine ⟨?_, ?_⟩
  · rintro g hg rfl
    exact hmeta (h.descriptors g hg)
  · rintro kind g bgd hbgd rfl
    refine hmeta ⟨hfirst, g, bgd, hbgd, ?_⟩
    cases kind with
    | block => exact .inr (.inl rfl)
    | inode => exact .inr (.inr (.inl rfl))

theorem Consistent.superblock_offTables (h : Consistent crc m d) :
    m.OffTables m.fs.sb.primarySuperblockBlock :=
  ⟨fun g _ => (h.coherent.accepted.bounds.descriptor_ne_superblock g).symm,
    fun kind _ _ hbgd => (h.coherent.accepted.bitmap_ne_superblock kind hbgd).symm⟩

theorem Consistent.isMetadata_superblock (h : Consistent crc m d)
    (hgroups : 0 < m.fs.groups.length) :
    m.IsMetadata m.fs.sb.primarySuperblockBlock := by
  have hhead := m.fs.sb.groupHeadMetadataBlocks_zero_pos
  have hblocks : 0 < blocksInGroup m.fs.sb 0 := by
    have hpos := h.coherent.accepted.bounds.blocksPerGroup
    unfold blocksInGroup
    dsimp only
    split
    · exact hpos
    · split <;> omega
  refine ⟨Nat.le_of_eq h.origin, 0, _, List.getElem?_eq_getElem hgroups, .inl ?_⟩
  unfold Superblock.firstBlockOfGroup
  rw [h.origin]
  omega

theorem Consistent.lands (h : Consistent crc m d) (hgroups : 0 < m.fs.groups.length) {b : Nat}
    (hfirst : m.fs.sb.firstDataBlock.toNat ≤ b) (hmeta : ¬ m.IsMetadata b)
    (hfree : m.used (d.img.block m.fs.sb.blockSize) (m.blockSlot b) = false) : m.Lands b := by
  have hsuper := h.isMetadata_superblock hgroups
  intro jw hjw
  refine ⟨?_, ?_, ?_⟩
  · intro hb
    have hused := (h.journal jw hjw b hb).2
    rw [hfree] at hused
    cases hused
  · rintro rfl
    have horigin := h.origin
    rw [show m.fs.sb.primarySuperblockBlock = 0 by omega] at hsuper
    exact hmeta hsuper
  · rintro rfl
    exact hmeta hsuper

theorem locateInode_ok {ino : UInt32} {block off : Nat}
    (hloc : locateInode m.fs.sb m.fs.groups ino = .ok (block, off)) :
    ∃ (g : Nat) (bgd : BlockGroupDescriptor) (i : Nat), m.fs.groups[g]? = some bgd ∧
    i < m.fs.sb.inodesPerGroup.toNat ∧
      block = bgd.inodeTable + i / (m.fs.sb.blockSize / m.fs.sb.inodeSize) ∧ 0 < m.fs.sb.inodeSize ∧
      m.fs.sb.inodeSize ≤ m.fs.sb.blockSize ∧
      off = i % (m.fs.sb.blockSize / m.fs.sb.inodeSize) * m.fs.sb.inodeSize ∧ block < 2 ^ 64 := by
  obtain ⟨-, ⟨hipg, hpos⟩, hsize, hbig, bgd, hg, hblock, hoff⟩ := locateInode_eq_ok.mp hloc
  have hipg' : 0 < m.fs.sb.inodesPerGroup.toNat := by
    apply Nat.pos_of_ne_zero
    intro h0
    exact hipg (UInt32.toNat_inj.mp h0)
  exact ⟨_, bgd, _, hg, Nat.mod_lt _ hipg', hblock, hpos, hsize, hoff, hbig⟩

theorem Consistent.inode_inTable (h : Consistent crc m d) {ino : UInt32} {block off : Nat}
    (hloc : locateInode m.fs.sb m.fs.groups ino = .ok (block, off)) :
    ∃ (g : Nat) (bgd : BlockGroupDescriptor), m.fs.groups[g]? = some bgd ∧ bgd.inodeTable ≤ block ∧
      block < bgd.inodeTable + m.fs.sb.inodeTableBlocks := by
  obtain ⟨g, bgd, i, hbgd, hi, rfl, hpos, -⟩ := locateInode_ok hloc
  obtain ⟨k, hk⟩ := h.inodeSize
  have hbs := blockSize_ge m.fs.sb
  have hkpos : 0 < k := by
    apply Nat.pos_of_ne_zero
    rintro rfl
    omega
  refine ⟨g, bgd, hbgd, Nat.le_add_right _ _, Nat.add_lt_add_left ?_ _⟩
  unfold Superblock.inodeTableBlocks divCeil
  rw [hk, Nat.mul_div_cancel_left _ hpos, Nat.lt_iff_add_one_le, Nat.le_div_iff_mul_le
    (Nat.mul_pos hpos hkpos)]
  have hdiv : i / k * k ≤ i := Nat.div_mul_le_self i k
  have hscaled : i / k * k * m.fs.sb.inodeSize ≤
      (m.fs.sb.inodesPerGroup.toNat - 1) * m.fs.sb.inodeSize :=
    Nat.mul_le_mul_right _ (by omega)
  have hone : (m.fs.sb.inodesPerGroup.toNat - 1) * m.fs.sb.inodeSize + m.fs.sb.inodeSize =
      m.fs.sb.inodesPerGroup.toNat * m.fs.sb.inodeSize := by
    rw [← Nat.succ_mul, Nat.succ_eq_add_one, Nat.sub_add_cancel (by omega)]
  calc (i / k + 1) * (m.fs.sb.inodeSize * k)
      = i / k * k * m.fs.sb.inodeSize + m.fs.sb.inodeSize * k := by ring
    _ ≤ m.fs.sb.inodesPerGroup.toNat * m.fs.sb.inodeSize + m.fs.sb.inodeSize * k - 1 := by omega

theorem Consistent.superblock_lt_inode (h : Consistent crc m d) {ino : UInt32} {block off : Nat}
    (hloc : locateInode m.fs.sb m.fs.groups ino = .ok (block, off)) :
    m.fs.sb.primarySuperblockBlock < block := by
  obtain ⟨g, bgd, hbgd, hlow, -⟩ := h.inode_inTable hloc
  have hpointers := h.coherent.accepted.pointers g bgd hbgd
  have hhead := m.fs.sb.groupHeadMetadataBlocks_zero_pos
  unfold checkPointersWithin at hpointers
  dsimp only at hpointers
  split at hpointers
  · cases hpointers
  · rename_i hno
    unfold Superblock.primarySuperblockBlock
    omega

theorem Consistent.inode_isMetadata (h : Consistent crc m d) {ino : UInt32} {block off : Nat}
    (hloc : locateInode m.fs.sb m.fs.groups ino = .ok (block, off)) :
    m.IsMetadata block ∧ m.OffTables block ∧ m.Lands block := by
  obtain ⟨g, bgd, hbgd, hlow, hhigh⟩ := h.inode_inTable hloc
  have hsuper := h.superblock_lt_inode hloc
  have horigin := h.origin
  have hmeta : m.IsMetadata block :=
    ⟨by omega, g, bgd, hbgd, .inr (.inr (.inr ⟨hlow, hhigh⟩))⟩
  refine ⟨hmeta, h.inodeTables g bgd hbgd block hlow hhigh, ?_⟩
  intro jw hjw
  have hdef : m.fs.sb.primarySuperblockBlock = superblockOffset / m.fs.sb.blockSize := rfl
  exact ⟨fun hb => (h.journal jw hjw block hb).1 hmeta, by omega, by omega⟩

end Consistent

section Written

variable {crc : Crc} {m m' : Mount} {d d' : Disk} {buf buf' : BlockBuffer} {taken freed : Set Slot}
  {ino : UInt32} {orig inode : Inode} {raw₀ raw raw' : Bytes} {block off : Nat}

theorem Open.patchSbCounters (ho : Open crc m d buf taken freed)
    (h : Consistent crc m d) {x y : Int}
    (hpatch : m.bufferPatchSbCounters crc (m.fs.reader d) buf x y = .ok buf') :
    Open crc m d buf' taken freed := by
  unfold bufferPatchSbCounters editSuperblock at hpatch
  refine ho.edit h.superblock_offTables ?_ hpatch
  intro b hb
  have hin := superblock_in_block m.fs.sb
  have hstore : ∀ (b : Bytes) (off : Nat) (v : UInt32), off + 4 ≤ 1024 → b.length = 1024 →
      (copyAt b off (u32le v)).length = 1024 := by
    intro b off v hoff hb
    rw [length_copyAt _ _ _ (by rw [length_u32le, hb]; exact hoff), hb]
  have hsb : ∀ sb : Bytes, sb.length = 1024 → (m.patchSbCounters crc sb x y).length = 1024 := by
    intro sb hsb
    have hcounts : ∀ u v w, (copyAt (copyAt (copyAt sb 0x10 (u32le u)) 0x0C (u32le v)) 0x158
        (u32le w)).length = 1024 := by
      intro u v w
      exact hstore _ _ w (by decide) (hstore _ _ v (by decide) (hstore sb _ u (by decide) hsb))
    unfold Mount.patchSbCounters
    dsimp only
    split
    · exact hstore _ _ _ (by decide) (hcounts _ _ _)
    · exact hcounts _ _ _
  have hslice : (slice b (superblockOffset % m.fs.sb.blockSize) 1024).length = 1024 :=
    length_slice_of_le _ _ _ (by rw [hb]; exact hin)
  rw [length_copyAt _ _ _ (by rw [hsb _ hslice, hb]; exact hin)]

theorem Open.storeInode (ho : Open crc m d buf taken freed) (h : Consistent crc m d)
    (hold : InodeAt crc m (d.img.block m.fs.sb.blockSize) ino block off orig raw₀)
    (hlen : raw'.length = raw₀.length) (hparsed : Inode.parse raw' = .ok inode)
    (hchecked : m.csum.enabled = true → m.csum.verifyInode crc ino inode.generation raw' = true)
    (hwrite : m.bufferWriteInode d buf ino raw' = .ok buf') :
    Open crc m d buf' taken freed ∧
      InodeAt crc m (buf'.view d.img m.fs.sb.blockSize) ino block off inode raw' ∧
      ∀ b, b ≠ block → buf'.view d.img m.fs.sb.blockSize b =
        buf.view d.img m.fs.sb.blockSize b := by
  have hraw : raw'.length = m.fs.sb.inodeSize := by rw [hlen, hold.length]
  have hfits := hold.fits
  have hblock : (d.img.block m.fs.sb.blockSize block).length = m.fs.sb.blockSize :=
    Image.length_read _ _ _
  rw [hblock] at hfits
  have hwhole := ho.coherent.whole block
  have hat := bufferWriteInode_at hold.located (by rw [hwhole]; exact hfits) hraw hparsed
    hchecked hwrite
  obtain ⟨block', off', hloc, hview, -⟩ := bufferWriteInode_ok hwrite
  obtain ⟨rfl, rfl⟩ := Prod.mk.inj (Except.ok.inj (hold.located.symm.trans hloc))
  refine ⟨?_, hat, ?_⟩
  · unfold bufferWriteInode at hwrite
    obtain ⟨⟨block', off'⟩, hloc', hedit⟩ := Result.bind_eq_ok hwrite
    obtain ⟨rfl, rfl⟩ := Prod.mk.inj (Except.ok.inj (hold.located.symm.trans hloc'))
    refine ho.edit (h.inode_isMetadata hold.located).2.1 ?_ hedit
    intro b hb
    exact length_copyAt _ _ _ (by rw [hraw, hb]; exact hfits)
  · intro b hb
    rw [hview, Function.update_of_ne hb]

theorem Open.writeInode (ho : Open crc m d buf taken freed) (h : Consistent crc m d)
    (hold : InodeAt crc m (d.img.block m.fs.sb.blockSize) ino block off orig raw₀) {now : Int}
    {newSize newSectors : Nat} (hparses : Inode.Parses raw) (hlen : raw.length = raw₀.length)
    (hgeneration : (Inode.fields raw).generation = orig.generation) (hsize : newSize < 2 ^ 64)
    (hsectors : newSectors < 2 ^ 48)
    (hfinal : m.finalizeInodeRawAfterWrite crc now ino raw orig newSize newSectors = .ok raw')
    (hwrite : m.bufferWriteInode d buf ino raw' = .ok buf') :
    Open crc m d buf' taken freed ∧
      InodeAt crc m (buf'.view d.img m.fs.sb.blockSize) ino block off
        { Inode.fields raw with size := newSize, blocks := newSectors } raw' ∧
      ∀ b, b ≠ block → buf'.view d.img m.fs.sb.blockSize b =
        buf.view d.img m.fs.sb.blockSize b := by
  obtain ⟨hlen', hparsed, hchecked⟩ := finalizeInodeRawAfterWrite_ok hparses hsize hsectors hfinal
  exact ho.storeInode h hold (hlen'.trans hlen) hparsed (by rw [hgeneration]; exact hchecked) hwrite

theorem readInodeVerified_of_at (hat : InodeAt crc m (d.img.block m.fs.sb.blockSize) ino block
    off inode raw)
    (h64 : block * m.fs.sb.blockSize < 2 ^ 64) (hfits : (block + 1) * m.fs.sb.blockSize ≤ d.size)
    (hdir : inode.isDir = true → ∃ ceiling, m.byteCeiling = .ok ceiling ∧ inode.size ≤ ceiling) :
    m.readInodeVerified crc d ino = .ok (inode, raw) := by
  have hraw : (m.fs.readInodeRaw ino).exec d = (.ok raw, d) := by
    unfold Filesystem.readInodeRaw
    rw [Io.exec_bind_ok _ _ d d _ (by rw [Io.exec_liftM, hat.located])]
    dsimp only
    have hblock : (m.fs.readBlock block).exec d =
        (.ok (d.img.block m.fs.sb.blockSize block), d) := by
      unfold Filesystem.readBlock
      rw [if_neg (Nat.not_le.mpr h64), exec_readAt d _ _ (by rw [← Nat.succ_mul]; exact hfits)]
      rfl
    rw [Io.exec_bind_ok _ _ _ _ _ hblock, if_neg (Nat.not_lt.mpr hat.fits), hat.stored]
    rfl
  unfold readInodeVerified
  rw [hraw]
  dsimp only
  rw [Result.ok_bind, verifiedInode_eq_ok.mpr ⟨rfl, hat.parsed, hat.checked⟩, Result.ok_bind]
  dsimp only
  cases hisDir : inode.isDir with
  | false => rfl
  | true =>
    obtain ⟨ceiling, hceiling, hle⟩ := hdir hisDir
    rw [if_pos rfl, hceiling, Result.ok_bind, if_neg (Nat.not_lt.mpr hle)]
    rfl

theorem readInodeVerified_ceiling (h : m.readInodeVerified crc d ino = .ok (inode, raw))
    (hdir : inode.isDir = true) : ∃ ceiling, m.byteCeiling = .ok ceiling ∧
    inode.size ≤ ceiling := by
  unfold readInodeVerified at h
  obtain ⟨raw', -, h⟩ := Result.bind_eq_ok h
  obtain ⟨⟨inode', raw''⟩, -, h⟩ := Result.bind_eq_ok h
  dsimp only at h
  split at h
  · obtain ⟨ceiling, hceiling, h⟩ := Result.bind_eq_ok h
    split at h
    · cases h
    · rename_i hle
      obtain ⟨rfl, -⟩ := Prod.mk.inj (Except.ok.inj h)
      exact ⟨ceiling, hceiling, Nat.le_of_not_lt hle⟩
  · rename_i hno
    obtain ⟨rfl, -⟩ := Prod.mk.inj (Except.ok.inj h)
    exact absurd hdir hno

theorem readInodeVerified_fits (h : m.readInodeVerified crc d ino = .ok (inode, raw))
    (hloc : locateInode m.fs.sb m.fs.groups ino = .ok (block, off)) :
    block * m.fs.sb.blockSize < 2 ^ 64 ∧ (block + 1) * m.fs.sb.blockSize ≤ d.size := by
  unfold readInodeVerified at h
  obtain ⟨raw', hread, -⟩ := Result.bind_eq_ok h
  obtain ⟨e, hexec⟩ : ∃ e, (m.fs.readInodeRaw ino).exec d = (.ok raw', e) := ⟨_, Prod.ext hread rfl⟩
  obtain ⟨⟨block', off'⟩, d₁, hlift, hexec⟩ := Io.exec_bind_eq_ok _ _ _ _ _ hexec
  rw [Io.exec_liftM] at hlift
  obtain ⟨hloc', rfl⟩ := Prod.mk.inj hlift
  obtain ⟨rfl, rfl⟩ := Prod.mk.inj (Except.ok.inj (hloc.symm.trans hloc'))
  obtain ⟨bytes, d₂, hblock, -⟩ := Io.exec_bind_eq_ok _ _ _ _ _ hexec
  unfold Filesystem.readBlock at hblock
  rw [Nat.succ_mul]
  split at hblock
  · cases (Prod.mk.inj hblock).1
  · rename_i hlow
    refine ⟨Nat.lt_of_not_le hlow, Nat.le_of_not_lt fun hpast => ?_⟩
    rw [exec_readAt_past d _ _ (Nat.not_le.mpr hpast)] at hblock
    cases (Prod.mk.inj hblock).1

end Written

end Mount

namespace BlockBuffer

def Within (n : Nat) (buf : BlockBuffer) : Prop := ∀ b, buf.Staged b → b < n

variable {n block : Nat} {buf : BlockBuffer} {bytes : Bytes}

theorem within_new (n : Nat) : Within n BlockBuffer.new := fun _ h => Bool.noConfusion h

theorem Within.put (h : Within n buf) (hb : block < n) : Within n (buf.put block bytes) := by
  intro b hs
  obtain rfl | hs := (staged_put _ _ _ _).mp hs
  · exact hb
  · exact h b hs

end BlockBuffer

namespace Mount

section Readable

variable {crc : Crc} {m : Mount} {read : Nat → Result Bytes} {block gi : Nat} (buf : BlockBuffer)

theorem exists_getMut (hb : ∃ bytes, read block = .ok bytes) :
    ∃ bytes buf', buf.getMut read block = .ok (bytes, buf') ∧
      ∀ n, buf.Within n → block < n → buf'.Within n := by
  unfold BlockBuffer.getMut
  cases buf.dirty.get? block with
  | some bytes => exact ⟨bytes, buf, rfl, fun _ h _ => h⟩
  | none =>
    obtain ⟨bytes, hok⟩ := hb
    exact ⟨bytes, buf.put block bytes, by rw [hok]; rfl, fun _ h hlt => h.put hlt⟩

theorem exists_edit (hb : ∃ bytes, read block = .ok bytes) (f : Bytes → Bytes) :
    ∃ buf', buf.edit read block f = .ok buf' ∧ ∀ n, buf.Within n → block < n → buf'.Within n := by
  obtain ⟨bytes, buf₁, hget, h₁⟩ := exists_getMut buf hb
  exact ⟨_, by rw [BlockBuffer.edit, hget]; rfl, fun n h hlt => (h₁ n h hlt).put hlt⟩

theorem exists_patchBgdCounters (hdesc : ∃ bytes, read (m.descAt gi).1 = .ok bytes) (x y z : Int) :
    ∃ buf', m.bufferPatchBgdCounters crc read buf gi x y z = .ok buf' ∧
      ∀ n, buf.Within n → (m.descAt gi).1 < n → buf'.Within n := by
  unfold bufferPatchBgdCounters
  exact exists_edit buf hdesc _

theorem exists_refreshBitmapCsum (hdesc : ∃ bytes, read (m.descAt gi).1 = .ok bytes)
    {bgd : BlockGroupDescriptor} {kind : BitmapKind}
      (hbitmap : ∃ bytes, read (kind.bitmapBlock bgd) = .ok bytes) :
    ∃ buf', m.bufferRefreshBitmapCsum crc read buf gi bgd kind = .ok buf' ∧
      ∀ n, buf.Within n → (m.descAt gi).1 < n → kind.bitmapBlock bgd < n → buf'.Within n := by
  unfold bufferRefreshBitmapCsum
  cases m.csum.enabled with
  | false => exact ⟨buf, rfl, fun _ h _ _ => h⟩
  | true =>
    obtain ⟨bytes, buf₁, hget, h₁⟩ := exists_getMut buf hbitmap
    obtain ⟨buf₂, hedit, h₂⟩ := exists_edit buf₁ hdesc (fun block => m.stampBitmapCsum crc block
      (m.descAt gi).2 gi kind.csumLo kind.csumHi
        (crc m.csum.seed (bytes.take (kind.coverage m.fs.sb))))
    refine ⟨buf₂, ?_, fun n h hdesc hbitmap => h₂ n (h₁ n h hbitmap) hdesc⟩
    simp only [Bool.not_true, Bool.false_eq_true, if_false]
    rw [hget, Result.ok_bind]
    exact hedit

theorem exists_clearBgdUninitFlagIfSet (hdesc : ∃ bytes, read (m.descAt gi).1 = .ok bytes)
    (flag : UInt16) :
    ∃ was buf', m.clearBgdUninitFlagIfSet read buf gi flag = .ok (was, buf') ∧
      ∀ n, buf.Within n → (m.descAt gi).1 < n → buf'.Within n := by
  obtain ⟨bytes, buf₁, hget, h₁⟩ := exists_getMut buf hdesc
  unfold clearBgdUninitFlagIfSet
  dsimp only
  rw [hget, Result.ok_bind]
  dsimp only
  split
  · exact ⟨false, buf₁, rfl, h₁⟩
  · exact ⟨true, _, rfl, fun n h hlt => (h₁ n h hlt).put hlt⟩

theorem exists_markBlockRunUsed (start len : Nat) {bgd : BlockGroupDescriptor}
    (hbgd : m.fs.groups[(m.blockSlot start).group]? = some bgd)
    (hdesc : ∃ bytes, read (m.descAt (m.blockSlot start).group).1 = .ok bytes)
    (hbitmap : ∃ bytes, read bgd.blockBitmap = .ok bytes) :
    ∃ buf', m.bufferMarkBlockRunUsed crc read buf start len = .ok buf' ∧
      ∀ n, buf.Within n → (m.descAt (m.blockSlot start).group).1 < n → bgd.blockBitmap < n →
      buf'.Within n := by
  obtain ⟨was, buf₁, hclear, h₁⟩ := exists_clearBgdUninitFlagIfSet buf hdesc blockUninit
  obtain ⟨buf₂, hedit, h₂⟩ := exists_edit buf₁ hbitmap
    (m.markedBlockBitmap (m.blockSlot start).group
    (start - (m.fs.sb.firstDataBlock.toNat + (m.blockSlot
      start).group * m.fs.sb.blocksPerGroup.toNat))
    len was)
  obtain ⟨buf₃, hrefresh, h₃⟩ := @exists_refreshBitmapCsum crc m read (m.blockSlot start).group
    buf₂ hdesc bgd .block hbitmap
  refine ⟨buf₃, ?_, fun n h hd hb => h₃ n (h₂ n (h₁ n h hd) hb) hd hb⟩
  unfold blockSlot at hbgd hclear hedit hrefresh
  unfold bufferMarkBlockRunUsed
  dsimp only at hbgd hclear hedit hrefresh ⊢
  rw [hbgd]
  dsimp only
  rw [hclear, Result.ok_bind]
  dsimp only
  rw [hedit, Result.ok_bind]
  exact hrefresh

theorem exists_patchSbCounters (hsuper : ∃ bytes, read m.fs.sb.primarySuperblockBlock = .ok bytes)
    (x y : Int) :
    ∃ buf', m.bufferPatchSbCounters crc read buf x y = .ok buf' ∧
      ∀ n, buf.Within n → m.fs.sb.primarySuperblockBlock < n → buf'.Within n := by
  unfold bufferPatchSbCounters editSuperblock
  exact exists_edit buf hsuper _

end Readable

end Mount

end FsExt4
