import FsExt4.InlineGrow
import FsExt4.ExtentPromote
import FsExt4.IndirectLookup
import FsExt4.Checksums

namespace FsExt4

open Lib Jbd2 Alloc

namespace Mount

section Model

variable (crc : Crc) (m : Mount) (d : Disk)

/-- Plan a block for each of the planner's calls, apart from the data block and from those planned
before; nothing is staged in between. -/
def pendingMeta (buf : BlockBuffer) (parentGroup : Nat) (data : BlockAllocationPlan) :
    Nat → Result (List BlockAllocationPlan)
  | 0 => .ok []
  | n + 1 => do
    let pending ← pendingMeta buf parentGroup data n
    let plan ← m.planBufferedBlockAllocationExcluding (m.fs.reader d) buf 1 parentGroup
      (reservedBlocks data pending)
    return pending ++ [plan]

def allocMeta (buf : BlockBuffer) (parentGroup : Nat) (data : BlockAllocationPlan) :
    Allocator := fun i => do
  let pending ← m.pendingMeta d buf parentGroup data i
  let plan ← m.planBufferedBlockAllocationExcluding (m.fs.reader d) buf 1 parentGroup
    (reservedBlocks data pending)
  return plan.firstBlock

def bufferDirBlockAllocs (buf : BlockBuffer) : List BlockAllocationPlan → Result BlockBuffer
  | [] => .ok buf
  | plan :: rest => do
    let buf ← m.bufferDirBlockAlloc crc d buf plan
    bufferDirBlockAllocs buf rest

def sealedNode (ino generation : UInt32) (bytes : Bytes) : Bytes :=
  if m.csum.enabled then m.csum.patchExtentTail crc ino generation bytes else bytes

def putNodes (ino generation : UInt32) (buf : BlockBuffer) (writes : List (Nat × Bytes)) :
    BlockBuffer :=
  writes.foldl (fun buf w => buf.put w.1 (m.sealedNode crc ino generation w.2)) buf

def bufferGrownDir (buf : BlockBuffer) (ino : UInt32) (inode : Inode) (raw : Bytes)
    (blocksConsumed newPhys : Nat) (block : Bytes) : Result BlockBuffer := do
  let raw ← patchInodeSizeAndBlocks raw (inode.size + m.fs.sb.blockSize)
    (inode.blocks + m.fs.sb.blockSize / 512 * blocksConsumed)
  let buf ← m.bufferWriteDirInode crc d buf ino inode.generation raw
  return buf.put newPhys block

def allocMapped (buf : BlockBuffer) (ino : UInt32) : Result (UInt32 × BlockBuffer) := do
  let (phys, buf) ← m.bufferAllocDirBlock crc d buf ino
  if 2 ^ 32 ≤ phys then throw (.corrupt "directory block past a 32-bit block map")
  return (UInt32.ofNat phys, buf)

/-- Grow a directory whose blocks are named by twelve pointers and a single-indirect block. -/
def bufferExtendMappedDir (buf : BlockBuffer) (ino : UInt32) (inode : Inode) (raw : Bytes)
    (newLogical : Nat) (block : Bytes) : Result BlockBuffer := do
  if Indirect.directCount + m.fs.sb.blockSize / 4 ≤ newLogical then
    throw (.unsupported "growing an ext2/ext3 directory past its single-indirect block")
  let (newPhys, buf) ← m.allocMapped crc d buf ino
  if newLogical < Indirect.directCount then
    m.bufferGrownDir crc d buf ino inode (copyAt raw (0x28 + 4 * newLogical) (u32le newPhys)) 1
      newPhys.toNat block
  else
    let at_ := 4 * (newLogical - Indirect.directCount)
    let indirectPhys := u32leAt raw (0x28 + 4 * Indirect.directCount)
    if indirectPhys = 0 then
      let (indirectPhys, buf) ← m.allocMapped crc d buf ino
      let buf := buf.put indirectPhys.toNat
        (copyAt (List.replicate m.fs.sb.blockSize 0) at_ (u32le newPhys))
      m.bufferGrownDir crc d buf ino inode
        (copyAt raw (0x28 + 4 * Indirect.directCount) (u32le indirectPhys)) 2 newPhys.toNat block
    else
      let indirect ← buf.bufferedBlock (m.fs.reader d) indirectPhys.toNat
      let buf := buf.put indirectPhys.toNat (copyAt indirect at_ (u32le newPhys))
      m.bufferGrownDir crc d buf ino inode raw 1 newPhys.toNat block

/-- Grow a directory whose tree has more than one leaf, or a full one. -/
def bufferExtendDirDeep (fuel : Nat) (buf : BlockBuffer) (ino : UInt32) (inode : Inode)
    (raw : Bytes) (block : Bytes) (newExtent : Extent) (dataPlan : BlockAllocationPlan) :
    Option (Result BlockBuffer) :=
  let parentGroup := (ino - 1).toNat / m.fs.sb.inodesPerGroup.toNat
  (planInsertExtentDeep fuel inode.block newExtent m.fs.sb.blockSize (m.fs.reader d)
    (m.allocMeta d buf parentGroup dataPlan)).map (fun planned => do
      let deep ← planned
      let pending ← m.pendingMeta d buf parentGroup dataPlan deep.allocatedBlocks.length
      let buf ← m.bufferDirBlockAlloc crc d buf dataPlan
      let buf ← m.bufferDirBlockAllocs crc d buf pending
      let buf := m.putNodes crc ino inode.generation buf deep.blockWrites
      let raw ← patchInodeBlockArea raw deep.newRoot
      m.bufferGrownDir crc d buf ino inode raw (1 + pending.length) dataPlan.firstBlock block)

def bufferExtendDirDepth1 (fuel : Nat) (buf : BlockBuffer) (ino : UInt32) (inode : Inode)
    (raw : Bytes) (block : Bytes) (newExtent : Extent) (plan : BlockAllocationPlan) :
    Option (Result BlockBuffer) :=
  match ExtentHeader.parse inode.block with
  | .error e => some (.error e)
  | .ok header =>
    if header.entries ≠ 1 then m.bufferExtendDirDeep crc d fuel buf ino inode raw block
      newExtent plan
    else
      let leafAt : Result (Nat × Bytes) := do
        let idx ← ExtentIdx.parse (slice inode.block nodeSize nodeSize)
        let leaf ← buf.bufferedBlock (m.fs.reader d) idx.leafBlock
        if m.csum.enabled ∧ m.csum.verifyExtentTail crc ino inode.generation leaf = false then
          throw (.badChecksum "extent block")
        return (idx.leafBlock, leaf)
      match leafAt with
      | .error e => some (.error e)
      | .ok (leafPhys, leaf) =>
        match planInsertExtent leaf newExtent with
        | .error e =>
          if e = .corruptExtentTree leafFull then
            m.bufferExtendDirDeep crc d fuel buf ino inode raw block newExtent plan
          else some (.error e)
        | .ok newLeaf => some (do
          let buf ← m.bufferDirBlockAlloc crc d buf plan
          let buf := buf.put leafPhys (m.sealedNode crc ino inode.generation newLeaf)
          m.bufferGrownDir crc d buf ino inode raw 1 plan.firstBlock block)

/-- Grow a directory whose tree is its inline root, which is promoted when it is full. -/
def bufferExtendDirRoot (buf : BlockBuffer) (ino : UInt32) (inode : Inode) (raw : Bytes)
    (block : Bytes) (newExtent : Extent) (plan : BlockAllocationPlan) : Result BlockBuffer := do
  let buf ← m.bufferDirBlockAlloc crc d buf plan
  match planInsertExtent inode.block newExtent with
  | .ok newRoot =>
    let raw ← patchInodeBlockArea raw newRoot
    m.bufferGrownDir crc d buf ino inode raw 1 plan.firstBlock block
  | .error e =>
    if e = .corruptExtentTree leafFull then
      let (leafPhys, buf) ← m.bufferAllocDirBlock crc d buf ino
      let promo ← planPromoteLeaf inode.block newExtent m.fs.sb.blockSize leafPhys m.csum.enabled
      let buf := buf.put leafPhys (m.sealedNode crc ino inode.generation promo.leafBytes)
      let raw ← patchInodeBlockArea raw promo.newRootBytes
      m.bufferGrownDir crc d buf ino inode raw 2 plan.firstBlock block
    else throw e

def dirExtent (newLogical newPhys : Nat) : Extent := ⟨newLogical % 2 ^ 32, 1, newPhys, false⟩

/-- Grow a directory by a block that holds `block`; nothing is returned when the descent of a deep
insert takes more than `fuel` nodes. -/
def bufferAppendDirBlock (fuel : Nat) (buf : BlockBuffer) (ino : UInt32) (block : Bytes) :
    Option (Result BlockBuffer) :=
  match m.bufferedInodeVerified crc d buf ino with
  | .error e => some (.error e)
  | .ok (inode, raw) =>
    let newLogical := divCeil inode.size m.fs.sb.blockSize
    if !inode.isDir then some (.error .notADirectory)
    else if inode.flags &&& inodeFlagExtents = 0 then
      some (m.bufferExtendMappedDir crc d buf ino inode raw newLogical block)
    else
      match m.planBufferedBlockAllocation (m.fs.reader d) buf 1
          ((ino - 1).toNat / m.fs.sb.inodesPerGroup.toNat) with
      | .error e => some (.error e)
      | .ok plan =>
        match ExtentHeader.parse inode.block with
        | .error e => some (.error e)
        | .ok header =>
          let newExtent := dirExtent newLogical plan.firstBlock
          if header.depth = 1 then m.bufferExtendDirDepth1 crc d fuel buf ino inode raw block
            newExtent plan
          else if 1 < header.depth then m.bufferExtendDirDeep crc d fuel buf ino inode raw block
            newExtent plan
          else some (m.bufferExtendDirRoot crc d buf ino inode raw block newExtent plan)

end Model

section Marks

variable {crc : Crc} {m : Mount} {d : Disk} {buf buf' : BlockBuffer}

theorem markBlocks_used_iff (hbnd : m.fs.sb.Bounds) (hsep : m.Separate)
    (hw : m.WholeBlocks d.img buf) {start len : Nat} (hrun : m.InGroup start len)
    (h : m.bufferMarkBlockRunUsed crc (m.fs.reader d) buf start len = .ok buf') (s : Slot) :
    m.used (buf'.view d.img m.fs.sb.blockSize) s = true ↔
      m.used (buf.view d.img m.fs.sb.blockSize) s = true ∨ s ∈ m.blockSlots start len := by
  obtain ⟨hkept, hmore⟩ := markBlocks_used hbnd hsep hw hrun h
  refine ⟨fun hs => ?_, fun hs => hs.elim (hkept s) (hmore s)⟩
  obtain ⟨gi, bgd, was, buf₁, hgi, hbgd, he⟩ := bufferMarkBlockRunUsed_ok hbnd hw
    (hsep.ne_desc .block) h
  by_cases hin : s.kind = .block ∧ s.group = gi
  · obtain ⟨bm, hbm, hself⟩ := he.used_self hbnd hsep hw hbgd
    have hbit : start - m.fs.sb.firstBlockOfGroup gi = (m.blockSlot start).bit := by
      rw [hgi]
      exact sub_firstBlockOfGroup hrun.first
    obtain ⟨k, g, j⟩ := s
    obtain ⟨hk, hg⟩ := hin
    dsimp only at hk hg
    subst hk hg
    rw [(hself j).2, bit_markedBlockBitmap _ _ _ _ _ _ hbm, hbit, ← (hself j).1, Bool.or_eq_true,
      decide_eq_true_iff] at hs
    obtain hs | ⟨hlow, hhigh, -⟩ := hs
    · exact Or.inl hs
    · refine Or.inr ⟨start + (j - (m.blockSlot start).bit), Nat.le_add_right _ _, by omega, ?_⟩
      rw [blockSlot_add hrun (by omega), Nat.add_sub_cancel' hlow]
      exact congrArg (fun g => (⟨.block, g, j⟩ : Slot)) hgi
  · rw [he.used_of_ne hbnd hsep hw hbgd hin] at hs
    exact Or.inl hs

theorem patchBgdCounters_used (hbnd : m.fs.sb.Bounds) (hsep : m.Separate)
    (hw : m.WholeBlocks d.img buf) {gi : Nat} (hgi : gi < m.fs.groups.length) {x y z : Int}
    (h : m.bufferPatchBgdCounters crc (m.fs.reader d) buf gi x y z = .ok buf') (s : Slot) :
    m.used (buf'.view d.img m.fs.sb.blockSize) s = m.used (buf.view d.img m.fs.sb.blockSize) s :=
  (bufferPatchBgdCounters_ok hbnd hw h).used_eq hbnd hsep.apart hw hgi s

theorem used_of_offTables {v v' : Nat → Bytes} {block : Nat} (hoff : m.OffTables block)
    (hview : ∀ b, b ≠ block → v' b = v b) (s : Slot) : m.used v' s = m.used v s := by
  apply used_congr
  · intro hs
    unfold uninitIn flagsIn
    rw [hview _ (hoff.1 s.group hs).symm]
  · intro bgd hbgd
    exact hview _ (hoff.2 s.kind s.group bgd hbgd).symm

end Marks

section Takes

variable {crc : Crc} {m : Mount} {d : Disk} {buf buf₁ buf' : BlockBuffer} {taken freed : Set Slot}
  {fresh more puts : List Nat}

def slotsOf (m : Mount) (blocks : List Nat) : Set Slot := {s | ∃ b ∈ blocks, s = m.blockSlot b}

theorem slotsOf_append (m : Mount) (l l' : List Nat) : m.slotsOf (l ++ l') =
    m.slotsOf l ∪ m.slotsOf l' := by
  ext s
  constructor
  · rintro ⟨b, hb, rfl⟩
    exact (List.mem_append.mp hb).imp (fun hb => ⟨b, hb, rfl⟩) (fun hb => ⟨b, hb, rfl⟩)
  · rintro (⟨b, hb, rfl⟩ | ⟨b, hb, rfl⟩)
    · exact ⟨b, List.mem_append_left _ hb, rfl⟩
    · exact ⟨b, List.mem_append_right _ hb, rfl⟩

theorem slotsOf_singleton (m : Mount) (b : Nat) : m.slotsOf [b] = m.blockSlots b 1 := by
  ext s
  constructor
  · rintro ⟨b', hb, rfl⟩
    rw [List.mem_singleton.mp hb]
    exact ⟨b, Nat.le_refl _, Nat.lt_succ_self _, rfl⟩
  · rintro ⟨b', h1, h2, rfl⟩
    obtain rfl : b' = b := by omega
    exact ⟨b', List.mem_singleton_self _, rfl⟩

/-- A block of the volume that belongs to no table. -/
structure Content (m : Mount) (b : Nat) : Prop where
  first : m.fs.sb.firstDataBlock.toNat ≤ b
  inVolume : b < m.fs.sb.blocksCount
  content : ¬ m.IsMetadata b

theorem Content.offTables {b : Nat} (hc : m.Content b) (h : Consistent crc m d) : m.OffTables b :=
  h.offTables hc.first hc.content

theorem Content.ne_superblock {b : Nat} (hc : m.Content b) (h : Consistent crc m d)
    (hgroups : 0 < m.fs.groups.length) : b ≠ m.fs.sb.primarySuperblockBlock := by
  rintro rfl
  exact hc.content (h.isMetadata_superblock hgroups)

theorem Content.ne_zero {b : Nat} (hc : m.Content b) (h : Consistent crc m d)
    (hgroups : 0 < m.fs.groups.length) : b ≠ 0 := by
  rintro rfl
  have hzero := Nat.le_zero.mp hc.first
  rw [h.origin] at hzero
  exact hc.ne_superblock h hgroups hzero.symm

/-- From one state of a transaction to another exactly the blocks of `fresh` come into use, all of
them free before, and no block changes but those of the tables and of `puts`. -/
structure Takes (crc : Crc) (m : Mount) (d : Disk) (taken freed : Set Slot) (buf buf' : BlockBuffer)
    (fresh puts : List Nat) : Prop where
  isOpen : Open crc m d buf' (taken ∪ m.slotsOf fresh) freed
  used : ∀ s, m.used (buf'.view d.img m.fs.sb.blockSize) s = true ↔
    m.used (buf.view d.img m.fs.sb.blockSize) s = true ∨ s ∈ m.slotsOf fresh
  free : ∀ b ∈ fresh, m.used (buf.view d.img m.fs.sb.blockSize) (m.blockSlot b) = false
  distinct : fresh.Nodup
  content : ∀ b ∈ fresh, m.Content b
  other : ∀ b, m.OffTables b → b ≠ m.fs.sb.primarySuperblockBlock → b ∉ puts →
    buf'.view d.img m.fs.sb.blockSize b = buf.view d.img m.fs.sb.blockSize b

theorem Takes.refl (ho : Open crc m d buf taken freed) : Takes crc m d taken freed buf
    buf [] [] where
  isOpen := by
    have hnil : taken ∪ m.slotsOf [] = taken := by
      ext s
      simp [slotsOf]
    rw [hnil]
    exact ho
  used s := by simp [slotsOf]
  free b hb := absurd hb (List.not_mem_nil)
  distinct := .nil
  content b hb := absurd hb (List.not_mem_nil)
  other b _ _ _ := rfl

theorem Takes.trans {puts' : List Nat} (h : Takes crc m d taken freed buf buf₁ fresh puts)
    (h' : Takes crc m d (taken ∪ m.slotsOf fresh) freed buf₁ buf' more puts') :
    Takes crc m d taken freed buf buf' (fresh ++ more) (puts ++ puts') where
  isOpen := by
    rw [slotsOf_append, ← Set.union_assoc]
    exact h'.isOpen
  used s := by
    rw [h'.used, h.used, slotsOf_append, or_assoc]
    rfl
  free b hb := by
    obtain hb | hb := List.mem_append.mp hb
    · exact h.free b hb
    · have hb' := h'.free b hb
      rw [Bool.eq_false_iff] at hb' ⊢
      exact fun hu => hb' ((h.used _).mpr (Or.inl hu))
  distinct := by
    refine List.nodup_append.mpr ⟨h.distinct, h'.distinct, ?_⟩
    rintro b hb b' hb' rfl
    have hfree := h'.free b hb'
    rw [(h.used _).mpr (Or.inr ⟨b, hb, rfl⟩)] at hfree
    cases hfree
  content b hb := (List.mem_append.mp hb).elim (h.content b) (h'.content b)
  other b hoff hsuper hb := by
    obtain ⟨h1, h2⟩ := not_or.mp (fun hor => hb (List.mem_append.mpr hor))
    rw [h'.other b hoff hsuper h2, h.other b hoff hsuper h1]

theorem Takes.open_put (h : Takes crc m d taken freed buf buf₁ fresh puts) {block : Nat}
    (hoff : m.OffTables block) (ho : Open crc m d buf' (taken ∪ m.slotsOf fresh) freed)
    (hview : ∀ b, b ≠ block → buf'.view d.img m.fs.sb.blockSize b =
      buf₁.view d.img m.fs.sb.blockSize b) :
    Takes crc m d taken freed buf buf' fresh (puts ++ [block]) where
  isOpen := ho
  used s := by
    rw [← h.used s, used_of_offTables hoff hview s]
  free := h.free
  distinct := h.distinct
  content := h.content
  other b hb hsuper hputs := by
    obtain ⟨h1, h2⟩ := not_or.mp (fun hor => hputs (List.mem_append.mpr hor))
    have hne : b ≠ block := fun he => h2 (List.mem_singleton.mpr he)
    rw [hview b hne, h.other b hb hsuper h1]

theorem Takes.put (h : Takes crc m d taken freed buf buf₁ fresh puts) {block : Nat} {bytes : Bytes}
    (hoff : m.OffTables block) (hlen : bytes.length = m.fs.sb.blockSize) (h64 : block < 2 ^ 64) :
    Takes crc m d taken freed buf (buf₁.put block bytes) fresh (puts ++ [block]) := by
  apply h.open_put hoff (h.isOpen.put hoff hlen h64)
  intro b hb
  rw [BlockBuffer.view_put, Function.update_of_ne hb]

structure Takeable (m : Mount) (v : Nat → Bytes) (plan : BlockAllocationPlan) : Prop where
  count : plan.count = 1
  inGroup : m.InGroup plan.firstBlock 1
  group : plan.bgd.groupIdx = (m.blockSlot plan.firstBlock).group
  inGroups : (m.blockSlot plan.firstBlock).group < m.fs.groups.length
  content : m.Content plan.firstBlock
  free : m.used v (m.blockSlot plan.firstBlock) = false

theorem PlannedRun.takeable {v : Nat → Bytes} {reserved : List Nat} {plan : BlockAllocationPlan}
    (h : PlannedRun m v reserved 1 plan) (hmeta : m.MetadataUsed v) : m.Takeable v plan where
  count := h.count
  inGroup := h.count ▸ h.free.inGroup
  group := h.group
  inGroups := h.inGroups
  content := by
    have hcount := h.count
    have hvolume := h.inVolume
    exact ⟨h.free.inGroup.first, by omega, h.free.not_isMetadata hmeta (Nat.le_refl _) (by omega)⟩
  free := by
    have hcount := h.count
    exact (h.free.free _ (Nat.le_refl _) (by omega)).1

theorem Takeable.later {plan : BlockAllocationPlan}
    (hp : m.Takeable (buf.view d.img m.fs.sb.blockSize) plan)
    (h : Takes crc m d taken freed buf buf₁ fresh puts) (hnew : plan.firstBlock ∉ fresh) :
    m.Takeable (buf₁.view d.img m.fs.sb.blockSize) plan where
  count := hp.count
  inGroup := hp.inGroup
  group := hp.group
  inGroups := hp.inGroups
  content := hp.content
  free := by
    rw [Bool.eq_false_iff]
    intro hu
    obtain hu | ⟨b, hb, heq⟩ := (h.used _).mp hu
    · rw [hp.free] at hu
      cases hu
    · rw [blockSlot_inj hp.content.first (h.content b hb).first heq] at hnew
      exact hnew hb

theorem Takes.metadataUsed (h : Takes crc m d taken freed buf buf₁ fresh puts)
    (hmeta : m.MetadataUsed (buf.view d.img m.fs.sb.blockSize)) :
    m.MetadataUsed (buf₁.view d.img m.fs.sb.blockSize) :=
  fun b hb hbit => (h.used _).mpr (Or.inl (hmeta b hb hbit))

theorem bufferDirBlockAlloc_takes (h : Consistent crc m d) (ho : Open crc m d buf taken freed)
    {plan : BlockAllocationPlan} (hp : m.Takeable (buf.view d.img m.fs.sb.blockSize) plan)
    (halloc : m.bufferDirBlockAlloc crc d buf plan = .ok buf') :
    Takes crc m d taken freed buf buf' [plan.firstBlock] [] := by
  have hbnd := h.coherent.accepted.bounds
  have hsep := h.coherent.separate
  unfold bufferDirBlockAlloc at halloc
  rw [if_neg (fun hne => hne hp.count)] at halloc
  obtain ⟨buf₁, hmark, halloc⟩ := Result.bind_eq_ok halloc
  obtain ⟨buf₂, hpatch, hsb⟩ := Result.bind_eq_ok halloc
  rw [hp.group] at hpatch
  have ho₂ := ho.allocBlocks hbnd hsep hp.inGroup hmark hpatch
  have hopen := ho₂.patchSbCounters h hsb
  unfold bufferPatchSbCounters editSuperblock at hsb
  obtain ⟨hview, -, -⟩ := BlockBuffer.edit_ok hsb
  have hwhole : m.WholeBlocks d.img buf₁ := by
    obtain ⟨g, bgd, was, buf₀, -, hbgd, hedit⟩ :=
      bufferMarkBlockRunUsed_ok hbnd ho.coherent.whole (hsep.ne_desc .block) hmark
    refine hedit.edit.wholeBlocks (fun b => ?_) (hedit.clear.wholeBlocks hbnd ho.coherent.whole)
    exact m.length_markedBlockBitmap _ _ _ was b
  have hused : ∀ s, m.used (buf'.view d.img m.fs.sb.blockSize) s = m.used
      (buf₁.view d.img m.fs.sb.blockSize) s := by
    intro s
    rw [used_of_offTables h.superblock_offTables
      (fun b hb => by rw [hview, Function.update_of_ne hb]) s]
    exact patchBgdCounters_used hbnd hsep hwhole hp.inGroups hpatch s
  refine ⟨?_, ?_, ?_, List.nodup_singleton _, ?_, ?_⟩
  · rw [slotsOf_singleton]
    exact hopen
  · intro s
    rw [hused, slotsOf_singleton]
    exact markBlocks_used_iff hbnd hsep ho.coherent.whole hp.inGroup hmark s
  · intro b hb
    rw [List.mem_singleton.mp hb]
    exact hp.free
  · intro b hb
    rw [List.mem_singleton.mp hb]
    exact hp.content
  · intro b hoff hsuper _
    rw [hview, Function.update_of_ne hsuper, view_markBlockRunUsed h ho hmark hpatch hoff]

theorem bufferDirBlockAllocs_takes (h : Consistent crc m d) (ho : Open crc m d buf taken freed)
    {plans : List BlockAllocationPlan}
      (hp : ∀ p ∈ plans, m.Takeable (buf.view d.img m.fs.sb.blockSize) p)
    (hdistinct : (plans.map BlockAllocationPlan.firstBlock).Nodup)
    (halloc : m.bufferDirBlockAllocs crc d buf plans = .ok buf') :
    Takes crc m d taken freed buf buf' (plans.map BlockAllocationPlan.firstBlock) [] := by
  induction plans generalizing buf taken with
  | nil =>
    obtain rfl := Except.ok.inj halloc
    exact Takes.refl ho
  | cons plan rest ih =>
    obtain ⟨buf₁, hone, hrest⟩ := Result.bind_eq_ok halloc
    obtain ⟨hnot, hnodup⟩ := List.nodup_cons.mp hdistinct
    have htake := bufferDirBlockAlloc_takes h ho (hp plan List.mem_cons_self) hone
    have hlater : ∀ p ∈ rest, m.Takeable (buf₁.view d.img m.fs.sb.blockSize) p := by
      intro p hmem
      refine (hp p (List.mem_cons_of_mem _ hmem)).later htake ?_
      intro hin
      exact hnot (List.mem_map.mpr ⟨p, hmem, List.mem_singleton.mp hin⟩)
    exact htake.trans (ih htake.isOpen hlater hnodup hrest)

theorem bufferAllocDirBlock_takes (h : Consistent crc m d) (ho : Open crc m d buf taken freed)
    (hmeta : m.MetadataUsed (buf.view d.img m.fs.sb.blockSize)) {ino : UInt32} {phys : Nat}
    (halloc : m.bufferAllocDirBlock crc d buf ino = .ok (phys, buf')) :
    Takes crc m d taken freed buf buf' [phys] [] := by
  unfold bufferAllocDirBlock at halloc
  obtain ⟨plan, hplan, halloc⟩ := Result.bind_eq_ok halloc
  obtain ⟨buf₁, hone, halloc⟩ := Result.bind_eq_ok halloc
  obtain ⟨rfl, rfl⟩ := Prod.mk.inj (Except.ok.inj halloc)
  exact bufferDirBlockAlloc_takes h ho ((ho.plannedRun h.coherent hplan).takeable hmeta) hone

end Takes

section Pending

variable {crc : Crc} {m : Mount} {d : Disk} {buf : BlockBuffer} {taken freed : Set Slot}
  {group : Nat} {data : BlockAllocationPlan} {pending : List BlockAllocationPlan} {n i b : Nat}

theorem allocMeta_eq_ok (h : m.allocMeta d buf group data i = .ok b) :
    ∃ pending plan, m.pendingMeta d buf group data i = .ok pending ∧
      m.planBufferedBlockAllocationExcluding (m.fs.reader d) buf 1 group
        (reservedBlocks data pending) = .ok plan ∧
      plan.firstBlock = b := by
  obtain ⟨pending, hpending, h⟩ := Result.bind_eq_ok h
  obtain ⟨plan, hplan, h⟩ := Result.bind_eq_ok h
  exact ⟨pending, plan, hpending, hplan, Except.ok.inj h⟩

theorem pendingMeta_succ (h : m.pendingMeta d buf group data (n + 1) = .ok pending) :
    ∃ before plan, pending = before ++ [plan] ∧ m.pendingMeta d buf group data n = .ok before ∧
      m.planBufferedBlockAllocationExcluding (m.fs.reader d) buf 1 group
        (reservedBlocks data before) = .ok plan ∧
      m.allocMeta d buf group data n = .ok plan.firstBlock := by
  obtain ⟨before, hbefore, h⟩ := Result.bind_eq_ok h
  obtain ⟨plan, hplan, h⟩ := Result.bind_eq_ok h
  refine ⟨before, plan, (Except.ok.inj h).symm, hbefore, hplan, ?_⟩
  unfold allocMeta
  rw [hbefore, Result.ok_bind, hplan, Result.ok_bind]
  rfl

theorem pendingMeta_firsts (h : m.pendingMeta d buf group data n = .ok pending) :
    pending.length = n ∧ ∀ i b, (pending.map BlockAllocationPlan.firstBlock)[i]? = some b →
      m.allocMeta d buf group data i = .ok b := by
  induction n generalizing pending with
  | zero =>
    obtain rfl := Except.ok.inj h
    exact ⟨rfl, fun i b hb => absurd hb (by simp)⟩
  | succ n ih =>
    obtain ⟨before, plan, rfl, hbefore, -, hlast⟩ := pendingMeta_succ h
    obtain ⟨hlen, hall⟩ := ih hbefore
    refine ⟨by rw [List.length_append, hlen, List.length_singleton], fun i b hb => ?_⟩
    rw [List.map_append, List.getElem?_append, List.length_map, hlen] at hb
    split at hb
    · exact hall i b hb
    · rename_i hi
      obtain ⟨hin, rfl⟩ := List.getElem?_eq_some_iff.mp hb
      rw [List.length_map, List.length_singleton] at hin
      obtain rfl : i = n := by omega
      simpa using hlast

theorem pendingMeta_drawn {drawn : List Nat} (h : m.pendingMeta d buf group data drawn.length =
    .ok pending) (hdrawn : Drawn (m.allocMeta d buf group data) drawn) :
    pending.map BlockAllocationPlan.firstBlock = drawn := by
  obtain ⟨hlen, hall⟩ := pendingMeta_firsts h
  apply List.ext_getElem
  · rw [List.length_map, hlen]
  · intro i hi hi'
    have h1 := hall i _ (List.getElem?_eq_getElem hi)
    have h2 := hdrawn i hi'
    exact Except.ok.inj (h1.symm.trans h2)

theorem mem_reservedBlocks {plan : BlockAllocationPlan} (hcount : plan.count = 1)
    (hin : plan ∈ data :: pending) : plan.firstBlock ∈ reservedBlocks data pending := by
  refine List.mem_flatMap.mpr ⟨plan, hin, List.mem_map.mpr ⟨0, ?_, rfl⟩⟩
  rw [hcount]
  exact List.mem_range.mpr Nat.one_pos

variable (h : Consistent crc m d) (ho : Open crc m d buf taken freed)
  (hmeta : m.MetadataUsed (buf.view d.img m.fs.sb.blockSize))
  (hdata : m.Takeable (buf.view d.img m.fs.sb.blockSize) data)

include h ho hmeta

theorem excluding_takeable {reserved : List Nat} {plan : BlockAllocationPlan}
    (hplan : m.planBufferedBlockAllocationExcluding (m.fs.reader d) buf 1 group
      reserved = .ok plan) :
    m.Takeable (buf.view d.img m.fs.sb.blockSize) plan ∧ plan.firstBlock ∉ reserved := by
  have hrun := ho.plannedRun h.coherent hplan
  have hcount := hrun.count
  exact ⟨hrun.takeable hmeta, (hrun.free.free _ (Nat.le_refl _) (by omega)).2⟩

include hdata

theorem pendingMeta_takeable (hp : m.pendingMeta d buf group data n = .ok pending) :
    (∀ p ∈ data :: pending, m.Takeable (buf.view d.img m.fs.sb.blockSize) p) ∧
      ((data :: pending).map BlockAllocationPlan.firstBlock).Nodup := by
  induction n generalizing pending with
  | zero =>
    obtain rfl := Except.ok.inj hp
    exact ⟨List.forall_mem_singleton.mpr hdata, List.nodup_singleton _⟩
  | succ n ih =>
    obtain ⟨before, plan, rfl, hbefore, hplan, -⟩ := pendingMeta_succ hp
    obtain ⟨htake, hnew⟩ := excluding_takeable h ho hmeta hplan
    obtain ⟨hall, hnodup⟩ := ih hbefore
    rw [← List.cons_append]
    constructor
    · intro p hin
      obtain hin | hin := List.mem_append.mp hin
      · exact hall p hin
      · rw [List.mem_singleton.mp hin]
        exact htake
    · rw [List.map_append, List.nodup_append]
      refine ⟨hnodup, List.nodup_singleton _, ?_⟩
      rintro b hb b' hb' rfl
      obtain ⟨p, hin, rfl⟩ := List.mem_map.mp hb
      have hp' : p.firstBlock = plan.firstBlock := List.mem_singleton.mp hb'
      rw [← hp'] at hnew
      exact hnew (mem_reservedBlocks (hall p hin).count hin)

theorem allocMeta_fresh {old : List Nat}
    (hold : ∀ b ∈ old, m.used (buf.view d.img m.fs.sb.blockSize) (m.blockSlot b) = true) :
    Allocator.Fresh (m.allocMeta d buf group data) (0 :: old) := by
  have hone : ∀ {i b : Nat}, m.allocMeta d buf group data i = .ok b →
      m.Content b ∧ m.used (buf.view d.img m.fs.sb.blockSize) (m.blockSlot b) = false := by
    intro i b hb
    obtain ⟨pending, plan, -, hplan, rfl⟩ := allocMeta_eq_ok hb
    have htake := (excluding_takeable h ho hmeta hplan).1
    exact ⟨htake.content, htake.free⟩
  have hgroups : 0 < m.fs.groups.length := Nat.zero_lt_of_lt hdata.inGroups
  have hlt : ∀ {i j b : Nat}, i < j → m.allocMeta d buf group data i = .ok b →
      m.allocMeta d buf group data j ≠ .ok b := by
    intro i j b hij hi hj
    obtain ⟨pending, plan, hpending, hplan, rfl⟩ := allocMeta_eq_ok hj
    obtain ⟨hlen, hall⟩ := pendingMeta_firsts hpending
    have hin : i < pending.length := hlen.symm ▸ hij
    have hfirst := hall i (pending.get ⟨i, hin⟩).firstBlock (by simp [hin])
    have heq := Except.ok.inj (hi.symm.trans hfirst)
    have hcount := ((pendingMeta_takeable h ho hmeta hdata hpending).1 _
      (List.mem_cons_of_mem _ (List.get_mem pending ⟨i, hin⟩))).count
    have hmem := mem_reservedBlocks hcount
      (List.mem_cons_of_mem data (List.get_mem pending ⟨i, hin⟩))
    rw [← heq] at hmem
    exact (excluding_takeable h ho hmeta hplan).2 hmem
  refine ⟨?_, ?_, ?_⟩
  · intro i j b hi hj
    obtain hij | hij | hij := Nat.lt_trichotomy i j
    · exact absurd hj (hlt hij hi)
    · exact hij
    · exact absurd hi (hlt hij hj)
  · intro i b hb hin
    obtain ⟨hcontent, hfree⟩ := hone hb
    obtain rfl | hin := List.mem_cons.mp hin
    · exact hcontent.ne_zero h hgroups rfl
    · rw [hold b hin] at hfree
      cases hfree
  · intro i b hb
    exact Nat.lt_of_lt_of_le (hone hb).1.inVolume h.addressable

end Pending

end Mount

end FsExt4
