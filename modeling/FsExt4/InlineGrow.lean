import FsExt4.FreeSpace
import FsExt4.InlineConvert

namespace FsExt4

open Lib Jbd2 Alloc

namespace Mount

section Model

variable (crc : Crc) (m : Mount) (d : Disk)

/-- The entries of one of a directory's blocks, as the open transaction has it. -/
def bufferedBlockEntries (buf : BlockBuffer) (inode : Inode) (logical : Nat) : Result
    (List DirEntry) := do
  match ← m.mapInodeLogical d inode logical with
  | none => return []
  | some phys =>
    let block ← buf.bufferedBlock (m.fs.reader d) phys
    Dir.parseBlock block m.fs.sb.hasFiletype

/-- A directory's entries as the open transaction has them, from its inode or from its blocks. -/
def bufferedDirEntries (buf : BlockBuffer) (ino : UInt32) : Result (List DirEntry) := do
  let (inode, raw) ← m.bufferedInodeVerified crc d buf ino
  if inode.hasInlineData then
    ((InlineData.readDir ino inode raw m.fs.sb.inodeSize m.fs.sb.blockSize m.fs.sb.hasFiletype).exec
      d).1
  else
    let blocks ← (List.range (m.totalBlocks inode)).mapM (m.bufferedBlockEntries d buf inode)
    return blocks.flatten

end Model

end Mount

/-- The image that `buffer_write_dir_inode` stores. -/
def Mount.sealedInode (crc : Crc) (m : Mount) (ino generation : UInt32) (raw : Bytes) : Bytes :=
  if m.csum.enabled then m.csum.patchInodeChecksum crc ino generation raw else raw

namespace InlineMut

theorem ImageReads.sealed {raw : Bytes} {inodeSize : Nat} {map : UInt8 × Bytes → Option Bytes}
    (h : ImageReads raw inodeSize map) (crc : Crc) (m : Mount) (ino generation : UInt32) :
    ImageReads (m.sealedInode crc ino generation raw) inodeSize map := by
  have hbase := h.base
  have h128 : 128 ≤ raw.length := hbase
  unfold Mount.sealedInode
  cases henabled : m.csum.enabled with
  | false => exact h
  | true =>
    obtain ⟨lo, hi, -, hpatch⟩ := m.csum.patchInodeChecksum_eq crc ino generation raw henabled hbase
    rw [if_pos rfl, hpatch]
    have hlow : SameOutside
        (fun i => Seal.cell 0x7C 2 i ∨ Checksummer.checksumHiFits raw = true ∧ Seal.cell 0x82 2 i)
        raw (copyAt raw 0x7C (u16le lo)) :=
      sameOutside_copyAt (by rw [length_u16le]; omega)
        (fun i hlow hhigh => .inl ⟨hlow, by rw [length_u16le] at hhigh; exact hhigh⟩)
    have hframe : SameOutside
        (fun i => Seal.cell 0x7C 2 i ∨ Checksummer.checksumHiFits raw = true ∧ Seal.cell 0x82 2 i)
        raw (Checksummer.summed raw lo hi) := by
      unfold Checksummer.summed
      split
      · rename_i hfits
        have hroom := Checksummer.hi_fits raw hfits
        exact hlow.trans (sameOutside_copyAt (by rw [length_u16le, hlow.1]; exact hroom)
          (fun i hge hlt => .inr ⟨hfits, hge, by rw [length_u16le] at hlt; exact hlt⟩))
      · exact hlow
    refine h.of_frame hframe (fun i hge hlt hi => ?_) ?_
    · unfold Seal.cell at hi
      omega
    · rintro i ⟨start, stop, harea, hge, -⟩ hi
      obtain ⟨hstart, -, hpos, -⟩ := attrArea_eq_some harea
      obtain hi | ⟨hfits, hi⟩ := hi
      · unfold Seal.cell at hi
        omega
      · unfold Checksummer.checksumHiFits at hfits
        have hextra := (of_decide_eq_true hfits).2
        unfold Seal.cell at hi
        omega

end InlineMut

namespace Mount

section Staged

variable {crc : Crc} {m : Mount} {d : Disk} {buf : BlockBuffer} {ino : UInt32} {inode : Inode}
  {raw new : Bytes} {block off : Nat}

theorem exists_bufferWriteDirInode
    (hold : InodeAt crc m (buf.view d.img m.fs.sb.blockSize) ino block off inode raw)
    (hblock : ∃ bytes, m.fs.reader d block = .ok bytes) (hlen : new.length = raw.length)
    (hparses : Inode.Parses new) (hgeneration : (Inode.fields new).generation = inode.generation) :
    ∃ buf', m.bufferWriteDirInode crc d buf ino inode.generation new = .ok buf' ∧
      m.bufferedInodeVerified crc d buf' ino =
        .ok (Inode.fields new, m.sealedInode crc ino inode.generation new) ∧
      (∀ b, b ≠ block → buf'.view d.img m.fs.sb.blockSize b = buf.view d.img m.fs.sb.blockSize b) ∧
      ∀ b, buf.Staged b → buf'.Staged b := by
  obtain ⟨hsealed, ⟨hparsed, hfields⟩, hchecked⟩ :=
    m.csum.dirInode_ok crc ino inode.generation hparses
  obtain ⟨buf', hedit, -⟩ := exists_edit buf hblock
    (fun table => copyAt table off (m.sealedInode crc ino inode.generation new))
  have hwrite : m.bufferWriteInode d buf ino (m.sealedInode crc ino inode.generation new) =
      .ok buf' := by
    unfold bufferWriteInode
    rw [hold.located]
    exact hedit
  obtain ⟨block', off', hloc, hview, hstaged⟩ := bufferWriteInode_ok hwrite
  obtain ⟨rfl, rfl⟩ := Prod.mk.inj (Except.ok.inj (hold.located.symm.trans hloc))
  have hat := bufferWriteInode_at hold.located hold.fits (hsealed.trans (hlen.trans hold.length))
    (Inode.parse_eq_ok.mpr ⟨hparsed, hfields⟩) (by rw [hgeneration]; exact hchecked) hwrite
  refine ⟨buf', hwrite, bufferedInodeVerified_of_staged hat ((hstaged block).mpr (.inl rfl)),
    fun b hb => ?_,
    fun b hb => (hstaged b).mpr (.inr hb)⟩
  rw [hview, Function.update_of_ne hb]

end Staged

section Taken

variable {crc : Crc} {m : Mount} {d : Disk} {buf : BlockBuffer} {taken freed : Set Slot}

/-- A block taken for a directory, and the transaction then. -/
structure TakesBlock (crc : Crc) (m : Mount) (d : Disk) (buf buf' : BlockBuffer)
    (taken freed : Set Slot) (phys : Nat) : Prop where
  isOpen : Open crc m d buf' (taken ∪ m.blockSlots phys 1) freed
  first : m.fs.sb.firstDataBlock.toNat ≤ phys
  inVolume : phys < m.fs.sb.blocksCount
  free : m.used (buf.view d.img m.fs.sb.blockSize) (m.blockSlot phys) = false
  content : ¬ m.IsMetadata phys
  other : ∀ b, m.OffTables b → b ≠ m.fs.sb.primarySuperblockBlock →
    buf'.view d.img m.fs.sb.blockSize b = buf.view d.img m.fs.sb.blockSize b

variable (h : Consistent crc m d) (hr : TableReadable m.fs d.size)
  (hdev : m.fs.sb.blocksCount * m.fs.sb.blockSize ≤ d.size) (h64 : d.size < 2 ^ 64)

include hdev h64 in
theorem reader_of_lt {b : Nat} (hb : b < m.fs.sb.blocksCount) : ∃ bytes, m.fs.reader d b =
    .ok bytes :=
  ⟨_, Filesystem.reader_of_fits m.fs d b (Nat.le_trans (Nat.mul_le_mul_right _ hb) hdev) h64⟩

include h in
theorem view_markBlockRunUsed {buf₁ buf₂ : BlockBuffer} {start len : Nat} {x y z : Int}
    (ho : Open crc m d buf taken freed)
    (hmark : m.bufferMarkBlockRunUsed crc (m.fs.reader d) buf start len = .ok buf₁)
    (hpatch : m.bufferPatchBgdCounters crc (m.fs.reader d) buf₁ (m.blockSlot start).group x y
      z = .ok buf₂)
    {b : Nat} (hb : m.OffTables b) :
    buf₂.view d.img m.fs.sb.blockSize b = buf.view d.img m.fs.sb.blockSize b := by
  have hbnd := h.coherent.accepted.bounds
  obtain ⟨g, bgd, was, buf₀, hg, hbgd, hedit⟩ :=
    bufferMarkBlockRunUsed_ok hbnd ho.coherent.whole (h.coherent.separate.ne_desc .block) hmark
  have hdesc : b ≠ (m.descAt g).1 := hb.1 g (lt_of_getElem?_eq_some hbgd)
  have hwhole : m.WholeBlocks d.img buf₁ := by
    refine hedit.edit.wholeBlocks (fun b => ?_) (hedit.clear.wholeBlocks hbnd ho.coherent.whole)
    exact m.length_markedBlockBitmap _ _ _ was b
  have hcounts := bufferPatchBgdCounters_ok hbnd hwhole hpatch
  rw [hcounts.other b (by rw [show (m.blockSlot start).group = g from hg.symm]; exact hdesc),
    hedit.edit.other b hdesc (hb.2 .block g bgd hbgd), hedit.clear.view]
  split
  · exact Function.update_of_ne hdesc _ _
  · rfl

include h hr hdev h64

theorem exists_bufferAllocDirBlock (hs : Staging crc m d buf taken freed) (ino : UInt32)
    (hfree : ∃ g ∈ visited m.fs.groups ((ino - 1).toNat / m.fs.sb.inodesPerGroup.toNat),
      FreeRunOn m (buf.view d.img m.fs.sb.blockSize) 1 g ∧ BlocksAtMount m 1 g) :
    ∃ phys buf', m.bufferAllocDirBlock crc d buf ino = .ok (phys, buf') ∧
      TakesBlock crc m d buf buf' taken freed phys := by
  have hbnd := h.coherent.accepted.bounds
  have hsep := h.coherent.separate
  have ho := h.coherent.isOpen hs
  obtain ⟨plan, hplan⟩ := (planBuffered_iff h.coherent hr hdev h64 ho Nat.one_pos).mpr hfree
  have hrun := ho.plannedRun h.coherent hplan
  have hfirst := hrun.free.inGroup.first
  have hcount := hrun.count
  have hvolume := hrun.inVolume
  obtain ⟨bgd, hbgd⟩ : ∃ bgd, m.fs.groups[(m.blockSlot plan.firstBlock).group]? = some bgd :=
    ⟨_, List.getElem?_eq_getElem hrun.inGroups⟩
  have hdesc : ∃ bytes, m.fs.reader d (m.descAt (m.blockSlot plan.firstBlock).group).1 =
      .ok bytes := by
    have hfits := (hr.fits _ hrun.inGroups).device
    exact ⟨_, Filesystem.reader_of_fits m.fs d _ (by rw [Nat.succ_mul]; exact hfits) h64⟩
  obtain ⟨buf₁, hmark, -⟩ := @exists_markBlockRunUsed crc m (m.fs.reader d) buf plan.firstBlock 1
    bgd hbgd hdesc (reader_of_lt hdev h64 (hr.inside _ bgd hbgd).1)
  obtain ⟨buf₂, hpatch, -⟩ := @exists_patchBgdCounters crc m (m.fs.reader d)
    (m.blockSlot plan.firstBlock).group buf₁ hdesc plan.bgd.freeBlocksDelta plan.bgd.freeInodesDelta
    plan.bgd.usedDirsDelta
  obtain ⟨buf₃, hsb, -⟩ := @exists_patchSbCounters crc m (m.fs.reader d) buf₂
    (reader_of_lt hdev h64 (h.origin ▸ hbnd.firstDataBlock)) plan.sb.freeBlocksDelta
      plan.sb.freeInodesDelta
  have hgroup := hrun.group
  rw [← hgroup] at hpatch
  have halloc : m.bufferAllocDirBlock crc d buf ino = .ok (plan.firstBlock, buf₃) := by
    unfold bufferAllocDirBlock bufferDirBlockAlloc
    dsimp only
    rw [hplan, Result.ok_bind, if_neg (fun hne => hne hcount), hmark]
    change (m.bufferPatchBgdCounters crc (m.fs.reader d) buf₁ plan.bgd.groupIdx
      plan.bgd.freeBlocksDelta
      plan.bgd.freeInodesDelta plan.bgd.usedDirsDelta >>= fun buf => m.bufferPatchSbCounters crc
        (m.fs.reader d) buf plan.sb.freeBlocksDelta plan.sb.freeInodesDelta) >>= _ = _
    rw [hpatch, Result.ok_bind, hsb, Result.ok_bind]
    rfl
  rw [hgroup] at hpatch
  have hin := hrun.free.inGroup
  rw [hcount] at hin
  have hmeta := hrun.free.not_isMetadata (ho.metadataUsed hs h.coherent.metadata)
    (Nat.le_refl _) (by omega)
  refine ⟨plan.firstBlock, buf₃, halloc,
    ⟨?_, hfirst, by omega, (hrun.free.free _ (Nat.le_refl _) (by omega)).1,
    hmeta, fun b hb hsuper => ?_⟩⟩
  · exact (ho.allocBlocks hbnd hsep hin hmark hpatch).patchSbCounters h hsb
  · unfold bufferPatchSbCounters editSuperblock at hsb
    obtain ⟨hview, -, -⟩ := BlockBuffer.edit_ok hsb
    rw [hview, Function.update_of_ne hsuper, view_markBlockRunUsed h ho hmark hpatch hb]

end Taken

end Mount

namespace Mount

open Dir InlineData InlineMut

def ListsDirectory (crc : Crc) (m : Mount) (d : Disk) (buf : BlockBuffer) (ino parent : UInt32)
    (entries : List DirEntry) : Prop :=
  ∃ dot dotdot now, m.bufferedDirEntries crc d buf ino = .ok now ∧
    now.Perm (dot :: dotdot :: entries) ∧
    (dot.inode = ino ∧ dot.name = dotName) ∧ (dotdot.inode = parent ∧ dotdot.name = dotdotName) ∧
    (m.fs.sb.hasFiletype = true → dot.fileType = .directory ∧ dotdot.fileType = .directory)

section Lists

variable {crc : Crc} {m : Mount} {d : Disk} {buf : BlockBuffer} {ino : UInt32} {inode : Inode}
  {raw : Bytes}
  {dir : InlineDir} {headSlots contSlots : List Dir.Slot} {map : UInt8 × Bytes → Option Bytes}
  {entries : List DirEntry}

theorem lists_inline (hfound : m.bufferedInodeVerified crc d buf ino = .ok (inode, raw))
    (hinline : inode.hasInlineData = true)
      (hsize : inode.size = iBlockLen + dir.continuation.length)
    (hvalue : dir.continuation = [] ∨ ImageReads raw m.fs.sb.inodeSize map ∧ map dataKey =
      some dir.continuation ∧
      AclReads d inode.fileAcl m.fs.sb.blockSize)
    (hblock : inode.block = u32le dir.parent ++ dir.head) (hparent : dir.parent ≠ 0)
    (htiled : InlineDir.Tiled m.fs.sb.hasFiletype headSlots contSlots dir)
    (hperm : (slotEntries m.fs.sb.hasFiletype (headSlots ++ contSlots)).Perm entries) :
    m.ListsDirectory crc d buf ino dir.parent entries := by
  have hword : u32leAt inode.block 0 = dir.parent := by
    apply u32leAt_of_slice
    rw [hblock, slice_append_left _ _ _ _ (by simp)]
    exact slice_zero_of_length_le _ _ (by simp)
  have hdrop : inode.block.drop inlineDotdotSize = dir.head := by
    rw [hblock]
    exact List.drop_left' (length_u32le _)
  have hhead : (dirBlockIter m.fs.sb.hasFiletype dir.head).mapM id =
      .ok (slotEntries m.fs.sb.hasFiletype headSlots) :=
    htiled.head.parseBlock_eq
  have hcont : (dirBlockIter m.fs.sb.hasFiletype dir.continuation).mapM id =
      .ok (slotEntries m.fs.sb.hasFiletype contSlots) := htiled.continuation.parseBlock_eq
  have hentries : dirEntries ino inode dir.continuation m.fs.sb.hasFiletype =
      .ok (⟨ino, dotName, .directory⟩ :: ⟨dir.parent, dotdotName, .directory⟩ ::
        slotEntries m.fs.sb.hasFiletype (headSlots ++ contSlots)) := by
    unfold dirEntries
    dsimp only
    rw [hword, if_neg hparent, hdrop, hhead, hcont, slotEntries_append]
    rfl
  refine ⟨⟨ino, dotName, .directory⟩, ⟨dir.parent, dotdotName, .directory⟩, _, ?_,
    (hperm.cons _).cons _, ⟨rfl, rfl⟩, ⟨rfl, rfl⟩, fun _ => ⟨rfl, rfl⟩⟩
  unfold bufferedDirEntries
  rw [hfound, Result.ok_bind]
  dsimp only
  rw [if_pos hinline]
  unfold readDir
  rw [Io.exec_bind_ok _ _ _ _ _ (InlineDir.exec_dirContinuation hsize hvalue),
    Io.exec_liftM, hentries]

theorem lists_block (hfound : m.bufferedInodeVerified crc d buf ino = .ok (inode, raw))
    (hblocked : inode.hasInlineData = false) (hsize : inode.size = m.fs.sb.blockSize) {phys : Nat}
      {block : Bytes}
    (hmapped : m.mapInodeLogical d inode 0 = .ok (some phys))
    (hblock : buf.bufferedBlock (m.fs.reader d) phys = .ok block) {now : List DirEntry}
    (hparse : parseBlock block m.fs.sb.hasFiletype = .ok now) :
    m.bufferedDirEntries crc d buf ino = .ok now := by
  have hbs := blockSize_ge m.fs.sb
  have hone : m.totalBlocks inode = 1 := by
    unfold totalBlocks divCeil
    rw [hsize]
    exact Nat.div_eq_of_lt_le (by omega) (by omega)
  have hentries : m.bufferedBlockEntries d buf inode 0 = .ok now := by
    unfold bufferedBlockEntries
    rw [hmapped, Result.ok_bind]
    dsimp only
    rw [hblock, Result.ok_bind, hparse]
  unfold bufferedDirEntries
  rw [hfound, Result.ok_bind]
  dsimp only
  rw [if_neg (fun hinline => Bool.false_ne_true (hblocked.symm.trans hinline)), hone,
    List.range_one]
  simp only [List.mapM_cons, List.mapM_nil, hentries]
  exact congrArg Except.ok (List.append_nil now)

theorem bufferedBlock_of_staged {read : Nat → Result Bytes} {b : Nat} (h : buf.Staged b) :
    buf.bufferedBlock read b = .ok (buf.view d.img m.fs.sb.blockSize b) := by
  obtain ⟨staged, hget⟩ := Option.isSome_iff_exists.mp h
  rw [BlockBuffer.bufferedBlock, BlockBuffer.view, hget]
  rfl

end Lists

end Mount

namespace Mount

open Dir InlineData InlineMut

section Sizes

variable {crc : Crc} {m : Mount} {d : Disk}

theorem logBlockSize_le (h : Consistent crc m d) : m.fs.sb.logBlockSize ≤ 6 := by
  have hsize := h.blockSize
  unfold Superblock.blockSize at hsize
  rw [Nat.shiftLeft_eq] at hsize
  by_contra hbig
  have hpow : 2 ^ 7 ≤ 2 ^ m.fs.sb.logBlockSize := Nat.pow_le_pow_right (by decide) (by omega)
  omega

theorem indirectBlockSize (h : Consistent crc m d) : Indirect.BlockSize m.fs.sb.blockSize := by
  refine ⟨⟨10 + m.fs.sb.logBlockSize, ?_⟩, blockSize_ge m.fs.sb, h.blockSize⟩
  unfold Superblock.blockSize
  rw [Nat.shiftLeft_eq, Nat.pow_add]

end Sizes

/-- An inline directory of an open transaction: its records tile both areas, and its attributes are
in form and end in front of the inode's end, `system.data` among them. -/
structure InlineDirectory (crc : Crc) (m : Mount) (d : Disk) (buf : BlockBuffer) (ino : UInt32)
    (inode : Inode) (raw : Bytes) (es : List Xattr.DecodedEntry) (dir : InlineDir)
      (headSlots contSlots : List Dir.Slot) :
    Prop where
  found : m.bufferedInodeVerified crc d buf ino = .ok (inode, raw)
  inline : inode.hasInlineData = true
  attrs : InodeAttrs raw m.fs.sb.inodeSize es
  room : ∃ start stop, attrArea raw m.fs.sb.inodeSize = some (start, stop) ∧
    Xattr.neededToSet dataKey.1 dataKey.2 dir.continuation es ≤ stop - start - 4
  size : inode.size = iBlockLen + dir.continuation.length
  block : inode.block = u32le dir.parent ++ dir.head
  continuation : dir.continuation = [] ∨ Xattr.attrs es dataKey = some dir.continuation
  further : AclReads d inode.fileAcl m.fs.sb.blockSize
  parent : dir.parent ≠ 0
  tiled : InlineDir.Tiled m.fs.sb.hasFiletype headSlots contSlots dir
  names : ∀ e ∈ slotEntries m.fs.sb.hasFiletype (headSlots ++ contSlots),
    1 ≤ e.name.length ∧ e.name.length ≤ 255
  blocks : inode.blocks + m.fs.sb.blockSize / 512 < 2 ^ 48
  direct : m.flavor.usesExtents = false →
    inode.flags &&& inodeFlagExtents = 0 ∧ m.fs.sb.blocksCount ≤ 2 ^ 32

/-- The directory with these entries: inline still, or in one block more than before; its further
attributes are what they were, in the inode and in the block that it names for them. -/
structure HoldsEntries (crc : Crc) (m : Mount) (d : Disk) (buf buf' : BlockBuffer) (ino : UInt32)
    (inode : Inode)
    (es : List Xattr.DecodedEntry) (parent : UInt32) (entries : List DirEntry) (new : Inode)
      (raw : Bytes) :
    Prop where
  found : m.bufferedInodeVerified crc d buf' ino = .ok (new, raw)
  lists : m.ListsDirectory crc d buf' ino parent entries
  attrs : ∃ map, ImageReads raw m.fs.sb.inodeSize map ∧ ∀ key, key ≠ dataKey →
    map key = Xattr.attrs es key
  further : new.fileAcl = inode.fileAcl ∧ ∀ b, m.fs.sb.firstDataBlock.toNat ≤ b → ¬ m.IsMetadata b →
    m.used (buf.view d.img m.fs.sb.blockSize) (m.blockSlot b) = true →
    buf'.view d.img m.fs.sb.blockSize b = buf.view d.img m.fs.sb.blockSize b
  kept : new.mode = inode.mode ∧ new.linksCount = inode.linksCount ∧ new.generation =
    inode.generation
  blocks : new.hasInlineData = true ∧ new.blocks = inode.blocks ∨
    new.hasInlineData = false ∧ new.blocks = inode.blocks + m.fs.sb.blockSize / 512

section Grow

variable {crc : Crc} {m : Mount} {d : Disk} {buf : BlockBuffer} {taken freed : Set Slot}
  {ino : UInt32} {inode : Inode} {raw : Bytes} {es : List Xattr.DecodedEntry} {dir : InlineDir}
  {headSlots contSlots : List Dir.Slot}

namespace InlineDirectory

variable (hdir : m.InlineDirectory crc d buf ino inode raw es dir headSlots contSlots)

include hdir

theorem inodeAt : ∃ block off, InodeAt crc m (buf.view d.img m.fs.sb.blockSize) ino block off
    inode raw :=
  bufferedInodeVerified_ok hdir.found

theorem fields : Inode.Parses raw ∧ inode = Inode.fields raw := by
  obtain ⟨block, off, hat⟩ := hdir.inodeAt
  exact Inode.parse_eq_ok.mp hat.parsed

theorem number : ino ≠ 0 := by
  obtain ⟨block, off, hat⟩ := hdir.inodeAt
  exact (locateInode_eq_ok.mp hat.located).1.1

theorem value : dir.continuation = [] ∨ ImageReads raw m.fs.sb.inodeSize (Xattr.attrs es) ∧
    Xattr.attrs es dataKey = some dir.continuation ∧ AclReads d inode.fileAcl m.fs.sb.blockSize :=
  hdir.continuation.imp_right (fun hcont => ⟨hdir.attrs.reads, hcont, hdir.further⟩)

theorem lists : m.ListsDirectory crc d buf ino dir.parent
    (slotEntries m.fs.sb.hasFiletype (headSlots ++ contSlots)) :=
  lists_inline hdir.found hdir.inline hdir.size hdir.value hdir.block hdir.parent
    hdir.tiled (.refl _)

theorem loads : m.bufferedInlineDir crc d buf ino = .ok (inode, raw, dir) := by
  unfold bufferedInlineDir
  split
  · rename_i e herror
    rw [hdir.found] at herror
    cases herror
  · rename_i inode' raw' hfound
    obtain ⟨rfl, rfl⟩ := Prod.mk.inj (Except.ok.inj (hdir.found.symm.trans hfound))
    have hblock : slice raw 0x28 60 = u32le dir.parent ++ dir.head :=
      (congrArg Inode.block hdir.fields.2).symm.trans hdir.block
    rw [InlineDir.exec_load hdir.size hdir.value hblock]
    rfl

theorem storable (hvalues : ∀ e ∈ es, e.valueInum = 0) :
    InlineDir.Storable raw m.fs.sb.inodeSize dir.continuation.length := by
  obtain ⟨start, stop, harea, hroom⟩ := hdir.room
  refine (InlineDir.storable_iff hdir.attrs harea _).mpr
    ((InlineDir.fits_iff hdir.attrs harea _).mpr ?_)
  exact (set_ok_iff hdir.attrs harea _).mpr ⟨hvalues, hroom⟩

theorem neededRoom_le :
    neededRoom (slotEntries m.fs.sb.hasFiletype (headSlots ++ contSlots)) ≤ m.fs.sb.inodeSize := by
  obtain ⟨start, stop, harea, hroom⟩ := hdir.room
  obtain ⟨-, hstop, hpos, hwide, -⟩ := attrArea_eq_some harea
  have hlen := Nat.le_trans (Xattr.length_le_neededToSet dataKey.1 dataKey.2 dir.continuation es)
    hroom
  have hhead := hdir.tiled.head.length_area
  have hcont := hdir.tiled.continuation.length_area
  have hhead56 := dir.head_length
  have hvalid : ∀ s ∈ headSlots ++ contSlots, s.Valid m.fs.sb.hasFiletype := by
    intro s hs
    obtain hs | hs := List.mem_append.mp hs
    · exact hdir.tiled.head.fills.valid s hs
    · exact hdir.tiled.continuation.fills.valid s hs
  have hbytes := neededRoom_slotEntries hvalid
  rw [slotBytes_append, List.length_append, hhead, hcont] at hbytes
  omega

theorem exists_bufferStoreInlineDir (h : Consistent crc m d) (hr : TableReadable m.fs d.size)
    (hdev : m.fs.sb.blocksCount * m.fs.sb.blockSize ≤ d.size) (h64 : d.size < 2 ^ 64)
      {dir' : InlineDir}
    {headSlots' contSlots' : List Dir.Slot} {entries : List DirEntry}
    (hstore : ∃ after, dir'.store raw m.fs.sb.inodeSize = some (.ok (), after))
    (htiled : InlineDir.Tiled m.fs.sb.hasFiletype headSlots' contSlots' dir')
      (hparent : dir'.parent = dir.parent)
    (hperm : (slotEntries m.fs.sb.hasFiletype (headSlots' ++ contSlots')).Perm entries) :
    ∃ buf' new raw', m.bufferStoreInlineDir crc d buf ino inode raw dir' = some (.ok buf') ∧
      m.HoldsEntries crc d buf buf' ino inode es dir.parent entries new raw' := by
  obtain ⟨after, hafter⟩ := hstore
  obtain ⟨hparses, hinode⟩ := hdir.fields
  obtain ⟨block, off, hat⟩ := hdir.inodeAt
  obtain ⟨e, herror⟩ | ⟨stored, hok, hstored⟩ := InlineDir.store_cases hdir.attrs dir'
  · rw [hafter] at herror
    cases (Option.some.inj herror)
  obtain ⟨-, rfl⟩ := Prod.mk.inj (Option.some.inj (hafter.symm.trans hok))
  obtain ⟨hstoredParses, hfields⟩ := Inode.parse_eq_ok.mp hstored.parsed
  obtain ⟨g, bgd, hbgd, -, hhigh⟩ := h.inode_inTable hat.located
  have hreader := reader_of_lt hdev h64 (Nat.lt_of_lt_of_le hhigh (hr.inside g bgd hbgd).2.2)
  obtain ⟨buf', hwrite, hfound, hother, -⟩ := exists_bufferWriteDirInode hat hreader hstored.frame.1
    hstoredParses (by rw [← hfields, hinode])
  have hreads := hstored.reads.sealed crc m ino inode.generation
  rw [← hfields, ← hinode] at hfound
  refine ⟨buf', _, _, ?_, ⟨hfound, ?_, ⟨_, hreads, fun key hkey => Function.update_of_ne hkey _ _⟩,
    ⟨rfl, fun b _ hcontent _ => hother b ?_⟩, ⟨rfl, rfl, rfl⟩, .inl ⟨hdir.inline, rfl⟩⟩⟩
  · unfold bufferStoreInlineDir
    rw [hafter]
    exact congrArg some hwrite
  · rw [← hparent]
    exact lists_inline hfound hdir.inline rfl
      (.inr ⟨hreads, Function.update_self _ _ _, hdir.further⟩) rfl
      (by rw [hparent]; exact hdir.parent) htiled hperm
  · rintro rfl
    exact hcontent (h.inode_isMetadata hat.located).1

theorem exists_bufferConvertInlineDir (h : Consistent crc m d) (hr : TableReadable m.fs d.size)
    (hdev : m.fs.sb.blocksCount * m.fs.sb.blockSize ≤ d.size) (h64 : d.size < 2 ^ 64)
    (hs : Staging crc m d buf taken freed) (hvalues : ∀ e ∈ es, e.valueInum = 0)
    (hfree : ∃ g ∈ visited m.fs.groups ((ino - 1).toNat / m.fs.sb.inodesPerGroup.toNat),
      FreeRunOn m (buf.view d.img m.fs.sb.blockSize) 1 g ∧ BlocksAtMount m 1 g)
    {entries : List DirEntry} (hgood : ∀ e ∈ entries, Holdable e)
    (hfits : neededRoom entries ≤ m.freshArea - 24) :
    ∃ buf' new raw', m.bufferConvertInlineDir crc d buf ino inode raw dir.parent entries =
      some (.ok buf') ∧
      m.HoldsEntries crc d buf buf' ino inode es dir.parent
        (entries.map (storedEntry m.fs.sb.hasFiletype)) new raw' := by
  obtain ⟨hparses, hinode⟩ := hdir.fields
  obtain ⟨block, off, hat⟩ := hdir.inodeAt
  obtain ⟨bytes, now, hblock, hlen, hparse, hperm⟩ := @convertedBlock_ok crc m ino dir.parent
    (logBlockSize_le h) hdir.number hdir.parent inode entries hgood hfits
  obtain ⟨phys, buf₁, halloc, htook⟩ := exists_bufferAllocDirBlock h hr hdev h64 hs ino hfree
  have haddressable := h.addressable
  have hvolume := htook.inVolume
  obtain ⟨g, bgd, hbgd, -, hhigh⟩ := h.inode_inTable hat.located
  have hreader := reader_of_lt hdev h64 (Nat.lt_of_lt_of_le hhigh (hr.inside g bgd hbgd).2.2)
  obtain ⟨hmeta, htables, -⟩ := h.inode_isMetadata hat.located
  have hsuper := h.superblock_lt_inode hat.located
  have hsuperMeta := h.isMetadata_superblock
    (Nat.lt_of_le_of_lt (Nat.zero_le _) (lt_of_getElem?_eq_some hbgd))
  have hpos : phys ≠ 0 := by
    rintro rfl
    have hzero := h.origin.symm.trans (Nat.le_zero.mp htook.first)
    rw [hzero] at hsuperMeta
    exact htook.content hsuperMeta
  have hne : block ≠ phys := by
    rintro rfl
    exact htook.content hmeta
  obtain ⟨raw₁, himage, hconverted⟩ := @convertedImage_ok m raw phys es hdir.attrs hvalues hparses
    (indirectBlockSize h) hpos (by omega)
    (fun hno => by
      obtain ⟨hflag, hcount⟩ := hdir.direct hno
      exact ⟨by rw [← hinode]; exact hflag, by omega⟩)
    (by rw [← hinode]; exact hdir.blocks)
  rw [← hinode] at himage
  obtain ⟨hgeneration, hmode, hlinks, hacl⟩ := hconverted.kept
  rw [← hinode] at hgeneration hmode hlinks hacl
  -- the inode's block is as it was, with the new block staged
  have hstaged : ∀ b, b ≠ phys → m.OffTables b → b ≠ m.fs.sb.primarySuperblockBlock →
      (buf₁.put phys bytes).view d.img m.fs.sb.blockSize b =
        buf.view d.img m.fs.sb.blockSize b := by
    intro b hb hoff hno
    rw [BlockBuffer.view_put, Function.update_of_ne hb, htook.other b hoff hno]
  have hview := hstaged block hne htables (by omega)
  have hat' : InodeAt crc m ((buf₁.put phys bytes).view d.img m.fs.sb.blockSize) ino block off
      inode raw :=
    ⟨hat.located, by rw [hview]; exact hat.fits, by rw [hview]; exact hat.stored, hat.parsed,
      hat.checked⟩
  obtain ⟨buf', hwrite, hfound, hother, hkept⟩ := exists_bufferWriteDirInode hat' hreader
    hconverted.length hconverted.parses hgeneration
  have hphys : buf'.bufferedBlock (m.fs.reader d) phys = .ok bytes := by
    have hin := hkept phys ((BlockBuffer.staged_put _ _ _ _).mpr (.inl rfl))
    rw [bufferedBlock_of_staged hin, hother phys hne.symm, BlockBuffer.view_put,
      Function.update_self]
  refine ⟨buf', _, _, ?_, ⟨hfound, ?_, ⟨_, hconverted.reads.sealed crc m ino inode.generation,
    fun key hkey => Function.update_of_ne hkey _ _⟩, ⟨hacl, fun b hfirst hcontent hused => ?_⟩,
    ⟨hmode, hlinks, hgeneration⟩, .inr ⟨hconverted.blocked, by rw [hconverted.blocks, ← hinode]⟩⟩⟩
  · unfold bufferConvertInlineDir
    rw [hblock]
    dsimp only
    rw [halloc]
    dsimp only
    rw [himage]
    exact congrArg some hwrite
  · refine ⟨_, _, now, lists_block hfound hconverted.blocked hconverted.size (hconverted.mapped d)
      hphys hparse, hperm, ⟨rfl, rfl⟩, ⟨rfl, rfl⟩, fun htype => ?_⟩
    rw [newEntry, newEntry, htype]
    exact ⟨rfl, rfl⟩
  · have hblockNe : b ≠ block := by
      rintro rfl
      exact hcontent hmeta
    have hphysNe : b ≠ phys := by
      rintro rfl
      rw [htook.free] at hused
      cases hused
    rw [hother b hblockNe]
    refine hstaged b hphysNe (h.offTables hfirst hcontent) ?_
    rintro rfl
    exact hcontent hsuperMeta

theorem fits_block (hhalf : m.fs.sb.inodeSize * 2 ≤ m.fs.sb.blockSize) {name : Bytes}
    (hmax : name.length ≤ 255) (target : UInt32) (fileType : DirEntryType) :
    neededRoom (slotEntries m.fs.sb.hasFiletype (headSlots ++ contSlots) ++
      [⟨target, name, fileType⟩]) ≤ m.freshArea - 24 := by
  have hold := hdir.neededRoom_le
  have hbs := blockSize_ge m.fs.sb
  have htail : m.freshTail ≤ 12 := by
    unfold freshTail
    split <;> omega
  have hnew : entryRecLen name.length ≤ 264 := by
    unfold entryRecLen
    omega
  unfold neededRoom at hold ⊢
  rw [List.map_append, List.sum_append, List.map_singleton, List.sum_singleton]
  dsimp only
  unfold freshArea
  omega

theorem holdable {name : Bytes} {target : UInt32} (htarget : target ≠ 0) (hpos : 1 ≤ name.length)
    (hmax : name.length ≤ 255) (fileType : DirEntryType) :
    ∀ e ∈ slotEntries m.fs.sb.hasFiletype (headSlots ++ contSlots) ++ [⟨target, name, fileType⟩],
      Holdable e := by
  intro e he
  obtain he | he := List.mem_append.mp he
  · exact ⟨(stored_of_mem he).2, (hdir.names e he).1, (hdir.names e he).2⟩
  · rw [List.mem_singleton.mp he]
    exact ⟨htarget, hpos, hmax⟩

end InlineDirectory

theorem HoldsEntries.perm {buf' : BlockBuffer} {parent : UInt32} {entries entries' : List DirEntry}
    {new : Inode}
    {raw' : Bytes} (h : m.HoldsEntries crc d buf buf' ino inode es parent entries new raw')
    (hperm : entries.Perm entries') : m.HoldsEntries crc d buf buf' ino inode es parent entries'
      new raw' := by
  obtain ⟨dot, dotdot, now, hnow, hlist, hrest⟩ := h.lists
  exact { h with lists := ⟨dot, dotdot, now, hnow, hlist.trans ((hperm.cons _).cons _), hrest⟩ }

theorem storedEntry_append {hasFileType : Bool} (slots : List Dir.Slot) (target : UInt32)
    (name : Bytes) (fileType : DirEntryType) :
    ((slotEntries hasFileType slots ++ [(⟨target, name, fileType⟩ : DirEntry)]).map
      (storedEntry hasFileType)).Perm
      (newEntry hasFileType target name fileType :: slotEntries hasFileType slots) := by
  have hsame : (slotEntries hasFileType slots).map (storedEntry hasFileType) =
      slotEntries hasFileType slots :=
    (List.map_congr_left (fun e he => (stored_of_mem he).1)).trans (List.map_id _)
  rw [List.map_append, hsame]
  exact List.perm_append_comm

end Grow

end Mount

namespace Mount

open Dir InlineData InlineMut Xattr

def inlineSb : Superblock where
  inodesCount := 16
  blocksCount := 64
  firstDataBlock := 1
  logBlockSize := 0
  blocksPerGroup := 8192
  inodesPerGroup := 16
  inodeSize := 256
  featureIncompat := 0x8442
  descSize := 32
  reservedGdtBlocks := 0
  journalInode := 0
  featureCompat := 0
  featureRoCompat := 0x1
  firstInode := 11
  metaBgField := 0
  backupBgs := [0, 0]
  uuid := List.replicate 16 0

/-- Blocks 1 to 8 are in use for the superblock, the descriptor, two bitmaps and the inode table,
block 9 for a value. -/
def inlineVolume : Mount where
  fs := {
    sb := inlineSb
    groups := [⟨3, 4, 5, 54, 1, 3, 0⟩]
    sizeBytes := 64 * 1024
    isWritable := true }
  csum := ⟨0, false⟩
  cleared := SortedMap.empty
  journal := none
  directCommitFailed := false

/-- An inline directory below the root of this size, with these records in `i_block` and these
attributes. -/
def inlineDirImage (size : UInt32) (records area : Bytes) : Bytes :=
  copyAll (List.replicate 256 0) [(0, u16le 0x41ED), (4, u32le size), (0x1A, u16le 2),
    (0x20, u32le 0x10000000),
    (0x28, u32le 2), (0x2C, records), (0x80, u16le 32), (0xA0, u32le xattrMagic ++ area)]

def dataRecord : Bytes := [4, 7, 0, 0] ++ List.replicate 12 0 ++ [0x64, 0x61, 0x74, 0x61]

def remoteRecord : Bytes := [1, 1, 0, 0] ++ u32le 14 ++ u32le 5 ++ [0, 0, 0, 0] ++ [0x61, 0, 0, 0]

/-- The entries of `system.data` and `user.a`, with their values behind them. -/
def continuedArea : Bytes :=
  [4, 7, 68, 0, 0, 0, 0, 0, 24, 0, 0, 0, 0, 0, 0, 0, 0x64, 0x61, 0x74, 0x61] ++
    [1, 1, 60, 0, 0, 0, 0, 0, 5, 0, 0, 0, 0, 0, 0, 0, 0x61, 0, 0, 0] ++ List.replicate 20 0 ++
    [1, 2, 3, 4, 5, 0, 0, 0] ++ slotBytes contSlots

def plainDir : Bytes := inlineDirImage 84 (slotBytes headSlots) continuedArea

def remoteDir : Bytes := inlineDirImage 60 (InlineDir.emptyRecord 56) (dataRecord ++ remoteRecord)

def valueInode : Bytes :=
  copyAll (List.replicate 256 0) [(0, u16le 0x8180), (4, u32le 5), (0x1A, u16le 1), (0x1C, u32le 2),
    (0x20, u32le 0x280000), (0x28, [0x0A, 0xF3, 1, 0, 4]), (0x38, [1, 0, 0, 0, 9]),
    (0x80, u16le 32)]

def fileInode : Bytes :=
  copyAll (List.replicate 256 0) [(0, u16le 0x81A4), (0x1A, u16le 2), (0x20, u32le 0x80000),
    (0x28, [0x0A, 0xF3, 0, 0, 4]), (0x80, u16le 32)]

/-- The directories are the inodes 12 and 13, the value is in inode 14, the file is inode 15. -/
def inlineDisk : Disk where
  img := Image.writeAll (fun _ => 0) [(2 * 1024, inlineVolume.fs.groups.flatMap rawDescriptor),
    (3 * 1024, [0xFF, 0x01]), (4 * 1024, [0xFF, 0x7F]), (7 * 1024 + 768, plainDir),
    (8 * 1024, remoteDir),
    (8 * 1024 + 256, valueInode), (8 * 1024 + 512, fileInode), (9 * 1024, [1, 2, 3, 4, 5])]
  size := 64 * 1024

theorem inline_isMetadata_lt {b : Nat} (h : inlineVolume.IsMetadata b) : b < 9 :=
  isMetadata_lt (by decide) h

theorem inline_separate : inlineVolume.Separate :=
  separate_of_forall (by decide) (by decide) (by decide)

theorem inline_mounted : Mounted linuxCrc32c inlineVolume inlineDisk where
  parsed := ⟨⟨0, 0, by decide⟩, by decide, by decide⟩
  clusters := by decide
  groups := by
    have hends : Result.Ends (fun groups => groups = inlineVolume.fs.groups)
        ((readAll linuxCrc32c inlineSb ⟨0, false⟩ (64 * 1024)).exec inlineDisk).1 := by
      decide +kernel
    obtain ⟨groups, hg, rfl⟩ := hends.exists_ok
    exact readAll_eq_of_fst hg
  cleared := rfl
  separate := inline_separate
  offJournal := fun jw hjw => by cases hjw
  initialised := by
    intro b hb hbit hu
    have hall : ∀ b ∈ List.range 9, b = 0 ∨
        inlineVolume.used (inlineDisk.img.block 1024) (inlineVolume.blockSlot b) = true := by
      decide +kernel
    have hfirst : 1 ≤ b := hb.1
    exact (hall b (List.mem_range.mpr (inline_isMetadata_lt hb))).resolve_left (by omega)
  uninitialised := by
    intro b hb hbit hu
    have hall : ∀ b ∈ List.range 9,
        inlineVolume.uninitIn (inlineDisk.img.block 1024) .block (inlineVolume.blockSlot b).group =
          false := by
      decide +kernel
    rw [show inlineVolume.fs.sb.blockSize = 1024 from rfl,
      hall b (List.mem_range.mpr (inline_isMetadata_lt hb))] at hu
    cases hu

theorem inline_consistent : Consistent linuxCrc32c inlineVolume inlineDisk where
  coherent := inline_mounted.coherent.1
  blockSize := by decide
  addressable := by decide
  origin := by decide
  inodeSize := by decide
  descriptors := by
    have hall : ∀ g < 1, inlineVolume.IsMetadata (inlineVolume.descAt g).1 := by decide
    exact hall
  inodeTables := offTables_of_le 5 (by decide)
  journal := fun jw hjw => by cases hjw

theorem inline_inode {ino : UInt32} {block off : Nat} {raw : Bytes}
    (hloc : locateInode inlineVolume.fs.sb inlineVolume.fs.groups ino = .ok (block, off))
      (hblock : block < 64)
    (hoff : off + 256 ≤ 1024) (hstored : inlineDisk.img.read (block * 1024 + off) 256 = raw)
    (hparses : Inode.Parses raw) (hsize : (Inode.fields raw).size ≤ 1024) :
    inlineVolume.bufferedInodeVerified linuxCrc32c inlineDisk BlockBuffer.new ino =
      .ok (Inode.fields raw, raw) := by
  have hat : InodeAt linuxCrc32c inlineVolume (inlineDisk.img.block 1024) ino block off
    (Inode.fields raw)
      raw := by
    refine ⟨hloc, ?_, ?_, Inode.parse_eq_ok.mpr ⟨hparses, rfl⟩, fun h => Bool.noConfusion h⟩
    · rw [Image.block, Image.length_read]
      exact hoff
    · exact (Image.slice_read _ _ _ _ _ hoff).trans hstored
  have haddress : block * 1024 < 2 ^ 64 := by omega
  have hdevice : (block + 1) * 1024 ≤ 64 * 1024 := by omega
  have hread := readInodeVerified_of_at hat haddress hdevice
    (fun _ => ⟨64 * 1024, by decide, Nat.le_trans hsize (by decide)⟩)
  unfold bufferedInodeVerified
  rw [hloc, Result.ok_bind]
  exact hread

theorem inline_inodes : inlineVolume.bufferedInodeVerified linuxCrc32c inlineDisk
    BlockBuffer.new 12 = .ok (Inode.fields plainDir, plainDir) ∧
    inlineVolume.bufferedInodeVerified linuxCrc32c inlineDisk BlockBuffer.new 13 =
      .ok (Inode.fields remoteDir, remoteDir) := by
  have hlocated : locateInode inlineVolume.fs.sb inlineVolume.fs.groups 12 = .ok (7, 768) ∧
      locateInode inlineVolume.fs.sb inlineVolume.fs.groups 13 = .ok (8, 0) := by
    decide
  have hstored : inlineDisk.img.read (7 * 1024 + 768) 256 = plainDir ∧
      inlineDisk.img.read (8 * 1024 + 0) 256 = remoteDir := by
    decide +kernel
  constructor
  · exact inline_inode hlocated.1 (by decide) (by decide) hstored.1
      ⟨by decide +kernel, by decide +kernel⟩ (by decide +kernel)
  · exact inline_inode hlocated.2 (by decide) (by decide) hstored.2
      ⟨by decide +kernel, by decide +kernel⟩ (by decide +kernel)

def dataEntry : DecodedEntry := ⟨7, [0x64, 0x61, 0x74, 0x61], [], 0⟩

def remoteEntry : DecodedEntry := ⟨1, [0x61], [], 14⟩

def continuedEntry : DecodedEntry := ⟨7, [0x64, 0x61, 0x74, 0x61], slotBytes contSlots, 0⟩

theorem continuedArea_placed : WellPlaced continuedArea 0 [continuedEntry, userAttr] := by
  have hextents : extentsFrom continuedArea [continuedEntry, userAttr] 0 = [(68, 24), (60, 8)] := by
    decide +kernel
  constructor
  · rw [hextents]
    decide +kernel
  · rw [hextents]
    exact List.pairwise_pair.mpr (.inr (by decide))

theorem inline_attrs :
    InodeAttrs plainDir 256 [continuedEntry, userAttr] ∧ InodeAttrs remoteDir 256
      [dataEntry, remoteEntry] := by
  have harea : attrArea plainDir 256 = some (160, 256) ∧ attrArea remoteDir 256 =
      some (160, 256) := by
    decide +kernel
  constructor
  · have hregion : slice plainDir 160 (256 - 160) = u32le xattrMagic ++
      continuedArea := by decide +kernel
    refine .of_area harea.1 (by decide) ⟨by decide +kernel, by decide, by decide, by decide, ?_⟩
    rw [hregion]
    exact continuedArea_placed
  · exact .of_area harea.2 (by decide) ⟨by decide +kernel, by decide, by decide, by decide,
      fun _ h => absurd h List.not_mem_nil, .nil⟩

theorem length_wholeRecord : (InlineDir.emptyRecord 56).length = 56 := by decide

def emptyDir : InlineDir where
  parent := 2
  head := InlineDir.emptyRecord 56
  continuation := []
  head_length := length_wholeRecord

example : emptyDir.entries true = .ok [] := by decide +kernel

theorem emptyDir_tiled : InlineDir.Tiled true [InlineDir.emptySlot 56] [] emptyDir where
  head := InlineDir.emptyRecord_blockOf true (by decide) (by decide) (by decide)
  continuation := ⟨⟨rfl, fun _ hs => absurd hs List.not_mem_nil, by decide⟩,
    fun _ hs => absurd hs List.not_mem_nil, .inl rfl⟩

theorem inline_directories :
    inlineVolume.InlineDirectory linuxCrc32c inlineDisk BlockBuffer.new 12
      (Inode.fields plainDir) plainDir [continuedEntry, userAttr] continuedDir headSlots contSlots ∧
    inlineVolume.InlineDirectory linuxCrc32c inlineDisk BlockBuffer.new 13
      (Inode.fields remoteDir) remoteDir
      [dataEntry, remoteEntry] emptyDir [InlineDir.emptySlot 56] [] := by
  constructor
  · exact ⟨inline_inodes.1, by decide +kernel, inline_attrs.1,
      ⟨160, 256, by decide +kernel, by decide +kernel⟩,
      by decide +kernel, by decide +kernel, .inr (by decide +kernel), .inl (by decide +kernel),
      by decide, continuedDir_tiled, by decide +kernel, by decide +kernel, fun h => absurd h (by decide)⟩
  · exact ⟨inline_inodes.2, by decide +kernel, inline_attrs.2,
      ⟨160, 256, by decide +kernel, by decide⟩,
      by decide +kernel, by decide +kernel, .inl rfl, .inl (by decide +kernel), by decide,
      emptyDir_tiled, by decide, by decide +kernel, fun h => absurd h (by decide)⟩

theorem inline_free : ∃ g ∈ visited inlineVolume.fs.groups 0,
    FreeRunOn inlineVolume (BlockBuffer.new.view inlineDisk.img 1024) 1 g ∧
    BlocksAtMount inlineVolume 1 g := by
  refine ⟨0, ?_, ⟨by decide, 9, by decide, fun k hk => ?_⟩, _, rfl, by decide⟩
  · exact mem_groupOrder_of_lt (by decide) (by decide) (by decide)
  · obtain rfl : k = 0 := by omega
    decide +kernel

end Mount

namespace Mount

open Dir InlineData InlineMut

end Mount

end FsExt4
