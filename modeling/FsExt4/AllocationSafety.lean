import FsExt4.MountRuns

namespace FsExt4

open Lib Jbd2 Alloc

/-- A table block that volume and device both hold. -/
structure TableFits (sb : Superblock) (sizeBytes size block : Nat) : Prop where
  offset : (block + 1) * sb.blockSize < 2 ^ 64
  volume : (block + 1) * sb.blockSize ≤ sizeBytes
  device : block * sb.blockSize + sb.blockSize ≤ size

def descriptorOn (sb : Superblock) (d : Disk) (g : Nat) : Bytes :=
  slice (d.img.block sb.blockSize (sb.descriptorLocation g).1)
    (sb.descriptorLocation g).2 sb.descSize

def HeldOn (sb : Superblock) (sizeBytes : Nat) (d : Disk) (held : Option (Nat × Bytes)) : Prop :=
  ∀ b bytes, held = some (b, bytes) →
    bytes = d.img.block sb.blockSize b ∧ TableFits sb sizeBytes d.size b

def DescriptorReads (crc : Crc) (sb : Superblock) (csum : Checksummer) (sizeBytes : Nat) (d : Disk)
    (g : Nat) (bgd : BlockGroupDescriptor) : Prop :=
  TableFits sb sizeBytes d.size (sb.descriptorLocation g).1 ∧
    acceptDescriptor crc sb csum g (descriptorOn sb d g) = .ok bgd

section Table

variable {crc : Crc} {sb : Superblock} {csum : Checksummer} {sizeBytes : Nat} {d d' : Disk}
  {held : Option (Nat × Bytes)} {block : Nat}

def readTableBlock (sb : Superblock) (sizeBytes block : Nat) : DevIo Bytes :=
  if 2 ^ 64 ≤ (block + 1) * sb.blockSize then
    .fail (.corrupt "superblock: the group descriptor table's extent overflows")
  else if sizeBytes < (block + 1) * sb.blockSize then
    .fail (.corrupt "superblock: the group descriptor table reaches past the end of the device")
  else readAt (block * sb.blockSize) sb.blockSize

theorem tableBlock_none (sb : Superblock) (sizeBytes block : Nat) :
    tableBlock sb sizeBytes block none = readTableBlock sb sizeBytes block := rfl

theorem tableBlock_some (sb : Superblock) (sizeBytes block b : Nat) (bytes : Bytes) :
    tableBlock sb sizeBytes block (some (b, bytes)) =
      if b = block then pure bytes else readTableBlock sb sizeBytes block := by
  unfold tableBlock
  dsimp only
  split
  · rfl
  · rfl

theorem readTableBlock_ok {bytes : Bytes}
    (h : (readTableBlock sb sizeBytes block).exec d = (.ok bytes, d')) :
    d' = d ∧ bytes = d.img.block sb.blockSize block ∧ TableFits sb sizeBytes d.size block := by
  unfold readTableBlock at h
  split at h
  · cases h
  split at h
  · cases h
  by_cases hfit : block * sb.blockSize + sb.blockSize ≤ d.size
  · rw [exec_readAt d _ _ hfit] at h
    obtain ⟨h1, rfl⟩ := Prod.mk.inj h
    exact ⟨rfl, (Except.ok.inj h1).symm, by omega, by omega, hfit⟩
  · rw [exec_readAt_past d _ _ hfit] at h
    cases h

theorem readTableBlock_of_fits (h : TableFits sb sizeBytes d.size block) :
    (readTableBlock sb sizeBytes block).exec d = (.ok (d.img.block sb.blockSize block), d) := by
  have h1 := h.offset
  have h2 := h.volume
  unfold readTableBlock
  rw [if_neg (by omega), if_neg (by omega), exec_readAt d _ _ h.device]
  rfl

theorem tableBlock_ok {bytes : Bytes} (hheld : HeldOn sb sizeBytes d held)
    (h : (tableBlock sb sizeBytes block held).exec d = (.ok bytes, d')) :
    d' = d ∧ bytes = d.img.block sb.blockSize block ∧ TableFits sb sizeBytes d.size block := by
  cases held with
  | none =>
    rw [tableBlock_none] at h
    exact readTableBlock_ok h
  | some e =>
    obtain ⟨b, bytes₀⟩ := e
    rw [tableBlock_some] at h
    split at h
    · rename_i hb
      obtain ⟨h1, rfl⟩ := Prod.mk.inj h
      obtain rfl := Except.ok.inj h1
      subst hb
      exact ⟨rfl, hheld b bytes₀ rfl⟩
    · exact readTableBlock_ok h

theorem tableBlock_of_fits (hheld : HeldOn sb sizeBytes d held)
    (h : TableFits sb sizeBytes d.size block) :
    (tableBlock sb sizeBytes block held).exec d = (.ok (d.img.block sb.blockSize block), d) := by
  cases held with
  | none =>
    rw [tableBlock_none]
    exact readTableBlock_of_fits h
  | some e =>
    obtain ⟨b, bytes₀⟩ := e
    rw [tableBlock_some]
    split
    · rename_i hb
      subst hb
      rw [(hheld b bytes₀ rfl).1]
      rfl
    · exact readTableBlock_of_fits h

theorem heldOn_read (h : TableFits sb sizeBytes d.size block) :
    HeldOn sb sizeBytes d (some (block, d.img.block sb.blockSize block)) := by
  rintro b bytes ⟨⟩
  exact ⟨rfl, h⟩

theorem readDescriptors_ok {is : List Nat} {groups : List BlockGroupDescriptor}
    (hheld : HeldOn sb sizeBytes d held)
    (h : (readDescriptors crc sb csum sizeBytes is held).exec d = (.ok groups, d')) :
    d' = d ∧ List.Forall₂ (DescriptorReads crc sb csum sizeBytes d) is groups := by
  induction is generalizing held groups d' with
  | nil =>
    obtain ⟨h1, rfl⟩ := Prod.mk.inj h
    obtain rfl := Except.ok.inj h1
    exact ⟨rfl, List.Forall₂.nil⟩
  | cons i rest ih =>
    obtain ⟨bytes, d₁, ht, h1⟩ := Io.exec_bind_eq_ok _ _ _ _ _ h
    obtain ⟨rfl, rfl, hfits⟩ := tableBlock_ok hheld ht
    obtain ⟨bgd, d₂, ha, h2⟩ := Io.exec_bind_eq_ok _ _ _ _ _ h1
    rw [Io.exec_liftM] at ha
    obtain ⟨hacc, rfl⟩ := Prod.mk.inj ha
    obtain ⟨groups₁, d₃, hr, h3⟩ := Io.exec_bind_eq_ok _ _ _ _ _ h2
    obtain ⟨rfl, hall⟩ := ih (heldOn_read hfits) hr
    obtain ⟨h4, rfl⟩ := Prod.mk.inj h3
    obtain rfl := Except.ok.inj h4
    exact ⟨rfl, List.Forall₂.cons ⟨hfits, hacc⟩ hall⟩

theorem readDescriptors_of_reads {is : List Nat} {groups : List BlockGroupDescriptor}
    (hheld : HeldOn sb sizeBytes d held)
    (h : List.Forall₂ (DescriptorReads crc sb csum sizeBytes d) is groups) :
    (readDescriptors crc sb csum sizeBytes is held).exec d = (.ok groups, d) := by
  induction h generalizing held with
  | nil => rfl
  | cons hr _ ih =>
    obtain ⟨hfits, ha⟩ := hr
    unfold readDescriptors
    rw [Io.exec_bind_ok _ _ _ _ _ (tableBlock_of_fits hheld hfits),
      Io.exec_bind_ok _ _ d d _ (by rw [Io.exec_liftM]; exact Prod.ext ha rfl),
      Io.exec_bind_ok _ _ _ _ _ (ih (heldOn_read hfits))]
    rfl

theorem acceptDescriptor_iff {g : Nat} {raw : Bytes} {bgd : BlockGroupDescriptor} :
    acceptDescriptor crc sb csum g raw = .ok bgd ↔
      (groupDescCsum crc sb csum g raw).any (fun want => want != u16leAt raw 0x1E) = false ∧
      BlockGroupDescriptor.parse raw sb.descSize = .ok bgd ∧
      bgd.blockBitmap < sb.blocksCount ∧ bgd.inodeBitmap < sb.blocksCount ∧
      bgd.inodeTable + sb.inodeTableBlocks ≤ sb.blocksCount ∧
      checkPointersWithin sb g bgd sb.inodeTableBlocks = .ok () := by
  constructor
  · intro h
    unfold acceptDescriptor at h
    dsimp only at h
    split at h
    · cases h
    rename_i hcsum
    obtain ⟨bgd', hp, h1⟩ := Result.bind_eq_ok h
    split at h1
    · cases h1
    rename_i hin
    obtain ⟨_, hw, h2⟩ := Result.bind_eq_ok h1
    obtain rfl := Except.ok.inj h2
    exact ⟨by simpa using hcsum, hp, by omega, by omega, by omega, hw⟩
  · rintro ⟨hcsum, hp, hb, hi, ht, hw⟩
    unfold acceptDescriptor
    dsimp only
    rw [hcsum, hp, if_neg Bool.false_ne_true]
    change (if _ then _ else _) = _
    rw [if_neg (by omega), hw]
    rfl

end Table

namespace Alloc

theorem bit_foldl_setBits (cap : Nat) (ranges : List (Nat × Nat)) (bitmap : Bytes) (j : Nat)
    (hlen : cap ≤ bitmap.length * 8) (hj : j < cap) :
    Lib.bit (ranges.foldl (fun bitmap r =>
        setBits bitmap (min r.1 cap) (min r.2 cap - min r.1 cap)) bitmap) j = true ↔
      Lib.bit bitmap j = true ∨ ∃ r ∈ ranges, r.1 ≤ j ∧ j < r.2 := by
  induction ranges generalizing bitmap with
  | nil => simp
  | cons r rest ih =>
    rw [List.foldl_cons, ih _ (by rwa [length_setBits]), bit_setBits, Bool.or_eq_true,
      decide_eq_true_iff, List.exists_mem_cons_iff, or_assoc]
    have hin : min r.1 cap ≤ j ∧ j < min r.1 cap + (min r.2 cap - min r.1 cap) ∧
        j / 8 < bitmap.length ↔ r.1 ≤ j ∧ j < r.2 := by omega
    rw [hin]

theorem bit_uninitBlockBitmap (sb : Superblock) (groups : List BlockGroupDescriptor) (g j : Nat)
    (hj : j < sb.blockSize * 8)
    (h : ∃ r ∈ uninitGroupUsedRanges sb groups g, r.1 ≤ j ∧ j < r.2) :
    Lib.bit (uninitBlockBitmap sb groups g) j = true := by
  obtain ⟨r, hr, hin⟩ := h
  exact (bit_foldl_setBits _ _ _ _ (by rw [List.length_replicate]) hj).mpr
    (.inr ⟨r, List.mem_append_left _ hr, hin⟩)

theorem bit_uninitBlockBitmap_of_own {sb : Superblock} {groups : List BlockGroupDescriptor}
    {g j : Nat} {bgd : BlockGroupDescriptor} (hbnd : sb.Bounds) (hbgd : groups[g]? = some bgd)
    (hj : j < blocksInGroup sb g)
    (hown : sb.firstBlockOfGroup g + j <
        sb.firstBlockOfGroup g + min (sb.groupHeadMetadataBlocks g) (blocksInGroup sb g) ∨
      sb.firstBlockOfGroup g + j = bgd.blockBitmap ∨ sb.firstBlockOfGroup g + j = bgd.inodeBitmap ∨
      (sb.firstBlockOfGroup g ≤ bgd.inodeTable ∧ bgd.inodeTable ≤ sb.firstBlockOfGroup g + j ∧
        sb.firstBlockOfGroup g + j < bgd.inodeTable + sb.inodeTableBlocks)) :
    Lib.bit (uninitBlockBitmap sb groups g) j = true := by
  have hle := blocksInGroup_le_of_bounds hbnd g
  have hcap := hbnd.bitmap
  -- a run of blocks that starts in the group is one of the ranges
  have hrun : ∀ start len, (start, len) ∈ [(bgd.blockBitmap, 1), (bgd.inodeBitmap, 1),
      (bgd.inodeTable, sb.inodeTableBlocks)] → sb.firstBlockOfGroup g ≤ start →
      start ≤ sb.firstBlockOfGroup g + j → sb.firstBlockOfGroup g + j < start + len →
      ∃ r ∈ uninitGroupUsedRanges sb groups g, r.1 ≤ j ∧ j < r.2 := by
    intro start len hmem h1 h2 h3
    refine ⟨(start - sb.firstBlockOfGroup g,
      min (start - sb.firstBlockOfGroup g + len) (blocksInGroup sb g)), ?_, ?_, ?_⟩
    · unfold uninitGroupUsedRanges
      dsimp only
      rw [hbgd]
      apply List.mem_append_right
      refine List.mem_filterMap.mpr ⟨(start, len), hmem, ?_⟩
      dsimp only
      rw [if_pos ⟨h1, by omega⟩]
    · dsimp only
      omega
    · dsimp only
      omega
  apply bit_uninitBlockBitmap _ _ _ _ (by omega)
  obtain hhead | hb | hi | ⟨h1, h2, h3⟩ := hown
  · refine ⟨(0, min (sb.groupHeadMetadataBlocks g) (blocksInGroup sb g)), ?_, Nat.zero_le _, ?_⟩
    · unfold uninitGroupUsedRanges
      dsimp only
      rw [if_pos (by omega)]
      exact List.mem_append_left _ List.mem_cons_self
    · dsimp only
      omega
  · exact hrun bgd.blockBitmap 1 (by simp) (by omega) (by omega) (by omega)
  · exact hrun bgd.inodeBitmap 1 (by simp) (by omega) (by omega) (by omega)
  · exact hrun bgd.inodeTable sb.inodeTableBlocks (by simp) h1 h2 h3

end Alloc

namespace Mount

/-- A group's own structures, as the implied bitmap counts them: its head, its bitmaps, and its
inode table where that starts in the group. -/
def OwnMetadata (m : Mount) (g b : Nat) : Prop :=
  ∃ bgd : BlockGroupDescriptor, m.fs.groups[g]? = some bgd ∧
    (b < m.fs.sb.firstBlockOfGroup g + min (m.fs.sb.groupHeadMetadataBlocks g)
      (blocksInGroup m.fs.sb g) ∨
      b = bgd.blockBitmap ∨ b = bgd.inodeBitmap ∨
      (m.fs.sb.firstBlockOfGroup g ≤ bgd.inodeTable ∧ bgd.inodeTable ≤ b ∧
        b < bgd.inodeTable + m.fs.sb.inodeTableBlocks))

theorem OwnMetadata.bit {m : Mount} {g j : Nat} (hbnd : m.fs.sb.Bounds)
    (h : m.OwnMetadata g (m.fs.sb.firstBlockOfGroup g + j)) (hj : j < blocksInGroup m.fs.sb g) :
    Lib.bit (m.impliedBitmap g .block) j = true := by
  obtain ⟨bgd, hbgd, hown⟩ := h
  exact bit_uninitBlockBitmap_of_own hbnd hbgd hj hown

end Mount

theorem forall₂_range_iff {β : Type} {R : Nat → β → Prop} {n : Nat} {l : List β} :
    List.Forall₂ R (List.range n) l ↔ l.length = n ∧ ∀ g b, l[g]? = some b → R g b := by
  rw [List.forall₂_iff_get]
  constructor
  · rintro ⟨hlen, hget⟩
    rw [List.length_range] at hlen
    refine ⟨hlen.symm, ?_⟩
    intro g b hb
    obtain ⟨hg, rfl⟩ := List.getElem?_eq_some_iff.mp hb
    have h := hget g (by rw [List.length_range]; omega) hg
    rwa [List.get_eq_getElem, List.getElem_range, List.get_eq_getElem] at h
  · rintro ⟨hlen, hget⟩
    refine ⟨by rw [List.length_range, hlen], ?_⟩
    intro g h1 h2
    rw [List.get_eq_getElem, List.getElem_range, List.get_eq_getElem]
    exact hget g _ (List.getElem?_eq_getElem h2)

theorem readAll_ok {crc : Crc} {sb : Superblock} {csum : Checksummer} {sizeBytes : Nat}
    {d d' : Disk} {groups : List BlockGroupDescriptor}
    (h : (readAll crc sb csum sizeBytes).exec d = (.ok groups, d')) :
    d' = d ∧ sb.blockGroupCount * sb.descSize < 2 ^ 64 ∧
      sb.blockGroupCount * sb.descSize ≤ sizeBytes ∧ groups.length = sb.blockGroupCount ∧
      ∀ g bgd, groups[g]? = some bgd → DescriptorReads crc sb csum sizeBytes d g bgd := by
  unfold readAll at h
  dsimp only at h
  split at h
  · cases h
  split at h
  · cases h
  obtain ⟨hd, hall⟩ := readDescriptors_ok (fun _ _ h => by cases h) h
  exact ⟨hd, by omega, by omega, forall₂_range_iff.mp hall⟩

theorem readAll_eq_of_fst {crc : Crc} {sb : Superblock} {csum : Checksummer} {sizeBytes : Nat}
    {d : Disk} {groups : List BlockGroupDescriptor}
    (h : ((readAll crc sb csum sizeBytes).exec d).1 = .ok groups) :
    (readAll crc sb csum sizeBytes).exec d = (.ok groups, d) := by
  have hpair : (readAll crc sb csum sizeBytes).exec d =
      (.ok groups, ((readAll crc sb csum sizeBytes).exec d).2) := Prod.ext h rfl
  rw [hpair, (readAll_ok hpair).1]

namespace Mount

/-- What reading the table asks of a volume's geometry and of the pointers in its descriptors. -/
structure TableReadable (fs : Filesystem) (size : Nat) : Prop where
  table : fs.sb.blockGroupCount * fs.sb.descSize < 2 ^ 64
  volume : fs.sb.blockGroupCount * fs.sb.descSize ≤ fs.sizeBytes
  fits : ∀ g, g < fs.groups.length →
    TableFits fs.sb fs.sizeBytes size (fs.sb.descriptorLocation g).1
  inside : ∀ (g : Nat) (bgd : BlockGroupDescriptor), fs.groups[g]? = some bgd →
    bgd.blockBitmap < fs.sb.blocksCount ∧ bgd.inodeBitmap < fs.sb.blocksCount ∧
      bgd.inodeTable + fs.sb.inodeTableBlocks ≤ fs.sb.blocksCount

/-- A mount just made: its descriptors are those of the disk, the structures of initialised groups
are marked in their bitmaps, and an uninitialised group holds no structures but its own. -/
structure Mounted (crc : Crc) (m : Mount) (d : Disk) : Prop where
  parsed : m.fs.sb.Parsed
  clusters : m.fs.sb.featureRoCompat &&& Superblock.roCompatBigalloc = 0
  groups : (readAll crc m.fs.sb m.csum m.fs.sizeBytes).exec d = (.ok m.fs.groups, d)
  cleared : m.cleared = SortedMap.empty
  separate : m.Separate
  offJournal : m.OffJournal
  initialised : ∀ b, m.IsMetadata b →
    (m.blockSlot b).bit < blocksInGroup m.fs.sb (m.blockSlot b).group →
    m.uninitIn (d.img.block m.fs.sb.blockSize) .block (m.blockSlot b).group = false →
    m.used (d.img.block m.fs.sb.blockSize) (m.blockSlot b) = true
  uninitialised : ∀ b, m.IsMetadata b →
    (m.blockSlot b).bit < blocksInGroup m.fs.sb (m.blockSlot b).group →
    m.uninitIn (d.img.block m.fs.sb.blockSize) .block (m.blockSlot b).group = true →
    m.OwnMetadata (m.blockSlot b).group b

section Mounted

variable {crc : Crc} {m : Mount} {d : Disk}

theorem parse_descRaw {v : Nat → Bytes} {g : Nat} {bgd : BlockGroupDescriptor}
    (h : BlockGroupDescriptor.parse (m.descRaw v g) m.fs.sb.descSize = .ok bgd)
    (hds : 32 ≤ m.fs.sb.descSize) :
    m.pointersIn v g = (bgd.blockBitmap, bgd.inodeBitmap, bgd.inodeTable) ∧
      bgd.flags = m.flagsIn v g := by
  unfold BlockGroupDescriptor.parse at h
  split at h
  · cases h
  · obtain rfl := Except.ok.inj h
    refine ⟨rfl, ?_⟩
    dsimp only
    rw [flagsIn_eq, u16leAt, slice_descRaw v (by omega)]

theorem parse_of_view {v : Nat → Bytes} (hv : ∀ b, (v b).length = m.fs.sb.blockSize)
    (hbnd : m.fs.sb.Bounds) (g : Nat) :
    ∃ bgd, BlockGroupDescriptor.parse (m.descRaw v g) m.fs.sb.descSize = .ok bgd := by
  have hfit := hbnd.descriptor_fits g
  have hlen : (m.descRaw v g).length = m.fs.sb.descSize := by
    unfold descRaw descBytes
    rw [length_slice, hv]
    exact Nat.min_eq_left (Nat.le_sub_of_add_le (by rw [Nat.add_comm]; exact hfit))
  unfold BlockGroupDescriptor.parse
  rw [if_neg (by omega)]
  exact ⟨_, rfl⟩

theorem Mounted.coherent (h : Mounted crc m d) :
    Coherent crc m d ∧ TableReadable m.fs d.size := by
  have hbnd := h.parsed.bounds h.clusters
  have hds := hbnd.descSize
  obtain ⟨-, h64, hvol, hlen, hreads⟩ := readAll_ok h.groups
  have haccept : ∀ (g : Nat) (bgd : BlockGroupDescriptor), m.fs.groups[g]? = some bgd → _ :=
    fun g bgd hbgd => acceptDescriptor_iff.mp (hreads g bgd hbgd).2
  have hparse : ∀ (g : Nat) (bgd : BlockGroupDescriptor), m.fs.groups[g]? = some bgd → _ :=
    fun g bgd hbgd => parse_descRaw (v := d.img.block m.fs.sb.blockSize)
      (haccept g bgd hbgd).2.1 hds.1
  refine ⟨⟨⟨hbnd, hlen, fun g bgd hbgd => (haccept g bgd hbgd).2.2.2.2.2⟩, h.separate,
    h.offJournal, ?_, ?_, fun g bgd hbgd => (hparse g bgd hbgd).1, ?_⟩,
    ⟨h64, hvol, ?_, fun g bgd hbgd => ⟨(haccept g bgd hbgd).2.2.1, (haccept g bgd hbgd).2.2.2.1,
      (haccept g bgd hbgd).2.2.2.2.1⟩⟩⟩
  · intro g bgd hbgd kind
    rw [h.cleared, SortedMap.get?_empty, Option.getD_none, (hparse g bgd hbgd).2]
    rfl
  · intro g hg
    exact (haccept g _ (List.getElem?_eq_getElem hg)).1
  · intro b hb hbit
    cases hu : m.uninitIn (d.img.block m.fs.sb.blockSize) .block (m.blockSlot b).group with
    | false => exact h.initialised b hb hbit hu
    | true =>
      have hown := h.uninitialised b hb hbit hu
      obtain ⟨bgd, hbgd, -⟩ := id hown
      have hsub := sub_firstBlockOfGroup hb.1
      have hfirst : m.fs.sb.firstBlockOfGroup (m.blockSlot b).group ≤ b := by
        unfold Superblock.firstBlockOfGroup blockSlot
        have hdiv := Nat.div_mul_le_self (b - m.fs.sb.firstDataBlock.toNat)
          m.fs.sb.blocksPerGroup.toNat
        have h1 := hb.1
        dsimp only
        omega
      have hblock : m.fs.sb.firstBlockOfGroup (m.blockSlot b).group + (m.blockSlot b).bit = b := by
        omega
      have hown' : m.OwnMetadata (m.blockSlot b).group
          (m.fs.sb.firstBlockOfGroup (m.blockSlot b).group + (m.blockSlot b).bit) := by
        rw [hblock]
        exact hown
      rw [used_of_some hbgd]
      unfold bitmapIn
      change Lib.bit (if m.uninitIn (d.img.block m.fs.sb.blockSize) .block
        (m.blockSlot b).group then
        m.impliedBitmap (m.blockSlot b).group .block else _) _ = true
      rw [hu, if_pos rfl]
      exact hown'.bit hbnd hbit
  · intro g hg
    exact (hreads g _ (List.getElem?_eq_getElem hg)).1

end Mounted

end Mount

namespace Mount

/-- The states a mount can be in: each transaction stages allocations, frees and other blocks in a
buffer and commits it, or fails and drops it. A mount that has halted takes no more. -/
inductive Reaches (crc : Crc) (m₀ : Mount) (d₀ : Disk) : Mount → Disk → Prop where
  | start : Reaches crc m₀ d₀ m₀ d₀
  | commit {m m' : Mount} {d d' : Disk} {buf : BlockBuffer} {taken freed : Set Slot}
      (h : Reaches crc m₀ d₀ m d) (hlive : ¬ m.Halted) (hs : Staging crc m d buf taken freed)
      (hc : (m.commitBlockBuffer crc buf).exec d = (.ok (.ok (), m'), d')) :
      Reaches crc m₀ d₀ m' d'
  | failed {m m' : Mount} {d d' : Disk} {buf : BlockBuffer} {taken freed : Set Slot} {e : Error}
      (h : Reaches crc m₀ d₀ m d) (hlive : ¬ m.Halted) (hs : Staging crc m d buf taken freed)
      (hc : (m.commitBlockBuffer crc buf).exec d = (.ok (.error e, m'), d')) :
      Reaches crc m₀ d₀ m' d'

section Runs

variable {crc : Crc} {m m' m₀ : Mount} {d d' d₀ : Disk} {buf : BlockBuffer} {taken freed : Set Slot}

theorem Coherent.isOpen (h : Coherent crc m d) (hs : Staging crc m d buf taken freed) :
    Open crc m d buf taken freed :=
  hs.isOpen h.accepted.bounds h.separate h.csums

theorem Open.committed (ho : Open crc m d buf taken freed) (h : Coherent crc m d)
    (hc : (m.commitBlockBuffer crc buf).exec d = (.ok (.ok (), m'), d')) :
    Committed m m' d d' buf := by
  have hstaged : ∀ g, (buf.uninitCleared.get? g).isSome → buf.Staged (m.descAt g).1 := by
    intro g hg
    obtain ⟨f, hf⟩ := Option.isSome_iff_exists.mp hg
    exact (ho.coherent.cleared g f hf).2.1
  exact commitBlockBuffer_ok ho.coherent.whole ho.coherent.bounded hstaged
    (fun jw hjw => (h.offJournal jw hjw).1) hc

theorem Coherent.committed (h : Coherent crc m d) (hs : Staging crc m d buf taken freed)
    (hc : (m.commitBlockBuffer crc buf).exec d = (.ok (.ok (), m'), d')) :
    Committed m m' d d' buf :=
  (h.isOpen hs).committed h hc

theorem Coherent.step (h : Coherent crc m d) (hr : TableReadable m.fs d.size)
    (hs : Staging crc m d buf taken freed)
    (hc : (m.commitBlockBuffer crc buf).exec d = (.ok (.ok (), m'), d')) :
    (Coherent crc m' d' ∧ TableReadable m'.fs d'.size) ∧
      ∀ s, m'.used (d'.img.block m'.fs.sb.blockSize) s =
        m.used (buf.view d.img m.fs.sb.blockSize) s := by
  have hcom := h.committed hs hc
  obtain ⟨hcoh, hused⟩ := h.commit (h.isOpen hs) (fun b hb => hs.not_freed hb) hcom
  refine ⟨⟨hcoh, ?_⟩, hused⟩
  rw [hcom.fs, hcom.size]
  exact hr

theorem Reaches.coherent (h0 : Mounted crc m₀ d₀) (h : Reaches crc m₀ d₀ m d) (hlive : ¬ m.Halted) :
    Coherent crc m d ∧ TableReadable m.fs d.size := by
  induction h with
  | start => exact h0.coherent
  | commit _ hl hs hc ih =>
    obtain ⟨hcoh, hr⟩ := ih hl
    exact (hcoh.step hr hs hc).1
  | failed _ hl _ hc ih =>
    obtain hh | ⟨rfl, rfl⟩ := commitBlockBuffer_error hc
    · exact absurd hh hlive
    · exact ih hl

/-- The blocks and inodes that descriptors, with the bitmaps they point to, have in use. -/
def seenIn (sb : Superblock) (groups : List BlockGroupDescriptor) (v : Nat → Bytes) (s : Slot) :
    Bool :=
  match groups[s.group]? with
  | none => false
  | some bgd =>
    Lib.bit (if bgd.isUninit s.kind.flag then
        match s.kind with
        | .block => uninitBlockBitmap sb groups s.group
        | .inode => List.replicate sb.blockSize 0
      else v (s.kind.bitmapBlock bgd)) s.bit

def sees (m : Mount) (d : Disk) (s : Slot) : Bool :=
  seenIn m.fs.sb m.allocationGroups (d.img.block m.fs.sb.blockSize) s

theorem Mirrors.seenIn_eq {v : Nat → Bytes} {groups : List BlockGroupDescriptor}
    (h : m.Mirrors v groups) (s : Slot) : seenIn m.fs.sb groups v s = m.used v s := by
  unfold seenIn used
  cases hg : groups[s.group]? with
  | none =>
    have hlen := List.getElem?_eq_none_iff.mp hg
    rw [h.length] at hlen
    rw [List.getElem?_eq_none_iff.mpr hlen]
  | some bgd =>
    obtain ⟨bgd₀, h0, hb, hi, -⟩ := h.pointers s.group bgd hg
    have hblock : s.kind.bitmapBlock bgd = s.kind.bitmapBlock bgd₀ := by
      cases s.kind with
      | block => exact hb
      | inode => exact hi
    rw [h0]
    dsimp only
    unfold bitmapIn
    rw [h.flags s.group bgd hg s.kind, hblock, h.uninitBlockBitmap_eq]
    cases s.kind with
    | block => rfl
    | inode => rfl

theorem overrideFlags_empty (groups : List BlockGroupDescriptor) :
    overrideFlags groups SortedMap.empty = groups := by
  apply List.ext_getElem?
  intro g
  rw [getElem?_overrideFlags]
  exact Option.map_id'

theorem checkPointersWithin_congr {sb : Superblock} {g t : Nat} {bgd bgd' : BlockGroupDescriptor}
    (hb : bgd'.blockBitmap = bgd.blockBitmap) (hi : bgd'.inodeBitmap = bgd.inodeBitmap)
    (ht : bgd'.inodeTable = bgd.inodeTable) :
    checkPointersWithin sb g bgd' t = checkPointersWithin sb g bgd t := by
  unfold checkPointersWithin
  rw [hb, hi, ht]

theorem Coherent.remount (h : Coherent crc m d) (hr : TableReadable m.fs d.size) :
    ∃ groups, (readAll crc m.fs.sb m.csum m.fs.sizeBytes).exec d = (.ok groups, d) ∧
      m.Mirrors (d.img.block m.fs.sb.blockSize) groups := by
  have hbnd := h.accepted.bounds
  have hds := hbnd.descSize
  -- each descriptor of the disk passes the checks, for its pointers are those mount accepted
  have hone : ∀ g, g < m.fs.groups.length → ∃ bgd,
      DescriptorReads crc m.fs.sb m.csum m.fs.sizeBytes d g bgd ∧
      m.pointersIn (d.img.block m.fs.sb.blockSize) g = (bgd.blockBitmap, bgd.inodeBitmap,
      bgd.inodeTable) ∧
      bgd.flags = m.flagsIn (d.img.block m.fs.sb.blockSize) g := by
    intro g hg
    have hbgd := List.getElem?_eq_getElem hg
    obtain ⟨bgd, hp⟩ := parse_of_view (v := d.img.block m.fs.sb.blockSize)
      (fun b => Image.length_read _ _ _) hbnd g
    obtain ⟨hptr, hflags⟩ := parse_descRaw hp hds.1
    have heq := hptr.symm.trans (h.pointers g _ hbgd)
    obtain ⟨hb, heq⟩ := Prod.mk.inj heq
    obtain ⟨hi, ht⟩ := Prod.mk.inj heq
    obtain ⟨h1, h2, h3⟩ := hr.inside g _ hbgd
    refine ⟨bgd, ⟨hr.fits g hg, acceptDescriptor_iff.mpr ⟨h.csums g hg, hp, ?_, ?_, ?_, ?_⟩⟩, hptr,
      hflags⟩
    · rw [hb]
      exact h1
    · rw [hi]
      exact h2
    · rw [ht]
      exact h3
    · rw [checkPointersWithin_congr hb hi ht]
      exact h.accepted.pointers g _ hbgd
  have : Nonempty BlockGroupDescriptor := ⟨⟨0, 0, 0, 0, 0, 0, 0⟩⟩
  choose! bgdOf hreads hptr hflags using hone
  refine ⟨(List.range m.fs.groups.length).map bgdOf, ?_, ?_⟩
  · unfold readAll
    dsimp only
    have h1 := hr.table
    have h2 := hr.volume
    rw [if_neg (by omega), if_neg (by omega)]
    apply readDescriptors_of_reads (fun _ _ h => by cases h)
    rw [forall₂_range_iff]
    refine ⟨by rw [List.length_map, List.length_range, h.accepted.count], ?_⟩
    intro g bgd hg
    rw [List.getElem?_map, Option.map_eq_some_iff] at hg
    obtain ⟨g', hg', rfl⟩ := hg
    obtain ⟨hlt, rfl⟩ := List.getElem?_eq_some_iff.mp hg'
    rw [List.getElem_range]
    exact hreads g (by simpa using hlt)
  · refine ⟨by rw [List.length_map, List.length_range], ?_, ?_⟩
    all_goals
      intro g bgd hg
      rw [List.getElem?_map, Option.map_eq_some_iff] at hg
      obtain ⟨g', hg', rfl⟩ := hg
      obtain ⟨hlt, rfl⟩ := List.getElem?_eq_some_iff.mp hg'
      rw [List.getElem_range]
      have hg : g < m.fs.groups.length := by simpa using hlt
    · have hbgd := List.getElem?_eq_getElem hg
      have heq := (hptr g hg).symm.trans (h.pointers g _ hbgd)
      obtain ⟨hb, heq⟩ := Prod.mk.inj heq
      obtain ⟨hi, ht⟩ := Prod.mk.inj heq
      exact ⟨_, hbgd, hb, hi, ht⟩
    · intro kind
      unfold BlockGroupDescriptor.isUninit
      rw [hflags g hg]
      rfl

end Runs

end Mount

namespace Mount

section Safety

variable {crc : Crc} {m m₀ : Mount} {d d₀ : Disk} {buf : BlockBuffer} {taken freed : Set Slot}

theorem FreeBlocks.not_isMetadata {v : Nat → Bytes} {reserved : List Nat}
    {plan : BlockAllocationPlan} (h : FreeBlocks m v reserved plan)
    (hused : m.MetadataUsed v) {b : Nat} (h1 : plan.firstBlock ≤ b)
    (h2 : b < plan.firstBlock + plan.count) : ¬ m.IsMetadata b := by
  intro hb
  have hu := hused b hb (h.inVolume b h1 h2)
  rw [(h.free b h1 h2).1] at hu
  cases hu

theorem Open.metadataUsed (ho : Open crc m d buf taken freed) (hs : Staging crc m d buf taken freed)
    (h : m.MetadataUsed (d.img.block m.fs.sb.blockSize)) :
    m.MetadataUsed (buf.view d.img m.fs.sb.blockSize) :=
  fun b hb hbit => ho.kept _ (h b hb hbit) (hs.not_freed hb)

theorem Coherent.plannedBuffered (h : Coherent crc m d) (hs : Staging crc m d buf taken freed)
    {count hint : Nat} {reserved : List Nat} {plan : BlockAllocationPlan}
    (hp : m.planBufferedBlockAllocationExcluding (m.fs.reader d) buf count hint
      reserved = .ok plan) :
    FreeBlocks m (buf.view d.img m.fs.sb.blockSize) reserved plan :=
  (h.mirrors_buffer (h.isOpen hs)).planned h.accepted.bounds
    (fun _ _ hb => BlockBuffer.bufferedBlock_ok hb) hp

theorem Coherent.plannedBlocks (h : Coherent crc m d) {count hint : Nat}
    {plan : BlockAllocationPlan} (hp : m.planBlocks (m.fs.reader d) count hint = .ok plan) :
    FreeBlocks m (d.img.block m.fs.sb.blockSize) [] plan :=
  h.mirrors_disk.planned h.accepted.bounds (fun _ _ hb => Filesystem.reader_ok hb) hp

theorem Coherent.plannedInode (h : Coherent crc m d) {isDir : Bool} {hint : Nat}
    {plan : InodeAllocationPlan} (hp : m.planInode (m.fs.reader d) isDir hint = .ok plan) :
    FreeInode m (d.img.block m.fs.sb.blockSize) plan :=
  h.mirrors_disk.plannedInode (fun _ => Image.length_read _ _ _)
    (fun _ _ hb => Filesystem.reader_ok hb) hp

def Holds (plan : BlockAllocationPlan) (b : Nat) : Prop :=
  plan.firstBlock ≤ b ∧ b < plan.firstBlock + plan.count

/-- What holds of the plans made in a state: inside a transaction a planned block is not reserved,
not taken, no metadata, and in use on disk only if this transaction gave it back; a plan over the
device names nothing the disk has in use; and reading the descriptors again finds the same in
use. -/
structure PlansFree (crc : Crc) (m : Mount) (d : Disk) : Prop where
  buffered : ∀ {buf : BlockBuffer} {taken freed : Set Slot} {count hint : Nat} {reserved : List Nat}
    {plan : BlockAllocationPlan}, Staging crc m d buf taken freed →
    m.planBufferedBlockAllocationExcluding (m.fs.reader d) buf count hint reserved = .ok plan →
    ∀ b, Holds plan b → b ∉ reserved ∧ m.blockSlot b ∉ taken ∧ ¬ m.IsMetadata b ∧
      (m.used (d.img.block m.fs.sb.blockSize) (m.blockSlot b) = true → m.blockSlot b ∈ freed)
  blocks : ∀ {count hint : Nat} {plan : BlockAllocationPlan},
    m.planBlocks (m.fs.reader d) count hint = .ok plan → ∀ b, Holds plan b →
      m.used (d.img.block m.fs.sb.blockSize) (m.blockSlot b) = false ∧ ¬ m.IsMetadata b
  inode : ∀ {isDir : Bool} {hint : Nat} {plan : InodeAllocationPlan},
    m.planInode (m.fs.reader d) isDir hint = .ok plan →
      m.used (d.img.block m.fs.sb.blockSize) (m.inodeSlot plan.inode) = false
  remount : ∃ groups, (readAll crc m.fs.sb m.csum m.fs.sizeBytes).exec d = (.ok groups, d) ∧
    ∀ s, (m.reset groups).sees d s = m.sees d s ∧
      m.sees d s = m.used (d.img.block m.fs.sb.blockSize) s

/-- In every state a mount reaches and can still commit from, plans name free blocks and inodes. -/
theorem plansFree_of_reaches (h0 : Mounted crc m₀ d₀) (h : Reaches crc m₀ d₀ m d)
    (hlive : ¬ m.Halted) : PlansFree crc m d := by
  obtain ⟨hcoh, hread⟩ := h.coherent h0 hlive
  constructor
  · intro buf taken freed count hint reserved plan hs hp b hb
    have ho := hcoh.isOpen hs
    have hplan := hcoh.plannedBuffered hs hp
    obtain ⟨hfree, hres⟩ := hplan.free b hb.1 hb.2
    refine ⟨hres, ?_, hplan.not_isMetadata (ho.metadataUsed hs hcoh.metadata) hb.1 hb.2, ?_⟩
    · intro ht
      rw [ho.taken _ ht] at hfree
      cases hfree
    · intro hu
      by_contra hf
      rw [ho.kept _ hu hf] at hfree
      cases hfree
  · intro count hint plan hp b hb
    have hplan := hcoh.plannedBlocks hp
    exact ⟨(hplan.free b hb.1 hb.2).1, hplan.not_isMetadata hcoh.metadata hb.1 hb.2⟩
  · intro isDir hint plan hp
    exact (hcoh.plannedInode hp).free
  · obtain ⟨groups, hg, hmir⟩ := hcoh.remount hread
    refine ⟨groups, hg, ?_⟩
    intro s
    have hsees := hcoh.mirrors_disk.seenIn_eq s
    refine ⟨?_, hsees⟩
    have hreset : (m.reset groups).sees d s =
        seenIn m.fs.sb groups (d.img.block m.fs.sb.blockSize) s := by
      unfold sees allocationGroups reset
      dsimp only
      rw [overrideFlags_empty]
    rw [hreset, hmir.seenIn_eq s]
    exact hsees.symm

end Safety

end Mount

namespace Mount

/-- Two groups of 32 blocks, each with a superblock copy and the table at its head. -/
def twoGroupsSb : Superblock where
  inodesCount := 32
  blocksCount := 65
  firstDataBlock := 1
  logBlockSize := 0
  blocksPerGroup := 32
  inodesPerGroup := 16
  inodeSize := 128
  featureIncompat := 0
  descSize := 32
  reservedGdtBlocks := 0
  journalInode := 0
  featureCompat := 0
  featureRoCompat := 0x1
  firstInode := 11
  metaBgField := 0
  backupBgs := [0, 0]
  uuid := List.replicate 16 0

/-- Group 0 has blocks 1 to 10 in use; group 1 was never initialised. -/
def twoGroups : Mount where
  fs := {
    sb := twoGroupsSb
    groups := [⟨3, 4, 5, 22, 6, 1, 0⟩, ⟨35, 36, 37, 26, 16, 0, 0x3⟩]
    sizeBytes := 65 * 1024
    isWritable := true }
  csum := ⟨0, false⟩
  cleared := SortedMap.empty
  journal := none
  directCommitFailed := false

def rawDescriptor (bgd : BlockGroupDescriptor) : Bytes :=
  u32le (UInt32.ofNat bgd.blockBitmap) ++ u32le (UInt32.ofNat bgd.inodeBitmap) ++
    u32le (UInt32.ofNat bgd.inodeTable) ++ u16le (UInt16.ofNat bgd.freeBlocksCount) ++
    u16le (UInt16.ofNat bgd.freeInodesCount) ++ u16le (UInt16.ofNat bgd.usedDirsCount) ++
    u16le bgd.flags ++ List.replicate 12 0

def twoGroupsDisk : Disk where
  img := Image.writeBlocks (fun _ => 0) 1024 [
    (2, twoGroups.fs.groups.flatMap rawDescriptor), (3, [0xFF, 0x03]), (4, [0xFF, 0x03])]
  size := 65 * 1024

instance (m : Mount) (b : Nat) : Decidable (m.IsMetadata b) :=
  decidable_of_iff (m.fs.sb.firstDataBlock.toNat ≤ b ∧
      ∃ g ∈ List.range m.fs.groups.length, ∃ bgd ∈ m.fs.groups[g]?,
        ((m.fs.sb.firstBlockOfGroup g ≤ b ∧
            b < m.fs.sb.firstBlockOfGroup g +
              min (m.fs.sb.groupHeadMetadataBlocks g) (blocksInGroup m.fs.sb g)) ∨
          b = bgd.blockBitmap ∨ b = bgd.inodeBitmap ∨
          (bgd.inodeTable ≤ b ∧ b < bgd.inodeTable + m.fs.sb.inodeTableBlocks))) <| by
    constructor
    · rintro ⟨h1, g, -, bgd, hbgd, h⟩
      exact ⟨h1, g, bgd, hbgd, h⟩
    · rintro ⟨h1, g, bgd, hbgd, h⟩
      exact ⟨h1, g, List.mem_range.mpr (lt_of_getElem?_eq_some hbgd), bgd, hbgd, h⟩

instance (m : Mount) (g b : Nat) : Decidable (m.OwnMetadata g b) :=
  decidable_of_iff (∃ bgd ∈ m.fs.groups[g]?,
    (b < m.fs.sb.firstBlockOfGroup g + min (m.fs.sb.groupHeadMetadataBlocks g)
      (blocksInGroup m.fs.sb g) ∨
      b = bgd.blockBitmap ∨ b = bgd.inodeBitmap ∨
      (m.fs.sb.firstBlockOfGroup g ≤ bgd.inodeTable ∧ bgd.inodeTable ≤ b ∧
        b < bgd.inodeTable + m.fs.sb.inodeTableBlocks))) <| by
    constructor
    · rintro ⟨bgd, hbgd, h⟩
      exact ⟨bgd, hbgd, h⟩
    · rintro ⟨bgd, hbgd, h⟩
      exact ⟨bgd, hbgd, h⟩

section Finite

variable {m : Mount}

theorem isMetadata_lt {limit : Nat} (hall : ∀ g < m.fs.groups.length, ∀ bgd ∈ m.fs.groups[g]?,
      m.fs.sb.firstBlockOfGroup g + min (m.fs.sb.groupHeadMetadataBlocks g)
        (blocksInGroup m.fs.sb g) ≤ limit ∧
      bgd.blockBitmap < limit ∧ bgd.inodeBitmap < limit ∧
      bgd.inodeTable + m.fs.sb.inodeTableBlocks ≤ limit)
    {b : Nat} (h : m.IsMetadata b) : b < limit := by
  obtain ⟨-, g, bgd, hbgd, h⟩ := h
  obtain ⟨hhead, hblock, hinode, htable⟩ := hall g (lt_of_getElem?_eq_some hbgd) bgd hbgd
  obtain ⟨-, h⟩ | rfl | rfl | ⟨-, h⟩ := h
  · exact Nat.lt_of_lt_of_le h hhead
  · exact hblock
  · exact hinode
  · exact Nat.lt_of_lt_of_le h htable

theorem separate_of_forall
    (hdesc : ∀ g < m.fs.groups.length, ∀ g' < m.fs.groups.length, m.descAt g = m.descAt g' → g = g')
    (hapart : ∀ kind ∈ [BitmapKind.block, .inode], ∀ g < m.fs.groups.length,
    ∀ bgd ∈ m.fs.groups[g]?,
      ∀ g' < m.fs.groups.length, kind.bitmapBlock bgd ≠ (m.descAt g').1)
    (hbitmaps : ∀ k ∈ [BitmapKind.block, .inode], ∀ k' ∈ [BitmapKind.block, .inode],
      ∀ g < m.fs.groups.length, ∀ g' < m.fs.groups.length, ∀ b ∈ m.fs.groups[g]?,
      ∀ b' ∈ m.fs.groups[g']?,
      k.bitmapBlock b = k'.bitmapBlock b' → k = k' ∧ g = g') : m.Separate := by
  have hmem : ∀ k : BitmapKind, k ∈ [BitmapKind.block, .inode] := by
    intro k
    cases k <;> decide
  refine ⟨⟨fun g g' hg hg' => hdesc g hg g' hg', fun kind g bgd hbgd g' hg' => ?_⟩, ?_⟩
  · exact hapart kind (hmem kind) g (lt_of_getElem?_eq_some hbgd) bgd hbgd g' hg'
  · intro k k' g g' b b' hb hb'
    exact hbitmaps k (hmem k) k' (hmem k') g (lt_of_getElem?_eq_some hb) g'
      (lt_of_getElem?_eq_some hb') b hb b' hb'

end Finite

theorem twoGroups_isMetadata_lt {b : Nat} (h : twoGroups.IsMetadata b) : b < 65 :=
  isMetadata_lt (by decide) h

theorem twoGroups_separate : twoGroups.Separate :=
  separate_of_forall (by decide) (by decide) (by decide)

example : twoGroups.used (twoGroupsDisk.img.block 1024) (twoGroups.blockSlot 2) =
    true := by decide +kernel

theorem twoGroups_mounted : Mounted linuxCrc32c twoGroups twoGroupsDisk where
  parsed := ⟨⟨0, 0, by decide⟩, by decide, by decide⟩
  clusters := by decide
  groups := by
    have hends : Result.Ends (fun groups => groups = twoGroups.fs.groups)
        ((readAll linuxCrc32c twoGroupsSb ⟨0, false⟩ (65 * 1024)).exec twoGroupsDisk).1 := by
      decide +kernel
    obtain ⟨groups, hg, rfl⟩ := hends.exists_ok
    exact readAll_eq_of_fst hg
  cleared := rfl
  separate := twoGroups_separate
  offJournal := fun jw hjw => by cases hjw
  initialised := by
    intro b hb hbit hu
    have hall : ∀ b ∈ List.range 65, twoGroups.IsMetadata b →
        twoGroups.uninitIn (twoGroupsDisk.img.block 1024) .block (twoGroups.blockSlot b).group =
          false →
        twoGroups.used (twoGroupsDisk.img.block 1024) (twoGroups.blockSlot b) = true := by
      decide +kernel
    exact hall b (List.mem_range.mpr (twoGroups_isMetadata_lt hb)) hb hu
  uninitialised := by
    intro b hb hbit hu
    have hall : ∀ b ∈ List.range 65, twoGroups.IsMetadata b →
        twoGroups.uninitIn (twoGroupsDisk.img.block 1024) .block (twoGroups.blockSlot b).group =
          true →
        twoGroups.OwnMetadata (twoGroups.blockSlot b).group b := by
      decide +kernel
    exact hall b (List.mem_range.mpr (twoGroups_isMetadata_lt hb)) hb hu

end Mount

namespace Mount

theorem reaches_of_commit {crc : Crc} {m : Mount} {d : Disk} {buf : BlockBuffer}
    {taken freed : Set Slot} (h : Mounted crc m d) (hj : m.journal = none)
    (hdirect : m.directCommitFailed = false) (hs : Staging crc m d buf taken freed)
    (hfit : ∀ b ∈ buf.dirty.entries.map Prod.fst, (b + 1) * m.fs.sb.blockSize ≤ d.size) :
    ∃ m' d', Committed m m' d d' buf ∧ Reaches crc m d m' d' ∧ ¬ m'.Halted := by
  have hcoh := h.coherent.1
  have ho := hcoh.isOpen hs
  have hfit' : ∀ b, buf.Staged b → (b + 1) * m.fs.sb.blockSize ≤ d.size := by
    intro b hb
    obtain ⟨bytes, hbytes⟩ := Option.isSome_iff_exists.mp hb
    exact hfit b (List.mem_map.mpr ⟨_, (buf.dirty.mem_entries_iff b bytes).mpr hbytes, rfl⟩)
  obtain ⟨m', d', hexec, hj', hdirect'⟩ := commitBlockBuffer_succeeds hj ho.coherent.whole hfit'
  have hlive : ∀ m₁ : Mount, m₁.journal = none → m₁.directCommitFailed = false → ¬ m₁.Halted := by
    rintro m₁ h1 h2 (h3 | ⟨jw, h3, -⟩)
    · exact Bool.noConfusion (h2.symm.trans h3)
    · cases h1.symm.trans h3
  refine ⟨m', d', hcoh.committed hs hexec, .commit .start (hlive m hj hdirect) hs hexec, ?_⟩
  exact hlive m' hj' (hdirect'.trans hdirect)

def twoGroupsFreed : Result BlockBuffer :=
  twoGroups.bufferFreeBlockRunAndBgd linuxCrc32c (twoGroups.fs.reader twoGroupsDisk)
    BlockBuffer.new 7 1

theorem staging_of_twoGroupsFreed {buf : BlockBuffer} (h : twoGroupsFreed = .ok buf) :
    Staging linuxCrc32c twoGroups twoGroupsDisk buf (∅ \ twoGroups.blockSlots 7 1)
      (∅ ∪ twoGroups.blockSlots 7 1) := by
  refine .freeBlocks .new ?_ h
  intro b h1 h2
  obtain rfl : b = 7 := by omega
  decide

def twoGroupsCreated : Result (BlockBuffer × BlockBuffer) := do
  let read := twoGroups.fs.reader twoGroupsDisk
  let buf₁ ← twoGroups.bufferMarkInodeUsed linuxCrc32c read BlockBuffer.new 11
  let buf ← twoGroups.bufferPatchBgdCounters linuxCrc32c read buf₁
    (twoGroups.inodeSlot 11).group 0 (-1) 0
  return (buf₁, buf)

theorem staging_of_twoGroupsCreated {buf₁ buf : BlockBuffer}
    (h : twoGroupsCreated = .ok (buf₁, buf)) :
    Staging linuxCrc32c twoGroups twoGroupsDisk buf (∅ ∪ {twoGroups.inodeSlot 11}) ∅ := by
  obtain ⟨buf₂, hmark, h1⟩ := Result.bind_eq_ok h
  obtain ⟨buf₃, hpatch, h2⟩ := Result.bind_eq_ok h1
  obtain ⟨rfl, rfl⟩ := Prod.mk.inj (Except.ok.inj h2)
  exact .allocInode .new (by decide) hmark hpatch

/-- Inside a transaction, a block it gave back is planned again while the disk still has it in use;
and the planners that read the device do not see what the transaction has taken. -/
theorem plans_in_use_before_commit :
    Mounted linuxCrc32c twoGroups twoGroupsDisk ∧
    (∃ buf taken freed plan, Staging linuxCrc32c twoGroups twoGroupsDisk buf taken freed ∧
      twoGroups.planBufferedBlockAllocation (twoGroups.fs.reader twoGroupsDisk) buf 1 0 = .ok plan ∧
      Holds plan 7 ∧
      twoGroups.used (twoGroupsDisk.img.block 1024) (twoGroups.blockSlot 7) = true) ∧
    ∃ buf taken freed plan, Staging linuxCrc32c twoGroups twoGroupsDisk buf taken freed ∧
      twoGroups.planInode (twoGroups.fs.reader twoGroupsDisk) false 0 = .ok plan ∧
      twoGroups.inodeSlot plan.inode ∈ taken := by
  refine ⟨twoGroups_mounted, ?_, ?_⟩
  · have hends : Result.Ends
      (fun buf => Result.Ends (fun plan => plan.firstBlock = 7 ∧ plan.count = 1)
        (twoGroups.planBufferedBlockAllocation (twoGroups.fs.reader twoGroupsDisk) buf 1 0))
        twoGroupsFreed := by
      decide +kernel
    have hused : twoGroups.used (twoGroupsDisk.img.block 1024) (twoGroups.blockSlot 7) = true := by
      decide +kernel
    obtain ⟨buf, hbuf, hplan⟩ := hends.exists_ok
    obtain ⟨plan, hp, hfirst, hcount⟩ := hplan.exists_ok
    exact ⟨buf, _, _, plan, staging_of_twoGroupsFreed hbuf, hp, ⟨by omega, by omega⟩, hused⟩
  · have hends : Result.Ends (fun _ => Result.Ends (fun plan => plan.inode = 11)
        (twoGroups.planInode (twoGroups.fs.reader twoGroupsDisk) false 0)) twoGroupsCreated := by
      decide +kernel
    obtain ⟨⟨buf₁, buf⟩, hbuf, hplan⟩ := hends.exists_ok
    obtain ⟨plan, hp, hino⟩ := hplan.exists_ok
    refine ⟨buf, _, _, plan, staging_of_twoGroupsCreated hbuf, hp, ?_⟩
    rw [hino]
    exact Or.inr rfl

def twoGroupsInitialised : Result (BlockBuffer × BlockBuffer) := do
  let read := twoGroups.fs.reader twoGroupsDisk
  let buf₁ ← twoGroups.bufferMarkBlockRunUsed linuxCrc32c read BlockBuffer.new 39 1
  let buf ← twoGroups.bufferPatchBgdCounters linuxCrc32c read buf₁
    (twoGroups.blockSlot 39).group (-1) 0 0
  return (buf₁, buf)

theorem staging_of_twoGroupsInitialised {buf₁ buf : BlockBuffer}
    (h : twoGroupsInitialised = .ok (buf₁, buf)) :
    Staging linuxCrc32c twoGroups twoGroupsDisk buf (∅ ∪ twoGroups.blockSlots 39 1) ∅ := by
  obtain ⟨buf₂, hmark, h1⟩ := Result.bind_eq_ok h
  obtain ⟨buf₃, hpatch, h2⟩ := Result.bind_eq_ok h1
  obtain ⟨rfl, rfl⟩ := Prod.mk.inj (Except.ok.inj h2)
  exact .allocBlocks .new ⟨by decide, by decide⟩ hmark hpatch

/-- Committing that leaves only INODE_UNINIT published for group 1. -/
theorem plansFree_of_reaches_two_groups :
    ∃ m d, Reaches linuxCrc32c twoGroups twoGroupsDisk m d ∧ m.cleared.get? 1 = some inodeUninit ∧
      PlansFree linuxCrc32c m d := by
  have hends : Result.Ends (fun bufs =>
      (∀ b ∈ bufs.2.dirty.entries.map Prod.fst, (b + 1) * 1024 ≤ 65 * 1024) ∧
        (twoGroups.publish bufs.2.uninitCleared).cleared.get? 1 = some inodeUninit)
      twoGroupsInitialised := by
    decide +kernel
  obtain ⟨⟨buf₁, buf⟩, hbuf, hblocks, hcleared⟩ := hends.exists_ok
  have hs := staging_of_twoGroupsInitialised hbuf
  obtain ⟨m, d, hc, hreach, hlive⟩ := reaches_of_commit twoGroups_mounted rfl rfl hs hblocks
  refine ⟨m, d, hreach, ?_, plansFree_of_reaches twoGroups_mounted hreach hlive⟩
  rw [hc.cleared]
  exact hcleared

end Mount

end FsExt4
