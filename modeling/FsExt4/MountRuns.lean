import FsExt4.AllocationRuns

namespace FsExt4

open Lib Jbd2 Alloc

namespace Mount

/-- Descriptors whose pointers are the mount's and whose uninit flags are a view's. -/
structure Mirrors (m : Mount) (v : Nat → Bytes) (groups : List BlockGroupDescriptor) : Prop where
  length : groups.length = m.fs.groups.length
  pointers : ∀ (g : Nat) (bgd : BlockGroupDescriptor), groups[g]? = some bgd →
    ∃ bgd₀ : BlockGroupDescriptor, m.fs.groups[g]? = some bgd₀ ∧
      bgd.blockBitmap = bgd₀.blockBitmap ∧ bgd.inodeBitmap = bgd₀.inodeBitmap ∧
      bgd.inodeTable = bgd₀.inodeTable
  flags : ∀ (g : Nat) (bgd : BlockGroupDescriptor), groups[g]? = some bgd → ∀ kind : BitmapKind,
    bgd.isUninit kind.flag = m.uninitIn v kind g

section Planners

variable {m : Mount} {v : Nat → Bytes} {groups : List BlockGroupDescriptor}

theorem Mirrors.uninitBlockBitmap_eq (h : m.Mirrors v groups) (g : Nat) :
    uninitBlockBitmap m.fs.sb groups g = uninitBlockBitmap m.fs.sb m.fs.groups g := by
  have hranges : uninitGroupUsedRanges m.fs.sb groups g =
      uninitGroupUsedRanges m.fs.sb m.fs.groups g := by
    unfold uninitGroupUsedRanges
    cases hg : groups[g]? with
    | none =>
      have hlen := List.getElem?_eq_none_iff.mp hg
      rw [h.length] at hlen
      rw [List.getElem?_eq_none_iff.mpr hlen]
    | some bgd =>
      obtain ⟨bgd₀, h0, h1, h2, h3⟩ := h.pointers g bgd hg
      rw [h0]
      dsimp only
      rw [h1, h2, h3]
  unfold uninitBlockBitmap
  rw [hranges]

theorem Mirrors.blockBitmapOf_eq (h : m.Mirrors v groups) {read : Nat → Result Bytes}
    (hread : ∀ b bytes, read b = .ok bytes → bytes = v b) {g : Nat}
    {bgd bgd₀ : BlockGroupDescriptor} (hg : groups[g]? = some bgd)
    (hg₀ : m.fs.groups[g]? = some bgd₀) {bitmap : Bytes}
    (hb : blockBitmapOf m.fs.sb groups read g bgd = .ok bitmap) :
    bitmap = m.bitmapIn v .block g bgd₀ := by
  obtain ⟨bgd₁, h1, hp, -, -⟩ := h.pointers g bgd hg
  obtain rfl : bgd₁ = bgd₀ := Option.some.inj (h1.symm.trans hg₀)
  have hflag : bgd.isUninit blockUninit = m.uninitIn v .block g := h.flags g bgd hg .block
  unfold blockBitmapOf at hb
  unfold bitmapIn
  rw [hflag] at hb
  split at hb
  · rename_i hu
    rw [if_pos hu, ← Except.ok.inj hb, h.uninitBlockBitmap_eq]
    rfl
  · rename_i hu
    rw [if_neg hu, hread _ _ hb, hp]
    rfl

theorem Mirrors.inodeBitmapOf_eq (h : m.Mirrors v groups) {read : Nat → Result Bytes}
    (hread : ∀ b bytes, read b = .ok bytes → bytes = v b) {g : Nat}
    {bgd bgd₀ : BlockGroupDescriptor} (hg : groups[g]? = some bgd)
    (hg₀ : m.fs.groups[g]? = some bgd₀) {bitmap : Bytes}
    (hb : inodeBitmapOf m.fs.sb read bgd = .ok bitmap) :
    bitmap = m.bitmapIn v .inode g bgd₀ := by
  obtain ⟨bgd₁, h1, -, hp, -⟩ := h.pointers g bgd hg
  obtain rfl : bgd₁ = bgd₀ := Option.some.inj (h1.symm.trans hg₀)
  have hflag : bgd.isUninit inodeUninit = m.uninitIn v .inode g := h.flags g bgd hg .inode
  unfold inodeBitmapOf at hb
  unfold bitmapIn
  rw [hflag] at hb
  split at hb
  · rename_i hu
    rw [if_pos hu, ← Except.ok.inj hb]
    rfl
  · rename_i hu
    rw [if_neg hu, hread _ _ hb, hp]
    rfl

/-- A planned run: it lies in one group, and no block of it is in use in the view or reserved. -/
structure FreeBlocks (m : Mount) (v : Nat → Bytes) (reserved : List Nat)
    (plan : BlockAllocationPlan) : Prop where
  inGroup : m.InGroup plan.firstBlock plan.count
  inVolume : ∀ b, plan.firstBlock ≤ b → b < plan.firstBlock + plan.count →
    (m.blockSlot b).bit < blocksInGroup m.fs.sb (m.blockSlot b).group
  free : ∀ b, plan.firstBlock ≤ b → b < plan.firstBlock + plan.count →
    m.used v (m.blockSlot b) = false ∧ b ∉ reserved

theorem Mirrors.planned (h : m.Mirrors v groups) (hbnd : m.fs.sb.Bounds)
    {read : Nat → Result Bytes} (hread : ∀ b bytes, read b = .ok bytes → bytes = v b)
    {count hint : Nat} {reserved : List Nat} {plan : BlockAllocationPlan}
    (hp : planBlockAllocationExcluding m.fs.sb groups count hint reserved read = .ok plan) :
    FreeBlocks m v reserved plan := by
  obtain ⟨hcount, g, hg, bgd, bitmap, j, hcand, rfl⟩ := planBlockAllocationExcluding_ok hp
  obtain ⟨bgd₀, h0, -⟩ := h.pointers g bgd hcand.desc
  have hbitmap := h.blockBitmapOf_eq hread hcand.desc h0 hcand.read
  obtain ⟨hfits, hfree⟩ := hcand.run
  have hle := blocksInGroup_le hbnd g
  have hclamp : clampBits bitmap (blocksInGroup m.fs.sb g) ≤ blocksInGroup m.fs.sb g :=
    Nat.min_le_left _ _
  have hslot : ∀ i, i < count → m.blockSlot (m.fs.sb.firstBlockOfGroup g + j + i) =
      ⟨.block, g, j + i⟩ := by
    intro i hi
    rw [Nat.add_assoc]
    exact blockSlot_firstBlockOfGroup (by omega)
  have hrun : ∀ b, (blockPlan m.fs.sb count g bgd j).firstBlock ≤ b →
      b < (blockPlan m.fs.sb count g bgd j).firstBlock + count →
      ∃ i, i < count ∧ b = m.fs.sb.firstBlockOfGroup g + j + i := by
    intro b h1 h2
    obtain ⟨i, rfl⟩ := Nat.exists_eq_add_of_le h1
    exact ⟨i, by omega, rfl⟩
  refine ⟨⟨?_, ?_⟩, ?_, ?_⟩
  · change m.fs.sb.firstDataBlock.toNat ≤ m.fs.sb.firstBlockOfGroup g + j
    unfold Superblock.firstBlockOfGroup
    omega
  · have h1 := hslot 0 hcount
    rw [Nat.add_zero, Nat.add_zero] at h1
    change (m.blockSlot (m.fs.sb.firstBlockOfGroup g + j)).bit + count ≤ _
    rw [h1]
    dsimp only
    omega
  · intro b h1 h2
    obtain ⟨i, hi, rfl⟩ := hrun b h1 h2
    rw [hslot i hi]
    dsimp only
    omega
  · intro b h1 h2
    obtain ⟨i, hi, rfl⟩ := hrun b h1 h2
    have hclear := hfree i hi
    rw [hslot i hi]
    constructor
    · rw [used_of_some h0, ← hbitmap]
      dsimp only
      cases hb : Lib.bit bitmap (j + i) with
      | false => rfl
      | true =>
        rw [bit_markReserved_of_bit _ _ _ _ _ _ hb] at hclear
        cases hclear
    · intro hmem
      have hlen : (j + i) / 8 < bitmap.length := by
        have h8 : clampBits bitmap (blocksInGroup m.fs.sb g) ≤ bitmap.length * 8 :=
          Nat.min_le_right _ _
        omega
      rw [bit_markReserved_of_mem _ _ _ _ _ _ (by rw [← Nat.add_assoc]; exact hmem) (by omega) hlen]
        at hclear
      cases hclear

/-- A planned inode: it exists, is not reserved, and is not in use in the view. -/
structure FreeInode (m : Mount) (v : Nat → Bytes) (plan : InodeAllocationPlan) : Prop where
  firstInode : m.fs.sb.firstInode.toNat ≤ plan.inode
  inodesCount : plan.inode ≤ m.fs.sb.inodesCount.toNat
  inBitmap : (m.inodeSlot plan.inode).bit < m.fs.sb.blockSize * 8
  free : m.used v (m.inodeSlot plan.inode) = false

theorem inodeSlot_inodeNumber {g j : Nat} (hj : j < m.fs.sb.inodesPerGroup.toNat) :
    m.inodeSlot (inodeNumber m.fs.sb g j) = ⟨.inode, g, j⟩ := by
  unfold inodeNumber inodeSlot
  have hx : g * m.fs.sb.inodesPerGroup.toNat + (j + 1) - 1 =
      j + m.fs.sb.inodesPerGroup.toNat * g := by
    rw [Nat.mul_comm g]
    omega
  rw [hx, Nat.add_mul_div_left _ _ (by omega), Nat.div_eq_of_lt hj, Nat.zero_add,
    Nat.add_mul_mod_self_left, Nat.mod_eq_of_lt hj]

theorem Mirrors.plannedInode (h : m.Mirrors v groups) (hv : ∀ b, (v b).length = m.fs.sb.blockSize)
    {read : Nat → Result Bytes} (hread : ∀ b bytes, read b = .ok bytes → bytes = v b)
    {isDir : Bool} {hint : Nat} {plan : InodeAllocationPlan}
    (hp : planInodeAllocation m.fs.sb groups isDir hint read = .ok plan) : FreeInode m v plan := by
  obtain ⟨g, hg, bgd, bitmap, j, hcand, hcount, rfl⟩ := planInodeAllocation_ok hp
  obtain ⟨bgd₀, h0, -⟩ := h.pointers g bgd hcand.desc
  have hbitmap := h.inodeBitmapOf_eq hread hcand.desc h0 hcand.read
  obtain ⟨hfloor, hclamp, hclear, -⟩ := hcand.first
  have h1 : clampBits bitmap m.fs.sb.inodesPerGroup.toNat ≤ m.fs.sb.inodesPerGroup.toNat :=
    Nat.min_le_left _ _
  have h2 : clampBits bitmap m.fs.sb.inodesPerGroup.toNat ≤ bitmap.length * 8 :=
    Nat.min_le_right _ _
  have hlen : bitmap.length = m.fs.sb.blockSize := by
    rw [hbitmap]
    unfold bitmapIn
    split
    · exact m.length_impliedBitmap g .inode
    · exact hv _
  have hslot : m.inodeSlot (inodePlan m.fs.sb isDir g bgd j).inode = ⟨.inode, g, j⟩ :=
    inodeSlot_inodeNumber (by omega)
  refine ⟨?_, hcount, ?_, ?_⟩
  · change m.fs.sb.firstInode.toNat ≤ inodeNumber m.fs.sb g j
    unfold reservedFloor at hfloor
    unfold inodeNumber
    omega
  · rw [hslot]
    dsimp only
    omega
  · rw [hslot, used_of_some h0, ← hbitmap]
    exact hclear

end Planners

end Mount

namespace Mount

theorem getElem?_overrideFlags (groups : List BlockGroupDescriptor) (flags : SortedMap UInt16)
    (g : Nat) :
    (overrideFlags groups flags)[g]? = groups[g]?.map (fun bgd => match flags.get? g with
      | some f => { bgd with flags := f }
      | none => bgd) := by
  unfold overrideFlags
  exact List.getElem?_mapIdx

@[simp] theorem length_overrideFlags (groups : List BlockGroupDescriptor)
    (flags : SortedMap UInt16) : (overrideFlags groups flags).length = groups.length :=
  List.length_mapIdx

theorem overrideFlags_some {groups : List BlockGroupDescriptor} {flags : SortedMap UInt16} {g : Nat}
    {bgd : BlockGroupDescriptor} (h : (overrideFlags groups flags)[g]? = some bgd) :
    ∃ bgd₀ : BlockGroupDescriptor, groups[g]? = some bgd₀ ∧
      bgd.blockBitmap = bgd₀.blockBitmap ∧ bgd.inodeBitmap = bgd₀.inodeBitmap ∧
      bgd.inodeTable = bgd₀.inodeTable ∧ bgd.flags = (flags.get? g).getD bgd₀.flags := by
  rw [getElem?_overrideFlags] at h
  obtain ⟨bgd₀, h0, rfl⟩ := Option.map_eq_some_iff.mp h
  refine ⟨bgd₀, h0, ?_⟩
  cases flags.get? g with
  | none => exact ⟨rfl, rfl, rfl, rfl⟩
  | some f => exact ⟨rfl, rfl, rfl, rfl⟩

theorem get?_foldl_publishOne (entries : List (Nat × UInt16)) (hnd : (entries.map Prod.fst).Nodup)
    (cleared : SortedMap UInt16) (g : Nat) :
    (entries.foldl publishOne cleared).get? g = match entries.lookup g with
      | none => cleared.get? g
      | some f => some (match cleared.get? g with
        | some f₀ => f₀ &&& f
        | none => f) := by
  induction entries generalizing cleared with
  | nil => rfl
  | cons e rest ih =>
    obtain ⟨k, f⟩ := e
    rw [List.map_cons, List.nodup_cons] at hnd
    rw [List.foldl_cons, ih hnd.2, SortedMap.lookup_cons_ite]
    unfold publishOne
    rw [SortedMap.get?_insert]
    by_cases hg : g = k
    · subst hg
      have hnone : rest.lookup g = none := by
        rw [List.lookup_eq_none_iff]
        intro p hp
        have hne : p.1 ≠ g := fun h => hnd.1 (List.mem_map.mpr ⟨p, hp, h⟩)
        simpa using hne.symm
      cases cleared.get? g <;> simp [hnone]
    · rw [if_neg hg, if_neg hg]

theorem get?_publish (m : Mount) (cleared : SortedMap UInt16) (g : Nat) :
    (m.publish cleared).cleared.get? g = match cleared.get? g with
      | none => m.cleared.get? g
      | some f => some (match m.cleared.get? g with
        | some f₀ => f₀ &&& f
        | none => f) :=
  get?_foldl_publishOne _ cleared.nodup_keys _ _

end Mount

namespace Superblock

variable {sb : Superblock}

theorem Bounds.descriptor_pos (h : sb.Bounds) (g : Nat) : (sb.descriptorLocation g).1 ≠ 0 := by
  unfold descriptorLocation
  dsimp only
  split
  · exact Nat.ne_of_gt (Nat.add_pos_left (Nat.succ_pos _) _)
  · rename_i mg _
    split
    · exact Nat.succ_ne_zero _
    · rename_i hhead
      have hpos : 0 < mg * sb.descsPerBlock * sb.blocksPerGroup.toNat :=
        Nat.mul_pos (Nat.pos_of_ne_zero hhead) h.blocksPerGroup
      unfold firstBlockOfGroup
      exact Nat.ne_of_gt (Nat.add_pos_left (Nat.add_pos_right _ hpos) _)

end Superblock

namespace Mount

def pointersIn (m : Mount) (v : Nat → Bytes) (g : Nat) : Nat × Nat × Nat :=
  let raw := m.descRaw v g
  let wide := decide (64 ≤ m.fs.sb.descSize)
  (BlockGroupDescriptor.splitU32 raw wide 0x00 0x20, BlockGroupDescriptor.splitU32 raw
    wide 0x04 0x24, BlockGroupDescriptor.splitU32 raw wide 0x08 0x28)

def OffJournal (m : Mount) : Prop :=
  ∀ jw, m.journal = some jw → jw.blockSize = m.fs.sb.blockSize ∧
    (∀ g, g < m.fs.groups.length → (m.descAt g).1 ∉ jw.physicalMap) ∧
    ∀ (kind : BitmapKind) (g : Nat) (bgd : BlockGroupDescriptor), m.fs.groups[g]? = some bgd →
      kind.bitmapBlock bgd ∉ jw.physicalMap

def MetadataUsed (m : Mount) (v : Nat → Bytes) : Prop :=
  ∀ b, m.IsMetadata b → (m.blockSlot b).bit < blocksInGroup m.fs.sb (m.blockSlot b).group →
    m.used v (m.blockSlot b) = true

/-- The mount and its disk agree: on the uninit flags, on the pointers, on what is in use. -/
structure Coherent (crc : Crc) (m : Mount) (d : Disk) : Prop where
  accepted : m.Accepted
  separate : m.Separate
  offJournal : m.OffJournal
  flags : ∀ (g : Nat) (bgd : BlockGroupDescriptor), m.fs.groups[g]? = some bgd →
    ∀ kind : BitmapKind, ((m.cleared.get? g).getD bgd.flags &&& kind.flag != 0) =
      m.uninitIn (d.img.block m.fs.sb.blockSize) kind g
  csums : ∀ g, g < m.fs.groups.length → CsumOk crc m (d.img.block m.fs.sb.blockSize) g
  pointers : ∀ (g : Nat) (bgd : BlockGroupDescriptor), m.fs.groups[g]? = some bgd →
    m.pointersIn (d.img.block m.fs.sb.blockSize) g = (bgd.blockBitmap, bgd.inodeBitmap,
    bgd.inodeTable)
  metadata : m.MetadataUsed (d.img.block m.fs.sb.blockSize)

section Coherent

variable {crc : Crc} {m m' : Mount} {d d' : Disk} {buf : BlockBuffer} {taken freed : Set Slot}

theorem Coherent.lands_desc (h : Coherent crc m d) {g : Nat} (hg : g < m.fs.groups.length) :
    m.Lands (m.descAt g).1 := by
  intro jw hjw
  exact ⟨(h.offJournal jw hjw).2.1 g hg, h.accepted.bounds.descriptor_pos g,
    h.accepted.bounds.descriptor_ne_superblock g⟩

theorem Coherent.lands_bitmap (h : Coherent crc m d) (kind : BitmapKind) {g : Nat}
    {bgd : BlockGroupDescriptor} (hbgd : m.fs.groups[g]? = some bgd) :
    m.Lands (kind.bitmapBlock bgd) := by
  intro jw hjw
  have hlow := checkPointersWithin_ok (h.accepted.pointers g bgd hbgd) kind
  have hpos := m.fs.sb.groupHeadMetadataBlocks_zero_pos
  exact ⟨(h.offJournal jw hjw).2.2 kind g bgd hbgd,
    Nat.ne_of_gt (Nat.lt_of_lt_of_le (Nat.add_pos_right _ hpos) hlow),
    h.accepted.bitmap_ne_superblock kind hbgd⟩

theorem blockSlot_inj {b b' : Nat} (hb : m.fs.sb.firstDataBlock.toNat ≤ b)
    (hb' : m.fs.sb.firstDataBlock.toNat ≤ b') (h : m.blockSlot b = m.blockSlot b') : b = b' := by
  have hbit := congrArg Slot.bit h
  have hgroup := congrArg Slot.group h
  unfold blockSlot at hbit hgroup
  dsimp only at hbit hgroup
  have h1 := Nat.mod_add_div (b - m.fs.sb.firstDataBlock.toNat) m.fs.sb.blocksPerGroup.toNat
  have h2 := Nat.mod_add_div (b' - m.fs.sb.firstDataBlock.toNat) m.fs.sb.blocksPerGroup.toNat
  rw [hbit, hgroup] at h1
  omega

theorem le_of_groupChunks {start len : Nat} {chunks : List (Nat × Nat × Nat)}
    (h : m.groupChunks start len = .ok chunks) : m.fs.sb.firstDataBlock.toNat ≤ start := by
  unfold groupChunks at h
  split at h
  · cases h
  · split at h
    · cases h
    · rename_i hlow
      omega

theorem Staging.not_freed (h : Staging crc m d buf taken freed) {b : Nat} (hb : m.IsMetadata b) :
    m.blockSlot b ∉ freed := by
  induction h with
  | new => exact Set.notMem_empty _
  | allocBlocks _ _ _ _ ih => exact ih
  | freeBlocks _ hmeta hfree ih =>
    rintro (hf | ⟨b', h1, h2, heq⟩)
    · exact ih hf
    · obtain ⟨chunks, hc, -⟩ := Result.bind_eq_ok hfree
      have hle := le_of_groupChunks hc
      rw [blockSlot_inj hb.1 (Nat.le_trans hle h1) heq] at hb
      exact hmeta b' h1 h2 hb
  | allocInode _ _ _ _ ih => exact ih
  | freeInode _ _ ih =>
    rintro (hf | hf)
    · exact ih hf
    · exact BitmapKind.noConfusion (congrArg Slot.kind hf)
  | patchCounters _ _ _ ih => exact ih
  | put _ _ _ _ ih => exact ih
  | edit _ _ _ _ ih => exact ih

theorem pointersIn_eq {v v' : Nat → Bytes} {g : Nat} (hbnd : m.fs.sb.Bounds)
    (h : ∀ p n, p + n ≤ m.fs.sb.descSize → PointerRange m.fs.sb.descSize p n →
      m.descBytes v' g p n = m.descBytes v g p n) : m.pointersIn v' g = m.pointersIn v g := by
  have hds := hbnd.descSize
  have hlow : ∀ p, p + 4 ≤ 0x0C → u32leAt (m.descRaw v' g) p = u32leAt (m.descRaw v g) p := by
    intro p hp
    unfold u32leAt
    rw [slice_descRaw v' (by omega), slice_descRaw v (by omega), h p 4 (by omega) (Or.inl hp)]
  unfold pointersIn BlockGroupDescriptor.splitU32
  dsimp only
  rw [hlow 0x00 (by decide), hlow 0x04 (by decide), hlow 0x08 (by decide)]
  by_cases hw : 64 ≤ m.fs.sb.descSize
  · have hhigh : ∀ p, 0x20 ≤ p → p + 4 ≤ 0x2C →
        u32leAt (m.descRaw v' g) p = u32leAt (m.descRaw v g) p := by
      intro p h1 h2
      unfold u32leAt
      rw [slice_descRaw v' (by omega), slice_descRaw v (by omega),
        h p 4 (by omega) (Or.inr ⟨hw, h1, h2⟩)]
    rw [hhigh 0x20 (by decide) (by decide), hhigh 0x24 (by decide) (by decide),
      hhigh 0x28 (by decide) (by decide)]
  · simp only [hw, decide_false, Bool.false_eq_true, if_false]

end Coherent

section Commit

variable {crc : Crc} {m m' : Mount} {d d' : Disk} {buf : BlockBuffer} {taken freed : Set Slot}

theorem Coherent.mirrors_disk (h : Coherent crc m d) :
    m.Mirrors (d.img.block m.fs.sb.blockSize) m.allocationGroups where
  length := length_overrideFlags _ _
  pointers := by
    intro g bgd hg
    obtain ⟨bgd₀, h0, h1, h2, h3, -⟩ := overrideFlags_some hg
    exact ⟨bgd₀, h0, h1, h2, h3⟩
  flags := by
    intro g bgd hg kind
    obtain ⟨bgd₀, h0, -, -, -, hf⟩ := overrideFlags_some hg
    unfold BlockGroupDescriptor.isUninit
    rw [hf]
    exact h.flags g bgd₀ h0 kind

theorem Coherent.mirrors_buffer (h : Coherent crc m d) (ho : Open crc m d buf taken freed) :
    m.Mirrors (buf.view d.img m.fs.sb.blockSize)
      (overrideFlags m.allocationGroups buf.uninitCleared) where
  length := by rw [length_overrideFlags, h.mirrors_disk.length]
  pointers := by
    intro g bgd hg
    obtain ⟨bgd₁, h1, hb, hi, ht, -⟩ := overrideFlags_some hg
    obtain ⟨bgd₀, h0, hb', hi', ht'⟩ := h.mirrors_disk.pointers g bgd₁ h1
    exact ⟨bgd₀, h0, hb.trans hb', hi.trans hi', ht.trans ht'⟩
  flags := by
    intro g bgd hg kind
    obtain ⟨bgd₁, h1, -, -, -, hf⟩ := overrideFlags_some hg
    have hlt : g < m.fs.groups.length := by
      rw [← h.mirrors_disk.length]
      exact (List.getElem?_eq_some_iff.mp h1).1
    unfold BlockGroupDescriptor.isUninit
    rw [hf]
    cases hc : buf.uninitCleared.get? g with
    | none =>
      rw [ho.coherent.untouched g hlt hc]
      exact h.mirrors_disk.flags g bgd₁ h1 kind
    | some f => exact (ho.coherent.cleared g f hc).2.2 kind

theorem Coherent.commit (h : Coherent crc m d) (ho : Open crc m d buf taken freed)
    (hfreed : ∀ b, m.IsMetadata b → m.blockSlot b ∉ freed) (hc : Committed m m' d d' buf) :
    Coherent crc m' d' ∧ ∀ s, m'.used (d'.img.block m'.fs.sb.blockSize) s =
      m.used (buf.view d.img m.fs.sb.blockSize) s := by
  obtain ⟨fs', csum', cleared', journal', direct'⟩ := m'
  obtain rfl : fs' = m.fs := hc.fs
  obtain rfl : csum' = m.csum := hc.csum
  have hcleared : cleared' = (m.publish buf.uninitCleared).cleared := hc.cleared
  have hdesc : ∀ g, g < m.fs.groups.length → d'.img.block m.fs.sb.blockSize (m.descAt g).1 =
      buf.view d.img m.fs.sb.blockSize (m.descAt g).1 :=
    fun g hg => hc.block _ (h.lands_desc hg)
  have hflags : ∀ g, g < m.fs.groups.length → ∀ kind,
      m.uninitIn (d'.img.block m.fs.sb.blockSize) kind g =
        m.uninitIn (buf.view d.img m.fs.sb.blockSize) kind g := by
    intro g hg kind
    unfold uninitIn flagsIn
    rw [hdesc g hg]
  have hraw : ∀ g, g < m.fs.groups.length → ∀ p n,
    m.descBytes (d'.img.block m.fs.sb.blockSize) g p n =
      m.descBytes (buf.view d.img m.fs.sb.blockSize) g p n := by
    intro g hg p n
    unfold descBytes
    rw [hdesc g hg]
  have hused : ∀ s, m.used (d'.img.block m.fs.sb.blockSize) s =
      m.used (buf.view d.img m.fs.sb.blockSize) s := by
    intro s
    apply used_congr
    · exact fun hg => hflags s.group hg s.kind
    · exact fun bgd hbgd => hc.block _ (h.lands_bitmap s.kind hbgd)
  refine ⟨⟨⟨h.accepted.bounds, h.accepted.count, h.accepted.pointers⟩,
    ⟨⟨h.separate.apart.descriptors, h.separate.apart.bitmaps⟩, h.separate.bitmaps⟩,
    ?_, ?_, ?_, ?_, ?_⟩, hused⟩
  · intro jw hjw
    obtain ⟨jw₀, hj, hmap, hbs, -⟩ := hc.journal jw hjw
    rw [hmap, hbs]
    exact h.offJournal jw₀ hj
  · intro g bgd hbgd kind
    have hg := lt_of_getElem?_eq_some hbgd
    have hold := h.flags g bgd hbgd kind
    change ((cleared'.get? g).getD bgd.flags &&& kind.flag != 0) =
      m.uninitIn (d'.img.block m.fs.sb.blockSize) kind g
    rw [hflags g hg, hcleared, get?_publish]
    cases hb : buf.uninitCleared.get? g with
    | none =>
      rw [ho.coherent.untouched g hg hb]
      exact hold
    | some f =>
      have hf := (ho.coherent.cleared g f hb).2.2 kind
      cases hm : m.cleared.get? g with
      | none => exact hf
      | some f₀ =>
        rw [hm] at hold
        dsimp only [Option.getD_some] at hold ⊢
        rw [and_and_flag_ne_zero, hold, hf]
        cases hv : m.uninitIn (buf.view d.img m.fs.sb.blockSize) kind g with
        | false => exact Bool.and_false _
        | true => rw [ho.coherent.onlyCleared g hg kind hv, Bool.and_true]
  · intro g hg
    exact csumOk_congr (hraw g hg 0 _) (ho.csums g hg)
  · intro g bgd hbgd
    have hg := lt_of_getElem?_eq_some hbgd
    refine Eq.trans (pointersIn_eq h.accepted.bounds ?_) (h.pointers g bgd hbgd)
    intro p n hp hr
    exact (hraw g hg p n).trans (ho.coherent.pointers g hg p n hp hr)
  · intro b hb hbit
    exact (hused _).trans (ho.kept _ (h.metadata b hb hbit) (hfreed b hb))

end Commit

end Mount

end FsExt4
