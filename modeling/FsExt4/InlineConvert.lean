import FsExt4.FileReplace
import FsExt4.HtreeDrop
import FsExt4.InlineDirs
import FsExt4.Mkfs
import FsExt4.PackedLeaf

namespace FsExt4

open Lib Jbd2 Alloc

def FsFlavor.detect (featureCompat featureIncompat : UInt32) : FsFlavor :=
  match featureIncompat &&& incompatExtents != 0, featureCompat &&& compatHasJournal != 0 with
  | true, _ => .ext4
  | false, true => .ext3
  | false, false => .ext2

namespace Mount

theorem base_of_bufferedInode {crc : Crc} {m : Mount} {d : Disk} {buf : BlockBuffer} {ino : UInt32}
    {inode : Inode} {raw : Bytes} (h : m.bufferedInodeVerified crc d buf ino = .ok (inode, raw)) :
    inodeBaseSize ≤ raw.length := by
  obtain ⟨block, off, hat⟩ := bufferedInodeVerified_ok h
  exact (Inode.parse_eq_ok.mp hat.parsed).1.base

end Mount

/-- Add an entry where there is room, making a continuation when there is none and one is needed. -/
def InlineDir.addExpanding (dir : InlineDir) (raw : Bytes) (inodeSize : Nat) (ino : UInt32)
    (name : Bytes) (fileType : DirEntryType) (hasFileType : Bool) : Result Bool × InlineDir :=
  match dir.add ino name fileType hasFileType with
  | (.ok false, dir) =>
    match dir.expand raw inodeSize with
    | (true, dir) => dir.add ino name fileType hasFileType
    | (false, dir) => (.ok false, dir)
  | result => result

def Dir.addInlineEntries (hasFileType : Bool) (reservedTail : Nat) : List DirEntry → Bytes →
    Result Bytes
  | [], block => .ok block
  | e :: rest, block =>
    match addEntryToBlock block e.inode e.name e.fileType hasFileType reservedTail with
    | .error .outOfBounds =>
        .error (.corrupt "an inline directory's entries do not fit in one block")
    | .error err => .error err
    | .ok block => addInlineEntries hasFileType reservedTail rest block

namespace Mount

section Model

variable (crc : Crc) (m : Mount) (d : Disk)

def flavor : FsFlavor := .detect m.fs.sb.featureCompat m.fs.sb.featureIncompat

def bufferedInlineDir (buf : BlockBuffer) (ino : UInt32) : Result (Inode × Bytes × InlineDir) :=
  match h : m.bufferedInodeVerified crc d buf ino with
  | .error e => .error e
  | .ok (inode, raw) => do
    let dir ← ((InlineDir.load inode raw (base_of_bufferedInode h) m.fs.sb.inodeSize
      m.fs.sb.blockSize).exec d).1
    return (inode, raw, dir)

/-- The result, or `none` where the code would panic. -/
def bufferStoreInlineDir (buf : BlockBuffer) (ino : UInt32) (inode : Inode) (raw : Bytes)
    (dir : InlineDir) :
    Option (Result BlockBuffer) :=
  match dir.store raw m.fs.sb.inodeSize with
  | none => none
  | some (.error e, _) => some (.error e)
  | some (.ok (), raw) => some (m.bufferWriteDirInode crc d buf ino inode.generation raw)

/-- A fresh directory block: `.`, and `..` to the end of what is used. -/
def seedDirectoryBlock (newIno parentIno newGeneration : UInt32) : Bytes :=
  let fileType := if m.fs.sb.hasFiletype then DirEntryType.directory.toU8 else 0
  let usable := m.fs.sb.blockSize - m.freshTail
  let block := copyAll (List.replicate m.fs.sb.blockSize 0)
    [(0, u32le newIno), (4, u16le 12), (6, [1]), (7, [fileType]), (8, [0x2E]),
      (12, u32le parentIno), (16, u16le (UInt16.ofNat (usable - 12))), (18, [2]), (19, [fileType]),
      (20, [0x2E]), (21, [0x2E])]
  if m.csum.enabled then m.csum.patchDirEntryTail crc newIno newGeneration block else block

def bufferDirBlockAlloc (buf : BlockBuffer) (plan : BlockAllocationPlan) : Result BlockBuffer := do
  if plan.count ≠ 1 then
    throw (.corrupt "buffer_dir_block_alloc: a directory block plan must allocate exactly one block")
  let buf ← m.bufferMarkBlockRunUsed crc (m.fs.reader d) buf plan.firstBlock 1
  let buf ← m.bufferPatchBgdCounters crc (m.fs.reader d) buf plan.bgd.groupIdx
    plan.bgd.freeBlocksDelta plan.bgd.freeInodesDelta plan.bgd.usedDirsDelta
  m.bufferPatchSbCounters crc (m.fs.reader d) buf plan.sb.freeBlocksDelta plan.sb.freeInodesDelta

def bufferAllocDirBlock (buf : BlockBuffer) (parentIno : UInt32) : Result (Nat × BlockBuffer) := do
  let parentGroup := (parentIno - 1).toNat / m.fs.sb.inodesPerGroup.toNat
  let plan ← m.planBufferedBlockAllocation (m.fs.reader d) buf 1 parentGroup
  let buf ← m.bufferDirBlockAlloc crc d buf plan
  return (plan.firstBlock, buf)

/-- Map block 0 of an inode's image: one extent, or a direct pointer. -/
def mapOneBlock (raw : Bytes) (phys : Nat) : Result Bytes :=
  if !m.flavor.usesExtents then
    if 2 ^ 32 ≤ phys then .error (.corrupt "block past a 32-bit block map")
    else .ok (copyAt raw 0x28 (u32le (UInt32.ofNat phys)))
  else
    let (physHi, physLo) := splitPhysBlock phys
    .ok (copyAll raw [(0x20, u32le (u32leAt raw 0x20 ||| inodeFlagExtents)),
      (0x28, u16le extMagic), (0x2A, u16le 1), (0x2C, u16le 4), (0x2E, u16le 0),
      (0x34, u32le 0), (0x38, u16le 1), (0x3A, u16le physHi), (0x3C, u32le physLo)])

/-- The image of an inline directory without its inline data and with its one block mapped. -/
def convertedImage (inode : Inode) (raw : Bytes) (phys : Nat) : Option (Result Bytes) :=
  match InlineMut.strip raw m.fs.sb.inodeSize with
  | none => none
  | some (.error e, _) => some (.error e)
  | some (.ok (), raw) => some (do
    let raw ← m.mapOneBlock raw phys
    patchInodeSizeAndBlocks raw m.fs.sb.blockSize (inode.blocks + m.fs.sb.blockSize / 512))

def convertedBlock (ino : UInt32) (inode : Inode) (parent : UInt32) (entries : List DirEntry) :
    Result Bytes := do
  let block ← Dir.addInlineEntries m.fs.sb.hasFiletype m.freshTail entries
    (m.seedDirectoryBlock crc ino parent inode.generation)
  return if m.csum.enabled then m.csum.patchDirEntryTail crc ino inode.generation block else block

/-- The result, or `none` where the code would panic. -/
def bufferConvertInlineDir (buf : BlockBuffer) (ino : UInt32) (inode : Inode) (raw : Bytes)
    (parent : UInt32) (entries : List DirEntry) : Option (Result BlockBuffer) :=
  match m.convertedBlock crc ino inode parent entries with
  | .error e => some (.error e)
  | .ok block =>
    match m.bufferAllocDirBlock crc d buf ino with
    | .error e => some (.error e)
    | .ok (phys, buf) =>
      match m.convertedImage inode raw phys with
      | none => none
      | some (.error e) => some (.error e)
      | some (.ok raw) => some (m.bufferWriteDirInode crc d (buf.put phys block) ino
          inode.generation raw)

/-- The result, or `none` where the code would panic. -/
def bufferAddInlineDirEntry (buf : BlockBuffer) (ino : UInt32) (name : Bytes) (target : UInt32)
    (fileType : DirEntryType) : Option (Result BlockBuffer) :=
  match m.bufferedInlineDir crc d buf ino with
  | .error e => some (.error e)
  | .ok (inode, raw, dir) =>
    match dir.addExpanding raw m.fs.sb.inodeSize target name fileType m.fs.sb.hasFiletype with
    | (.error e, _) => some (.error e)
    | (.ok true, dir) => m.bufferStoreInlineDir crc d buf ino inode raw dir
    | (.ok false, dir) =>
      match dir.entries m.fs.sb.hasFiletype with
      | .error e => some (.error e)
      | .ok entries =>
        m.bufferConvertInlineDir crc d buf ino inode raw dir.parent
          (entries ++ [⟨target, name, fileType⟩])

end Model

end Mount

namespace Dir

section Block

variable {hasFileType : Bool}

def IsTail (post : Bytes) : Prop := post = [] ∨ ∃ t : Slot, t.bytes = post ∧ t.inode = 0 ∧
    t.recLen = 12

theorem parseBlock_slots_tail {slots : List Slot} {post : Bytes}
    (hv : ∀ s ∈ slots, s.Valid hasFileType ∧ s.recLen < 2 ^ 16) (hlive : ∀ s ∈ slots, s.inode ≠ 0)
    (hpost : IsTail post) :
    parseBlock (slotBytes slots ++ post) hasFileType = .ok (slotEntries hasFileType slots) := by
  have hnoTail : ∀ s ∈ slots, s.isTail = false := by
    intro s hs
    simp [Slot.isTail, hlive s hs]
  obtain rfl | ⟨t, rfl, hunused, hrec⟩ := hpost
  · rw [List.append_nil]
    exact parseBlock_slots hv (fun s hs => hnoTail s (List.dropLast_subset slots hs))
  · have hone : slotBytes slots ++ t.bytes = slotBytes (slots ++ [t]) := by
      rw [slotBytes_append, slotBytes_cons]
      exact congrArg _ (List.append_nil _).symm
    rw [hone, parseBlock_slots ?_ ?_, slotEntries_append, slotEntries_unused hunused]
    · exact congrArg Except.ok (List.append_nil _)
    · intro s hs
      obtain hs | hs := List.mem_append.mp hs
      · exact hv s hs
      · rw [List.mem_singleton.mp hs, hrec]
        exact ⟨⟨by rw [hrec], fun hno => absurd hunused hno⟩, by decide⟩
    · rw [List.dropLast_concat]
      exact hnoTail

def neededRoom (entries : List DirEntry) : Nat :=
    (entries.map (fun e => entryRecLen e.name.length)).sum

structure Holdable (e : DirEntry) : Prop where
  live : e.inode ≠ 0
  pos : 1 ≤ e.name.length
  max : e.name.length ≤ 255

def storedEntry (hasFileType : Bool) (e : DirEntry) : DirEntry :=
  newEntry hasFileType e.inode e.name e.fileType

/-- What putting entries into records in use leaves. -/
structure AddedAll (hasFileType : Bool) (entries : List DirEntry)
    (slots slots' : List Slot) : Prop where
  length : (slotBytes slots').length = (slotBytes slots).length
  valid : ∀ s ∈ slots', s.Valid hasFileType ∧ s.recLen < 2 ^ 16
  live : ∀ s ∈ slots', s.inode ≠ 0
  entries : (slotEntries hasFileType slots').Perm
    (slotEntries hasFileType slots ++ entries.map (storedEntry hasFileType))

theorem addInlineEntries_ok (entries : List DirEntry) {k : Nat} {slots : List Slot}
    (hroomy : Roomy hasFileType k slots) (hlive : ∀ s ∈ slots, s.inode ≠ 0) (post : Bytes)
    (hgood : ∀ e ∈ entries, Holdable e) (hfits : neededRoom entries ≤ k) :
    ∃ slots', addInlineEntries hasFileType post.length entries (slotBytes slots ++ post) =
        .ok (slotBytes slots' ++ post) ∧ AddedAll hasFileType entries slots slots' := by
  induction entries generalizing k slots with
  | nil => exact ⟨slots, rfl, rfl, hroomy.valid, hlive, by simp⟩
  | cons e rest ih =>
    rw [neededRoom, List.map_cons, List.sum_cons] at hfits
    have he := hgood e List.mem_cons_self
    obtain ⟨slots₁, hinsert, hroomy₁⟩ :=
      @Roomy.insert hasFileType e.inode e.name e.fileType k slots hroomy he.live he.max (by omega)
    obtain ⟨hlen₁, hmem₁, hperm₁⟩ :=
      insertSlot_effect he.live he.max (fun s hs => (hroomy.valid s hs).1) hinsert
    have hlive₁ : ∀ s ∈ slots₁, s.inode ≠ 0 := by
      intro s hs
      obtain hold | ⟨-, hnew⟩ := hmem₁ s hs
      · exact hlive s hold
      · exact hnew
    have hadd := @addEntryToBlock_slots hasFileType e.inode e.name e.fileType he.pos he.max
      he.live slots hroomy.valid post
    rw [hinsert] at hadd
    obtain ⟨slots', hrest, hadded⟩ :=
      ih hroomy₁ hlive₁ (fun x hx => hgood x (List.mem_cons_of_mem _ hx))
      (by unfold neededRoom; omega)
    refine ⟨slots', ?_, hadded.length.trans hlen₁, hadded.valid, hadded.live, ?_⟩
    · rw [addInlineEntries, hadd]
      exact hrest
    · refine hadded.entries.trans ((hperm₁.append_right _).trans ?_)
      rw [List.map_cons]
      exact List.perm_middle.symm

theorem stored_of_mem {slots : List Slot} {e : DirEntry} (he : e ∈ slotEntries hasFileType slots) :
    storedEntry hasFileType e = e ∧ e.inode ≠ 0 := by
  obtain ⟨s, hs, rfl⟩ := List.mem_map.mp he
  have hlive : s.inode ≠ 0 := by
    have := (List.mem_filter.mp hs).2
    simpa using this
  refine ⟨?_, hlive⟩
  cases hasFileType <;> rfl

theorem neededRoom_slotEntries {slots : List Slot} (hv : ∀ s ∈ slots, s.Valid hasFileType) :
    neededRoom (slotEntries hasFileType slots) ≤ (slotBytes slots).length := by
  induction slots with
  | nil => exact Nat.zero_le _
  | cons s rest ih =>
    have hrest := ih (fun x hx => hv x (List.mem_cons_of_mem _ hx))
    have hs := hv s List.mem_cons_self
    rw [slotBytes_cons, List.length_append, Slot.length_bytes]
    by_cases hlive : s.inode = 0
    · rw [slotEntries_unused hlive]
      omega
    · have hle := entryRecLen_le hs hlive
      have hname : (s.entry hasFileType).name.length = s.nameLen hasFileType :=
        Slot.length_name hs hlive
      rw [slotEntries_live hlive, neededRoom, List.map_cons, List.sum_cons, hname]
      unfold neededRoom at hrest
      omega

end Block

end Dir

namespace Mount

section Seed

open Dir InlineData

variable (crc : Crc) (m : Mount) (ino parent generation : UInt32)

theorem stamped_tail (area : Bytes) {t : Bytes} (ht : t.length = m.freshTail) :
    ∃ post, IsTail post ∧ post.length = m.freshTail ∧
      (if m.csum.enabled then m.csum.patchDirEntryTail crc ino generation
        (area ++ t) else area ++ t) = area ++ post := by
  unfold freshTail at ht ⊢
  cases henabled : m.csum.enabled with
  | false =>
    rw [henabled, if_neg Bool.false_ne_true] at ht
    exact ⟨t, .inl (List.length_eq_zero_iff.mp ht), ht, rfl⟩
  | true =>
    rw [henabled, if_pos rfl] at ht
    have hpatch := m.csum.patchDirEntryTail_append crc ino generation area t ht henabled
    -- the sum is kept apart: nothing depends on what it is
    generalize crc (crc (crc m.csum.seed (u32le ino)) (u32le generation)) area = sum at hpatch
    refine ⟨(Record.tail sum).bytes, .inr ⟨⟨0, 0, tailFileType, u32le sum⟩, rfl, rfl, ?_⟩, ?_,
      hpatch⟩
    · simp [Slot.recLen]
    · rw [Record.length_bytes, Record.recLen_tail]
      rfl

def seedSlots : List Dir.Slot :=
  [.fresh m.fs.sb.hasFiletype ino dotName .directory 12,
    .fresh m.fs.sb.hasFiletype parent dotdotName .directory (m.freshArea - 12)]

theorem seed_bytes {area : Nat} (hasFileType : Bool) (harea : 24 ≤ area) (tail : Nat) :
    copyAll (List.replicate (area + tail) 0)
      [(0, u32le ino), (4, u16le 12), (6, [1]),
        (7, [if hasFileType then DirEntryType.directory.toU8 else 0]), (8, [0x2E]),
        (12, u32le parent), (16, u16le (UInt16.ofNat (area - 12))), (18, [2]),
        (19, [if hasFileType then DirEntryType.directory.toU8 else 0]), (20, [0x2E]),
        (21, [0x2E])] =
      slotBytes [.fresh hasFileType ino dotName .directory 12,
        .fresh hasFileType parent dotdotName .directory (area - 12)] ++ List.replicate tail 0 := by
  have hzeros : List.replicate (area + tail) (0 : UInt8) = List.replicate 9 0 ++
    (List.replicate 3 0 ++
      (List.replicate 10 0 ++ (List.replicate (area - 22) 0 ++ List.replicate tail 0))) := by
    simp only [List.replicate_append_replicate]
    congr 1
    omega
  generalize hkind : (if hasFileType then DirEntryType.directory.toU8 else 0 : UInt8) = kind
  have hlast : (Slot.fresh hasFileType parent dotdotName .directory (area - 12)).recLen =
      area - 12 :=
    Slot.recLen_fresh (by change 8 + 2 ≤ area - 12; omega)
  have hfirst : (Slot.fresh hasFileType ino dotName .directory 12).recLen = 12 :=
    Slot.recLen_fresh (by decide)
  have hbytes : slotBytes [.fresh hasFileType ino dotName .directory 12,
      .fresh hasFileType parent dotdotName .directory (area - 12)] ++ List.replicate tail 0 =
      u32le ino ++ u16le 12 ++ [1] ++ [kind] ++ [0x2E] ++ List.replicate 3 0 ++ u32le parent ++
        u16le (UInt16.ofNat (area - 12)) ++ [2] ++ [kind] ++ [0x2E] ++ [0x2E] ++
        (List.replicate (area - 22) 0 ++ List.replicate tail 0) := by
    have hpad : area - 12 - (8 + dotdotName.length) = area - 22 := by
      change area - 12 - (8 + 2) = _
      omega
    rw [slotBytes_cons, slotBytes_cons, Slot.bytes, Slot.bytes, hfirst, hlast]
    simp only [Slot.fresh, hpad, slotBytes, List.flatMap_nil, List.append_nil, List.append_assoc]
    cases hasFileType <;> obtain rfl := hkind <;> rfl
  rw [hzeros, hbytes]
  simp only [copyAll_cons]
  rw [← List.nil_append (List.replicate 9 0 ++ _), copyAt_next (by rfl), copyAt_next (by simp),
    copyAt_next (by simp), copyAt_next (by simp), copyAt_next (by simp), List.drop_drop,
    List.drop_drop, List.drop_drop, List.drop_drop,
    List.drop_left' (by simp), ← List.append_assoc _ (List.replicate 3 0), copyAt_next (by simp),
    copyAt_next (by simp), copyAt_next (by simp), copyAt_next (by simp), copyAt_next (by simp),
    copyAt_next (by simp), List.drop_drop, List.drop_drop, List.drop_drop, List.drop_drop,
    List.drop_drop, List.drop_left' (by simp)]
  rfl

variable {crc m ino parent generation} (hsize : m.fs.sb.logBlockSize ≤ 6)

include hsize

theorem seedDirectoryBlock_eq : ∃ post, IsTail post ∧ post.length = m.freshTail ∧
    m.seedDirectoryBlock crc ino parent generation = slotBytes
      (m.seedSlots ino parent) ++ post := by
  obtain ⟨htail, hlow, -, -⟩ := m.freshArea_bounds hsize
  have hblock : m.fs.sb.blockSize = m.freshArea + m.freshTail := (Nat.sub_add_cancel htail).symm
  have hseed := seed_bytes ino parent m.fs.sb.hasFiletype
    (show 24 ≤ m.freshArea by omega) m.freshTail
  obtain ⟨post, hpost, hlen, hstamped⟩ := m.stamped_tail crc ino generation
    (slotBytes (m.seedSlots ino parent))
    (List.length_replicate (n := m.freshTail) (a := (0 : UInt8)))
  refine ⟨post, hpost, hlen, ?_⟩
  rw [← hstamped]
  unfold seedDirectoryBlock
  dsimp only
  rw [show m.fs.sb.blockSize - m.freshTail = m.freshArea from rfl, hblock, hseed]
  rfl

theorem seedSlots_valid : ∀ s ∈ m.seedSlots ino parent, s.Valid m.fs.sb.hasFiletype ∧ s.recLen <
    2 ^ 16 := by
  obtain ⟨-, hlow, hhigh, haligned⟩ := m.freshArea_bounds hsize
  intro s hs
  simp only [seedSlots, List.mem_cons, List.not_mem_nil, or_false] at hs
  obtain rfl | rfl := hs
  · exact ⟨valid_fresh (by decide) (by decide)
      (by decide), by rw [Dir.Slot.recLen_fresh (by decide)]; decide⟩
  · have hfits : 8 + dotdotName.length ≤ m.freshArea - 12 := by
      change 8 + 2 ≤ _
      omega
    exact ⟨valid_fresh (by decide) hfits (by omega), by rw [Dir.Slot.recLen_fresh hfits]; omega⟩

theorem seedSlots_roomy (hparent : parent ≠ 0) :
    Roomy m.fs.sb.hasFiletype (m.freshArea - 24) (m.seedSlots ino parent) := by
  obtain ⟨-, hlow, -, -⟩ := m.freshArea_bounds hsize
  refine ⟨seedSlots_valid hsize, _, List.mem_cons_of_mem _ List.mem_cons_self, ?_⟩
  have hfits : 8 + dotdotName.length ≤ m.freshArea - 12 := by
    change 8 + 2 ≤ _
    omega
  have hneeded : entryRecLen dotdotName.length = 12 := by decide
  rw [Dir.Slot.room, if_neg
    (show (Dir.Slot.fresh m.fs.sb.hasFiletype parent dotdotName .directory _).inode ≠ 0
    from hparent), Dir.Slot.recLen_fresh hfits, nameLen_fresh (by decide), hneeded]
  omega

theorem length_seedSlots : (slotBytes (m.seedSlots ino parent)).length = m.freshArea := by
  obtain ⟨-, hlow, -, -⟩ := m.freshArea_bounds hsize
  have hfits : 8 + dotdotName.length ≤ m.freshArea - 12 := by
    change 8 + 2 ≤ _
    omega
  rw [sum_recLen, seedSlots, List.map_cons, List.map_cons, List.map_nil, List.sum_cons,
    List.sum_cons, List.sum_nil, Dir.Slot.recLen_fresh (by decide), Dir.Slot.recLen_fresh hfits]
  omega

omit hsize in
theorem seedSlots_entries (hino : ino ≠ 0) (hparent : parent ≠ 0) :
    slotEntries m.fs.sb.hasFiletype (m.seedSlots ino parent) =
      [newEntry m.fs.sb.hasFiletype ino dotName .directory,
        newEntry m.fs.sb.hasFiletype parent dotdotName .directory] := by
  rw [seedSlots, slotEntries_live (show (Dir.Slot.fresh _ ino dotName .directory _).inode ≠
    0 from hino), slotEntries_live (show (Dir.Slot.fresh _ parent dotdotName .directory _).inode ≠
      0 from hparent),
    entry_fresh (by decide), entry_fresh (by decide)]
  rfl

theorem convertedBlock_ok (hino : ino ≠ 0) (hparent : parent ≠ 0) (inode : Inode)
    {entries : List DirEntry}
    (hgood : ∀ e ∈ entries, Holdable e) (hfits : neededRoom entries ≤ m.freshArea - 24) :
    ∃ block now, m.convertedBlock crc ino inode parent entries = .ok block ∧
      block.length = m.fs.sb.blockSize ∧ parseBlock block m.fs.sb.hasFiletype = .ok now ∧
      now.Perm (newEntry m.fs.sb.hasFiletype ino dotName .directory ::
        newEntry m.fs.sb.hasFiletype parent dotdotName .directory ::
          entries.map (storedEntry m.fs.sb.hasFiletype)) := by
  have htail := (m.freshArea_bounds hsize).1
  have hlive : ∀ s ∈ m.seedSlots ino parent, s.inode ≠ 0 := by
    intro s hs
    simp only [seedSlots, List.mem_cons, List.not_mem_nil, or_false] at hs
    obtain rfl | rfl := hs
    · exact hino
    · exact hparent
  obtain ⟨post, -, hpost, hseed⟩ := @seedDirectoryBlock_eq crc m ino parent inode.generation hsize
  obtain ⟨slots, hadd, hadded⟩ := addInlineEntries_ok entries
    (seedSlots_roomy hsize hparent) hlive post hgood hfits
  obtain ⟨stamp, hstamp, hlen, hstamped⟩ := m.stamped_tail crc ino inode.generation
    (slotBytes slots) hpost
  have harea := hadded.length.trans (length_seedSlots hsize)
  refine ⟨slotBytes slots ++ stamp, _, ?_, ?_, parseBlock_slots_tail hadded.valid
    hadded.live hstamp, ?_⟩
  · unfold convertedBlock
    rw [hseed, ← hpost, hadd, Result.ok_bind]
    exact congrArg Except.ok hstamped
  · rw [List.length_append, harea, hlen]
    exact Nat.sub_add_cancel htail
  · have hperm := hadded.entries
    rw [seedSlots_entries hino hparent] at hperm
    exact hperm

end Seed

end Mount

namespace Mount

/-- What is stored in `i_block` to map block 0 by one extent. -/
def oneExtentPatches (phys : Nat) : List (Nat × Bytes) :=
  [(0x28, u16le extMagic), (0x2A, u16le 1), (0x2C, u16le 4), (0x2E, u16le 0), (0x34, u32le 0),
    (0x38, u16le 1), (0x3A, u16le (splitPhysBlock phys).1), (0x3C, u32le (splitPhysBlock phys).2)]

theorem oneExtent_root (phys : Nat) :
    copyAll (List.replicate 60 0) ((oneExtentPatches phys).map (fun p => (p.1 - 0x28, p.2))) =
      buildNode 60 4 0 0 [encodeExtent (contentExtent 1 phys)] := by
  unfold contentExtent encodeExtent oneExtentPatches
  generalize splitPhysBlock phys = halves
  obtain ⟨hi, lo⟩ := halves
  rfl

/-- An image in which block 0 is mapped, and the rest of the inode is as it was. -/
structure MapsBlock (bs phys : Nat) (raw raw' : Bytes) : Prop where
  frame : SameOutside (fun i => Seal.cell 0x20 4 i ∨ Seal.cell 0x28 60 i) raw raw'
  mapped : ∀ d : Disk, (Indirect.mapLogicalAny (slice raw' 0x28 60) (u32leAt raw' 0x20) bs 0).exec
    d = (.ok (some phys), d)
  flags : u32leAt raw' 0x20 = u32leAt raw 0x20 ∨ u32leAt raw' 0x20 = u32leAt raw 0x20 |||
    inodeFlagExtents

section Image

variable {m : Mount} {raw : Bytes} {phys : Nat}

theorem exec_lookup_direct {bs : Nat} (hbs : Indirect.BlockSize bs) {block : Bytes}
    (hptr : Indirect.ptrAt block 0 = phys) (hpos : phys ≠ 0) (d : Disk) :
    (Indirect.lookup block bs 0).exec d = (.ok (some phys), d) := by
  have hlow := hbs.low
  unfold Indirect.lookup
  dsimp only
  rw [if_neg (fun h => h.elim (fun hlt => by omega) (fun hno => hno hbs.power)),
    if_pos (by decide), hptr, Indirect.follow, Indirect.present, if_neg hpos]
  rfl

theorem mapOneBlock_ok (hbs : Indirect.BlockSize m.fs.sb.blockSize)
    (hbase : inodeBaseSize ≤ raw.length)
    (hzero : slice raw 0x28 60 = List.replicate 60 0) (hpos : phys ≠ 0) (hphys : phys < 2 ^ 48)
    (hlegacy : m.flavor.usesExtents = false →
      u32leAt raw 0x20 &&& inodeFlagExtents = 0 ∧ phys < 2 ^ 32) :
    ∃ raw', m.mapOneBlock raw phys = .ok raw' ∧ MapsBlock m.fs.sb.blockSize phys raw raw' := by
  have h128 : 128 ≤ raw.length := hbase
  unfold mapOneBlock
  cases hflavor : m.flavor.usesExtents with
  | false =>
    obtain ⟨hflag, h32⟩ := hlegacy hflavor
    rw [Bool.not_false, if_pos rfl, if_neg (Nat.not_le.mpr h32)]
    have hframe : SameOutside (Seal.cell 0x28 60) raw
        (copyAt raw 0x28 (u32le (UInt32.ofNat phys))) :=
      sameOutside_copyAt (by rw [length_u32le]; omega)
        (fun i hlow hhigh => ⟨hlow, by rw [length_u32le] at hhigh; omega⟩)
    have hflags : u32leAt (copyAt raw 0x28 (u32le (UInt32.ofNat phys))) 0x20 =
        u32leAt raw 0x20 := by
      unfold u32leAt
      rw [hframe.slice_eq (fun i hlow hhigh hi => by unfold Seal.cell at hi; omega)]
    have hptr : Indirect.ptrAt (slice (copyAt raw 0x28 (u32le (UInt32.ofNat phys))) 0x28 60)
        0 = phys := by
      unfold Indirect.ptrAt
      rw [Nat.zero_mul, Htree.u32leAt_slice _ _ _ _ (by decide), u32leAt_copyAt _ _ _ (by omega),
        UInt32.toNat_ofNat']
      exact Nat.mod_eq_of_lt h32
    refine ⟨_, rfl, hframe.mono (fun _ hi => .inr hi), fun d => ?_, .inl hflags⟩
    unfold Indirect.mapLogicalAny
    rw [hflags, hflag, if_neg (by decide)]
    exact exec_lookup_direct hbs hptr hpos d
  | true =>
    rw [Bool.not_true, if_neg Bool.false_ne_true]
    dsimp only
    rw [copyAll_cons]
    dsimp only
    generalize hflags : u32leAt raw 0x20 ||| inodeFlagExtents = flags
    have hfirst : SameOutside (Seal.cell 0x20 4) raw (copyAt raw 0x20 (u32le flags)) :=
      sameOutside_copyAt (by rw [length_u32le]; omega) (fun i hlow hhigh => ⟨hlow, hhigh⟩)
    have hin : ∀ p ∈ oneExtentPatches phys, 0x28 ≤ p.1 ∧ p.1 + p.2.length ≤ 0x28 + 60 := by
      simp [oneExtentPatches]
    have hroot : SameOutside (Seal.cell 0x28 60) (copyAt raw 0x20 (u32le flags))
        (copyAll (copyAt raw 0x20 (u32le flags)) (oneExtentPatches phys)) := by
      refine sameOutside_copyAll (fun p hp => ?_) (fun p hp i hlow hhigh => ?_)
      · have := hin p hp
        rw [hfirst.1]
        omega
      · have := hin p hp
        exact ⟨by omega, by omega⟩
    have hblock : slice (copyAll (copyAt raw 0x20 (u32le flags)) (oneExtentPatches phys)) 0x28 60 =
        buildNode 60 4 0 0 [encodeExtent (contentExtent 1 phys)] := by
      rw [slice_copyAll_inside hin (by rw [hfirst.1]; omega),
        hfirst.slice_eq (fun i hlow hhigh
          hi => by unfold Seal.cell at hi; omega), hzero, oneExtent_root]
    have hword : u32leAt (copyAll (copyAt raw 0x20 (u32le flags)) (oneExtentPatches phys))
        0x20 = flags := by
      unfold u32leAt
      rw [hroot.slice_eq (fun i hlow hhigh hi => by unfold Seal.cell at hi; omega)]
      exact u32leAt_copyAt raw 0x20 flags (by omega)
    refine ⟨copyAll (copyAt raw 0x20 (u32le flags)) (oneExtentPatches phys), rfl,
      (hfirst.mono (fun _ hi => .inl hi)).trans (hroot.mono (fun _ hi => .inr hi)), fun d => ?_,
      .inr (hword.trans hflags.symm)⟩
    have hextents : (flags &&& inodeFlagExtents != 0) = true := by
      rw [← hflags, or_and_self]
      decide
    have hlookup := @lookup_oneExtent d m.fs.sb.blockSize (contentExtent 1 phys)
      (show 0 < 2 ^ 32 by decide) 0
    rw [stored_contentExtent hphys] at hlookup
    have hmap := Extent.mapLogical_exec hlookup
    unfold Indirect.mapLogicalAny
    change (Io.exec (if (u32leAt (copyAll (copyAt raw 0x20 (u32le flags)) (oneExtentPatches phys))
      0x20 &&& inodeFlagExtents != 0) = true then _ else _) d) = _
    rw [hword, hextents, if_pos rfl]
    rw [hblock, hmap]
    rfl

/-- What is left of an inline directory's image when it has been converted. -/
structure ConvertedImage (m : Mount) (es : List Xattr.DecodedEntry) (raw : Bytes) (phys : Nat)
    (raw' : Bytes) :
    Prop where
  length : raw'.length = raw.length
  parses : Inode.Parses raw'
  blocked : (Inode.fields raw').hasInlineData = false
  size : (Inode.fields raw').size = m.fs.sb.blockSize
  blocks : (Inode.fields raw').blocks = (Inode.fields raw).blocks + m.fs.sb.blockSize / 512
  kept : (Inode.fields raw').generation = (Inode.fields raw).generation ∧
    (Inode.fields raw').mode = (Inode.fields raw).mode ∧
    (Inode.fields raw').linksCount = (Inode.fields raw).linksCount ∧
    (Inode.fields raw').fileAcl = (Inode.fields raw).fileAcl
  mapped : ∀ d, m.mapInodeLogical d (Inode.fields raw') 0 = .ok (some phys)
  reads : InlineMut.ImageReads raw' m.fs.sb.inodeSize
    (Function.update (Xattr.attrs es) InlineMut.dataKey none)

theorem convertedImage_ok {es : List Xattr.DecodedEntry}
    (h : InlineMut.InodeAttrs raw m.fs.sb.inodeSize es)
    (hinum : ∀ e ∈ es, e.valueInum = 0) (hparses : Inode.Parses raw)
    (hbs : Indirect.BlockSize m.fs.sb.blockSize) (hpos : phys ≠ 0) (hphys : phys < 2 ^ 48)
    (hlegacy : m.flavor.usesExtents = false →
      (Inode.fields raw).flags &&& inodeFlagExtents = 0 ∧ phys < 2 ^ 32)
    (hblocks : (Inode.fields raw).blocks + m.fs.sb.blockSize / 512 < 2 ^ 48) :
    ∃ raw', m.convertedImage (Inode.fields raw) raw phys = some (.ok raw') ∧
    m.ConvertedImage es raw phys raw' := by
  obtain ⟨bare, hstrip, hstripped, hbare⟩ := InlineMut.strip_ok h hinum hparses
  have hfields := hstripped.fields
  have hzero : slice bare 0x28 60 = List.replicate 60 0 := congrArg Inode.block hfields
  have hflags : u32leAt bare 0x20 = (Inode.fields raw).flags &&& ~~~inodeFlagInlineData :=
    congrArg Inode.flags hfields
  obtain ⟨mapped, hmap, hmapped⟩ := @mapOneBlock_ok m bare phys hbs hbare.base hzero hpos hphys (by
    intro hno
    obtain ⟨hflag, h32⟩ := hlegacy hno
    refine ⟨?_, h32⟩
    rw [hflags, UInt32.and_assoc, UInt32.and_comm (~~~inodeFlagInlineData),
      ← UInt32.and_assoc, hflag, UInt32.zero_and])
  have hlow : ∀ i, Seal.cell 0x20 4 i ∨ Seal.cell 0x28 60 i → i < 0x80 := by
    intro i hi
    unfold Seal.cell at hi
    omega
  have hword : u16leAt mapped 0x80 = u16leAt bare 0x80 := by
    rw [u16leAt, u16leAt, hmapped.frame.slice_eq (fun i hge _ hi => by have := hlow i hi; omega)]
  have hmappedParses := InlineMut.parses_of_frame hbare hmapped.frame hword
  have hmappedFields := InlineMut.fields_of_frame hmapped.frame (fun i hi => by
    obtain hi | hi := hi
    · exact .inr (.inl hi)
    · exact .inr (.inr (.inl hi)))
  have hfit : ∀ p ∈ sizePatches m.fs.sb.blockSize
    ((Inode.fields raw).blocks + m.fs.sb.blockSize / 512),
      p.1 + p.2.length ≤ mapped.length := sizePatches_fit hmappedParses.base
  have hpatch : patchInodeSizeAndBlocks mapped m.fs.sb.blockSize
      ((Inode.fields raw).blocks + m.fs.sb.blockSize / 512) =
        .ok (copyAll mapped (sizePatches m.fs.sb.blockSize
        ((Inode.fields raw).blocks + m.fs.sb.blockSize / 512))) :=
          patchInodeSizeAndBlocks_eq hmappedParses.base
  have hhigh := hbs.high
  obtain ⟨hlen, hfinal, hfinalFields⟩ := patchInodeSizeAndBlocks_ok hmappedParses
    (by omega) hblocks hpatch
  have hframe : SameOutside (fun i => i < 0x80) mapped
    (copyAll mapped (sizePatches m.fs.sb.blockSize
      ((Inode.fields raw).blocks + m.fs.sb.blockSize / 512))) :=
    sameOutside_copyAll hfit (fun p hp i hlow hhigh => by
      simp only [sizePatches, List.mem_cons, List.not_mem_nil, or_false] at hp
      obtain rfl | rfl | rfl | rfl := hp <;> simp at hhigh <;> omega)
  have hnew : (Inode.fields mapped).flags &&& inodeFlagInlineData = 0 := by
    change u32leAt mapped 0x20 &&& inodeFlagInlineData = 0
    obtain heq | heq := hmapped.flags
    · rw [heq, hflags, and_not_and_self_word]
    · rw [heq, or_and_of_disjoint _ (show inodeFlagExtents &&& inodeFlagInlineData = 0 by decide),
        hflags, and_not_and_self_word]
  have hblocked : (Inode.fields mapped).hasInlineData = false := by
    unfold Inode.hasInlineData
    rw [hnew]
    rfl
  have hsame : (Inode.fields mapped).generation = (Inode.fields raw).generation ∧
      (Inode.fields mapped).mode = (Inode.fields raw).mode ∧
      (Inode.fields mapped).linksCount = (Inode.fields raw).linksCount ∧
      (Inode.fields mapped).fileAcl = (Inode.fields raw).fileAcl := by
    rw [hmappedFields, hfields]
    exact ⟨rfl, rfl, rfl, rfl⟩
  refine ⟨_, ?_, ⟨?_, hfinal, ?_, ?_, ?_, ?_, fun d => ?_, ?_⟩⟩
  · unfold convertedImage
    rw [hstrip]
    dsimp only
    rw [hmap, Result.ok_bind, hpatch]
  · rw [hlen, hmapped.frame.1, hstripped.frame.1]
  · rw [hfinalFields]
    exact hblocked
  · rw [hfinalFields]
  · rw [hfinalFields]
  · rw [hfinalFields]
    exact hsame
  · have hlookup := congrArg Prod.fst (hmapped.mapped d)
    rw [hfinalFields]
    exact (if_neg (fun hinline => Bool.false_ne_true (hblocked.symm.trans hinline))).trans hlookup
  · exact (hstripped.reads.of_sameOutside hmapped.frame hlow).of_sameOutside hframe (fun _ hi => hi)

end Image

end Mount

end FsExt4
