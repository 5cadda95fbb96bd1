import FsExt4.Lib.Refusal
import FsExt4.Mkfs
import FsExt4.DirBlockEdits

namespace FsExt4.Mkfs

open Lib Jbd2 Dir

section Directories

variable (crc : Crc) (csum : Checksummer) {blockSize dirCsumTail : Nat}

def emptySlot (usable : Nat) : Slot := ⟨0, 0, 0, List.replicate (usable - 8) 0⟩

theorem emptyDirBlock_eq (htail : dirCsumTail + 8 ≤ blockSize) :
    emptyDirBlock blockSize dirCsumTail =
      slotBytes [emptySlot (blockSize - dirCsumTail)] ++ List.replicate dirCsumTail 0 := by
  have hrec : (emptySlot (blockSize - dirCsumTail)).recLen = blockSize - dirCsumTail := by
    simp only [emptySlot, Slot.recLen, List.length_replicate]
    omega
  have hzeros : List.replicate blockSize (0 : UInt8) = List.replicate 4 0 ++ (List.replicate 2 0 ++
      (List.replicate 2 0 ++ (List.replicate (blockSize - dirCsumTail - 8) 0 ++
        List.replicate dirCsumTail 0))) := by
    simp only [List.replicate_append_replicate]
    congr 1
    omega
  have hbytes : slotBytes [emptySlot (blockSize - dirCsumTail)] ++ List.replicate dirCsumTail 0 =
      u32le 0 ++ (u16le (UInt16.ofNat (blockSize - dirCsumTail)) ++ (List.replicate 2 0 ++
        (List.replicate (blockSize - dirCsumTail - 8) 0 ++ List.replicate dirCsumTail 0))) := by
    rw [slotBytes_cons, Slot.bytes, hrec]
    simp [emptySlot, slotBytes]
  rw [emptyDirBlock, copyAll_cons, copyAll_cons, hzeros, hbytes, ← List.nil_append (_ ++ _),
    copyAt_next (by rfl), List.drop_left' (by rw [List.length_replicate, length_u32le]),
    copyAt_next (by rw [List.nil_append, length_u32le]), List.drop_left' (by simp)]
  simp only [copyAll, List.foldl_nil, List.nil_append, List.append_assoc]

theorem emptySlot_roomy {usable : Nat} (haligned : usable % 4 = 0) (hge : 8 ≤ usable)
    (hlt : usable < 2 ^ 16) : Roomy true usable [emptySlot usable] := by
  have hrec : (emptySlot usable).recLen = usable := by
    simp only [emptySlot, Slot.recLen, List.length_replicate]
    omega
  refine ⟨?_, emptySlot usable, List.mem_singleton_self _, ?_⟩
  · rintro s (_ | ⟨_, hs⟩)
    · refine ⟨⟨by rw [hrec, haligned], fun hlive => absurd rfl hlive⟩, by rw [hrec]; exact hlt⟩
    · cases hs
  · exact Nat.le_of_eq hrec.symm

theorem addDirectories_ok (entries : List (UInt32 × Bytes)) {k : Nat} {slots : List Slot}
    (hroomy : Roomy true k slots) (post : Bytes)
    (hgood : ∀ e ∈ entries, e.1 ≠ 0 ∧ 1 ≤ e.2.length ∧ e.2.length ≤ 255)
    (hfits : (entries.map (fun e => entryRecLen e.2.length)).sum ≤ k) :
    ∃ block, addDirectories post.length (slotBytes slots ++ post) entries = .ok block := by
  induction entries generalizing k slots with
  | nil => exact ⟨_, rfl⟩
  | cons e rest ih =>
    obtain ⟨ino, name⟩ := e
    rw [List.map_cons, List.sum_cons] at hfits
    change entryRecLen name.length + _ ≤ k at hfits
    obtain ⟨hino, hpos, hmax⟩ := hgood _ List.mem_cons_self
    obtain ⟨slots', hinsert, hroomy'⟩ := @Roomy.insert true ino name .directory k slots hroomy hino
      hmax (by omega)
    have hadd := @addEntryToBlock_slots true ino name .directory hpos hmax hino slots
      hroomy.valid post
    rw [hinsert] at hadd
    obtain ⟨block, hblock⟩ := ih hroomy' (fun e he => hgood e (List.mem_cons_of_mem _ he))
      (by omega)
    refine ⟨block, ?_⟩
    rw [addDirectories, hadd]
    exact hblock

/-- The sizes of a block that the several groups of a volume may have. -/
structure Blocked (blockSize : Nat) : Prop where
  aligned : blockSize % 4 = 0
  ge : 2048 ≤ blockSize
  le : blockSize ≤ 2 ^ 16

theorem Blocked.of_valid (hvalid : isValidBlockSize blockSize = true) (hge : 2048 ≤ blockSize) :
    Blocked blockSize := by
  obtain ⟨⟨n, rfl⟩, -, hle⟩ := of_decide_eq_true hvalid
  refine ⟨?_, hge, hle⟩
  have hn : 2 ≤ n := by
    by_contra hsmall
    have hpow := Nat.pow_le_pow_right (show 0 < 2 by decide) (show n ≤ 1 by omega)
    omega
  obtain ⟨m, rfl⟩ := Nat.exists_eq_add_of_le hn
  rw [Nat.pow_add]
  omega

variable (h : Blocked blockSize)

include h

theorem Blocked.addDirectories (entries : List (UInt32 × Bytes))
    (hgood : ∀ e ∈ entries, e.1 ≠ 0 ∧ 1 ≤ e.2.length ∧ e.2.length ≤ 255)
    (hfits : (entries.map (fun e => entryRecLen e.2.length)).sum ≤ 1024) :
    ∃ block, Mkfs.addDirectories 12 (emptyDirBlock blockSize 12) entries = .ok block := by
  obtain ⟨haligned, hge, hle⟩ := h
  have hroomy := @emptySlot_roomy (blockSize - 12) (by omega) (by omega) (by omega)
  have hadd := addDirectories_ok entries hroomy (List.replicate 12 0) hgood (by omega)
  rw [List.length_replicate] at hadd
  rw [emptyDirBlock_eq (by omega)]
  exact hadd

theorem Blocked.buildRootDir : ∃ rootDir, Mkfs.buildRootDir crc csum blockSize 12 =
    .ok rootDir := by
  obtain ⟨block, hblock⟩ := h.addDirectories rootEntries (by decide) (by decide)
  exact ⟨_, by rw [Mkfs.buildRootDir, hblock]; rfl⟩

theorem Blocked.buildLostFoundDir (blocks : Nat) :
    ∃ lostFound, Mkfs.buildLostFoundDir crc csum blockSize 12 blocks = .ok lostFound := by
  induction blocks with
  | zero => exact ⟨[], rfl⟩
  | succ blocks ih =>
    obtain ⟨out, hout⟩ := ih
    obtain ⟨block, hblock⟩ := h.addDirectories (if blocks = 0 then lostFoundEntries else [])
      (by split <;> decide) (by split <;> decide)
    refine ⟨out ++ csum.patchDirEntryTail crc lostFoundIno 0 block, ?_⟩
    rw [Mkfs.buildLostFoundDir, hout, lostFoundBlock, hblock]
    rfl

end Directories

theorem writeAt_onlyWrites (off : Nat) (data : Bytes) : (writeAt off data).OnlyWrites := trivial

theorem flush_onlyWrites : flush.OnlyWrites := trivial

section OneGroup

variable (v : OneGroup)

theorem OneGroup.writeBlocks_onlyWrites (blockSize : Nat) (blocks : List (Nat × Bytes)) :
    (OneGroup.writeBlocks blockSize blocks).OnlyWrites := by
  induction blocks with
  | nil => trivial
  | cons b rest ih => exact ih

theorem OneGroup.format_checksFirst (crc : Crc) (uuid : Uuid) (label : Bytes) :
    (v.format crc uuid label).ChecksFirst := by
  unfold OneGroup.format
  split
  · exact .fail _
  · refine Io.ChecksFirst.liftM_bind _ fun journal => ?_
    refine Io.ChecksFirst.liftM_bind _ fun rootDir => ?_
    refine Io.ChecksFirst.liftM_bind _ fun lostFound => .inl ?_
    refine (writeAt_onlyWrites _ _).bind fun _ => (writeAt_onlyWrites _ _).bind fun _ => ?_
    refine flush_onlyWrites.bind fun _ => Io.OnlyWrites.bind
      (OneGroup.writeBlocks_onlyWrites _ _) fun _ => ?_
    exact Io.OnlyWrites.bind (OneGroup.writeBlocks_onlyWrites _ _) fun _ => flush_onlyWrites

end OneGroup

namespace Groups

variable (v : Groups) (crc : Crc) (csum : Checksummer)

def Holds (g : Nat) : Prop := v.used g ≤ v.groupLength g

theorem formatGroup_onlyWrites {g : Nat} (h : v.Holds g) (st : Formatting) :
    (v.formatGroup g crc csum st).OnlyWrites := by
  unfold formatGroup
  rw [if_neg (Nat.not_lt.mpr h)]
  trivial

theorem formatGroups_onlyWrites {gs : List Nat} (h : ∀ g ∈ gs, v.Holds g) (st : Formatting) :
    (v.formatGroups crc csum gs st).OnlyWrites := by
  induction gs generalizing st with
  | nil => trivial
  | cons g rest ih =>
    exact Io.OnlyWrites.bind (v.formatGroup_onlyWrites crc csum (h g List.mem_cons_self) st)
      (fun st => ih (fun x hx => h x (List.mem_cons_of_mem _ hx)) st)

theorem writeBackups_onlyWrites (sb gdt : Bytes) (gs : List Nat) :
    (v.writeBackups crc sb gdt gs).OnlyWrites := by
  induction gs with
  | nil => trivial
  | cons g rest ih =>
    unfold writeBackups
    split
    · exact ih
    · exact ih

theorem formatGroups_stops {δ : Type} [BlockDevice Error δ] {gs : List Nat} {g : Nat}
    (hmem : g ∈ gs) (hshort : ¬ v.Holds g) (st : Formatting) (d : δ) :
    ∃ e d', (v.formatGroups crc csum gs st).exec d = (.error e, d') := by
  induction gs generalizing st d with
  | nil => cases hmem
  | cons first rest ih =>
    rw [formatGroups, Io.exec_bind]
    rcases hfirst : (v.formatGroup first crc csum st).exec d with ⟨r, d₁⟩
    cases r with
    | error e => exact ⟨e, d₁, rfl⟩
    | ok st₁ =>
      obtain rfl | hrest := List.mem_cons.mp hmem
      · rw [formatGroup, if_pos (Nat.not_le.mp hshort)] at hfirst
        cases (Prod.mk.inj hfirst).1
      · exact ih hrest st₁ d₁

section Format

variable {v : Groups} (crc : Crc) (uuid : Uuid) (label : Bytes)

theorem format_onlyWrites (hblocked : Blocked v.blockSize)
    (hgdt : ¬ v.blocksPerGroup ≤ 4 + v.gdtBlocks + v.inodeTableBlocks)
    (hinodes : ¬ 2 ^ 32 - 1 < v.inodesCount) (hall : ∀ g < v.groupCount, v.Holds g) :
    (v.format crc uuid label).OnlyWrites := by
  obtain ⟨rootDir, hroot⟩ := hblocked.buildRootDir crc ⟨crc 0xFFFFFFFF uuid.toList, true⟩
  obtain ⟨lostFound, hlost⟩ := hblocked.buildLostFoundDir crc ⟨crc 0xFFFFFFFF uuid.toList, true⟩
    (lostFoundBlocks v.blockSize)
  have htail : dirCsumTail = 12 := rfl
  unfold format
  rw [if_neg hgdt, if_neg hinodes, htail]
  dsimp only
  rw [hroot, hlost]
  refine Io.OnlyWrites.bind
    (v.formatGroups_onlyWrites crc _ (fun g hg => hall g (List.mem_range.mp hg)) _)
    fun st => Io.OnlyWrites.ok_bind rootDir (Io.OnlyWrites.ok_bind lostFound ?_)
  refine (writeAt_onlyWrites _ _).bind fun _ => (writeAt_onlyWrites _ _).bind fun _ => ?_
  refine (writeAt_onlyWrites _ _).bind fun _ => (writeAt_onlyWrites _ _).bind fun _ => ?_
  refine (writeAt_onlyWrites _ _).bind fun _ => ?_
  exact (v.writeBackups_onlyWrites crc _ _ _).bind fun _ => flush_onlyWrites

theorem format_fails (hfirst : ¬ v.Holds 0) (hcount : 0 < v.groupCount) :
    ∃ e, v.format crc uuid label = Io.fail e := by
  unfold format
  split
  · exact ⟨_, rfl⟩
  split
  · exact ⟨_, rfl⟩
  obtain ⟨n, hn⟩ := Nat.exists_eq_succ_of_ne_zero (Nat.ne_of_gt hcount)
  rw [hn, List.range_succ_eq_map]
  dsimp only
  rw [formatGroups, formatGroup, if_pos (Nat.not_le.mp hfirst)]
  exact ⟨_, rfl⟩

end Format

section Lengths

variable {v : Groups} {g : Nat}

theorem used_eq : v.used g = v.groupMeta g + 2 + v.inodeTableBlocks +
    if g = 0 then 1 + lostFoundBlocks v.blockSize else 0 := by
  simp only [used, dataStart, itBlock, ibBlock, bbBlock]
  omega

theorem holds_of_full (hgdt : ¬ v.blocksPerGroup ≤ 4 + v.gdtBlocks + v.inodeTableBlocks)
    (hg : g ≠ 0) (hfull : v.groupStart g + v.blocksPerGroup ≤ v.blocksCount) : v.Holds g := by
  have hmeta : v.groupMeta g ≤ 1 + v.gdtBlocks := by
    unfold groupMeta
    split <;> omega
  rw [Holds, used_eq, if_neg hg, groupLength]
  omega

theorem full_of_lt (hpos : 0 < v.blocksPerGroup) (hg : g + 1 < v.groupCount) :
    v.groupStart g + v.blocksPerGroup ≤ v.blocksCount := by
  have hlt : (g + 1) * v.blocksPerGroup < v.blocksCount := Indirect.mul_lt_of_lt_divCeil hpos hg
  rw [Nat.succ_mul] at hlt
  exact Nat.le_of_lt hlt

theorem holds_of_ends (hpos : 0 < v.blocksPerGroup)
    (hgdt : ¬ v.blocksPerGroup ≤ 4 + v.gdtBlocks + v.inodeTableBlocks) (hfirst : v.Holds 0)
    (hlast : v.Holds (v.groupCount - 1)) : ∀ g < v.groupCount, v.Holds g := by
  intro g hg
  by_cases hzero : g = 0
  · rw [hzero]
    exact hfirst
  by_cases hend : g = v.groupCount - 1
  · rw [hend]
    exact hlast
  · exact holds_of_full hgdt hzero (full_of_lt hpos (by omega))

end Lengths

section Late

variable {δ : Type} [BlockDevice Error δ] {v : Groups} (crc : Crc) (uuid : Uuid) (label : Bytes)

theorem formatGroup_writes (csum : Checksummer) {g : Nat} (h : v.Holds g)
    (st : Formatting) (d : δ) : (v.formatGroup g crc csum st).writes d ≠ [] := by
  unfold formatGroup
  rw [if_neg (Nat.not_lt.mpr h)]
  exact List.cons_ne_nil _ _

theorem format_late (hgdt : ¬ v.blocksPerGroup ≤ 4 + v.gdtBlocks + v.inodeTableBlocks)
    (hinodes : ¬ 2 ^ 32 - 1 < v.inodesCount) (hcount : 2 ≤ v.groupCount) (hfirst : v.Holds 0)
    (hlast : ¬ v.Holds (v.groupCount - 1)) (d : δ) :
    (∃ e d', (v.format crc uuid label).exec d = (.error e, d')) ∧
      (v.format crc uuid label).writes d ≠ [] := by
  have hmem : v.groupCount - 1 ∈ List.range v.groupCount := List.mem_range.mpr (by omega)
  obtain ⟨n, hn⟩ := Nat.exists_eq_add_of_le' hcount
  unfold format
  rw [if_neg hgdt, if_neg hinodes]
  dsimp only
  constructor
  · obtain ⟨e, d', hloop⟩ := v.formatGroups_stops crc ⟨crc 0xFFFFFFFF uuid.toList, true⟩ hmem hlast
      ⟨List.replicate (v.gdtBlocks * v.blockSize) 0, 0, 0⟩ d
    exact ⟨e, d', Io.exec_bind_error _ _ _ _ _ hloop⟩
  · rw [Io.writes_bind, hn, List.range_succ_eq_map, formatGroups, Io.writes_bind]
    intro hnil
    have hgroup := (List.append_eq_nil_iff.mp (List.append_eq_nil_iff.mp hnil).1).1
    exact formatGroup_writes crc _ hfirst _ d hgroup

end Late

end Groups

def Request.groups (r : Request) : Groups :=
    ⟨r.blockSize.toNat, r.sizeBytes.toNat / r.blockSize.toNat⟩

/-- The layout passes every test up to the loop over the groups, the first group has room for its
own blocks, and the last one, which the end of the device cuts short, has none. -/
structure LateRefusal (isWritable : Bool) (r : Request) : Prop where
  validBlockSize : isValidBlockSize r.blockSize.toNat = true
  enough : r.blockSize.toNat * 64 ≤ r.sizeBytes.toNat
  writable : isWritable = true
  several : r.flavor = .ext4 ∧ 2048 ≤ r.blockSize.toNat
  gdtFits : ¬ r.groups.blocksPerGroup ≤ 4 + r.groups.gdtBlocks + r.groups.inodeTableBlocks
  inodesFit : ¬ 2 ^ 32 - 1 < r.groups.inodesCount
  count : 2 ≤ r.groups.groupCount
  first : r.groups.used 0 ≤ r.groups.groupLength 0
  last : r.groups.groupLength (r.groups.groupCount - 1) < r.groups.used (r.groups.groupCount - 1)

/-- On a device whose writes do not fail, a format that answers with an error has written
nothing. -/
def RefusesUntouched (crc : Crc) (isWritable : Bool) (r : Request) : Prop :=
  ∀ (δ : Type) [BlockDevice Error δ], Reliable Error δ → ∀ (d d' : δ) (e : Error),
    (formatFilesystemWithFlavor crc isWritable r).exec d = (.error e, d') →
      (formatFilesystemWithFlavor crc isWritable r).writes d = []

section Refusal

variable {crc : Crc} {isWritable : Bool} {r : Request}

theorem Request.groupCount_pos (hvalid : isValidBlockSize r.blockSize.toNat = true)
    (henough : r.blockSize.toNat * 64 ≤ r.sizeBytes.toNat) : 0 < r.groups.groupCount := by
  obtain ⟨-, hge, -⟩ := of_decide_eq_true hvalid
  have hcount : 64 ≤ r.groups.blocksCount :=
    (Nat.le_div_iff_mul_le (Nat.lt_of_lt_of_le (by decide) hge)).mpr
      (by rw [Nat.mul_comm]; exact henough)
  have hpos : 0 < r.groups.blocksPerGroup := by
    change 0 < min (8 * r.blockSize.toNat) (2 ^ 16 - 8)
    change 1024 ≤ r.blockSize.toNat at hge
    omega
  exact Nat.div_pos (by omega) hpos

theorem format_checksFirst (hlate : ¬ LateRefusal isWritable r) :
    (formatFilesystemWithFlavor crc isWritable r).ChecksFirst := by
  unfold formatFilesystemWithFlavor
  dsimp only
  split
  · exact .fail _
  rename_i hvalid
  split
  · exact .fail _
  rename_i henough
  split
  · exact .fail _
  rename_i hwritable
  split
  · exact .fail _
  rw [Bool.not_eq_true', Bool.not_eq_false] at hvalid hwritable
  split
  · rename_i hseveral
    have hcount := Request.groupCount_pos hvalid (Nat.le_of_not_lt henough)
    by_cases hfirst : r.groups.Holds 0
    · by_cases hgdt : r.groups.blocksPerGroup ≤ 4 + r.groups.gdtBlocks + r.groups.inodeTableBlocks
      · exact .inr ⟨_, if_pos hgdt⟩
      by_cases hinodes : 2 ^ 32 - 1 < r.groups.inodesCount
      · exact .inr ⟨_, (if_neg hgdt).trans (if_pos hinodes)⟩
      have hlast : r.groups.Holds (r.groups.groupCount - 1) := by
        by_cases hone : r.groups.groupCount = 1
        · rw [hone]
          exact hfirst
        · by_contra hshort
          exact hlate ⟨hvalid, Nat.le_of_not_lt henough, hwritable, hseveral, hgdt,
            hinodes, by omega, hfirst, Nat.not_le.mp hshort⟩
      have hpos : 0 < r.groups.blocksPerGroup := by omega
      exact .inl (Groups.format_onlyWrites crc _ _ (Blocked.of_valid hvalid hseveral.2) hgdt hinodes
        (Groups.holds_of_ends hpos hgdt hfirst hlast))
    · exact .inr (Groups.format_fails crc _ _ hfirst hcount)
  split
  · exact .fail _
  · exact OneGroup.format_checksFirst _ _ _ _

theorem LateRefusal.writes (crc : Crc) (h : LateRefusal isWritable r) {δ : Type}
    [BlockDevice Error δ] (d : δ) :
    (∃ e d', (formatFilesystemWithFlavor crc isWritable r).exec d = (.error e, d')) ∧
      (formatFilesystemWithFlavor crc isWritable r).writes d ≠ [] := by
  obtain ⟨-, hge, -⟩ := of_decide_eq_true h.validBlockSize
  have hblocks : 64 ≤ r.sizeBytes.toNat / r.blockSize.toNat :=
    (Nat.le_div_iff_mul_le (Nat.lt_of_lt_of_le (by decide) hge)).mpr
      (by rw [Nat.mul_comm]; exact h.enough)
  have hformat : formatFilesystemWithFlavor crc isWritable r = r.groups.format crc r.volumeUuid
      r.labelBytes := by
    unfold formatFilesystemWithFlavor
    dsimp only
    rw [if_neg (by rw [h.validBlockSize]; decide), if_neg (Nat.not_lt.mpr h.enough),
      if_neg (by rw [h.writable]; decide), if_neg (Nat.not_lt.mpr hblocks), if_pos h.several]
    rfl
  rw [hformat]
  exact Groups.format_late crc _ _ h.gdtFits h.inodesFit h.count h.first (Nat.not_le.mpr h.last) d

/-- A refused format changes nothing, exactly when the last group of several is long enough for its
own blocks or the format is refused before the first group is written. -/
theorem refusesUntouched_iff (crc : Crc) (isWritable : Bool) (r : Request) :
    RefusesUntouched crc isWritable r ↔ ¬ LateRefusal isWritable r := by
  constructor
  · intro hclean hlate
    obtain ⟨⟨e, d', hfails⟩, hwrites⟩ := hlate.writes crc (fun _ => 0 : Image)
    exact hwrites (hclean Image Image.reliable _ d' e hfails)
  · intro hlate δ _ hdev d d' e hfails
    exact (format_checksFirst hlate).writes_eq_nil hdev hfails

end Refusal

def cutShort : Request := ⟨none, none, Vector.replicate 16 0, 32868 * 4096, 4096, .ext4⟩

theorem cutShort_lateRefusal : LateRefusal true cutShort where
  validBlockSize := by decide
  enough := by decide
  writable := rfl
  several := by decide
  gdtFits := by decide
  inodesFit := by decide
  count := by decide
  first := by decide
  last := by decide

/-- A device of 32868 blocks of 4 KiB is refused after the bitmaps and the inode table of its first
group were written. -/
theorem cutShort_written : ¬ ∀ (isWritable : Bool) (r : Request), RefusesUntouched linuxCrc32c
    isWritable r := by
  intro hall
  obtain ⟨⟨e, d', hfails⟩, hwrites⟩ := cutShort_lateRefusal.writes linuxCrc32c (fun _ => 0 : Image)
  exact hwrites (hall true cutShort Image Image.reliable _ d' e hfails)

end FsExt4.Mkfs
