import FsExt4.HtreeDrop
import FsExt4.LeafSplit

namespace FsExt4

open Lib Jbd2 Dir Hash

namespace Dir

section Add

variable {hasFileType : Bool} {target : UInt32} {name new : Bytes} {fileType : DirEntryType}
  {buf : Bytes} {reservedTail : Nat}

theorem addEntryToBlock_guards (h : addEntryToBlock buf target name fileType hasFileType
    reservedTail = .ok new) :
    target ≠ 0 ∧ 1 ≤ name.length ∧ name.length ≤ 255 := by
  unfold addEntryToBlock at h
  split at h
  · cases h
  rename_i htarget
  split at h
  · cases h
  rename_i hname
  obtain ⟨hempty, hmax⟩ := not_or.mp hname
  refine ⟨htarget, ?_, Nat.le_of_not_lt hmax⟩
  cases name with
  | nil => exact absurd rfl hempty
  | cons x xs => exact Nat.succ_pos _

theorem addEntryToBlock_live {slots : List Slot} {post : Bytes}
    (hv : ∀ s ∈ slots, s.Valid hasFileType ∧ s.isTail = false)
      (hsize : (slotBytes slots).length ≤ 65532)
    (h : addEntryToBlock (slotBytes slots ++ post) target name fileType hasFileType
      post.length = .ok new) :
    ∃ slots', new = slotBytes slots' ++ post ∧ (slotBytes slots').length =
      (slotBytes slots).length ∧
      (∀ s ∈ slots', s.Valid hasFileType ∧ s.isTail = false) ∧
      (slotEntries hasFileType slots').Perm
        (newEntry hasFileType target name fileType :: slotEntries hasFileType slots) := by
  obtain ⟨htarget, hpos, hmax⟩ := addEntryToBlock_guards h
  have hfills : Fills hasFileType slots (slotBytes slots) := ⟨rfl, fun s hs => (hv s hs).1, hsize⟩
  rw [addEntryToBlock_slots hpos hmax htarget (fun s hs => ⟨(hv s hs).1, hfills.recLen_lt hs⟩)] at h
  split at h
  · rename_i slots' hinsert
    obtain ⟨hlen, hmem, hperm⟩ := insertSlot_effect htarget hmax (fun s hs => (hv s hs).1) hinsert
    refine ⟨slots', (Except.ok.inj h).symm, hlen, fun x hx => ?_, hperm⟩
    obtain hold | ⟨hvalid, hlive⟩ := hmem x hx
    · exact hv x hold
    · exact ⟨hvalid, by simp [Slot.isTail, hlive]⟩
  · cases h

end Add

end Dir

namespace Dir

theorem hasCsumTail_tail (c : UInt32) : hasCsumTail (Record.tail c).bytes = true := by
  have hlen : (Record.tail c).bytes.length = 12 := by rw [Record.length_bytes, Record.recLen_tail]
  have hinode : u32leAt (Record.tail c).bytes 0 = 0 := u32leAt_of_slice _ _ _ rfl
  have hrec : u16leAt (Record.tail c).bytes 4 = 12 := u16leAt_of_slice _ _ _ rfl
  unfold hasCsumTail
  rw [hlen, if_neg (by decide)]
  dsimp only
  rw [Nat.sub_self, Nat.zero_add, hinode, hrec]
  rfl

end Dir

namespace Mount

section Entries

variable {crc : Crc} {m : Mount} {ino : UInt32} {dir : Inode} {es : List DirEntry}
  {block new : Bytes}

/-- A directory block of these entries, with its checksum. -/
structure EntryBlock (crc : Crc) (m : Mount) (ino generation : UInt32) (es : List DirEntry)
    (block : Bytes) :
    Prop where
  slots : ∃ slots, BlockOf m.fs.sb.hasFiletype m.freshTail slots block ∧
    slotEntries m.fs.sb.hasFiletype slots = es
  length : block.length = m.fs.sb.blockSize
  checked : m.csum.verifyDirEntryTail crc ino generation block = true

theorem EntryBlock.parses {generation : UInt32} (h : EntryBlock crc m ino generation es block) :
    parseBlock block m.fs.sb.hasFiletype = .ok es := by
  obtain ⟨slots, hblock, rfl⟩ := h.slots
  exact hblock.parseBlock_eq

theorem EntryBlock.reservedTail {generation : UInt32}
    (h : EntryBlock crc m ino generation es block) :
    m.reservedTail block = m.freshTail := by
  obtain ⟨slots, hblock, -⟩ := h.slots
  unfold Mount.reservedTail
  unfold freshTail at hblock ⊢
  cases henabled : m.csum.enabled with
  | false => rfl
  | true =>
    rw [henabled] at hblock
    obtain hzero | ⟨-, htail⟩ := hblock.tail
    · cases hzero
    · rw [htail]
      rfl

theorem EntryBlock.sealed {slots : List Dir.Slot} {post : Bytes}
    (hv : ∀ s ∈ slots, s.Valid m.fs.sb.hasFiletype ∧ s.isTail = false)
      (hsize : (slotBytes slots).length ≤ 65532)
    (hpost : post.length = m.freshTail) (hlen : (slotBytes slots).length + m.freshTail =
      m.fs.sb.blockSize) :
    EntryBlock crc m ino dir.generation (slotEntries m.fs.sb.hasFiletype slots)
      (m.retailed crc ino dir m.freshTail (slotBytes slots ++ post)) := by
  have hfills : Fills m.fs.sb.hasFiletype slots (slotBytes slots) :=
    ⟨rfl, fun s hs => (hv s hs).1, hsize⟩
  unfold retailed
  cases henabled : m.csum.enabled with
  | false =>
    have htail : m.freshTail = 0 := by
      unfold freshTail
      rw [henabled]
      rfl
    rw [htail] at hpost hlen
    obtain rfl := List.length_eq_zero_iff.mp hpost
    refine ⟨⟨slots, ⟨?_, fun s hs => (hv s hs).2, Or.inl htail⟩, rfl⟩, ?_, ?_⟩
    · rw [htail]
      simpa using hfills
    · simpa using hlen
    · unfold Checksummer.verifyDirEntryTail
      rw [henabled]
      rfl
  | true =>
    have htail : m.freshTail = 12 := by
      unfold freshTail
      rw [henabled]
      rfl
    rw [htail] at hpost hlen
    rw [htail]
    have hpatched := Checksummer.patchDirEntryTail_append crc m.csum ino dir.generation
      (slotBytes slots) post hpost henabled
    rw [if_pos (by decide), hpatched]
    have htailLen : ∀ c, (Record.tail c).bytes.length = 12 := fun c => by
      rw [Record.length_bytes, Record.recLen_tail]
    refine ⟨⟨slots, ⟨?_, fun s hs => (hv s hs).2, Or.inr ⟨htail, ?_⟩⟩, rfl⟩, ?_, ?_⟩
    · rw [htail, List.length_append, htailLen, Nat.add_sub_cancel, List.take_left]
      exact hfills
    · rw [hasCsumTail_append _ _ (htailLen _), hasCsumTail_tail]
    · rw [List.length_append, htailLen]
      exact hlen
    · exact verify_tail (slotBytes slots)

section Added

variable {slots : List Dir.Slot} {post name grown : Bytes} {target : UInt32}
  {fileType : DirEntryType}

theorem EntryBlock.of_added (hv : ∀ s ∈ slots, s.Valid m.fs.sb.hasFiletype ∧ s.isTail = false)
    (hsize : (slotBytes slots).length ≤ 65532) (hpost : post.length = m.freshTail)
    (hlen : (slotBytes slots).length + m.freshTail = m.fs.sb.blockSize)
    (hadd : addEntryToBlock (slotBytes slots ++ post) target name fileType m.fs.sb.hasFiletype
      m.freshTail = .ok grown) :
    ∃ es', EntryBlock crc m ino dir.generation es' (m.retailed crc ino dir m.freshTail grown) ∧
      es'.Perm (newEntry m.fs.sb.hasFiletype target name fileType :: slotEntries m.fs.sb.hasFiletype
          slots) := by
  rw [← hpost] at hadd
  obtain ⟨slots', rfl, hlen', hv', hperm⟩ := addEntryToBlock_live hv hsize hadd
  exact ⟨_, EntryBlock.sealed hv' (by rw [hlen']; exact hsize) hpost (by rw [hlen']; exact hlen),
    hperm⟩

theorem EntryBlock.added (h : EntryBlock crc m ino dir.generation es block)
    (hadd : m.addToBlock crc ino dir name target fileType block = .ok new) :
    ∃ es', EntryBlock crc m ino dir.generation es' new ∧
      es'.Perm (newEntry m.fs.sb.hasFiletype target name fileType :: es) := by
  obtain ⟨slots, hblock, rfl⟩ := h.slots
  unfold addToBlock at hadd
  rw [h.reservedTail] at hadd
  obtain ⟨grown, hentry, hadd⟩ := Result.bind_eq_ok hadd
  obtain rfl := Except.ok.inj hadd
  have hle := hblock.le
  have hsize := hblock.fills.size
  rw [← hblock.fills.bytes] at hsize
  rw [hblock.split] at hentry
  refine EntryBlock.of_added (fun s hs => ⟨hblock.fills.valid s hs, hblock.noTail s hs⟩) hsize
    ?_ ?_ hentry
  · rw [List.length_drop, Nat.sub_sub_self hle]
  · rw [hblock.length_area, Nat.sub_add_cancel hle, h.length]

end Added

end Entries

end Mount

namespace Dir

section Halves

variable {hasFileType : Bool} {hashVersion : HashVersion} {hashSeed : List UInt32}
  {blockSize reservedTail : Nat} {block : Bytes}

theorem pack_live {part : List Slot} (hne : part ≠ []) (hv : ∀ s ∈ part, s.Valid hasFileType ∧
    s.inode ≠ 0) (hle : reservedTail ≤ blockSize) (haligned : (blockSize - reservedTail) % 4 = 0)
    (h : writePackedLeaf ((part.map (Slot.item hasFileType hashVersion hashSeed)).map Prod.snd)
      blockSize reservedTail = .ok block) :
    ∃ slots, block = slotBytes slots ++ List.replicate reservedTail 0 ∧
      (slotBytes slots).length = blockSize - reservedTail ∧
      (∀ s ∈ slots, s.Valid hasFileType ∧ s.isTail = false) ∧
      slotEntries hasFileType slots = part.map (Slot.entry hasFileType) := by
  let entries := part.map (fun s => (s.packed hasFileType, UInt16.ofNat s.recLen))
  have hraws : (part.map (Slot.item hasFileType hashVersion hashSeed)).map Prod.snd =
      entries.map (fun e => e.1.raw e.2) := by
    simp only [entries, List.map_map]
    rfl
  have hne' : entries ≠ [] := by simpa [entries] using hne
  have hp : ∀ e ∈ entries, e.1.Packed hasFileType := by
    intro e he
    obtain ⟨s, hs, rfl⟩ := List.mem_map.mp he
    exact packed_packed (hv s hs).1 (hv s hs).2
  rw [hraws, writePackedLeaf_eq hne' hle] at h
  split at h
  · rename_i hfits
    obtain ⟨hlen, hall, hentries⟩ := packSlots_fills hne' hp hfits haligned
    refine ⟨_, (Except.ok.inj h).symm, hlen, fun s hs =>
      ⟨(hall s hs).1, by simp [Slot.isTail, (hall s hs).2]⟩, ?_⟩
    rw [hentries]
    simp only [entries, List.map_map]
    exact List.map_congr_left (fun s hs => entry_packed (hv s hs).1 (hv s hs).2)
  · cases h

/-- A leaf of these entries is cut in two: at the hash of an entry on the right. -/
structure Halves (hasFileType : Bool) (hashVersion : HashVersion) (hashSeed : List UInt32)
    (blockSize reservedTail : Nat) (es : List DirEntry) (split : LeafSplit)
      (left right : List Slot) : Prop where
  leftBytes : split.leftBytes = slotBytes left ++ List.replicate reservedTail 0
  rightBytes : split.rightBytes = slotBytes right ++ List.replicate reservedTail 0
  lengths : (slotBytes left).length = blockSize - reservedTail ∧ (slotBytes right).length =
    blockSize - reservedTail
  leftValid : ∀ s ∈ left, s.Valid hasFileType ∧ s.isTail = false
  rightValid : ∀ s ∈ right, s.Valid hasFileType ∧ s.isTail = false
  perm : (slotEntries hasFileType left ++ slotEntries hasFileType right).Perm es
  low : ∀ e ∈ slotEntries hasFileType left, (nameHash e.name hashVersion hashSeed).major <
    split.splitOutHash
  high : ∀ e ∈ slotEntries hasFileType right, split.splitOutHash ≤
    (nameHash e.name hashVersion hashSeed).major
  leftMost : ∃ e, e ∈ slotEntries hasFileType left
  bound : ∃ e ∈ slotEntries hasFileType right, (nameHash e.name hashVersion hashSeed).major =
    split.splitOutHash

variable {slots : List Slot} {leaf : Bytes} {split : LeafSplit}

theorem planLeafSplit_halves (hle : reservedTail ≤ leaf.length)
    (h : Fills hasFileType slots (leaf.take (leaf.length - reservedTail)))
    (hplan : planLeafSplit leaf hashVersion hashSeed hasFileType leaf.length reservedTail =
      .ok split) :
    ∃ left right, Halves hasFileType hashVersion hashSeed leaf.length reservedTail
      (slotEntries hasFileType slots)
      split left right := by
  have hlen : (slotBytes slots).length = leaf.length - reservedTail := by
    rw [h.bytes, List.length_take, Nat.min_eq_left (Nat.sub_le _ _)]
  have haligned : (leaf.length - reservedTail) % 4 = 0 := by
    rw [← hlen]
    exact slotBytes_aligned h.valid
  have hperm := @sortedSlots_perm hasFileType slots hashVersion hashSeed
  have hmem : ∀ s ∈ sortedSlots hashVersion hashSeed hasFileType slots, s.Valid hasFileType ∧
      s.inode ≠ 0 := by
    intro s hs
    obtain ⟨hs, hinode⟩ := List.mem_filter.mp (hperm.mem_iff.mp hs)
    exact ⟨h.valid s hs, by simpa using hinode⟩
  have hlenSorted : (sortedSlots hashVersion hashSeed hasFileType slots).length =
      (majors hashVersion hashSeed hasFileType slots).length := by
    rw [majors, List.length_map]
  rw [planLeafSplit_eq hashVersion hashSeed hle h] at hplan
  split at hplan
  · cases hplan
  cases hcut : splitPoint (majors hashVersion hashSeed hasFileType slots) with
  | none =>
    rw [hcut] at hplan
    cases hplan
  | some mid =>
    rw [hcut] at hplan
    obtain ⟨hpos, hlt, -⟩ := splitPoint_some hcut
    obtain ⟨hbelow, habove⟩ := cut_parts hashVersion hashSeed hcut
    have hmid : mid < (sortedSlots hashVersion hashSeed hasFileType slots).length := by
      rw [hlenSorted]
      exact hlt
    have hat : ∃ s ∈ (sortedSlots hashVersion hashSeed hasFileType slots).drop mid,
        s.major hasFileType hashVersion hashSeed =
          (majors hashVersion hashSeed hasFileType slots).getD mid 0 := by
      refine ⟨(sortedSlots hashVersion hashSeed hasFileType slots).get ⟨mid, hmid⟩, ?_, ?_⟩
      · rw [List.drop_eq_getElem_cons hmid]
        exact List.mem_cons_self
      · exact (major_eq_getD hashVersion hashSeed hmid).symm
    clear hlenSorted hlt
    dsimp only at hplan
    generalize (majors hashVersion hashSeed hasFileType slots).getD mid 0 =
      hash at hbelow habove hplan hat
    generalize sortedSlots hashVersion hashSeed hasFileType slots = sorted at *
    obtain ⟨leftBytes, hleft, hplan⟩ := Result.bind_eq_ok hplan
    obtain ⟨rightBytes, hright, hplan⟩ := Result.bind_eq_ok hplan
    obtain rfl := Except.ok.inj hplan
    obtain ⟨left, hleftBytes, hleftLen, hleftValid, hleftEntries⟩ :=
      @pack_live _ _ _ _ _ leftBytes (sorted.take mid) (by
        rw [Ne, ← List.length_eq_zero_iff, List.length_take]
        omega) (fun s hs => hmem s (List.mem_of_mem_take hs)) hle haligned hleft
    obtain ⟨right, hrightBytes, hrightLen, hrightValid, hrightEntries⟩ :=
      @pack_live _ _ _ _ _ rightBytes (sorted.drop mid) (by
        rw [Ne, ← List.length_eq_zero_iff, List.length_drop]
        omega) (fun s hs => hmem s (List.mem_of_mem_drop hs)) hle haligned hright
    refine ⟨left, right, hleftBytes, hrightBytes, ⟨hleftLen, hrightLen⟩, hleftValid, hrightValid,
      ?_, ?_, ?_, ?_, ?_⟩
    · rw [hleftEntries, hrightEntries, ← List.map_append, List.take_append_drop]
      exact hperm.map _
    · intro e he
      rw [hleftEntries] at he
      obtain ⟨s, hs, rfl⟩ := List.mem_map.mp he
      exact hbelow s hs
    · intro e he
      rw [hrightEntries] at he
      obtain ⟨s, hs, rfl⟩ := List.mem_map.mp he
      exact habove s hs
    · obtain ⟨s, hs⟩ : ∃ s, s ∈ sorted.take mid := by
        apply List.exists_mem_of_ne_nil
        rw [Ne, ← List.length_eq_zero_iff, List.length_take]
        omega
      refine ⟨s.entry hasFileType, ?_⟩
      rw [hleftEntries]
      exact List.mem_map_of_mem hs
    · obtain ⟨s, hs, hmajor⟩ := hat
      refine ⟨s.entry hasFileType, ?_, hmajor⟩
      rw [hrightEntries]
      exact List.mem_map_of_mem hs

end Halves

end Dir

end FsExt4
