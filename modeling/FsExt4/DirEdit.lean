import FsExt4.Path

namespace FsExt4

open Lib Jbd2

def DirEntryType.toU8 : DirEntryType → UInt8
  | .unknown => 0
  | .regFile => 1
  | .directory => 2
  | .charDev => 3
  | .blockDev => 4
  | .fifo => 5
  | .socket => 6
  | .symlink => 7

namespace Dir

def entryRecLen (nameLen : Nat) : Nat := 8 + (nameLen + 3) / 4 * 4

def nameLenAt (hasFileType : Bool) (buf : Bytes) (off : Nat) : Nat :=
  let nameLenLo := buf.getD (off + 6) 0
  let typeOrNamehi := buf.getD (off + 7) 0
  if hasFileType then nameLenLo.toNat else typeOrNamehi.toNat * 256 + nameLenLo.toNat

def writeEntry (buf : Bytes) (off : Nat) (inode : UInt32) (recLen : Nat) (name : Bytes)
    (fileType : DirEntryType) (hasFileType : Bool) : Bytes :=
  let buf := copyAt buf off (u32le inode)
  let buf := copyAt buf (off + 4) (u16le (UInt16.ofNat recLen))
  let buf := copyAt buf (off + 6)
    (if hasFileType then [UInt8.ofNat name.length, fileType.toU8]
      else [UInt8.ofNat (name.length % 256), UInt8.ofNat (name.length / 256)])
  let buf := copyAt buf (off + 8) name
  copyAt buf (off + 8 + name.length) (List.replicate (recLen - (8 + name.length)) 0)

section Add

variable (buf : Bytes) (inode : UInt32) (name : Bytes) (fileType : DirEntryType)
  (hasFileType : Bool) (usable : Nat)

/-- From `off` on, the first unused record that is long enough, or the first entry with enough room
behind its name. -/
def addEntryFrom : Nat → Nat → Result Bytes
  | 0, _ => .error .outOfBounds
  | fuel + 1, off =>
    let needed := entryRecLen name.length
    if usable < off + 8 then .error .outOfBounds
    else
      let curInode := u32leAt buf off
      let recLen := (u16leAt buf (off + 4)).toNat
      if recLen < 8 ∨ recLen % 4 ≠ 0 ∨ usable < off + recLen then
        .error (.corruptDirEntry "bad rec_len during add")
      else if curInode = 0 then
        if needed ≤ recLen then .ok (writeEntry buf off inode recLen name fileType hasFileType)
        else addEntryFrom fuel (off + recLen)
      else
        let curActual := entryRecLen (nameLenAt hasFileType buf off)
        if curActual + needed ≤ recLen then
          -- the entry keeps what its name needs, and the new one takes the rest
          let buf := copyAt buf (off + 4) (u16le (UInt16.ofNat curActual))
          .ok (writeEntry buf (off + curActual) inode (recLen - curActual) name fileType
            hasFileType)
        else addEntryFrom fuel (off + recLen)

end Add

/-- Every record is at least eight bytes, so the length of the block is fuel enough. -/
def addEntryToBlock (buf : Bytes) (inode : UInt32) (name : Bytes) (fileType : DirEntryType)
    (hasFileType : Bool) (reservedTail : Nat) : Result Bytes :=
  if inode = 0 then .error (.corruptDirEntry "refuse to insert entry with inode 0")
  else if name.isEmpty ∨ 255 < name.length then .error (.corruptDirEntry "name length out of range")
  else if buf.length < reservedTail then .error .outOfBounds
  else if buf.length - reservedTail < entryRecLen name.length then .error .outOfBounds
  else addEntryFrom buf inode name fileType hasFileType (buf.length - reservedTail) buf.length 0

section Remove

variable (buf : Bytes) (name : Bytes) (hasFileType : Bool) (usable : Nat)

/-- From `off` on, the first entry of the name: the record in front takes its space, and the first
record of a block only loses its inode. -/
def removeEntryFrom : Nat → Option Nat → Nat → Result (Option Bytes)
  | 0, _, _ => .ok none
  | fuel + 1, prev, off =>
    if usable < off + 8 then .ok none
    else
      let curInode := u32leAt buf off
      let recLen := (u16leAt buf (off + 4)).toNat
      if recLen < 8 ∨ recLen % 4 ≠ 0 ∨ usable < off + recLen then
        .error (.corruptDirEntry "bad rec_len during remove")
      else
        let curNameLen := nameLenAt hasFileType buf off
        if curInode ≠ 0 ∧ 8 + curNameLen ≤ recLen ∧ slice buf (off + 8) curNameLen = name then
          match prev with
          | some prev =>
            let merged := (u16leAt buf (prev + 4)).toNat + recLen
            if 2 ^ 16 ≤ merged then .error (.corruptDirEntry "merged rec_len overflows u16")
            else
              let buf := copyAt buf (prev + 4) (u16le (UInt16.ofNat merged))
              .ok (some (copyAt buf off (List.replicate 8 0)))
          | none => .ok (some (copyAt buf off (u32le 0)))
        else removeEntryFrom fuel (some off) (off + recLen)

end Remove

def removeEntryFromBlock (buf name : Bytes) (hasFileType : Bool) (reservedTail : Nat) :
    Result (Option Bytes) :=
  if buf.length < reservedTail then .error .outOfBounds
  else removeEntryFrom buf name hasFileType (buf.length - reservedTail) buf.length none 0

end Dir

/-- What a block of a directory holds: a part of the index, or entries. -/
inductive DirBlockRole where
  | indexRoot
  | indexNode
  | entries
  deriving DecidableEq

def dirBlockRole (dir : Inode) (logical : Nat) (block : Bytes) : DirBlockRole :=
  if !dir.isIndexed ∨ block.length < 8 then .entries
  else if logical = 0 then .indexRoot
  else if u32leAt block 0 = 0 ∧ (u16leAt block 4).toNat = block.length then .indexNode
  else .entries

def isHtreeIndexBlock (dir : Inode) (logical : Nat) (block : Bytes) : Bool :=
  decide (dirBlockRole dir logical block ≠ .entries)

namespace Checksummer

variable (crc : Crc) (csum : Checksummer) (ino generation : UInt32)

def patchDirEntryTail (block : Bytes) : Bytes :=
  if !csum.enabled ∨ block.length < 12 then block
  else
    let stop := block.length
    let block := copyAt block (stop - 12) (u32le 0)
    let block := copyAt block (stop - 8) (u16le 12)
    let block := copyAt block (stop - 6) [0, Dir.tailFileType]
    let c := crc csum.seed (u32le ino)
    let c := crc c (u32le generation)
    let c := crc c (slice block 0 (stop - 12))
    copyAt block (stop - 4) (u32le c)

/-- The checksum of an index block whose count and limit are at `countOffset`, stored behind the
room for `limit` entries; `none` when checksums are off or there is no room for one. -/
def patchDxTail (block : Bytes) (countOffset : Nat) : Option Bytes :=
  if !csum.enabled ∨ block.length < countOffset + 4 then none
  else
    let limit := (u16leAt block countOffset).toNat
    let count := (u16leAt block (countOffset + 2)).toNat
    let tail := countOffset + limit * 8
    if limit < count ∨ block.length < tail + 8 then none
    else
      let c := crc csum.seed (u32le ino)
      let c := crc c (u32le generation)
      let c := crc c (slice block 0 (countOffset + count * 8))
      let c := crc c (slice block tail 4)
      let c := crc c [0, 0, 0, 0]
      some (copyAt block (tail + 4) (u32le c))

def verifyDxTail (block : Bytes) (countOffset : Nat) : Option Bool :=
  (csum.patchDxTail crc ino generation block countOffset).map (fun patched => patched == block)

end Checksummer

namespace Dir

/-- A block of the same length that differs in front of `n`. -/
structure Edited (n : Nat) (buf new : Bytes) : Prop where
  length : new.length = buf.length
  differs : new.take n ≠ buf.take n

theorem Edited.of_slice {n off len : Nat} {buf new : Bytes} (hlen : new.length = buf.length)
    (hfit : off + len ≤ n) (h : slice new off len ≠ slice buf off len) : Edited n buf new := by
  refine ⟨hlen, fun htake => h ?_⟩
  have hslice : ∀ b : Bytes, slice b off len = slice (b.take n) off len := by
    intro b
    have hzero : b.take n = slice b 0 n := by simp [slice]
    rw [hzero, slice_slice b 0 n off len hfit, Nat.zero_add]
  rw [hslice new, hslice buf, htake]

theorem Edited.ne {n : Nat} {buf new : Bytes} (h : Edited n buf new) : new ≠ buf :=
  fun heq => h.differs (heq ▸ rfl)

theorem Edited.of_u32leAt {n off : Nat} {buf new : Bytes} (hlen : new.length = buf.length)
    (hfit : off + 4 ≤ n) (h : u32leAt new off ≠ u32leAt buf off) : Edited n buf new :=
  .of_slice hlen hfit (fun hslice => h (by rw [u32leAt, u32leAt, hslice]))

theorem Edited.of_u16leAt {n off : Nat} {buf new : Bytes} (hlen : new.length = buf.length)
    (hfit : off + 2 ≤ n) (h : u16leAt new off ≠ u16leAt buf off) : Edited n buf new :=
  .of_slice hlen hfit (fun hslice => h (by rw [u16leAt, u16leAt, hslice]))

section Write

variable (buf : Bytes) (off : Nat) (inode : UInt32) (recLen : Nat) (name : Bytes)
  (fileType : DirEntryType) (hasFileType : Bool)

def entryPatches : List (Nat × Bytes) := [
  (off + 4, u16le (UInt16.ofNat recLen)),
  (off + 6, if hasFileType then [UInt8.ofNat name.length, fileType.toU8]
    else [UInt8.ofNat (name.length % 256), UInt8.ofNat (name.length / 256)]),
  (off + 8, name),
  (off + 8 + name.length, List.replicate (recLen - (8 + name.length)) 0)]

theorem writeEntry_eq : writeEntry buf off inode recLen name fileType hasFileType =
    copyAll (copyAt buf off (u32le inode)) (entryPatches off recLen name fileType hasFileType) :=
      rfl

theorem entryPatches_within (hrec : 8 + name.length ≤ recLen) :
    ∀ p ∈ entryPatches off recLen name fileType hasFileType,
      off + 4 ≤ p.1 ∧ p.1 + p.2.length ≤ off + recLen := by
  intro p hp
  have htype : (if hasFileType then [UInt8.ofNat name.length, fileType.toU8]
      else [UInt8.ofNat (name.length % 256), UInt8.ofNat (name.length / 256)]).length = 2 := by
    split <;> rfl
  simp only [entryPatches, List.mem_cons, List.not_mem_nil, or_false] at hp
  obtain rfl | rfl | rfl | rfl := hp
  · simp only [length_u16le]
    omega
  · simp only [htype]
    omega
  · dsimp only
    omega
  · simp only [List.length_replicate]
    omega

variable (hrec : 8 + name.length ≤ recLen) (hfit : off + recLen ≤ buf.length)

include hrec hfit

theorem length_writeEntry :
    (writeEntry buf off inode recLen name fileType hasFileType).length = buf.length := by
  have hfirst := length_copyAt buf off (u32le inode) (by rw [length_u32le]; omega)
  rw [writeEntry_eq, length_copyAll, hfirst]
  intro p hp
  have hin := entryPatches_within off recLen name fileType hasFileType hrec p hp
  omega

theorem u32leAt_writeEntry :
    u32leAt (writeEntry buf off inode recLen name fileType hasFileType) off = inode := by
  have hfirst := length_copyAt buf off (u32le inode) (by rw [length_u32le]; omega)
  have hwithin := entryPatches_within off recLen name fileType hasFileType hrec
  have hkeeps := agreeOn_copyAll (copyAt buf off (u32le inode))
    (entryPatches off recLen name fileType hasFileType) off (off + 4)
    (fun p hp => by have hin := hwithin p hp; omega) (fun p hp => .inl (hwithin p hp).1)
  rw [writeEntry_eq, hkeeps.u32leAt off (Nat.le_refl _) (Nat.le_refl _),
    u32leAt_copyAt _ _ _ (by omega)]

theorem agreeOn_writeEntry :
    AgreeOn (writeEntry buf off inode recLen name fileType hasFileType) buf 0 off := by
  have hfirst := length_copyAt buf off (u32le inode) (by rw [length_u32le]; omega)
  have hwithin := entryPatches_within off recLen name fileType hasFileType hrec
  rw [writeEntry_eq]
  refine (agreeOn_copyAll _ _ 0 off ?_ ?_).trans (agreeOn_copyAt buf off _ 0 off (by omega)
    (.inl (Nat.le_refl _)))
  · intro p hp
    have hin := hwithin p hp
    omega
  · intro p hp
    have hin := hwithin p hp
    omega

end Write

theorem le_entryRecLen (n : Nat) : 8 + n ≤ entryRecLen n := by
  unfold entryRecLen
  omega

theorem u32leAt_copyAt_zeros (buf : Bytes) (off : Nat) (hfit : off + 8 ≤ buf.length) :
    u32leAt (copyAt buf off (List.replicate 8 0)) off = 0 := by
  have hzero := slice_copyAt_self buf off (List.replicate 8 0)
    (by rw [List.length_replicate]; exact hfit)
  rw [List.length_replicate] at hzero
  have hfield := Htree.u32leAt_slice (copyAt buf off (List.replicate 8 0)) off 8 0 (by decide)
  rw [hzero, Nat.add_zero] at hfield
  exact hfield.symm

section Edits

variable {buf name new : Bytes} {inode : UInt32} {fileType : DirEntryType} {hasFileType : Bool}
  {usable fuel off : Nat}

theorem addEntryFrom_edited (hinode : inode ≠ 0) (husable : usable ≤ buf.length)
    (h : addEntryFrom buf inode name fileType hasFileType usable fuel off = .ok new) :
    Edited usable buf new := by
  induction fuel generalizing off with
  | zero => cases h
  | succ fuel ih =>
    have hneeded := le_entryRecLen name.length
    have hactual := le_entryRecLen (nameLenAt hasFileType buf off)
    have h16 := (u16leAt buf (off + 4)).toNat_lt
    rw [addEntryFrom] at h
    dsimp only at h
    split at h
    · cases h
    split at h
    · cases h
    rename_i hrec
    obtain ⟨hmin, hend⟩ : 8 ≤ (u16leAt buf (off + 4)).toNat ∧
        off + (u16leAt buf (off + 4)).toNat ≤ usable := by omega
    split at h
    · rename_i hunused
      split at h
      · rename_i hroom
        cases h
        refine .of_u32leAt (length_writeEntry _ _ _ _ _ _ _ (by omega) (by omega))
          (show off + 4 ≤ usable by omega) ?_
        rw [u32leAt_writeEntry _ _ _ _ _ _ _ (by omega) (by omega), hunused]
        exact hinode
      · exact ih h
    · split at h
      · rename_i hroom
        cases h
        have hcut := length_copyAt buf (off + 4)
          (u16le (UInt16.ofNat (entryRecLen (nameLenAt hasFileType buf off))))
            (by rw [length_u16le]; omega)
        have hkeeps := agreeOn_writeEntry (copyAt buf (off + 4)
          (u16le (UInt16.ofNat (entryRecLen (nameLenAt hasFileType buf off)))))
          (off + entryRecLen (nameLenAt hasFileType buf off)) inode
          ((u16leAt buf (off + 4)).toNat - entryRecLen (nameLenAt hasFileType buf off))
            name fileType
          hasFileType (by omega) (by omega)
        refine .of_u16leAt ?_ (show off + 4 + 2 ≤ usable by omega) ?_
        · rw [length_writeEntry _ _ _ _ _ _ _ (by omega) (by omega), hcut]
        · rw [hkeeps.u16leAt (off + 4) (Nat.zero_le _) (by omega), u16leAt_copyAt _ _ _ (by omega)]
          intro heq
          have hval := congrArg UInt16.toNat heq
          rw [UInt16.toNat_ofNat'] at hval
          omega
      · exact ih h

theorem removeEntryFrom_edited {prev : Option Nat} (husable : usable ≤ buf.length)
    (hprev : ∀ p, prev = some p → p + 8 ≤ off)
    (h : removeEntryFrom buf name hasFileType usable fuel prev off = .ok (some new)) :
    Edited usable buf new := by
  induction fuel generalizing prev off with
  | zero => cases h
  | succ fuel ih =>
    rw [removeEntryFrom] at h
    dsimp only at h
    split at h
    · cases h
    split at h
    · cases h
    rename_i hrec
    obtain ⟨hmin, hend⟩ : 8 ≤ (u16leAt buf (off + 4)).toNat ∧
        off + (u16leAt buf (off + 4)).toNat ≤ usable := by omega
    split at h
    · rename_i hfound
      split at h
      · rename_i prev
        have hbefore := hprev prev rfl
        split at h
        · cases h
        · cases h
          have hcut := length_copyAt buf (prev + 4) (u16le (UInt16.ofNat
            ((u16leAt buf (prev + 4)).toNat + (u16leAt buf (off + 4)).toNat)))
              (by rw [length_u16le]; omega)
          refine .of_u32leAt ?_ (show off + 4 ≤ usable by omega) ?_
          · rw [length_copyAt _ _ _ (by rw [hcut, List.length_replicate]; omega), hcut]
          · rw [u32leAt_copyAt_zeros _ _ (by omega)]
            exact hfound.1.symm
      · cases h
        refine .of_u32leAt (length_copyAt _ _ _ (by rw [length_u32le]; omega))
          (show off + 4 ≤ usable by omega) ?_
        rw [u32leAt_copyAt _ _ _ (by omega)]
        exact hfound.1.symm
    · refine ih ?_ h
      intro p hp
      obtain rfl := Option.some.inj hp
      omega

end Edits

theorem addEntryToBlock_edited {buf name new : Bytes} {inode : UInt32} {fileType : DirEntryType}
    {hasFileType : Bool} {reservedTail : Nat}
    (h : addEntryToBlock buf inode name fileType hasFileType reservedTail = .ok new) :
    Edited (buf.length - reservedTail) buf new := by
  unfold addEntryToBlock at h
  split at h
  · cases h
  split at h
  · cases h
  split at h
  · cases h
  split at h
  · cases h
  exact addEntryFrom_edited (by assumption) (Nat.sub_le _ _) h

theorem removeEntryFromBlock_edited {buf name new : Bytes} {hasFileType : Bool} {reservedTail : Nat}
    (h : removeEntryFromBlock buf name hasFileType reservedTail = .ok (some new)) :
    Edited (buf.length - reservedTail) buf new := by
  unfold removeEntryFromBlock at h
  split at h
  · cases h
  refine removeEntryFrom_edited (Nat.sub_le _ _) ?_ h
  intro p hp
  cases hp

end Dir

namespace Checksummer

variable (crc : Crc) (csum : Checksummer) (ino generation : UInt32) (block : Bytes)

def dirEntryTailSum : UInt32 :=
  crc (crc (crc csum.seed (u32le ino)) (u32le generation)) (slice block 0 (block.length - 12))

def tailPatches (stop : Nat) (c : UInt32) : List (Nat × Bytes) :=
  [(stop - 12, u32le 0), (stop - 8, u16le 12), (stop - 6, [0, Dir.tailFileType])] ++
    [(stop - 4, u32le c)]

theorem tailPatches_within {stop : Nat} (hlen : 12 ≤ stop) (c : UInt32) :
    ∀ p ∈ tailPatches stop c, stop - 12 ≤ p.1 ∧ p.1 + p.2.length ≤ stop := by
  intro p hp
  simp only [tailPatches, List.cons_append, List.nil_append, List.mem_cons, List.not_mem_nil,
    or_false] at hp
  obtain rfl | rfl | rfl | rfl := hp <;> simp only [length_u32le, length_u16le, List.length_cons,
    List.length_nil] <;> omega

theorem take_copyAll_of_tail (patches : List (Nat × Bytes))
    (h : ∀ p ∈ patches, block.length - 12 ≤ p.1 ∧ p.1 + p.2.length ≤ block.length) :
    (copyAll block patches).take (block.length - 12) = block.take (block.length - 12) := by
  have hagree := agreeOn_copyAll block patches 0 (block.length - 12) (fun p hp => (h p hp).2)
    (fun p hp => .inl (h p hp).1) 0 (block.length - 12) (Nat.le_refl _) (by omega)
  simpa [slice] using hagree

theorem patchDirEntryTail_eq (henabled : csum.enabled = true) (hlen : 12 ≤ block.length) :
    csum.patchDirEntryTail crc ino generation block =
      copyAll block (tailPatches block.length (csum.dirEntryTailSum crc ino generation block)) := by
  have hplanted := take_copyAll_of_tail block
    [(block.length - 12, u32le 0), (block.length - 8, u16le 12),
    (block.length - 6, [0, Dir.tailFileType])]
    (fun p hp => tailPatches_within hlen 0 p (List.mem_append_left _ hp))
  have hslice : ∀ b : Bytes, slice b 0 (block.length - 12) = b.take (block.length - 12) :=
    fun _ => rfl
  unfold patchDirEntryTail dirEntryTailSum
  rw [if_neg (by rw [henabled]; simp only [Bool.not_true, Bool.false_eq_true, false_or]; omega),
    hslice, ← hplanted]
  rfl

@[simp] theorem length_patchDirEntryTail :
    (csum.patchDirEntryTail crc ino generation block).length = block.length := by
  by_cases hskip : !csum.enabled ∨ block.length < 12
  · rw [patchDirEntryTail, if_pos hskip]
  · have henabled : csum.enabled = true := by simpa using (not_or.mp hskip).1
    have hlen : 12 ≤ block.length := Nat.le_of_not_lt (not_or.mp hskip).2
    rw [patchDirEntryTail_eq crc csum ino generation block henabled hlen]
    exact length_copyAll _ _ (fun p hp => (tailPatches_within hlen _ p hp).2)

theorem take_patchDirEntryTail :
    (csum.patchDirEntryTail crc ino generation block).take (block.length - 12) =
      block.take (block.length - 12) := by
  by_cases hskip : !csum.enabled ∨ block.length < 12
  · rw [patchDirEntryTail, if_pos hskip]
  · have henabled : csum.enabled = true := by simpa using (not_or.mp hskip).1
    have hlen : 12 ≤ block.length := Nat.le_of_not_lt (not_or.mp hskip).2
    rw [patchDirEntryTail_eq crc csum ino generation block henabled hlen]
    exact take_copyAll_of_tail block _ (tailPatches_within hlen _)

end Checksummer

end FsExt4
