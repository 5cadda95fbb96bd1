import FsExt4.GroupDescriptors

namespace FsExt4

open Lib Jbd2

inductive DirEntryType where
  | unknown
  | regFile
  | directory
  | charDev
  | blockDev
  | fifo
  | socket
  | symlink
  deriving DecidableEq

def DirEntryType.fromU8 (b : UInt8) : DirEntryType :=
  match b.toNat with
  | 1 => .regFile
  | 2 => .directory
  | 3 => .charDev
  | 4 => .blockDev
  | 5 => .fifo
  | 6 => .socket
  | 7 => .symlink
  | _ => .unknown

structure DirEntry where
  inode : UInt32
  name : Bytes
  fileType : DirEntryType
  deriving DecidableEq

namespace Dir

def tailFileType : UInt8 := 0xDE

/-- What `DirBlockIter` yields from `offset` on, up to its end or its first error. Every record is
at least eight bytes, so `fuel` is enough when it is the length of the block. -/
def entriesFrom (hasFileType : Bool) (buf : Bytes) : Nat → Nat → List (Result DirEntry)
  | 0, _ => []
  | fuel + 1, offset =>
    if buf.length < offset + 8 then []
    else
      let inode := u32leAt buf offset
      let recLen := (u16leAt buf (offset + 4)).toNat
      if recLen < 8 ∨ buf.length - offset < recLen ∨ recLen % 4 ≠ 0 then
        [.error (.corruptDirEntry "bad rec_len")]
      else
        let nameLenLo := buf.getD (offset + 6) 0
        let typeOrNamehi := buf.getD (offset + 7) 0
        if inode = 0 then
          -- the tail ends the useful entries of the block
          if recLen = 12 ∧ nameLenLo = 0 ∧ typeOrNamehi = tailFileType then []
          else entriesFrom hasFileType buf fuel (offset + recLen)
        else
          let nameLen :=
            if hasFileType then nameLenLo.toNat else typeOrNamehi.toNat * 256 + nameLenLo.toNat
          if recLen < 8 + nameLen then [.error (.corruptDirEntry "name overflows rec_len")]
          else
            let fileType := if hasFileType then .fromU8 typeOrNamehi else .unknown
            .ok ⟨inode, slice buf (offset + 8) nameLen, fileType⟩ ::
              entriesFrom hasFileType buf fuel (offset + recLen)

def dirBlockIter (hasFileType : Bool) (buf : Bytes) : List (Result DirEntry) :=
  entriesFrom hasFileType buf buf.length 0

def parseBlock (buf : Bytes) (hasFileType : Bool) : Result (List DirEntry) :=
  (dirBlockIter hasFileType buf).mapM id

def hasCsumTail (buf : Bytes) : Bool :=
  if buf.length < 12 then false
  else
    let off := buf.length - 12
    u32leAt buf off == 0 && u16leAt buf (off + 4) == 12 && buf.getD (off + 6) 0 == 0 &&
      buf.getD (off + 7) 0 == tailFileType

end Dir

namespace Checksummer

def verifyDirEntryTail (crc : Crc) (csum : Checksummer) (ino generation : UInt32) (block : Bytes) :
    Bool :=
  if !csum.enabled then true
  else if block.length < 12 then false
  else
    let c := crc csum.seed (u32le ino)
    let c := crc c (u32le generation)
    let c := crc c (slice block 0 (block.length - 12))
    c == u32leAt block (block.length - 4)

def checksumHiFits (inodeRaw : Bytes) : Bool :=
  decide (0x84 ≤ inodeRaw.length ∧ 4 ≤ (u16leAt inodeRaw 0x80).toNat)

def computeInodeChecksum (crc : Crc) (csum : Checksummer) (ino generation : UInt32)
    (inodeRaw : Bytes) : Option (UInt16 × UInt16) :=
  if !csum.enabled ∨ inodeRaw.length < inodeBaseSize then none
  else
    let tmp := copyAt inodeRaw 0x7C [0, 0]
    let tmp := if checksumHiFits inodeRaw then copyAt tmp 0x82 [0, 0] else tmp
    let c := crc csum.seed (u32le ino)
    let c := crc c (u32le generation)
    let c := crc c tmp
    some (c.toUInt16, if checksumHiFits inodeRaw then (c >>> 16).toUInt16 else 0)

def verifyInode (crc : Crc) (csum : Checksummer) (ino generation : UInt32) (inodeRaw : Bytes) :
    Bool :=
  if !csum.enabled then true
  else if inodeRaw.length < inodeBaseSize then false
  else
    let storedHi := if checksumHiFits inodeRaw then u16leAt inodeRaw 0x82 else 0
    match computeInodeChecksum crc csum ino generation inodeRaw with
    | some (lo, hi) => lo == u16leAt inodeRaw 0x7C && hi == storedHi
    | none => true

end Checksummer

/-- Verify the checksum tail of a directory block, if it ends in one, and parse its entries. -/
def Dir.parseBlockVerified (crc : Crc) (buf : Bytes) (hasFileType : Bool) (ino generation : UInt32)
    (csum : Checksummer) : Result (List DirEntry) :=
  if csum.enabled && hasCsumTail buf && !csum.verifyDirEntryTail crc ino generation buf then
    .error (.badChecksum "directory block")
  else parseBlock buf hasFileType

namespace Dir

/-- A record of a directory block: `pad` is what its length covers past the name. The header, the
name and the padding of an index block's records hold its index. -/
structure Record where
  inode : UInt32
  name : Bytes
  /-- The file type or, without that feature, the high byte of the name's length. -/
  typeOrNamehi : UInt8
  pad : Bytes
  deriving DecidableEq

namespace Record

def recLen (r : Record) : Nat := 8 + r.name.length + r.pad.length

def bytes (r : Record) : Bytes :=
  u32le r.inode ++ u16le (UInt16.ofNat r.recLen) ++
    [UInt8.ofNat (r.name.length % 256), r.typeOrNamehi] ++ r.name ++ r.pad

def NameFits (hasFileType : Bool) (r : Record) : Prop :=
  if hasFileType then r.name.length < 256
  else r.name.length = r.typeOrNamehi.toNat * 256 + r.name.length % 256

instance (hasFileType : Bool) (r : Record) : Decidable (r.NameFits hasFileType) :=
  inferInstanceAs (Decidable (if hasFileType then _ else _))

/-- `rec_len` is a multiple of four that its field holds, and a live record's name has its
length. -/
structure Valid (hasFileType : Bool) (r : Record) : Prop where
  aligned : r.recLen % 4 = 0
  fits : r.recLen < 2 ^ 16
  nameFits : r.inode ≠ 0 → r.NameFits hasFileType

instance (hasFileType : Bool) (r : Record) : Decidable (r.Valid hasFileType) :=
  decidable_of_iff (r.recLen % 4 = 0 ∧ r.recLen < 2 ^ 16 ∧ (r.inode ≠ 0 → r.NameFits hasFileType))
    ⟨fun h => ⟨h.1, h.2.1, h.2.2⟩, fun h => ⟨h.aligned, h.fits, h.nameFits⟩⟩

def isTail (r : Record) : Bool :=
  r.inode == 0 && r.recLen == 12 && r.name.isEmpty && r.typeOrNamehi == tailFileType

def entry (hasFileType : Bool) (r : Record) : DirEntry :=
  ⟨r.inode, r.name, if hasFileType then .fromU8 r.typeOrNamehi else .unknown⟩

end Record

def liveEntries (hasFileType : Bool) (rs : List Record) : List DirEntry :=
  (rs.filter (fun r => r.inode != 0)).map (Record.entry hasFileType)

/-- The block is exactly these records, and a checksum tail can only be the last of them. -/
structure Tiles (hasFileType : Bool) (rs : List Record) (buf : Bytes) : Prop where
  bytes : rs.flatMap Record.bytes = buf
  valid : ∀ r ∈ rs, r.Valid hasFileType
  tailLast : ∀ r ∈ rs.dropLast, r.isTail = false

section Parse

variable {hasFileType : Bool} {r : Record} {pre post : Bytes}

theorem Record.length_bytes (r : Record) : r.bytes.length = r.recLen := by
  simp [bytes, recLen]
  omega

theorem slice_record (off n : Nat) (h : off + n ≤ r.recLen) :
    slice (pre ++ (r.bytes ++ post)) (pre.length + off) n = slice r.bytes off n := by
  rw [slice_append_right _ _ _ _ (Nat.le_add_right _ _), Nat.add_sub_cancel_left,
    slice_append_left _ _ _ _ (by rw [r.length_bytes]; exact h)]

theorem getD_record (off : Nat) (h : off < r.recLen) :
    (pre ++ (r.bytes ++ post)).getD (pre.length + off) 0 = r.bytes.getD off 0 := by
  have hlen : off < r.bytes.length := by
    rw [r.length_bytes]
    exact h
  rw [List.getD_eq_getElem?_getD, List.getD_eq_getElem?_getD, List.getElem?_append_right (by omega),
    Nat.add_sub_cancel_left, List.getElem?_append_left hlen]

theorem u32leAt_record :
    u32leAt (pre ++ (r.bytes ++ post)) pre.length = r.inode := by
  refine u32leAt_of_slice _ _ _ ?_
  rw [← Nat.add_zero pre.length, slice_record 0 4 (by simp only [Record.recLen]; omega)]
  simp [slice, Record.bytes]

theorem u16leAt_record (hfit : r.recLen < 2 ^ 16) :
    (u16leAt (pre ++ (r.bytes ++ post)) (pre.length + 4)).toNat = r.recLen := by
  rw [u16leAt_of_slice _ _ (UInt16.ofNat r.recLen)]
  · simp only [UInt16.toNat_ofNat']
    omega
  · rw [slice_record 4 2 (by simp only [Record.recLen]; omega)]
    simp [slice, Record.bytes]

theorem nameLenLo_record :
    (pre ++ (r.bytes ++ post)).getD (pre.length + 6) 0 = UInt8.ofNat (r.name.length % 256) := by
  rw [getD_record 6 (by simp only [Record.recLen]; omega)]
  simp [Record.bytes, List.getElem?_append]

theorem typeOrNamehi_record :
    (pre ++ (r.bytes ++ post)).getD (pre.length + 7) 0 = r.typeOrNamehi := by
  rw [getD_record 7 (by simp only [Record.recLen]; omega)]
  simp [Record.bytes, List.getElem?_append]

theorem name_record :
    slice (pre ++ (r.bytes ++ post)) (pre.length + 8) r.name.length = r.name := by
  rw [slice_record 8 r.name.length (by simp only [Record.recLen]; omega)]
  rw [slice, Record.bytes, List.append_assoc, List.drop_left' (by simp), List.take_left' rfl]

theorem nameLen_record (h : r.NameFits hasFileType) :
    (if hasFileType then (UInt8.ofNat (r.name.length % 256)).toNat
      else r.typeOrNamehi.toNat * 256 + (UInt8.ofNat (r.name.length % 256)).toNat) =
      r.name.length := by
  have hlo : (UInt8.ofNat (r.name.length % 256)).toNat = r.name.length % 256 := by
    simp
  rw [hlo]
  unfold Record.NameFits at h
  split at h
  · rename_i hft
    rw [if_pos hft]
    omega
  · rename_i hft
    rw [if_neg hft]
    exact h.symm

theorem isTail_record (hinode : r.inode = 0) :
    (r.recLen = 12 ∧ UInt8.ofNat (r.name.length % 256) = 0 ∧ r.typeOrNamehi = tailFileType) ↔
      r.isTail = true := by
  have hname : r.recLen = 12 → (UInt8.ofNat (r.name.length % 256) = 0 ↔ r.name = []) := by
    intro hlen
    have hle : r.name.length ≤ 4 := by
      simp only [Record.recLen] at hlen
      omega
    rw [← List.length_eq_zero_iff, ← UInt8.toNat_inj, UInt8.toNat_ofNat', UInt8.toNat_zero]
    omega
  simp only [Record.isTail, hinode, beq_self_eq_true, Bool.true_and, Bool.and_eq_true, beq_iff_eq,
    List.isEmpty_iff]
  constructor
  · rintro ⟨hlen, hlo, hty⟩
    exact ⟨⟨hlen, (hname hlen).1 hlo⟩, hty⟩
  · rintro ⟨⟨hlen, hn⟩, hty⟩
    exact ⟨hlen, (hname hlen).2 hn, hty⟩

theorem entriesFrom_record (hv : r.Valid hasFileType) (fuel : Nat) :
    entriesFrom hasFileType (pre ++ (r.bytes ++ post)) (fuel + 1) pre.length =
      if r.isTail then []
      else if r.inode = 0 then
        entriesFrom hasFileType (pre ++ (r.bytes ++ post)) fuel (pre.length + r.recLen)
      else
        .ok (r.entry hasFileType) ::
          entriesFrom hasFileType (pre ++ (r.bytes ++ post)) fuel (pre.length + r.recLen) := by
  have hge : 8 + r.name.length ≤ r.recLen := by
    simp only [Record.recLen]
    omega
  have hlen : (pre ++ (r.bytes ++ post)).length = pre.length + (r.recLen + post.length) := by
    simp only [List.length_append, Record.length_bytes]
  have haligned := hv.aligned
  rw [entriesFrom]
  simp only [u32leAt_record, u16leAt_record hv.fits, nameLenLo_record, typeOrNamehi_record]
  rw [if_neg (by omega), if_neg (by omega)]
  by_cases hinode : r.inode = 0
  · rw [if_pos hinode, if_pos hinode]
    simp only [isTail_record hinode]
  · have htail : r.isTail = false := by simp [Record.isTail, hinode]
    rw [if_neg hinode, nameLen_record (hv.nameFits hinode), if_neg (by omega), name_record, htail]
    simp [hinode, Record.entry]

theorem entriesFrom_tiles (rs : List Record) (pre : Bytes) (fuel : Nat)
    (hv : ∀ r ∈ rs, r.Valid hasFileType) (htail : ∀ r ∈ rs.dropLast, r.isTail = false)
    (hfuel : rs.length ≤ fuel) :
    entriesFrom hasFileType (pre ++ rs.flatMap Record.bytes) fuel pre.length =
      (liveEntries hasFileType rs).map .ok := by
  induction rs generalizing pre fuel with
  | nil =>
    cases fuel with
    | zero => rfl
    | succ fuel => simp [entriesFrom, liveEntries]
  | cons r rs ih =>
    obtain ⟨fuel, rfl⟩ : ∃ n, fuel = n + 1 :=
      ⟨fuel - 1, by simp only [List.length_cons] at hfuel; omega⟩
    rw [List.flatMap_cons, entriesFrom_record (hv r List.mem_cons_self)]
    -- the rest of the block read from behind this record
    have hrest : entriesFrom hasFileType (pre ++ (r.bytes ++ rs.flatMap Record.bytes)) fuel
        (pre.length + r.recLen) = (liveEntries hasFileType rs).map .ok := by
      have h := ih (pre ++ r.bytes) fuel (fun x hx => hv x (List.mem_cons_of_mem _ hx))
        (fun x hx => htail x (by
          cases rs with
          | nil => simp at hx
          | cons y ys => exact List.mem_cons_of_mem _ hx))
        (by simpa using hfuel)
      rw [List.append_assoc, List.length_append, Record.length_bytes] at h
      exact h
    rw [hrest]
    by_cases ht : r.isTail = true
    · have hinode : r.inode = 0 := by
        simp only [Record.isTail, Bool.and_eq_true, beq_iff_eq] at ht
        exact ht.1.1.1
      have hrs : rs = [] := by
        cases rs with
        | nil => rfl
        | cons y ys =>
          have := htail r (by simp)
          rw [this] at ht
          cases ht
      subst hrs
      simp [ht, liveEntries, hinode]
    · rw [if_neg ht]
      by_cases hinode : r.inode = 0
      · simp [hinode, liveEntries]
      · simp [hinode, liveEntries]

end Parse

section Iterate

variable {α : Type}

theorem mapM_id_ok (xs : List α) : (xs.map (Except.ok : α → Result α)).mapM id = .ok xs := by
  induction xs with
  | nil => rfl
  | cons x xs ih =>
    rw [List.map_cons, List.mapM_cons, ih]
    rfl

end Iterate

namespace Tiles

variable {hasFileType : Bool} {rs : List Record} {buf : Bytes}

theorem nil (hasFileType : Bool) : Tiles hasFileType [] [] := ⟨rfl, nofun, nofun⟩

theorem of_live
    (h : ∀ r ∈ rs, r.recLen % 4 = 0 ∧ r.recLen < 2 ^ 16 ∧ r.inode ≠ 0 ∧ r.NameFits hasFileType) :
    Tiles hasFileType rs (rs.flatMap Record.bytes) := by
  refine ⟨rfl, fun r hr => ⟨(h r hr).1, (h r hr).2.1, fun _ => (h r hr).2.2.2⟩, fun r hr => ?_⟩
  simp [Record.isTail, (h r (List.dropLast_subset rs hr)).2.2.1]

theorem length_le (h : Tiles hasFileType rs buf) : rs.length ≤ buf.length := by
  rw [← h.bytes]
  clear h
  induction rs with
  | nil => simp
  | cons r rs ih =>
    rw [List.flatMap_cons, List.length_append, List.length_cons, Record.length_bytes, Record.recLen]
    omega

theorem dirBlockIter_eq (h : Tiles hasFileType rs buf) :
    dirBlockIter hasFileType buf = (liveEntries hasFileType rs).map .ok := by
  have hscan := entriesFrom_tiles rs [] buf.length h.valid h.tailLast h.length_le
  rw [List.nil_append, h.bytes] at hscan
  exact hscan

theorem parseBlock_eq (h : Tiles hasFileType rs buf) :
    parseBlock buf hasFileType = .ok (liveEntries hasFileType rs) := by
  rw [parseBlock, h.dirBlockIter_eq, mapM_id_ok]

end Tiles

end Dir

end FsExt4
