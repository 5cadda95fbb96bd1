import FsExt4.BlockBuffer
import FsExt4.DirLookup
import FsExt4.DirBlockEdits
import Mathlib.Tactic.IntervalCases

namespace FsExt4

open Lib Jbd2

namespace Dir

/-- Each entry behind the one in front, with its record length patched in; the last one takes all
that is left of the usable area. -/
def writePackedFrom (usable : Nat) : List Bytes → Nat → Bytes → Result Bytes
  | [], _, out => .ok out
  | raw :: rest, off, out =>
    if usable < off + raw.length then .error .outOfBounds
    else
      let recLen := if rest.isEmpty then usable - off else raw.length
      let out := copyAt out off raw
      let out := copyAt out (off + 4) (u16le (UInt16.ofNat recLen))
      writePackedFrom usable rest (off + recLen) out

def writePackedLeaf (entries : List Bytes) (blockSize reservedTail : Nat) : Result Bytes :=
  if blockSize < reservedTail then .error .outOfBounds
  else writePackedFrom (blockSize - reservedTail) entries 0 (List.replicate blockSize 0)

def Slot.raw (s : Slot) (stored : UInt16) : Bytes :=
  u32le s.inode ++ u16le stored ++ [s.nameLenLo, s.typeOrNamehi] ++ s.body

def Slot.stretched (s : Slot) (recLen : Nat) : Slot :=
  { s with body := s.body ++ List.replicate (recLen - s.recLen) 0 }

def packSlots (usable : Nat) : List Slot → List Slot
  | [] => []
  | s :: rest =>
    if rest.isEmpty then [s.stretched usable] else s :: packSlots (usable - s.recLen) rest

theorem Slot.length_raw (s : Slot) (stored : UInt16) : (s.raw stored).length = s.recLen := by
  simp only [Slot.raw, Slot.recLen, List.length_append, length_u32le, length_u16le,
    List.length_cons, List.length_nil]

theorem Slot.recLen_stretched {s : Slot} {recLen : Nat} (h : s.recLen ≤ recLen) :
    (s.stretched recLen).recLen = recLen := by
  simp only [Slot.recLen, Slot.stretched, List.length_append, List.length_replicate] at h ⊢
  omega

theorem copyAt_raw (s : Slot) (stored len : UInt16) (pre post : Bytes) :
    copyAt (pre ++ (s.raw stored ++ post)) (pre.length + 4) (u16le len) = pre ++
      (s.raw len ++ post) := by
  have hsplit : ∀ v : UInt16, pre ++ (s.raw v ++ post) =
      (pre ++ u32le s.inode) ++
        (u16le v ++ ([s.nameLenLo, s.typeOrNamehi] ++ (s.body ++ post))) := by
    intro v
    simp only [Slot.raw, List.append_assoc]
  rw [hsplit, copyAt_next (by simp), hsplit, List.drop_left' (by simp), List.append_assoc,
    List.append_assoc]

theorem raw_stretched {s : Slot} {recLen : Nat} (h : s.recLen ≤ recLen) :
    s.raw (UInt16.ofNat recLen) ++ List.replicate (recLen - s.recLen) 0 =
      (s.stretched recLen).bytes := by
  rw [Slot.bytes, Slot.recLen_stretched h]
  simp only [Slot.raw, Slot.stretched, List.append_assoc]

theorem slotBytes_packSlots (entries : List (Slot × UInt16)) (pre : Bytes) (room tail : Nat)
    (hne : entries ≠ []) :
    writePackedFrom (pre.length + room) (entries.map (fun e => e.1.raw e.2)) pre.length
        (pre ++ List.replicate (room + tail) 0) =
      if (slotBytes (entries.map Prod.fst)).length ≤ room then
        .ok (pre ++ (slotBytes (packSlots room (entries.map Prod.fst)) ++ List.replicate tail 0))
      else .error .outOfBounds := by
  induction entries generalizing pre room with
  | nil => exact absurd rfl hne
  | cons e rest ih =>
    obtain ⟨s, stored⟩ := e
    simp only [List.map_cons, writePackedFrom, packSlots, Slot.length_raw, slotBytes_cons,
      List.length_append, Slot.length_bytes]
    by_cases hfits : s.recLen ≤ room
    · rw [if_neg (by omega), copyAt_append, Slot.length_raw, List.drop_replicate, copyAt_raw]
      cases rest with
      | nil =>
        have hzeros : List.replicate (room + tail - s.recLen) (0 : UInt8) =
            List.replicate (room - s.recLen) 0 ++ List.replicate tail 0 := by
          rw [List.replicate_append_replicate]
          congr 1
          omega
        simp only [List.map_nil, List.isEmpty_nil, if_true, writePackedFrom, slotBytes,
          List.flatMap_nil, List.length_nil, Nat.add_zero, List.flatMap_cons, List.append_nil]
        rw [if_pos hfits, hzeros, Nat.add_sub_cancel_left, ← List.append_assoc (s.raw _),
          raw_stretched hfits]
      | cons t more =>
        have hbytes : s.raw (UInt16.ofNat s.recLen) = s.bytes := rfl
        have hroom : pre.length + room = (pre ++ s.bytes).length + (room - s.recLen) := by
          rw [List.length_append, s.length_bytes]
          omega
        have hoff : pre.length + s.recLen = (pre ++ s.bytes).length := by
          rw [List.length_append, s.length_bytes]
        have hnext := ih (pre ++ s.bytes) (room - s.recLen) (by simp)
        rw [← hroom, ← hoff, List.append_assoc, ← Nat.sub_add_comm hfits] at hnext
        have hcons : ((t :: more).map (fun e : Slot × UInt16 => e.1.raw e.2)).isEmpty = false := rfl
        have hcons' : ((t :: more).map (Prod.fst : Slot × UInt16 → Slot)).isEmpty = false := rfl
        rw [hcons, hcons']
        simp only [Bool.false_eq_true, if_false, hbytes]
        rw [hnext, slotBytes_cons]
        refine ite_congr (propext ?_) (fun _ => ?_) (fun _ => rfl)
        · omega
        · simp only [List.append_assoc]
    · rw [if_pos (by omega), if_neg (by omega)]

section Pack

variable {hasFileType : Bool} {slots : List Slot} {usable : Nat}

theorem stretched_valid {s : Slot} (hv : s.Valid hasFileType) {recLen : Nat} (h : s.recLen ≤ recLen)
    (haligned : recLen % 4 = 0) : (s.stretched recLen).Valid hasFileType where
  aligned := by rw [Slot.recLen_stretched h, haligned]
  inside := by
    intro hlive
    have hin := hv.inside hlive
    simp only [Slot.stretched, Slot.nameLen, List.length_append] at hin ⊢
    omega

theorem entry_stretched {s : Slot} (hv : s.Valid hasFileType) (hlive : s.inode ≠ 0) (recLen : Nat) :
    (s.stretched recLen).entry hasFileType = s.entry hasFileType := by
  have hname : (s.stretched recLen).name hasFileType = s.name hasFileType :=
    List.take_append_of_le_length (hv.inside hlive)
  rw [Slot.entry, hname]
  rfl

theorem packSlots_cons (s t : Slot) (rest : List Slot) :
    packSlots usable (s :: t :: rest) = s :: packSlots (usable - s.recLen) (t :: rest) := rfl

theorem length_packSlots (hne : slots ≠ []) (hfits : (slotBytes slots).length ≤ usable) :
    (slotBytes (packSlots usable slots)).length = usable := by
  induction slots generalizing usable with
  | nil => exact absurd rfl hne
  | cons s rest ih =>
    rw [slotBytes_cons, List.length_append, s.length_bytes] at hfits
    cases rest with
    | nil =>
      rw [packSlots, if_pos List.isEmpty_nil, slotBytes_cons, List.length_append, Slot.length_bytes,
        Slot.recLen_stretched (by omega)]
      rfl
    | cons t more =>
      rw [packSlots_cons, slotBytes_cons, List.length_append, s.length_bytes,
        ih (by simp) (by omega)]
      omega

theorem mem_packSlots {x : Slot} (hfits : (slotBytes slots).length ≤ usable)
    (haligned : usable % 4 = 0)
    (hv : ∀ s ∈ slots, s.Valid hasFileType) (hx : x ∈ packSlots usable slots) :
    x.Valid hasFileType ∧ ∃ s ∈ slots, x.inode = s.inode := by
  induction slots generalizing usable with
  | nil => cases hx
  | cons s rest ih =>
    rw [slotBytes_cons, List.length_append, s.length_bytes] at hfits
    have hs := hv s List.mem_cons_self
    rw [packSlots] at hx
    split at hx
    · rw [List.mem_singleton] at hx
      subst hx
      exact ⟨stretched_valid hs (by omega) haligned, s, List.mem_cons_self, rfl⟩
    · have hsaligned := hs.aligned
      obtain rfl | hx := List.mem_cons.mp hx
      · exact ⟨hs, x, List.mem_cons_self, rfl⟩
      · obtain ⟨hvalid, t, ht, hinode⟩ :=
          ih (by omega) (by omega) (fun y hy => hv y (List.mem_cons_of_mem _ hy)) hx
        exact ⟨hvalid, t, List.mem_cons_of_mem _ ht, hinode⟩

theorem slotEntries_packSlots (hv : ∀ s ∈ slots, s.Valid hasFileType)
    (hlive : ∀ s ∈ slots, s.inode ≠ 0)
    (usable : Nat) : slotEntries hasFileType (packSlots usable slots) = slots.map
      (Slot.entry hasFileType) := by
  induction slots generalizing usable with
  | nil => rfl
  | cons s rest ih =>
    have hs := hlive s List.mem_cons_self
    rw [packSlots]
    split
    · rename_i hempty
      rw [List.isEmpty_iff] at hempty
      subst hempty
      rw [slotEntries_live (show (s.stretched usable).inode ≠ 0 from hs),
        entry_stretched (hv s List.mem_cons_self) hs]
      rfl
    · rw [slotEntries_live hs, ih (fun y hy => hv y (List.mem_cons_of_mem _ hy))
        (fun y hy => hlive y (List.mem_cons_of_mem _ hy)), List.map_cons]

theorem recLen_packSlots {x : Slot} (hfits : (slotBytes slots).length ≤ usable)
    (hx : x ∈ packSlots usable slots) (h : usable < 2 ^ 16 ∨ usable = 2 ^ 16 ∧ 2 ≤ slots.length) :
    x.recLen < 2 ^ 16 := by
  have hne : slots ≠ [] := by
    rintro rfl
    cases hx
  have hle := recLen_le_of_mem hx
  rw [length_packSlots hne hfits] at hle
  obtain hlt | ⟨heq, htwo⟩ := h
  · omega
  · -- the area holds another record, of eight bytes at least
    match slots, htwo with
    | s :: t :: more, _ =>
      rw [slotBytes_cons, List.length_append, s.length_bytes] at hfits
      have hs : 8 ≤ s.recLen := Nat.le_add_right 8 _
      rw [packSlots_cons] at hx
      obtain rfl | hx := List.mem_cons.mp hx
      · have ht : 8 ≤ (slotBytes (t :: more)).length := by
          rw [slotBytes_cons, List.length_append, t.length_bytes, Slot.recLen]
          omega
        omega
      · have hrest := recLen_le_of_mem hx
        rw [length_packSlots (by simp) (by omega)] at hrest
        omega

end Pack

/-- An entry's bytes with no more than the padding of its name. -/
structure Slot.Packed (hasFileType : Bool) (s : Slot) : Prop where
  live : s.inode ≠ 0
  recLen_eq : s.recLen = entryRecLen (s.nameLen hasFileType)

theorem Slot.Packed.valid {hasFileType : Bool} {s : Slot} (h : s.Packed hasFileType) :
    s.Valid hasFileType where
  aligned := by rw [h.recLen_eq, entryRecLen_aligned]
  inside := by
    intro _
    have hlen := h.recLen_eq
    have hle := le_entryRecLen (s.nameLen hasFileType)
    simp only [Slot.recLen] at hlen
    omega

theorem exists_room {hasFileType : Bool} {slots : List Slot} {usable : Nat} (hne : slots ≠ [])
    (hp : ∀ s ∈ slots, s.Packed hasFileType) (hfits : (slotBytes slots).length ≤ usable) :
    ∃ s ∈ packSlots usable slots, usable - (slotBytes slots).length ≤ s.room hasFileType := by
  induction slots generalizing usable with
  | nil => exact absurd rfl hne
  | cons s rest ih =>
    rw [slotBytes_cons, List.length_append, s.length_bytes] at hfits ⊢
    have hs := hp s List.mem_cons_self
    cases rest with
    | nil =>
      refine ⟨s.stretched usable, List.mem_singleton.mpr rfl, ?_⟩
      have hroom : (s.stretched usable).room hasFileType = usable - s.recLen := by
        rw [Slot.room, if_neg (show (s.stretched usable).inode ≠ 0 from hs.live),
          Slot.recLen_stretched (by omega), hs.recLen_eq]
        rfl
      rw [hroom]
      omega
    | cons t more =>
      obtain ⟨x, hx, hroom⟩ := ih (by simp) (fun y hy => hp y (List.mem_cons_of_mem _ hy))
        (show (slotBytes (t :: more)).length ≤ usable - s.recLen by omega)
      exact ⟨x, List.mem_cons_of_mem _ hx, by omega⟩

/-- A block of `blockSize` bytes from which the entries are read back, and which takes another entry
that is no longer than `free`. -/
structure Readable (hasFileType : Bool) (blockSize reservedTail : Nat) (entries : List DirEntry)
    (free : Nat) (block : Bytes) : Prop where
  length : block.length = blockSize
  parses : parseBlock (block.take (blockSize - reservedTail)) hasFileType = .ok entries
  grows : ∀ inode name fileType, inode ≠ 0 → 1 ≤ name.length → name.length ≤ 255 →
    entryRecLen name.length ≤ free →
    ∃ new, addEntryToBlock block inode name fileType hasFileType reservedTail = .ok new

theorem readable_slots {hasFileType : Bool} {slots : List Slot} {free : Nat} {post : Bytes}
    (hv : ∀ s ∈ slots, s.Valid hasFileType ∧ s.recLen < 2 ^ 16) (hlive : ∀ s ∈ slots, s.inode ≠ 0)
    (hroom : ∃ s ∈ slots, free ≤ s.room hasFileType) :
    Readable hasFileType ((slotBytes slots).length + post.length) post.length
      (slotEntries hasFileType slots) free (slotBytes slots ++ post) where
  length := List.length_append
  parses := by
    rw [Nat.add_sub_cancel, List.take_left]
    refine parseBlock_slots hv (fun s hs => ?_)
    simp [Slot.isTail, hlive s (List.dropLast_subset slots hs)]
  grows := by
    intro inode name fileType hinode hpos hmax hfree
    rw [addEntryToBlock_slots hpos hmax hinode hv]
    cases hinsert : insertSlot hasFileType inode name fileType slots with
    | some slots' => exact ⟨_, rfl⟩
    | none =>
      obtain ⟨s, hs, hs'⟩ := hroom
      have hsmall := insertSlot_eq_none.mp hinsert s hs
      omega

theorem parseBlock_wide {s : Slot} (hwide : s.recLen = 2 ^ 16) (hasFileType : Bool) :
    parseBlock s.bytes hasFileType = .error (.corruptDirEntry "bad rec_len") := by
  have hstored := @storedLen_slot s [] []
  rw [List.nil_append, List.append_nil, List.length_nil, Nat.zero_add, hwide] at hstored
  have hlen : s.bytes.length = 65535 + 1 := s.length_bytes.trans hwide
  have hiter : dirBlockIter hasFileType s.bytes = [.error (.corruptDirEntry "bad rec_len")] := by
    rw [dirBlockIter, hlen, entriesFrom]
    dsimp only
    rw [if_neg (by omega), Nat.zero_add, hstored, if_pos (.inl (by decide))]
  rw [parseBlock, hiter]
  rfl

theorem addEntryToBlock_wide {s : Slot} (hwide : s.recLen = 2 ^ 16) (post : Bytes) {inode : UInt32}
    {name : Bytes} (hinode : inode ≠ 0) (hpos : 1 ≤ name.length) (hmax : name.length ≤ 255)
      (fileType : DirEntryType)
    (hasFileType : Bool) : addEntryToBlock (s.bytes ++ post) inode name fileType hasFileType
      post.length =
      .error (.corruptDirEntry "bad rec_len during add") := by
  have hstored := @storedLen_slot s [] post
  rw [List.nil_append, List.length_nil, hwide] at hstored
  have hlen : (s.bytes ++ post).length = 65535 + post.length + 1 := by
    rw [List.length_append, s.length_bytes, hwide]
    omega
  have hnonempty : ¬ (name.isEmpty = true ∨ 255 < name.length) := by
    rw [List.isEmpty_iff]
    rintro (rfl | hlong)
    · exact absurd hpos (by decide)
    · omega
  have hneeded : entryRecLen name.length ≤ 264 := by
    unfold entryRecLen
    omega
  unfold addEntryToBlock
  rw [if_neg hinode, if_neg hnonempty, hlen, if_neg (by omega), if_neg (by omega), addEntryFrom]
  dsimp only
  rw [if_neg (by omega), hstored, if_pos (.inl (by decide))]

section Leaf

variable {hasFileType : Bool} {entries : List (Slot × UInt16)} {blockSize reservedTail : Nat}
  (hne : entries ≠ []) (hp : ∀ e ∈ entries, e.1.Packed hasFileType) (hle : reservedTail ≤ blockSize)
  (hfits : (slotBytes (entries.map Prod.fst)).length ≤ blockSize - reservedTail)

include hne hle

theorem writePackedLeaf_eq :
    writePackedLeaf (entries.map (fun e => e.1.raw e.2)) blockSize reservedTail =
      if (slotBytes (entries.map Prod.fst)).length ≤ blockSize - reservedTail then
        .ok (slotBytes (packSlots (blockSize - reservedTail) (entries.map Prod.fst)) ++
          List.replicate reservedTail 0)
      else .error .outOfBounds := by
  have hpack := slotBytes_packSlots entries [] (blockSize - reservedTail) reservedTail hne
  rw [Nat.sub_add_cancel hle] at hpack
  simp only [List.nil_append, List.length_nil, Nat.zero_add] at hpack
  rw [writePackedLeaf, if_neg (by omega), hpack]

include hp hfits

omit hle in
theorem packSlots_fills (haligned : (blockSize - reservedTail) % 4 = 0) :
    (slotBytes (packSlots (blockSize - reservedTail) (entries.map Prod.fst))).length =
        blockSize - reservedTail ∧
      (∀ s ∈ packSlots (blockSize - reservedTail) (entries.map Prod.fst), s.Valid hasFileType ∧
      s.inode ≠ 0) ∧
      slotEntries hasFileType (packSlots (blockSize - reservedTail) (entries.map Prod.fst)) =
        entries.map (fun e => e.1.entry hasFileType) := by
  have hp' : ∀ s ∈ entries.map Prod.fst, s.Packed hasFileType := by
    intro s hs
    obtain ⟨e, he, rfl⟩ := List.mem_map.mp hs
    exact hp e he
  refine ⟨length_packSlots (by simpa using hne) hfits, ?_, ?_⟩
  · intro s hs
    obtain ⟨hvalid, t, ht, hinode⟩ := mem_packSlots hfits haligned (fun x hx => (hp' x hx).valid) hs
    exact ⟨hvalid, hinode ▸ (hp' t ht).live⟩
  · rw [slotEntries_packSlots (fun x hx => (hp' x hx).valid) (fun x hx => (hp' x hx).live),
      List.map_map]
    rfl

theorem writePackedLeaf_readable (haligned : (blockSize - reservedTail) % 4 = 0)
    (hsize : blockSize - reservedTail ≤ 2 ^ 16) :
    (∃ block, writePackedLeaf (entries.map (fun e => e.1.raw e.2)) blockSize
      reservedTail = .ok block ∧
      Readable hasFileType blockSize reservedTail (entries.map (fun e => e.1.entry hasFileType))
        (blockSize - reservedTail - (slotBytes (entries.map Prod.fst)).length) block) ↔
      (blockSize - reservedTail < 2 ^ 16 ∨ 2 ≤ entries.length) := by
  obtain ⟨hlen, hall, hentries⟩ := packSlots_fills hne hp hfits haligned
  rw [writePackedLeaf_eq hne hle, if_pos hfits]
  constructor
  · rintro ⟨block, hblock, hreads⟩
    obtain rfl := Except.ok.inj hblock
    by_contra hcon
    push Not at hcon
    -- the one entry's record is as long as the area
    match entries, hne, hcon.2 with
    | [e], _, _ =>
      have hfits' : e.1.recLen ≤ blockSize - reservedTail := by
        simpa [slotBytes, Slot.length_bytes] using hfits
      have hone : slotBytes (packSlots (blockSize - reservedTail) ([e].map Prod.fst)) =
          (e.1.stretched (blockSize - reservedTail)).bytes := List.append_nil _
      have hparses := hreads.parses
      rw [hone] at hparses hlen
      rw [List.take_left' hlen, parseBlock_wide
        (by rw [Slot.recLen_stretched hfits']; omega)] at hparses
      cases hparses
  · intro h
    refine ⟨_, rfl, ?_⟩
    have hread := @readable_slots hasFileType _
      (blockSize - reservedTail - (slotBytes (entries.map Prod.fst)).length)
      (List.replicate reservedTail 0)
      (fun s hs => ⟨(hall s hs).1, recLen_packSlots hfits hs ?_⟩) (fun s hs => (hall s hs).2)
      (exists_room (by simpa using hne) ?_ hfits)
    · rw [hlen, hentries, List.length_replicate, Nat.sub_add_cancel hle] at hread
      exact hread
    · rw [List.length_map]
      omega
    · intro s hs
      obtain ⟨e, he, rfl⟩ := List.mem_map.mp hs
      exact hp e he

end Leaf

def Slot.empty (recLen : Nat) : Slot := ⟨0, 0, 0, List.replicate (recLen - 8) 0⟩

theorem Slot.recLen_empty {recLen : Nat} (h : 8 ≤ recLen) : (Slot.empty recLen).recLen =
    recLen := by
  simp only [Slot.recLen, Slot.empty, List.length_replicate]
  omega

theorem empty_bytes {recLen : Nat} (h : 8 ≤ recLen) (tail : Nat) :
    copyAt (List.replicate (recLen + tail) 0) 4 (u16le (UInt16.ofNat recLen)) =
      slotBytes [Slot.empty recLen] ++ List.replicate tail 0 := by
  have hzeros : List.replicate (recLen + tail) (0 : UInt8) =
      [0, 0, 0, 0] ++ List.replicate (recLen + tail - 4) 0 := by
    rw [show ([0, 0, 0, 0] : Bytes) = List.replicate 4 0 from rfl, List.replicate_append_replicate]
    congr 1
    omega
  have hrest : List.replicate (recLen + tail - 4 - 2) (0 : UInt8) =
      [0, 0] ++ (List.replicate (recLen - 8) 0 ++ List.replicate tail 0) := by
    rw [show ([0, 0] : Bytes) = List.replicate 2 0 from rfl, List.replicate_append_replicate,
      List.replicate_append_replicate]
    congr 1
    omega
  rw [hzeros, copyAt_next (show 4 = ([0, 0, 0, 0] : Bytes).length from rfl), length_u16le,
    List.drop_replicate, hrest, slotBytes_cons, Slot.bytes,
    Slot.recLen_empty h]
  simp only [Slot.empty, slotBytes, List.flatMap_nil, List.append_assoc, List.nil_append]
  rfl

end Dir

namespace Mount

def freshTail (m : Mount) : Nat := if m.csum.enabled then 12 else 0

/-- A fresh directory block holding one entry, with its checksum tail. -/
def seededDirBlock (crc : Crc) (m : Mount) (parent : Inode) (parentIno : UInt32) (name : Bytes)
    (targetIno : UInt32) (fileType : DirEntryType) (hasFt : Bool) : Result Bytes := do
  let bs := m.fs.sb.blockSize
  let block := copyAt (List.replicate bs 0) 4 (u16le (UInt16.ofNat (bs - m.freshTail)))
  let block ← Dir.addEntryToBlock block targetIno name fileType hasFt m.freshTail
  .ok (if m.csum.enabled then m.csum.patchDirEntryTail crc parentIno parent.generation
    block else block)

variable (crc : Crc) (m : Mount) (parent : Inode) (parentIno : UInt32)

def freshArea : Nat := m.fs.sb.blockSize - m.freshTail

variable (hsize : m.fs.sb.logBlockSize ≤ 6)

include hsize in
theorem freshArea_bounds :
    m.freshTail ≤ m.fs.sb.blockSize ∧ 1012 ≤ m.freshArea ∧ m.freshArea ≤ 2 ^ 16 ∧
    m.freshArea % 4 = 0 := by
  have htail : m.freshTail = 12 ∨ m.freshTail = 0 := by
    unfold freshTail
    split
    · exact .inl rfl
    · exact .inr rfl
  have hblock : 1024 ≤ m.fs.sb.blockSize ∧ m.fs.sb.blockSize ≤ 2 ^ 16 ∧
      m.fs.sb.blockSize % 4 = 0 := by
    unfold Superblock.blockSize
    generalize m.fs.sb.logBlockSize = k at hsize
    interval_cases k <;> decide
  unfold freshArea
  omega

theorem patched_eq (area : Bytes) :
    ∃ post, post.length = m.freshTail ∧
      (if m.csum.enabled then m.csum.patchDirEntryTail crc parentIno parent.generation
        (area ++ List.replicate m.freshTail 0) else area ++ List.replicate m.freshTail 0) =
          area ++ post := by
  unfold freshTail
  split
  · rename_i henabled
    have htake := m.csum.take_patchDirEntryTail crc parentIno parent.generation
      (area ++ List.replicate 12 0)
    have hlen := m.csum.length_patchDirEntryTail crc parentIno parent.generation
      (area ++ List.replicate 12 0)
    generalize m.csum.patchDirEntryTail crc parentIno parent.generation
      (area ++ List.replicate 12 0) = new at htake hlen
    simp only [List.length_append, List.length_replicate, Nat.add_sub_cancel,
      List.take_left] at htake hlen
    refine ⟨new.drop area.length, ?_, ?_⟩
    · rw [List.length_drop]
      omega
    · conv_lhs => rw [← List.take_append_drop area.length new, htake]
  · exact ⟨[], rfl, rfl⟩

section Seed

variable {name : Bytes} {targetIno : UInt32} (fileType : DirEntryType) (hasFt : Bool)
  (htarget : targetIno ≠ 0) (hpos : 1 ≤ name.length) (hmax : name.length ≤ 255)

include hsize htarget hpos hmax

theorem seededDirBlock_eq (harea : m.freshArea < 2 ^ 16) :
    ∃ post, post.length = m.freshTail ∧
      m.seededDirBlock crc parent parentIno name targetIno fileType hasFt =
        .ok (Dir.slotBytes [.fresh hasFt targetIno name fileType m.freshArea] ++ post) := by
  obtain ⟨htail, hlow, -, haligned⟩ := m.freshArea_bounds hsize
  have hblock : m.fs.sb.blockSize = m.freshArea + m.freshTail := (Nat.sub_add_cancel htail).symm
  have hneeded : Dir.entryRecLen name.length ≤ m.freshArea := by
    unfold Dir.entryRecLen
    omega
  have hempty := @Dir.Slot.recLen_empty m.freshArea (by omega)
  have hroom : (Dir.Slot.empty m.freshArea).room hasFt = m.freshArea := hempty
  have hvempty : ∀ s ∈ [Dir.Slot.empty m.freshArea], s.Valid hasFt ∧ s.recLen < 2 ^ 16 := by
    rw [List.forall_mem_singleton]
    exact ⟨⟨by rw [hempty, haligned], fun h => absurd rfl h⟩, by rw [hempty]; exact harea⟩
  have hadd := @Dir.addEntryToBlock_slots hasFt targetIno name fileType hpos hmax htarget _ hvempty
    (List.replicate m.freshTail 0)
  rw [Dir.insertSlot, hroom, if_pos hneeded, List.length_replicate, ← Dir.empty_bytes (by omega),
    ← hblock] at hadd
  obtain ⟨post, hpost, hpatched⟩ := m.patched_eq crc parent parentIno
    (Dir.slotBytes [.fresh hasFt targetIno name fileType m.freshArea])
  refine ⟨post, hpost, ?_⟩
  unfold seededDirBlock
  dsimp only
  rw [show m.fs.sb.blockSize - m.freshTail = m.freshArea from rfl, hadd]
  exact congrArg Except.ok hpatched

theorem seededDirBlock_readable (harea : m.freshArea < 2 ^ 16) :
    ∃ block, m.seededDirBlock crc parent parentIno name targetIno fileType hasFt = .ok block ∧
      Dir.Readable hasFt m.fs.sb.blockSize m.freshTail [Dir.newEntry hasFt targetIno name fileType]
        (m.freshArea - Dir.entryRecLen name.length) block := by
  obtain ⟨htail, hlow, -, haligned⟩ := m.freshArea_bounds hsize
  obtain ⟨post, hpost, heq⟩ := m.seededDirBlock_eq crc parent parentIno hsize fileType hasFt htarget
    hpos hmax harea
  refine ⟨_, heq, ?_⟩
  have hneeded := Dir.le_entryRecLen name.length
  have hlive : (Dir.Slot.fresh hasFt targetIno name fileType m.freshArea).inode ≠ 0 := htarget
  have hlen := @Dir.Slot.recLen_fresh hasFt targetIno name fileType m.freshArea (by omega)
  have hblock : m.freshArea + m.freshTail = m.fs.sb.blockSize := Nat.sub_add_cancel htail
  have hread := @Dir.readable_slots hasFt [.fresh hasFt targetIno name fileType m.freshArea]
    (m.freshArea - Dir.entryRecLen name.length) post ?_ ?_ ?_
  · rw [Dir.slotEntries_live hlive, Dir.entry_fresh hmax, Dir.sum_recLen, List.map_singleton,
      List.sum_singleton, hlen, hpost, hblock] at hread
    exact hread
  · rw [List.forall_mem_singleton, hlen]
    exact ⟨Dir.valid_fresh hmax (by omega) haligned, harea⟩
  · rw [List.forall_mem_singleton]
    exact hlive
  · refine ⟨_, List.mem_singleton.mpr rfl, ?_⟩
    rw [Dir.Slot.room, if_neg hlive, hlen, Dir.nameLen_fresh hmax]

omit hsize in
theorem seededDirBlock_wide (harea : m.freshArea = 2 ^ 16) :
    m.seededDirBlock crc parent parentIno name targetIno fileType hasFt =
      .error (.corruptDirEntry "bad rec_len during add") := by
  have hblock : m.fs.sb.blockSize = m.freshArea + m.freshTail := by
    unfold freshArea at harea ⊢
    omega
  have hempty := @Dir.Slot.recLen_empty m.freshArea (by omega)
  have hadd := Dir.addEntryToBlock_wide (hempty.trans harea) (List.replicate m.freshTail 0) htarget
    hpos hmax fileType hasFt
  have hbytes : Dir.slotBytes [Dir.Slot.empty m.freshArea] = (Dir.Slot.empty m.freshArea).bytes :=
    List.append_nil _
  rw [List.length_replicate] at hadd
  unfold seededDirBlock
  dsimp only
  rw [show m.fs.sb.blockSize - m.freshTail = m.freshArea from rfl, hblock, Dir.empty_bytes
    (by omega), hbytes, hadd]
  rfl

end Seed

def SeedReads (name : Bytes) (targetIno : UInt32) (fileType : DirEntryType) (hasFt : Bool) : Prop :=
  ∃ block, m.seededDirBlock crc parent parentIno name targetIno fileType hasFt = .ok block ∧
    Dir.Readable hasFt m.fs.sb.blockSize m.freshTail [Dir.newEntry hasFt targetIno name fileType]
      (m.freshArea - Dir.entryRecLen name.length) block

/-- So is a leaf packed from entries, whatever lengths they had stored. -/
def PackReads (hasFt : Bool) (entries : List (Dir.Slot × UInt16)) : Prop :=
  ∃ block, Dir.writePackedLeaf (entries.map (fun e => e.1.raw e.2)) m.fs.sb.blockSize
    m.freshTail = .ok block ∧
    Dir.Readable hasFt m.fs.sb.blockSize m.freshTail (entries.map (fun e => e.1.entry hasFt))
      (m.freshArea - (Dir.slotBytes (entries.map Prod.fst)).length) block

/-- The blocks that the driver builds are read back, unless one record would be 65536 bytes. -/
theorem fresh_blocks_read (hsize : m.fs.sb.logBlockSize ≤ 6) (hasFt : Bool) :
    (∀ name targetIno fileType, targetIno ≠ 0 → 1 ≤ name.length → name.length ≤ 255 →
      (m.SeedReads crc parent parentIno name targetIno fileType hasFt ↔ m.freshArea < 2 ^ 16)) ∧
    (∀ entries, entries ≠ [] → (∀ e ∈ entries, e.1.Packed hasFt) →
      (Dir.slotBytes (entries.map Prod.fst)).length ≤ m.freshArea →
      (m.PackReads hasFt entries ↔ m.freshArea < 2 ^ 16 ∨ 2 ≤ entries.length)) := by
  obtain ⟨htail, hlow, hhigh, haligned⟩ := m.freshArea_bounds hsize
  refine ⟨fun name targetIno fileType htarget hpos hmax => ⟨?_, ?_⟩, fun entries hne hp hfits => ?_⟩
  · rintro ⟨block, hblock, -⟩
    by_contra hwide
    rw [m.seededDirBlock_wide crc parent parentIno fileType hasFt htarget hpos hmax
      (by omega)] at hblock
    cases hblock
  · exact m.seededDirBlock_readable crc parent parentIno hsize fileType hasFt htarget hpos hmax
  · exact Dir.writePackedLeaf_readable hne hp htail hfits haligned hhigh

def smallBlocks : Mount where
  fs := ⟨Path.smallSb, [], 64 * 1024, true⟩
  csum := ⟨0, false⟩
  cleared := SortedMap.empty
  journal := none
  directCommitFailed := false

def wideBlocks : Mount :=
    { smallBlocks with fs := ⟨{ Path.smallSb with logBlockSize := 6 }, [], 2 ^ 24, true⟩ }

theorem freshArea_wideBlocks : wideBlocks.freshArea = 2 ^ 16 := by decide

theorem fresh_blocks_read_small :
    smallBlocks.SeedReads linuxCrc32c Path.indexedInode 2 [0x61] 12 .regFile true ∧
      smallBlocks.PackReads true [(⟨12, 1, 1, [0x61, 0, 0, 0]⟩, 1012)] ∧
      ¬ wideBlocks.PackReads true [(⟨12, 1, 1, [0x61, 0, 0, 0]⟩, 1012)] := by
  have hpacked : ∀ e ∈ [((⟨12, 1, 1, [0x61, 0, 0, 0]⟩, 1012) : Dir.Slot × UInt16)],
      e.1.Packed true := by
    rw [List.forall_mem_singleton]
    exact ⟨by decide, by decide⟩
  refine ⟨?_, ?_, ?_⟩
  · exact ((fresh_blocks_read linuxCrc32c smallBlocks Path.indexedInode 2 (by decide) true).1
      [0x61] 12 .regFile (by decide) (by decide) (by decide)).mpr (by decide)
  · exact ((fresh_blocks_read linuxCrc32c smallBlocks Path.indexedInode 2 (by decide) true).2 _
      (by decide) hpacked (by decide)).mpr (.inl (by decide))
  · intro hreads
    have hcon := ((fresh_blocks_read linuxCrc32c wideBlocks Path.indexedInode 2 (by decide) true).2
      _ (by decide) hpacked (by rw [freshArea_wideBlocks]; decide)).mp hreads
    rw [freshArea_wideBlocks] at hcon
    exact absurd hcon (by decide)

/-- The first name in a directory of 64 KiB blocks is refused. -/
theorem wide_seed_refused : ¬ ∀ m : Mount, m.fs.sb.logBlockSize ≤ 6 → ∀ name targetIno,
    targetIno ≠ 0 →
    1 ≤ name.length → name.length ≤ 255 →
      m.SeedReads linuxCrc32c Path.indexedInode 2 name targetIno .regFile true := by
  intro hclaim
  obtain ⟨block, hblock, -⟩ := hclaim wideBlocks (by decide) [0x61] 12 (by decide)
    (by decide) (by decide)
  rw [wideBlocks.seededDirBlock_wide linuxCrc32c Path.indexedInode 2 .regFile true (by decide)
    (by decide) (by decide) freshArea_wideBlocks] at hblock
  cases hblock

end Mount

end FsExt4
