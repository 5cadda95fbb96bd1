import FsExt4.DirStaging
import FsExt4.StagedInode

namespace FsExt4

open Lib Jbd2 Dir

namespace Mount

section Model

variable (crc : Crc) (m : Mount) (d : Disk) (dirIno : UInt32) (inode : Inode)

def physical (logical : Nat) : Result Nat := do
  match ← m.mapInodeLogical d inode logical with
  | none => throw (.corruptDirEntry "htree block is not mapped")
  | some phys => return phys

/-- One level of the index: its blocks, each checked, and what they point at. -/
def levelNodes (buf : BlockBuffer) : List UInt32 → Result (List Nat × List UInt32)
  | [] => .ok ([], [])
  | logical :: rest => do
    let phys ← m.physical d inode logical.toNat
    let block ← buf.bufferedBlock (m.fs.reader d) phys
    m.checkDxBlock crc dirIno inode block false
    let (_, entries) ← Htree.parseNodeEntries block
    let (nodes, next) ← levelNodes buf rest
    return (phys :: nodes, entries.map Htree.DxEntry.block ++ next)

def indexNodes (buf : BlockBuffer) : Nat → List UInt32 → Result (List Nat)
  | 0, _ => .ok []
  | levels + 1, level => do
    let (nodes, next) ← m.levelNodes crc d dirIno inode buf level
    let below ← indexNodes buf levels next
    return nodes ++ below

/-- The interior nodes below a root, and none below one that does not parse. -/
def interiorNodes (buf : BlockBuffer) (root : Bytes) : Result (List Nat) :=
  match Htree.parseRootInfo root, Htree.parseRootEntries root with
  | .ok info, .ok (_, entries) =>
    indexNodes crc m d dirIno inode buf info.indirectLevels (entries.map Htree.DxEntry.block)
  | _, _ => .ok []

/-- A block with the record at `at_`, which spans to its end, cut short for a checksum tail. -/
def linearBlock (at_ : Nat) (block : Bytes) : Bytes :=
  m.csum.patchDirEntryTail crc dirIno inode.generation
    (copyAt block (at_ + 4) (u16le (UInt16.ofNat (m.fs.sb.blockSize - at_ - 12))))

def linearizeAll : List (Nat × Nat) → BlockBuffer → Result BlockBuffer
  | [], buf => .ok buf
  | (phys, at_) :: rest, buf => do
    let buf ← buf.edit (m.fs.reader d) phys (m.linearBlock crc dirIno inode at_)
    linearizeAll rest buf

/-- With checksums, each block of the index, with the offset of the record that spans to its end. -/
def linearizeIndex (rootPhys : Nat) (nodes : List Nat) (buf : BlockBuffer) : Result BlockBuffer :=
  if m.csum.enabled then
    linearizeAll crc m d dirIno inode ((rootPhys, 12) :: nodes.map (fun phys => (phys, 0))) buf
  else .ok buf

end Model

def bufferDropHtreeIndex (crc : Crc) (m : Mount) (d : Disk) (buf : BlockBuffer) (dirIno : UInt32) :
    Result BlockBuffer := do
  let (inode, raw) ← m.bufferedInodeVerified crc d buf dirIno
  if !inode.isIndexed then return buf
  let rootPhys ← m.physical d inode 0
  let root ← buf.bufferedBlock (m.fs.reader d) rootPhys
  m.checkDxBlock crc dirIno inode root true
  let nodes ← m.interiorNodes crc d dirIno inode buf root
  let buf ← m.linearizeIndex crc d dirIno inode rootPhys nodes buf
  let flags := inode.flags &&& ~~~inodeFlagIndex
  m.bufferWriteDirInode crc d buf dirIno inode.generation (copyAt raw 0x20 (u32le flags))

end Mount

namespace Dir

def Record.tail (c : UInt32) : Record := ⟨0, [], tailFileType, u32le c⟩

def Record.shortened (r : Record) : Record := { r with pad := r.pad.take (r.pad.length - 12) }

theorem Record.recLen_tail (c : UInt32) : (Record.tail c).recLen = 12 := by
  simp [Record.tail, Record.recLen]

theorem Record.isTail_tail (c : UInt32) : (Record.tail c).isTail = true := by
  rw [Record.isTail, Record.recLen_tail]
  rfl

theorem Record.valid_tail (hasFileType : Bool) (c : UInt32) : (Record.tail c).Valid hasFileType :=
  ⟨by rw [Record.recLen_tail], by rw [Record.recLen_tail]; decide, fun hno => absurd rfl hno⟩

theorem Record.recLen_shortened {r : Record} (hpad : 12 ≤ r.pad.length) :
    r.shortened.recLen = r.recLen - 12 := by
  simp only [Record.shortened, Record.recLen, List.length_take]
  omega

end Dir

namespace Checksummer

variable (crc : Crc) (csum : Checksummer) (ino generation : UInt32)

theorem copyAll_tailPatches (a t : Bytes) (ht : t.length = 12) (c : UInt32) :
    copyAll (a ++ t) (tailPatches (a.length + 12) c) = a ++ (Record.tail c).bytes := by
  have h12 : a.length + 12 - 12 = a.length := by omega
  have h8 : a.length + 12 - 8 =
    (a ++ u32le 0).length := by rw [List.length_append, length_u32le]; omega
  have h6 : a.length + 12 - 6 = (a ++ u32le 0 ++ u16le 12).length := by
    rw [List.length_append, List.length_append, length_u32le, length_u16le]
    omega
  have h4 : a.length + 12 - 4 = (a ++ u32le 0 ++ u16le 12 ++ [0, tailFileType]).length := by
    rw [List.length_append, List.length_append, List.length_append, length_u32le, length_u16le]
    rfl
  simp only [tailPatches, List.cons_append, List.nil_append, copyAll_cons]
  rw [h12, copyAt_append, ← List.append_assoc a, h8, copyAt_append, ← List.append_assoc
    (a ++ u32le 0), h6,
    copyAt_append, ← List.append_assoc (a ++ u32le 0 ++ u16le 12), h4, copyAt_append]
  have hrest : List.drop (u32le c).length (List.drop [0, tailFileType].length
      (List.drop (u16le 12).length (List.drop (u32le 0).length t))) = [] := by
    rw [length_u32le, length_u32le, length_u16le, List.drop_drop, List.drop_drop, List.drop_drop]
    exact List.drop_eq_nil_of_le (by rw [ht]; decide)
  rw [hrest, List.append_nil]
  simp only [List.append_assoc]
  rfl

theorem patchDirEntryTail_append (a t : Bytes) (ht : t.length = 12)
    (henabled : csum.enabled = true) :
    csum.patchDirEntryTail crc ino generation (a ++ t) =
      a ++ (Record.tail (crc (crc (crc csum.seed (u32le ino)) (u32le generation)) a)).bytes := by
  have hlen : (a ++ t).length = a.length + 12 := by rw [List.length_append, ht]
  rw [patchDirEntryTail_eq crc csum ino generation (a ++ t) henabled (by omega),
    dirEntryTailSum, hlen, Nat.add_sub_cancel]
  have hfront : slice (a ++ t) 0 a.length = a := by
    rw [slice, List.drop_zero, List.take_left]
  rw [hfront, copyAll_tailPatches a t ht]

end Checksummer

theorem copyAt_of_slice {b : Bytes} {off : Nat} {src : Bytes} (h : slice b off src.length = src) :
    copyAt b off src = b := by
  have hsplit : b.drop off = src ++ b.drop (off + src.length) := by
    rw [← List.take_append_drop src.length (b.drop off), List.drop_drop]
    congr 1
  rw [copyAt, List.append_assoc, ← hsplit, List.take_append_drop]

namespace Mount

section Linear

variable {crc : Crc} {m : Mount} {dirIno : UInt32} {inode : Inode} {hasFileType : Bool}
  {pre : Bytes} {r : Record}

def tailSum (crc : Crc) (m : Mount) (dirIno : UInt32) (inode : Inode) (entries : Bytes) : UInt32 :=
  crc (crc (crc m.csum.seed (u32le dirIno)) (u32le inode.generation)) entries

variable (hspan : pre.length + r.recLen = m.fs.sb.blockSize) (hpad : 12 ≤ r.pad.length)
  (henabled : m.csum.enabled = true)

include hspan hpad henabled

theorem linearBlock_append : m.linearBlock crc dirIno inode pre.length (pre ++ r.bytes) =
    pre ++ r.shortened.bytes ++
      (Record.tail (m.tailSum crc dirIno inode (pre ++ r.shortened.bytes))).bytes := by
  have hlen : m.fs.sb.blockSize - pre.length - 12 = r.shortened.recLen := by
    rw [Record.recLen_shortened hpad]
    omega
  have hsplit : pre ++ r.bytes = (pre ++ u32le r.inode) ++ (u16le (UInt16.ofNat r.recLen) ++
      ([UInt8.ofNat (r.name.length % 256), r.typeOrNamehi] ++ r.name ++ r.pad)) := by
    simp only [Record.bytes, List.append_assoc]
  have hat : pre.length + 4 = (pre ++ u32le r.inode).length := by
    rw [List.length_append, length_u32le]
  have hdrop : (u16le (UInt16.ofNat r.recLen) ++
      ([UInt8.ofNat (r.name.length % 256), r.typeOrNamehi] ++ r.name ++ r.pad)).drop
        (u16le (UInt16.ofNat r.shortened.recLen)).length =
      [UInt8.ofNat (r.name.length % 256), r.typeOrNamehi] ++ r.name ++ r.pad :=
    List.drop_left' (by rw [length_u16le, length_u16le])
  have hcut : copyAt (pre ++ r.bytes) (pre.length + 4) (u16le (UInt16.ofNat r.shortened.recLen)) =
      (pre ++ r.shortened.bytes) ++ r.pad.drop (r.pad.length - 12) := by
    rw [hsplit, hat, copyAt_append, hdrop]
    conv_lhs => rw [← List.take_append_drop (r.pad.length - 12) r.pad]
    simp only [Record.bytes, Record.shortened, List.append_assoc]
  rw [linearBlock, hlen, hcut, Checksummer.patchDirEntryTail_append crc m.csum dirIno
    inode.generation _ _ (by rw [List.length_drop]; omega) henabled]
  rfl

theorem linearBlock_linearBlock :
    m.linearBlock crc dirIno inode pre.length (m.linearBlock crc dirIno inode pre.length
      (pre ++ r.bytes)) = m.linearBlock crc dirIno inode pre.length (pre ++ r.bytes) := by
  have hlen : m.fs.sb.blockSize - pre.length - 12 = r.shortened.recLen := by
    rw [Record.recLen_shortened hpad]
    omega
  have hlong : 4 + 2 ≤ r.shortened.recLen := by
    unfold Record.recLen
    omega
  rw [linearBlock_append hspan hpad henabled]
  generalize hsum : m.tailSum crc dirIno inode (pre ++ r.shortened.bytes) = c
  have hfield : slice (pre ++ r.shortened.bytes ++ (Record.tail c).bytes) (pre.length + 4) 2 =
      u16le (UInt16.ofNat r.shortened.recLen) := by
    rw [List.append_assoc, slice_record 4 2 hlong]
    simp [slice, Record.bytes]
  rw [linearBlock, hlen, copyAt_of_slice (by rw [length_u16le]; exact hfield),
    Checksummer.patchDirEntryTail_append crc m.csum dirIno inode.generation _ _
      (by rw [Record.length_bytes, Record.recLen_tail]) henabled, ← hsum]
  rfl

end Linear

end Mount

namespace Dir.Tiles

variable {hasFileType : Bool} {front : List Record} {r : Record} {block : Bytes}

theorem shortened (h : Tiles hasFileType (front ++ [r]) block) (hpad : 12 ≤ r.pad.length)
    (hnot : r.shortened.isTail = false) (c : UInt32) :
    Tiles hasFileType (front ++ [r.shortened, Record.tail c])
      (front.flatMap Record.bytes ++ r.shortened.bytes ++ (Record.tail c).bytes) := by
  have hr := h.valid r (by simp)
  have hlen := Record.recLen_shortened hpad
  have hge : 12 ≤ r.recLen := by
    unfold Record.recLen
    omega
  refine ⟨by simp, ?_, ?_⟩
  · intro x hx
    obtain hx | hx := List.mem_append.mp hx
    · exact h.valid x (List.mem_append_left _ hx)
    · simp only [List.mem_cons, List.not_mem_nil, or_false] at hx
      obtain rfl | rfl := hx
      · have haligned := hr.aligned
        have hfits := hr.fits
        exact ⟨by omega, by omega, hr.nameFits⟩
      · exact Record.valid_tail hasFileType c
  · intro x hx
    have hsplit : (front ++ [r.shortened, Record.tail c]).dropLast = front ++ [r.shortened] := by
      rw [List.dropLast_append_of_ne_nil (by simp)]
      rfl
    rw [hsplit] at hx
    obtain hx | hx := List.mem_append.mp hx
    · refine h.tailLast x ?_
      rw [List.dropLast_concat]
      exact hx
    · obtain rfl := List.mem_singleton.mp hx
      exact hnot

end Dir.Tiles

namespace Dir

theorem liveEntries_shortened (hasFileType : Bool) (front : List Record) (r : Record) (c : UInt32) :
    liveEntries hasFileType (front ++ [r.shortened, Record.tail c]) =
      liveEntries hasFileType (front ++ [r]) := by
  have hinode : r.shortened.inode = r.inode := rfl
  have hentry : r.shortened.entry hasFileType = r.entry hasFileType := rfl
  have htail : ((Record.tail c).inode != 0) = false := rfl
  simp only [liveEntries, List.filter_append, List.map_append, List.filter_cons,
    List.filter_nil, hinode, htail]
  congr 1
  split
  · simp [hentry]
  · simp

end Dir

def Inode.unindexed (inode : Inode) : Inode :=
  { inode with flags := inode.flags &&& ~~~inodeFlagIndex }

namespace Mount

section Directory

variable (crc : Crc) (m : Mount) (d : Disk) (dirIno : UInt32) (inode : Inode) (view : Nat → Bytes)

def totalBlocks : Nat := divCeil inode.size m.fs.sb.blockSize

def dxRoot : Bytes := m.logicalBlock d inode view 0

def dxLevel : Nat → List UInt32
  | 0 => Htree.children (m.dxRoot d inode view) 32
  | k + 1 => (dxLevel k).flatMap (fun l => Htree.children (m.logicalBlock d inode view l.toNat) 8)

def dxLevels : Nat := ((m.dxRoot d inode view).getD 30 0).toNat

def isNode (l : Nat) : Bool :=
  (List.range (m.dxLevels d inode view)).any (fun k =>
    (m.dxLevel d inode view k).any (fun c => c.toNat == l))

def leaves : List Nat :=
  (List.range (m.totalBlocks inode)).filter (fun l => l != 0 && !m.isNode d inode view l)

def linearEntries (l : Nat) : List DirEntry :=
  match m.mapInodeLogical d inode l with
  | .ok (some phys) => (parseBlock (view phys) m.fs.sb.hasFiletype).toOption.getD []
  | _ => []

/-- A run of records that tiles the block up to its checksum tail, if it has to have one. -/
def LinearBlock (block : Bytes) : Prop :=
  ∃ rs, Tiles m.fs.sb.hasFiletype rs block ∧ (m.csum.enabled = true →
    (∃ front t, rs = front ++ [t] ∧ t.isTail = true) ∧
      m.csum.verifyDirEntryTail crc dirIno inode.generation block = true)

/-- An indexed directory: its root is `.` and a `..` that spans the rest, every interior node is one
unused record as long as its block, and every other block is a linear one. -/
structure IndexedDirectory (dot dotdot : Record) : Prop where
  indexed : inode.isIndexed = true
  /-- No two blocks of the directory are one, and none is the inode's. -/
  distinct : ∀ l < m.totalBlocks inode, ∀ l' < m.totalBlocks inode, ∀ phys,
    m.mapInodeLogical d inode l = .ok (some phys) → m.mapInodeLogical d inode l' =
      .ok (some phys) → l = l'
  apart : ∀ block off, locateInode m.fs.sb m.fs.groups dirIno = .ok (block, off) →
    ∀ l < m.totalBlocks inode, m.mapInodeLogical d inode l ≠ .ok (some block)
  nonempty : 0 < m.totalBlocks inode
  rootRecords : Tiles m.fs.sb.hasFiletype [dot, dotdot] (m.dxRoot d inode view)
  dotRecord : dot.inode ≠ 0 ∧ dot.name = InlineData.dotName ∧ dot.recLen = 12
  dotdotRecord : dotdot.inode ≠ 0 ∧ dotdot.name = InlineData.dotdotName ∧
    dotdot.recLen = m.fs.sb.blockSize - 12
  rootInfo : u32leAt (m.dxRoot d inode view) 24 = 0 ∧ (m.dxRoot d inode view)[29]? = some 8
  rootNode : Htree.NodeAt (m.dxRoot d inode view) 32
  nodes : ∀ l, m.isNode d inode view l = true → l < m.totalBlocks inode ∧ l ≠ 0 ∧
    ∃ phys r, m.mapInodeLogical d inode l = .ok (some phys) ∧
      Tiles m.fs.sb.hasFiletype [r] (view phys) ∧ r.inode = 0 ∧ r.name = [] ∧
      r.recLen = m.fs.sb.blockSize ∧ Htree.NodeAt (view phys) 8
  leafBlocks : ∀ l ∈ m.leaves d inode view, ∀ phys, m.mapInodeLogical d inode l = .ok (some phys) →
    m.LinearBlock crc dirIno inode (view phys)

/-- The directory has become a linear one and has lost nothing. -/
structure DropsIndex (dot dotdot : Record) (buf' : BlockBuffer) : Prop where
  /-- The inode is the same but for its flag. -/
  flag : ∃ raw', m.bufferedInodeVerified crc d buf' dirIno =
    .ok (inode.unindexed, raw')
  linear : ∀ l < m.totalBlocks inode, ∀ phys,
    m.mapInodeLogical d inode.unindexed l = .ok (some phys) →
    m.LinearBlock crc dirIno inode (buf'.view d.img m.fs.sb.blockSize phys)
  entries : (List.range (m.totalBlocks inode)).flatMap
      (m.linearEntries d inode.unindexed
        (buf'.view d.img m.fs.sb.blockSize)) =
    [dot.entry m.fs.sb.hasFiletype, dotdot.entry m.fs.sb.hasFiletype] ++
      (m.leaves d inode view).flatMap (m.linearEntries d inode view)
  kept : ∀ l ∈ m.leaves d inode view, ∀ phys, m.mapInodeLogical d inode l = .ok (some phys) →
    buf'.view d.img m.fs.sb.blockSize phys = view phys

end Directory

section Drop

variable {crc : Crc} {m : Mount} {d : Disk} {dirIno : UInt32} {inode : Inode} {view : Nat → Bytes}
  {buf buf' : BlockBuffer}

theorem mapInodeLogical_dropped (l : Nat) :
    m.mapInodeLogical d inode.unindexed l =
      m.mapInodeLogical d inode l := by
  have hextents : (inode.flags &&& ~~~inodeFlagIndex) &&& inodeFlagExtents =
      inode.flags &&& inodeFlagExtents := by
    rw [UInt32.and_assoc]
    rfl
  have hinline : (inode.flags &&& ~~~inodeFlagIndex) &&& inodeFlagInlineData =
      inode.flags &&& inodeFlagInlineData := by
    rw [UInt32.and_assoc]
    rfl
  simp only [mapInodeLogical, Inode.unindexed, Inode.hasInlineData, Indirect.mapLogicalAny,
    hextents, hinline]
  rfl

theorem physical_eq_ok {l phys : Nat} :
    m.physical d inode l = .ok phys ↔ m.mapInodeLogical d inode l = .ok (some phys) := by
  unfold physical
  cases m.mapInodeLogical d inode l with
  | error e => exact ⟨fun h => (nomatch h), fun h => (nomatch h)⟩
  | ok found =>
    cases found with
    | none => exact ⟨fun h => (nomatch h), fun h => (nomatch h)⟩
    | some found => exact ⟨fun h => by rw [Except.ok.inj h],
        fun h => by rw [Option.some.inj (Except.ok.inj h)]; rfl⟩

theorem logicalBlock_of_map {l phys : Nat} (h : m.mapInodeLogical d inode l = .ok (some phys)) :
    m.logicalBlock d inode view l = view phys := by
  rw [logicalBlock, h]

theorem levelNodes_ok {level next : List UInt32} {nodes : List Nat}
    (hnode : ∀ c ∈ level, Htree.NodeAt
      (m.logicalBlock d inode (buf.view d.img m.fs.sb.blockSize) c.toNat) 8)
    (h : m.levelNodes crc d dirIno inode buf level = .ok (nodes, next)) :
    next = level.flatMap (fun c => Htree.children
        (m.logicalBlock d inode (buf.view d.img m.fs.sb.blockSize) c.toNat) 8) ∧
      ∀ phys, phys ∈ nodes ↔ ∃ c ∈ level, m.mapInodeLogical d inode c.toNat = .ok (some phys) := by
  induction level generalizing nodes next with
  | nil =>
    obtain ⟨rfl, rfl⟩ := Prod.mk.inj (Except.ok.inj h)
    exact ⟨rfl, fun phys => by simp⟩
  | cons c level ih =>
    rw [levelNodes] at h
    obtain ⟨phys, hphys, h⟩ := Result.bind_eq_ok h
    obtain ⟨block, hblock, h⟩ := Result.bind_eq_ok h
    obtain ⟨-, -, h⟩ := Result.bind_eq_ok h
    obtain ⟨⟨limits, entries⟩, hparse, h⟩ := Result.bind_eq_ok h
    obtain ⟨⟨rest, below⟩, hrest, h⟩ := Result.bind_eq_ok h
    obtain ⟨rfl, rfl⟩ := Prod.mk.inj (Except.ok.inj h)
    have hmap := physical_eq_ok.mp hphys
    have hthis := hnode c List.mem_cons_self
    rw [logicalBlock_of_map hmap] at hthis
    rw [BlockBuffer.bufferedBlock_ok hblock, Htree.parseNodeEntries_ok hthis] at hparse
    obtain ⟨-, rfl⟩ := Prod.mk.inj (Except.ok.inj hparse)
    obtain ⟨rfl, hmem⟩ := ih (fun c' hc' => hnode c' (List.mem_cons_of_mem _ hc')) hrest
    constructor
    · rw [List.flatMap_cons, logicalBlock_of_map hmap, Htree.map_block_clearFirstHash]
      rfl
    · intro phys'
      rw [List.mem_cons, hmem]
      constructor
      · rintro (rfl | ⟨c', hc', hmap'⟩)
        · exact ⟨c, List.mem_cons_self, hmap⟩
        · exact ⟨c', List.mem_cons_of_mem _ hc', hmap'⟩
      · rintro ⟨c', hc', hmap'⟩
        obtain rfl | hc' := List.mem_cons.mp hc'
        · rw [hmap] at hmap'
          exact .inl (Option.some.inj (Except.ok.inj hmap')).symm
        · exact .inr ⟨c', hc', hmap'⟩

theorem indexNodes_ok {levels k : Nat} {nodes : List Nat}
    (hnode : ∀ j < k + levels, ∀ c ∈ m.dxLevel d inode (buf.view d.img m.fs.sb.blockSize) j,
    Htree.NodeAt (m.logicalBlock d inode (buf.view d.img m.fs.sb.blockSize) c.toNat) 8)
    (h : m.indexNodes crc d dirIno inode buf levels
      (m.dxLevel d inode (buf.view d.img m.fs.sb.blockSize) k) = .ok nodes) (phys : Nat) :
    phys ∈ nodes ↔ ∃ j, k ≤ j ∧ j < k + levels ∧
      ∃ c ∈ m.dxLevel d inode (buf.view d.img m.fs.sb.blockSize) j,
        m.mapInodeLogical d inode c.toNat = .ok (some phys) := by
  induction levels generalizing k nodes with
  | zero =>
    obtain rfl := Except.ok.inj h
    constructor
    · intro hin
      cases hin
    · rintro ⟨j, hlow, hhigh, -⟩
      omega
  | succ levels ih =>
    rw [indexNodes] at h
    obtain ⟨⟨here, next⟩, hlevel, h⟩ := Result.bind_eq_ok h
    obtain ⟨below, hbelow, h⟩ := Result.bind_eq_ok h
    obtain rfl := Except.ok.inj h
    obtain ⟨rfl, hhere⟩ := levelNodes_ok (hnode k (by omega)) hlevel
    have hrest := ih (k := k + 1) (fun j hj => hnode j (by omega)) hbelow
    rw [List.mem_append, hhere, hrest]
    constructor
    · rintro (⟨c, hc, hmap⟩ | ⟨j, hlow, hhigh, hj⟩)
      · exact ⟨k, Nat.le_refl k, by omega, c, hc, hmap⟩
      · exact ⟨j, by omega, by omega, hj⟩
    · rintro ⟨j, hlow, hhigh, hj⟩
      obtain rfl | hlt := Nat.eq_or_lt_of_le hlow
      · exact .inl hj
      · exact .inr ⟨j, by omega, by omega, hj⟩

theorem linearizeAll_ok {nodes : List Nat}
    (hidem : ∀ b ∈ nodes, m.linearBlock crc dirIno inode 0 (m.linearBlock crc dirIno inode 0
      (buf.view d.img m.fs.sb.blockSize b)) =
        m.linearBlock crc dirIno inode 0 (buf.view d.img m.fs.sb.blockSize b))
    (h : m.linearizeAll crc d dirIno inode (nodes.map (fun phys => (phys, 0))) buf = .ok buf')
      (b : Nat) :
    buf'.view d.img m.fs.sb.blockSize b =
      if b ∈ nodes then m.linearBlock crc dirIno inode 0 (buf.view d.img m.fs.sb.blockSize b)
      else buf.view d.img m.fs.sb.blockSize b := by
  induction nodes generalizing buf with
  | nil =>
    obtain rfl := Except.ok.inj h
    rw [if_neg (by simp)]
  | cons phys nodes ih =>
    rw [List.map_cons, linearizeAll] at h
    obtain ⟨buf₁, hedit, h⟩ := Result.bind_eq_ok h
    obtain ⟨hview, -, -⟩ := BlockBuffer.edit_ok hedit
    have hrest := ih (by
      intro b' hb'
      rw [hview]
      by_cases hsame : b' = phys
      · subst hsame
        rw [Function.update_self, hidem b' List.mem_cons_self, hidem b' List.mem_cons_self]
      · rw [Function.update_of_ne hsame]
        exact hidem b' (List.mem_cons_of_mem _ hb')) h
    rw [hrest, hview]
    by_cases hsame : b = phys
    · subst hsame
      rw [Function.update_self, hidem b List.mem_cons_self, ite_self, if_pos List.mem_cons_self]
    · rw [Function.update_of_ne hsame]
      simp only [List.mem_cons, hsame, false_or]

end Drop

end Mount

namespace Mount

section Linearized

variable {crc : Crc} {m : Mount} {dirIno : UInt32} {inode : Inode} {front : List Record}
  {r : Record} {block : Bytes}

theorem verify_tail (a : Bytes) : m.csum.verifyDirEntryTail crc dirIno inode.generation
    (a ++ (Record.tail (m.tailSum crc dirIno inode a)).bytes) = true := by
  have htail : ∀ c, (Record.tail c).bytes.length = 12 := fun c => by
    rw [Record.length_bytes, Record.recLen_tail]
  have hlen : (a ++ (Record.tail (m.tailSum crc dirIno inode a)).bytes).length = a.length + 12 := by
    rw [List.length_append, htail]
  have hfront : slice (a ++ (Record.tail (m.tailSum crc dirIno inode a)).bytes) 0 a.length = a := by
    rw [slice, List.drop_zero, List.take_left]
  have hsum : u32leAt (a ++ (Record.tail (m.tailSum crc dirIno inode a)).bytes) (a.length + 8) =
      m.tailSum crc dirIno inode a := by
    refine u32leAt_of_slice _ _ _ ?_
    rw [slice_append_right _ _ _ _ (Nat.le_add_right _ _), Nat.add_sub_cancel_left]
    rfl
  unfold Checksummer.verifyDirEntryTail
  cases henabled : m.csum.enabled with
  | false => rfl
  | true =>
    rw [hlen, Nat.add_sub_cancel, hfront, Nat.add_sub_assoc (by decide), hsum, if_neg (by decide),
      if_neg (by omega)]
    exact beq_self_eq_true _

variable (crc dirIno inode front) in
theorem linearBlock_linear (h : Tiles m.fs.sb.hasFiletype (front ++ [r]) block)
    (hspan : (front.flatMap Record.bytes).length + r.recLen = m.fs.sb.blockSize)
      (hpad : 12 ≤ r.pad.length)
    (hnot : r.shortened.isTail = false) (henabled : m.csum.enabled = true) :
    m.LinearBlock crc dirIno inode
      (m.linearBlock crc dirIno inode (front.flatMap Record.bytes).length block) ∧
      parseBlock (m.linearBlock crc dirIno inode (front.flatMap Record.bytes).length block)
        m.fs.sb.hasFiletype = .ok (liveEntries m.fs.sb.hasFiletype (front ++ [r])) ∧
      m.linearBlock crc dirIno inode (front.flatMap Record.bytes).length
          (m.linearBlock crc dirIno inode (front.flatMap Record.bytes).length block) =
        m.linearBlock crc dirIno inode (front.flatMap Record.bytes).length block := by
  have hbytes := h.bytes
  rw [List.flatMap_append, List.flatMap_singleton] at hbytes
  have hidem : m.linearBlock crc dirIno inode (front.flatMap Record.bytes).length
      (m.linearBlock crc dirIno inode (front.flatMap Record.bytes).length
        (front.flatMap Record.bytes ++ r.bytes)) =
      m.linearBlock crc dirIno inode (front.flatMap Record.bytes).length
        (front.flatMap Record.bytes ++ r.bytes) := linearBlock_linearBlock hspan hpad henabled
  rw [hbytes] at hidem
  have hcut : m.linearBlock crc dirIno inode (front.flatMap Record.bytes).length
      (front.flatMap Record.bytes ++ r.bytes) = _ := linearBlock_append hspan hpad henabled
  rw [hbytes] at hcut
  have htiles := h.shortened hpad hnot
    (m.tailSum crc dirIno inode (front.flatMap Record.bytes ++ r.shortened.bytes))
  rw [← hcut] at htiles
  have htail : ∃ front' t, front ++ [r.shortened, Record.tail
      (m.tailSum crc dirIno inode (front.flatMap Record.bytes ++ r.shortened.bytes))] =
        front' ++ [t] ∧
      t.isTail = true :=
    ⟨front ++ [r.shortened], _, (List.append_assoc front [r.shortened] [_]).symm,
      Record.isTail_tail _⟩
  refine ⟨⟨_, htiles, fun _ => ⟨htail, ?_⟩⟩, ?_, hidem⟩
  · rw [hcut]
    exact verify_tail _
  · rw [htiles.parseBlock_eq, liveEntries_shortened]

end Linearized

end Mount

namespace Mount

section Converted

variable {crc : Crc} {m : Mount} {d : Disk} {dirIno : UInt32} {inode : Inode} {raw : Bytes}
  {buf buf' : BlockBuffer} {dot dotdot : Record}

theorem isNode_eq_true {view : Nat → Bytes} {l : Nat} : m.isNode d inode view l = true ↔
    ∃ j < m.dxLevels d inode view, ∃ c ∈ m.dxLevel d inode view j, c.toNat = l := by
  simp [isNode]

variable (hdir : m.IndexedDirectory crc d dirIno inode
  (buf.view d.img m.fs.sb.blockSize) dot dotdot)

include hdir

theorem IndexedDirectory.map_root :
    ∃ phys, m.mapInodeLogical d inode 0 = .ok (some phys) ∧
      m.dxRoot d inode (buf.view d.img m.fs.sb.blockSize) =
        buf.view d.img m.fs.sb.blockSize phys := by
  have hlen := hdir.rootNode.length_ge
  cases hmap : m.mapInodeLogical d inode 0 with
  | error e =>
    rw [dxRoot, logicalBlock, hmap] at hlen
    simp at hlen
  | ok found =>
    cases found with
    | none =>
      rw [dxRoot, logicalBlock, hmap] at hlen
      simp at hlen
    | some phys => exact ⟨phys, rfl, logicalBlock_of_map hmap⟩

theorem IndexedDirectory.nodeAt {j : Nat}
    (hj : j < m.dxLevels d inode (buf.view d.img m.fs.sb.blockSize))
    {c : UInt32} (hc : c ∈ m.dxLevel d inode (buf.view d.img m.fs.sb.blockSize) j) :
    Htree.NodeAt (m.logicalBlock d inode (buf.view d.img m.fs.sb.blockSize) c.toNat) 8 := by
  obtain ⟨-, -, phys, r, hmap, -, -, -, -, hnode⟩ := hdir.nodes c.toNat
    (isNode_eq_true.mpr ⟨j, hj, c, hc, rfl⟩)
  rw [logicalBlock_of_map hmap]
  exact hnode

theorem IndexedDirectory.interiorNodes_eq :
    m.interiorNodes crc d dirIno inode buf (m.dxRoot d inode (buf.view d.img m.fs.sb.blockSize)) =
    if Path.storedVersion (m.dxRoot d inode (buf.view d.img m.fs.sb.blockSize)) ≤ 5 then
      m.indexNodes crc d dirIno inode buf (m.dxLevels d inode (buf.view d.img m.fs.sb.blockSize))
        (m.dxLevel d inode (buf.view d.img m.fs.sb.blockSize) 0)
    else .ok [] := by
  obtain ⟨hreserved, hinfoLength⟩ := hdir.rootInfo
  have hnode := hdir.rootNode
  have hinfo := Htree.parseRootInfo_eq (Nat.le_trans (by omega) hnode.length_ge) hreserved
  have height : ((m.dxRoot d inode (buf.view d.img m.fs.sb.blockSize)).getD 29 0).toNat = 8 := by
    rw [List.getD_eq_getElem?_getD, hinfoLength]
    rfl
  unfold interiorNodes Path.storedVersion dxLevels
  rw [dxLevel]
  generalize m.dxRoot d inode (buf.view d.img m.fs.sb.blockSize) = root at *
  by_cases hversion : (root.getD 28 0).toNat ≤ 5
  · obtain ⟨version, hv⟩ := Option.isSome_iff_exists.mp
      ((Hash.HashVersion.fromU8_isSome_iff (root.getD 28 0)).mpr hversion)
    rw [hv] at hinfo
    dsimp only at hinfo
    rw [height] at hinfo
    rw [if_pos hversion, hinfo, Htree.parseRootEntries_ok hinfo hnode]
    dsimp only
    rw [Htree.map_block_clearFirstHash]
    rfl
  · have hnone : Hash.HashVersion.fromU8 (root.getD 28 0) = none := by
      rw [← Option.not_isSome_iff_eq_none, Hash.HashVersion.fromU8_isSome_iff]
      exact hversion
    rw [hnone] at hinfo
    rw [if_neg hversion, hinfo]

/-- The blocks that are cut short and given a tail, besides the root's. -/
def Linearizes (m : Mount) (d : Disk) (inode : Inode) (view : Nat → Bytes) (l : Nat) : Prop :=
  Path.storedVersion (m.dxRoot d inode view) ≤ 5 ∧ m.isNode d inode view l = true

theorem IndexedDirectory.node_linear (henabled : m.csum.enabled = true) {l phys : Nat}
    (hnode : m.isNode d inode (buf.view d.img m.fs.sb.blockSize) l = true)
    (hmap : m.mapInodeLogical d inode l = .ok (some phys)) :
    m.LinearBlock crc dirIno inode
        (m.linearBlock crc dirIno inode 0 (buf.view d.img m.fs.sb.blockSize phys)) ∧
      parseBlock (m.linearBlock crc dirIno inode 0 (buf.view d.img m.fs.sb.blockSize phys))
        m.fs.sb.hasFiletype = .ok [] ∧
      m.linearBlock crc dirIno inode 0 (m.linearBlock crc dirIno inode 0
          (buf.view d.img m.fs.sb.blockSize phys)) =
        m.linearBlock crc dirIno inode 0 (buf.view d.img m.fs.sb.blockSize phys) := by
  obtain ⟨-, -, phys', r, hmap', htiles, hinode, hname, hlen, -⟩ := hdir.nodes l hnode
  rw [hmap] at hmap'
  obtain rfl := Option.some.inj (Except.ok.inj hmap')
  have hsize := blockSize_ge m.fs.sb
  have hpad : 12 ≤ r.pad.length := by
    rw [Record.recLen, hname, List.length_nil] at hlen
    omega
  have hnot : r.shortened.isTail = false := by
    have hshort : (r.shortened.recLen == 12) = false := by
      rw [Record.recLen_shortened hpad, beq_eq_false_iff_ne]
      omega
    rw [Record.isTail, hshort, Bool.and_false, Bool.false_and, Bool.false_and]
  obtain ⟨hlinear, hparse, hidem⟩ :=
    linearBlock_linear crc dirIno inode [] htiles (by simpa using hlen) hpad hnot henabled
  refine ⟨hlinear, hparse.trans ?_, hidem⟩
  simp [liveEntries, hinode]

theorem IndexedDirectory.root_linear (henabled : m.csum.enabled = true) {phys : Nat}
    (hmap : m.mapInodeLogical d inode 0 = .ok (some phys)) :
    m.LinearBlock crc dirIno inode
        (m.linearBlock crc dirIno inode 12 (buf.view d.img m.fs.sb.blockSize phys)) ∧
      parseBlock (m.linearBlock crc dirIno inode 12 (buf.view d.img m.fs.sb.blockSize phys))
        m.fs.sb.hasFiletype =
          .ok [dot.entry m.fs.sb.hasFiletype, dotdot.entry m.fs.sb.hasFiletype] := by
  have htiles := hdir.rootRecords
  rw [dxRoot, logicalBlock_of_map hmap] at htiles
  obtain ⟨hdot, -, hdotLen⟩ := hdir.dotRecord
  obtain ⟨hdotdot, hname, hlen⟩ := hdir.dotdotRecord
  have hsize := blockSize_ge m.fs.sb
  have hpad : 12 ≤ dotdot.pad.length := by
    have hrec : 8 + dotdot.name.length + dotdot.pad.length = m.fs.sb.blockSize - 12 := hlen
    rw [hname] at hrec
    simp only [InlineData.dotdotName, List.length_cons, List.length_nil] at hrec
    omega
  have hnot : dotdot.shortened.isTail = false := by
    have hlive : (dotdot.shortened.inode == 0) = false := beq_false_of_ne hdotdot
    rw [Record.isTail, hlive, Bool.false_and, Bool.false_and, Bool.false_and]
  have hat : ([dot].flatMap Record.bytes).length = 12 := by
    rw [List.flatMap_singleton, Record.length_bytes, hdotLen]
  have hmade := linearBlock_linear crc dirIno inode [dot] htiles (by rw [hat]; omega) hpad
    hnot henabled
  rw [hat] at hmade
  refine ⟨hmade.1, hmade.2.1.trans ?_⟩
  simp [liveEntries, hdot, hdotdot]

theorem IndexedDirectory.mem_nodes {nodes : List Nat}
    (h : m.interiorNodes crc d dirIno inode buf
      (m.dxRoot d inode (buf.view d.img m.fs.sb.blockSize)) = .ok nodes) (phys : Nat) :
    phys ∈ nodes ↔ ∃ l, m.Linearizes d inode (buf.view d.img m.fs.sb.blockSize) l ∧
      m.mapInodeLogical d inode l = .ok (some phys) := by
  rw [hdir.interiorNodes_eq] at h
  by_cases hversion : Path.storedVersion (m.dxRoot d inode (buf.view d.img m.fs.sb.blockSize)) ≤ 5
  · rw [if_pos hversion] at h
    rw [indexNodes_ok (fun j hj c hc => hdir.nodeAt (by omega) hc) h phys]
    constructor
    · rintro ⟨j, -, hj, c, hc, hmap⟩
      exact ⟨c.toNat, ⟨hversion, isNode_eq_true.mpr ⟨j, by omega, c, hc, rfl⟩⟩, hmap⟩
    · rintro ⟨l, ⟨-, hnode⟩, hmap⟩
      obtain ⟨j, hj, c, hc, rfl⟩ := isNode_eq_true.mp hnode
      exact ⟨j, Nat.zero_le j, by omega, c, hc, hmap⟩
  · rw [if_neg hversion] at h
    obtain rfl := Except.ok.inj h
    constructor
    · intro hin
      cases hin
    · rintro ⟨l, ⟨hno, -⟩, -⟩
      exact absurd hno hversion

end Converted

end Mount

theorem Inode.fields_copyAt_flags {raw : Bytes} (hlen : inodeBaseSize ≤ raw.length)
    (flags : UInt32) :
    Inode.fields (copyAt raw 0x20 (u32le flags)) = { Inode.fields raw with flags := flags } := by
  have hbase : 0x80 ≤ raw.length := hlen
  have hfront := agreeOn_copyAt raw 0x20 (u32le flags) 0 0x20 (by omega) (.inl (Nat.le_refl _))
  have hback := agreeOn_copyAt raw 0x20 (u32le flags) 0x24 0x78 (by omega)
    (.inr (by rw [length_u32le]))
  unfold Inode.fields
  rw [hfront.u16leAt 0 (by decide) (by decide), hback.u32leAt 0x6C (by decide) (by decide),
    hfront.u32leAt 0x04 (by decide) (by decide), hfront.u16leAt 0x1A (by decide) (by decide),
    hback.u16leAt 0x74 (by decide) (by decide), hfront.u32leAt 0x1C (by decide) (by decide),
    u32leAt_copyAt _ _ _ (by omega), hback 0x28 60 (by decide) (by decide),
    hback.u32leAt 0x64 (by decide) (by decide), hback.u16leAt 0x76 (by decide) (by decide),
    hback.u32leAt 0x68 (by decide) (by decide)]

namespace Mount

section Dropped

variable {crc : Crc} {m : Mount} {d : Disk} {dirIno : UInt32} {inode : Inode} {raw : Bytes}
  {buf buf' : BlockBuffer} {dot dotdot : Record}

/-- What a drop does to the directory's inode and to its blocks. -/
structure Dropped (crc : Crc) (m : Mount) (d : Disk) (dirIno : UInt32) (inode : Inode)
    (buf buf' : BlockBuffer) : Prop where
  flag : ∃ raw', m.bufferedInodeVerified crc d buf' dirIno = .ok (inode.unindexed, raw')
  root : m.csum.enabled = true → ∀ phys, m.mapInodeLogical d inode 0 = .ok (some phys) →
    buf'.view d.img m.fs.sb.blockSize phys =
      m.linearBlock crc dirIno inode 12 (buf.view d.img m.fs.sb.blockSize phys)
  node : m.csum.enabled = true → ∀ l phys, m.mapInodeLogical d inode l = .ok (some phys) →
    m.Linearizes d inode (buf.view d.img m.fs.sb.blockSize) l →
    buf'.view d.img m.fs.sb.blockSize phys =
      m.linearBlock crc dirIno inode 0 (buf.view d.img m.fs.sb.blockSize phys)
  other : ∀ l < m.totalBlocks inode, ∀ phys, m.mapInodeLogical d inode l = .ok (some phys) →
    (m.csum.enabled = true → l ≠ 0 ∧ ¬ m.Linearizes d inode (buf.view d.img m.fs.sb.blockSize) l) →
    buf'.view d.img m.fs.sb.blockSize phys = buf.view d.img m.fs.sb.blockSize phys

theorem unindexed_written {buf₁ : BlockBuffer} {block off : Nat}
    (hold : InodeAt crc m (buf₁.view d.img m.fs.sb.blockSize) dirIno block off inode raw)
    (h : m.bufferWriteDirInode crc d buf₁ dirIno inode.generation
      (copyAt raw 0x20 (u32le (inode.flags &&& ~~~inodeFlagIndex))) = .ok buf') :
    (∃ raw', m.bufferedInodeVerified crc d buf' dirIno = .ok (inode.unindexed, raw')) ∧
      ∀ b, b ≠ block → buf'.view d.img m.fs.sb.blockSize b =
        buf₁.view d.img m.fs.sb.blockSize b := by
  obtain ⟨hparses, hfields⟩ := Inode.parse_eq_ok.mp hold.parsed
  have hbase : 0x80 ≤ raw.length := hparses.base
  have hlen := length_copyAt raw 0x20 (u32le (inode.flags &&& ~~~inodeFlagIndex))
    (by rw [length_u32le]; omega)
  have hagree := agreeOn_copyAt raw 0x20 (u32le (inode.flags &&& ~~~inodeFlagIndex)) 0x80
    0x82 (by omega) (.inr (by rw [length_u32le]; decide))
  have hnew : Inode.fields (copyAt raw 0x20 (u32le (inode.flags &&& ~~~inodeFlagIndex))) =
      inode.unindexed := by
    rw [Inode.fields_copyAt_flags hparses.base, ← hfields]
    rfl
  obtain ⟨written, hread, hview, -⟩ := bufferWriteDirInode_ok hold hlen
    (hparses.of_agree hlen hagree) (by rw [hnew]; rfl) h
  rw [hnew] at hread
  refine ⟨⟨written, hread⟩, ?_⟩
  intro b hb
  rw [hview, Function.update_of_ne hb]

theorem IndexedDirectory.linearized {buf₁ : BlockBuffer} {nodes : List Nat} {rootPhys : Nat}
    (hdir : m.IndexedDirectory crc d dirIno inode (buf.view d.img m.fs.sb.blockSize) dot dotdot)
    (henabled : m.csum.enabled = true) (hroot : m.mapInodeLogical d inode 0 = .ok (some rootPhys))
    (hmem : ∀ phys, phys ∈ nodes ↔ ∃ l, m.Linearizes d inode (buf.view d.img m.fs.sb.blockSize) l ∧
      m.mapInodeLogical d inode l = .ok (some phys))
    (h : m.linearizeAll crc d dirIno inode ((rootPhys, 12) :: nodes.map (fun phys => (phys, 0)))
      buf = .ok buf₁) :
    buf₁.view d.img m.fs.sb.blockSize rootPhys =
        m.linearBlock crc dirIno inode 12 (buf.view d.img m.fs.sb.blockSize rootPhys) ∧
      (∀ phys ∈ nodes, buf₁.view d.img m.fs.sb.blockSize phys =
        m.linearBlock crc dirIno inode 0 (buf.view d.img m.fs.sb.blockSize phys)) ∧
      ∀ b, b ≠ rootPhys → b ∉ nodes →
        buf₁.view d.img m.fs.sb.blockSize b = buf.view d.img m.fs.sb.blockSize b := by
  have hnot : ∀ phys ∈ nodes, phys ≠ rootPhys := by
    rintro phys hin rfl
    obtain ⟨l, ⟨-, hnode⟩, hmap⟩ := (hmem phys).mp hin
    obtain ⟨hl, hne, -⟩ := hdir.nodes l hnode
    exact hne (hdir.distinct l hl 0 hdir.nonempty phys hmap hroot)
  rw [linearizeAll] at h
  obtain ⟨buf₀, hedit, h⟩ := Result.bind_eq_ok h
  obtain ⟨hview, -, -⟩ := BlockBuffer.edit_ok hedit
  have hkept : ∀ b, b ≠ rootPhys →
      buf₀.view d.img m.fs.sb.blockSize b = buf.view d.img m.fs.sb.blockSize b := by
    intro b hb
    rw [hview, Function.update_of_ne hb]
  have hmade := linearizeAll_ok (by
    intro b hb
    obtain ⟨l, ⟨-, hnode⟩, hmap⟩ := (hmem b).mp hb
    rw [hkept b (hnot b hb)]
    exact (hdir.node_linear henabled hnode hmap).2.2) h
  refine ⟨?_, ?_, ?_⟩
  · rw [hmade, if_neg (fun hin => hnot rootPhys hin rfl), hview, Function.update_self]
  · intro phys hin
    rw [hmade, if_pos hin, hkept phys (hnot phys hin)]
  · intro b hb hout
    rw [hmade, if_neg hout, hkept b hb]

theorem IndexedDirectory.dropped
    (hdir : m.IndexedDirectory crc d dirIno inode (buf.view d.img m.fs.sb.blockSize) dot dotdot)
    (hinode : m.bufferedInodeVerified crc d buf dirIno = .ok (inode, raw))
    (h : m.bufferDropHtreeIndex crc d buf dirIno = .ok buf') : m.Dropped crc d dirIno inode
      buf buf' := by
  obtain ⟨block, off, hold⟩ := bufferedInodeVerified_ok hinode
  obtain ⟨rootPhys, hroot, hdxRoot⟩ := hdir.map_root
  have hapart : ∀ l < m.totalBlocks inode, ∀ phys, m.mapInodeLogical d inode l = .ok (some phys) →
      phys ≠ block := by
    rintro l hl phys hmap rfl
    exact hdir.apart _ _ hold.located l hl hmap
  unfold bufferDropHtreeIndex at h
  rw [hinode] at h
  dsimp only [bind, Except.bind] at h
  rw [hdir.indexed, Bool.not_true, if_neg Bool.false_ne_true] at h
  obtain ⟨rootPhys', hphys, h⟩ := Result.bind_eq_ok h
  obtain rfl : rootPhys' = rootPhys :=
    Option.some.inj (Except.ok.inj ((physical_eq_ok.mp hphys).symm.trans hroot))
  obtain ⟨root, hread, h⟩ := Result.bind_eq_ok h
  obtain ⟨-, -, h⟩ := Result.bind_eq_ok h
  obtain ⟨nodes, hnodes, h⟩ := Result.bind_eq_ok h
  obtain ⟨buf₁, hlinear, h⟩ := Result.bind_eq_ok h
  rw [BlockBuffer.bufferedBlock_ok hread, ← hdxRoot] at hnodes
  have hmem := hdir.mem_nodes hnodes
  cases henabled : m.csum.enabled with
  | false =>
    rw [linearizeIndex, henabled, if_neg Bool.false_ne_true] at hlinear
    obtain rfl := Except.ok.inj hlinear
    obtain ⟨hflag, hkept⟩ := unindexed_written hold h
    refine ⟨hflag, fun hon => ?_, fun hon => ?_, fun l hl phys hmap _ =>
      hkept phys (hapart l hl phys hmap)⟩
    · rw [henabled] at hon
      cases hon
    · rw [henabled] at hon
      cases hon
  | true =>
    rw [linearizeIndex, henabled, if_pos rfl] at hlinear
    obtain ⟨hrootView, hnodeView, hotherView⟩ := hdir.linearized henabled hroot hmem hlinear
    have htable : buf₁.view d.img m.fs.sb.blockSize block =
        buf.view d.img m.fs.sb.blockSize block := by
      refine hotherView block (hapart 0 hdir.nonempty _ hroot).symm ?_
      intro hin
      obtain ⟨l, ⟨-, hnode⟩, hmap⟩ := (hmem block).mp hin
      exact hapart l (hdir.nodes l hnode).1 block hmap rfl
    obtain ⟨hflag, hkept⟩ := unindexed_written
      ⟨hold.located, by rw [htable]; exact hold.fits, by rw [htable]; exact hold.stored,
      hold.parsed, hold.checked⟩ h
    refine ⟨hflag, ?_, ?_, ?_⟩
    · intro _ phys hmap
      obtain rfl : phys = rootPhys' := Option.some.inj (Except.ok.inj (hmap.symm.trans hroot))
      rw [hkept phys (hapart 0 hdir.nonempty phys hroot), hrootView]
    · intro _ l phys hmap hnode
      rw [hkept phys (hapart l (hdir.nodes l hnode.2).1 phys hmap),
        hnodeView phys ((hmem phys).mpr ⟨l, hnode, hmap⟩)]
    · intro l hl phys hmap hnot
      obtain ⟨hne, hno⟩ := hnot henabled
      rw [hkept phys (hapart l hl phys hmap)]
      refine hotherView phys ?_ ?_
      · rintro rfl
        exact hne (hdir.distinct l hl 0 hdir.nonempty phys hmap hroot)
      · intro hin
        obtain ⟨l', hnode, hmap'⟩ := (hmem phys).mp hin
        obtain rfl := hdir.distinct l hl l' (hdir.nodes l' hnode.2).1 phys hmap hmap'
        exact hno hnode

end Dropped

end Mount

theorem flatMap_eq_filter {α β : Type} {p : α → Bool} {f g : α → List β} {ls : List α}
    (h : ∀ l ∈ ls, g l = if p l then f l else []) : ls.flatMap g = (ls.filter p).flatMap f := by
  induction ls with
  | nil => rfl
  | cons l ls ih =>
    have hrest := ih (fun l' hl' => h l' (List.mem_cons_of_mem _ hl'))
    rw [List.flatMap_cons, hrest, h l List.mem_cons_self, List.filter_cons]
    split
    · rw [List.flatMap_cons]
    · rfl

theorem Dir.Tiles.not_tailed {hasFileType : Bool} {block : Bytes} {r : Record}
    {rs front : List Record}
    {t : Record} (h : Tiles hasFileType [r] block) (h' : Tiles hasFileType rs block)
    (hlen : r.recLen ≠ 12) (hsplit : rs = front ++ [t]) : t.isTail = false := by
  have hread : ∀ (x : Record) (post : Bytes), x.recLen < 2 ^ 16 → x.bytes ++ post = block →
      (u16leAt block 4).toNat = x.recLen := by
    intro x post hfits hblock
    have hat : (u16leAt ([] ++ (x.bytes ++ post)) (([] : Bytes).length + 4)).toNat = x.recLen :=
      u16leAt_record hfits
    rwa [List.nil_append, hblock] at hat
  have hone : r.bytes ++ [] = block := by simpa using h.bytes
  have hfirst := hread r [] (h.valid r (by simp)).fits hone
  have htotal : block.length = r.recLen := by
    rw [← hone, List.append_nil, Record.length_bytes]
  rw [Bool.eq_false_iff]
  intro htail
  have htlen : t.recLen = 12 := by
    simp only [Record.isTail, Bool.and_eq_true, beq_iff_eq] at htail
    exact htail.1.1.2
  subst hsplit
  have hbytes := h'.bytes
  rw [List.flatMap_append, List.flatMap_singleton] at hbytes
  cases front with
  | nil =>
    have hsame := hread t [] (h'.valid t (by simp)).fits (by simpa using hbytes)
    omega
  | cons x front =>
    rw [List.flatMap_cons, List.append_assoc] at hbytes
    have hsame := hread x _ (h'.valid x (by simp)).fits hbytes
    have hlong := congrArg List.length hbytes
    simp only [List.length_append, Record.length_bytes] at hlong
    omega

namespace Mount

section Claim

variable {crc : Crc} {m : Mount} {d : Disk} {dirIno : UInt32} {inode : Inode} {raw : Bytes}
  {buf buf' : BlockBuffer} {dot dotdot : Record}

def FindsNodes (m : Mount) (d : Disk) (inode : Inode) (view : Nat → Bytes) : Prop :=
  m.csum.enabled = false ∨ Path.storedVersion (m.dxRoot d inode view) ≤ 5 ∨
    m.dxLevels d inode view = 0

theorem mem_leaves {view : Nat → Bytes} {l : Nat} : l ∈ m.leaves d inode view ↔
    l < m.totalBlocks inode ∧ l ≠ 0 ∧ m.isNode d inode view l = false := by
  simp [leaves]

theorem linearEntries_of_parse {view : Nat → Bytes} {l phys : Nat} {es : List DirEntry}
    (hmap : m.mapInodeLogical d inode l = .ok (some phys))
    (hparse : parseBlock (view phys) m.fs.sb.hasFiletype = .ok es) : m.linearEntries d inode view
      l = es := by
  rw [linearEntries, hmap]
  dsimp only
  rw [hparse]
  rfl

theorem linearEntries_dropped (view : Nat → Bytes) (l : Nat) :
    m.linearEntries d inode.unindexed view l = m.linearEntries d inode view l := by
  rw [linearEntries, linearEntries, mapInodeLogical_dropped]

variable (hdir : m.IndexedDirectory crc d dirIno inode
  (buf.view d.img m.fs.sb.blockSize) dot dotdot) (hdrop : m.Dropped crc d dirIno inode buf buf')

include hdrop in
theorem Dropped.leaf_kept {l phys : Nat}
    (hleaf : l ∈ m.leaves d inode (buf.view d.img m.fs.sb.blockSize))
    (hmap : m.mapInodeLogical d inode l = .ok (some phys)) :
    buf'.view d.img m.fs.sb.blockSize phys = buf.view d.img m.fs.sb.blockSize phys := by
  obtain ⟨hl, hne, hnot⟩ := mem_leaves.mp hleaf
  refine hdrop.other l hl phys hmap (fun _ => ⟨hne, fun hno => ?_⟩)
  have hnode := hno.2
  rw [hnot] at hnode
  cases hnode

include hdir hdrop

theorem IndexedDirectory.root_dropped {phys : Nat} (hmap : m.mapInodeLogical d inode 0 =
    .ok (some phys)) :
    m.LinearBlock crc dirIno inode (buf'.view d.img m.fs.sb.blockSize phys) ∧
      parseBlock (buf'.view d.img m.fs.sb.blockSize phys) m.fs.sb.hasFiletype =
        .ok [dot.entry m.fs.sb.hasFiletype, dotdot.entry m.fs.sb.hasFiletype] := by
  cases henabled : m.csum.enabled with
  | true =>
    rw [hdrop.root henabled phys hmap]
    exact hdir.root_linear henabled hmap
  | false =>
    have htiles := hdir.rootRecords
    rw [dxRoot, logicalBlock_of_map hmap] at htiles
    rw [hdrop.other 0 hdir.nonempty phys hmap (by rw [henabled]; exact nofun)]
    refine ⟨⟨_, htiles, by rw [henabled]; exact nofun⟩, htiles.parseBlock_eq.trans ?_⟩
    simp [liveEntries, hdir.dotRecord.1, hdir.dotdotRecord.1]

variable (hfinds : m.FindsNodes d inode (buf.view d.img m.fs.sb.blockSize))

include hfinds

theorem IndexedDirectory.node_dropped {l phys : Nat}
    (hnode : m.isNode d inode (buf.view d.img m.fs.sb.blockSize) l = true)
    (hmap : m.mapInodeLogical d inode l = .ok (some phys)) :
    m.LinearBlock crc dirIno inode (buf'.view d.img m.fs.sb.blockSize phys) ∧
      parseBlock (buf'.view d.img m.fs.sb.blockSize phys) m.fs.sb.hasFiletype = .ok [] := by
  obtain ⟨hl, -, phys', r, hmap', htiles, hinode, -⟩ := hdir.nodes l hnode
  obtain rfl : phys = phys' := Option.some.inj (Except.ok.inj (hmap.symm.trans hmap'))
  cases henabled : m.csum.enabled with
  | true =>
    have hversion : Path.storedVersion (m.dxRoot d inode (buf.view d.img m.fs.sb.blockSize)) ≤
        5 := by
      obtain hoff | hversion | hnone := hfinds
      · rw [henabled] at hoff
        cases hoff
      · exact hversion
      · obtain ⟨j, hj, -⟩ := isNode_eq_true.mp hnode
        omega
    obtain ⟨hlinear, hparse, -⟩ := hdir.node_linear henabled hnode hmap
    rw [hdrop.node henabled l phys hmap ⟨hversion, hnode⟩]
    exact ⟨hlinear, hparse⟩
  | false =>
    rw [hdrop.other l hl phys hmap (by rw [henabled]; exact nofun)]
    refine ⟨⟨_, htiles, by rw [henabled]; exact nofun⟩, htiles.parseBlock_eq.trans ?_⟩
    simp [liveEntries, hinode]

theorem IndexedDirectory.dropsIndex :
    m.DropsIndex crc d dirIno inode (buf.view d.img m.fs.sb.blockSize) dot dotdot buf' := by
  refine ⟨hdrop.flag, ?_, ?_, fun l hl phys hmap => hdrop.leaf_kept hl hmap⟩
  · intro l hl phys hmap
    rw [mapInodeLogical_dropped] at hmap
    by_cases hzero : l = 0
    · subst hzero
      exact (hdir.root_dropped hdrop hmap).1
    · by_cases hnode : m.isNode d inode (buf.view d.img m.fs.sb.blockSize) l = true
      · exact (hdir.node_dropped hdrop hfinds hnode hmap).1
      · have hleaf := mem_leaves.mpr ⟨hl, hzero, Bool.eq_false_iff.mpr hnode⟩
        rw [hdrop.leaf_kept hleaf hmap]
        exact hdir.leafBlocks l hleaf phys hmap
  · obtain ⟨n, hn⟩ : ∃ n, m.totalBlocks inode = n + 1 :=
      ⟨m.totalBlocks inode - 1, by have hpos := hdir.nonempty; omega⟩
    obtain ⟨rootPhys, hroot, -⟩ := hdir.map_root
    have hfirst : m.linearEntries d inode.unindexed (buf'.view d.img m.fs.sb.blockSize) 0 =
        [dot.entry m.fs.sb.hasFiletype, dotdot.entry m.fs.sb.hasFiletype] := by
      rw [linearEntries_dropped]
      exact linearEntries_of_parse hroot (hdir.root_dropped hdrop hroot).2
    have hrest : ∀ l ∈ (List.range n).map Nat.succ,
        m.linearEntries d inode.unindexed (buf'.view d.img m.fs.sb.blockSize) l =
          if (l != 0 && !m.isNode d inode (buf.view d.img m.fs.sb.blockSize) l) then
            m.linearEntries d inode (buf.view d.img m.fs.sb.blockSize) l else [] := by
      intro l hl
      obtain ⟨k, hk, rfl⟩ := List.mem_map.mp hl
      have hlt : k.succ < m.totalBlocks inode := by
        have hk' := List.mem_range.mp hk
        omega
      rw [linearEntries_dropped]
      cases hnode : m.isNode d inode (buf.view d.img m.fs.sb.blockSize) k.succ with
      | true =>
        obtain ⟨-, -, phys, -, hmap, -⟩ := hdir.nodes k.succ hnode
        rw [if_neg (by simp)]
        exact linearEntries_of_parse hmap (hdir.node_dropped hdrop hfinds hnode hmap).2
      | false =>
        rw [if_pos (by simp)]
        unfold linearEntries
        cases hmap : m.mapInodeLogical d inode k.succ with
        | error e => rfl
        | ok found =>
          cases found with
          | none => rfl
          | some phys =>
            dsimp only
            rw [hdrop.leaf_kept (mem_leaves.mpr ⟨hlt, Nat.succ_ne_zero k, hnode⟩) hmap]
    rw [leaves, hn, List.range_succ_eq_map, List.flatMap_cons, hfirst, flatMap_eq_filter hrest]
    rfl

end Claim

theorem IndexedDirectory.findsNodes {crc : Crc} {m : Mount} {d : Disk} {dirIno : UInt32}
    {inode : Inode} {buf buf' : BlockBuffer} {dot dotdot : Record}
    (hdir : m.IndexedDirectory crc d dirIno inode (buf.view d.img m.fs.sb.blockSize) dot dotdot)
    (hdrop : m.Dropped crc d dirIno inode buf buf')
    (h : m.DropsIndex crc d dirIno inode (buf.view d.img m.fs.sb.blockSize) dot dotdot buf') :
    m.FindsNodes d inode (buf.view d.img m.fs.sb.blockSize) := by
  by_contra hmissed
  obtain ⟨hoff, hmissed⟩ := not_or.mp hmissed
  obtain ⟨hversion, hlevels⟩ := not_or.mp hmissed
  have henabled : m.csum.enabled = true := by simpa using hoff
  -- a node of the first level, which has kept its one record
  obtain ⟨c, hc⟩ : ∃ c, c ∈ m.dxLevel d inode (buf.view d.img m.fs.sb.blockSize) 0 := by
    refine List.exists_mem_of_ne_nil _ (fun hnil => ?_)
    have hcount := hdir.rootNode.nonempty
    have hlen := congrArg List.length hnil
    simp only [dxLevel, Htree.children, Htree.entriesAt, List.length_map, List.length_range,
      List.length_nil] at hlen
    omega
  have hnode := isNode_eq_true.mpr ⟨0, Nat.pos_of_ne_zero hlevels, c, hc, rfl⟩
  obtain ⟨hl, hne, phys, r, hmap, htiles, -, -, hlen, -⟩ := hdir.nodes c.toNat hnode
  have hsame := hdrop.other c.toNat hl phys hmap (fun _ => ⟨hne, fun hfound => hversion hfound.1⟩)
  obtain ⟨rs, htiles', htail⟩ := h.linear c.toNat hl phys (by rwa [mapInodeLogical_dropped])
  rw [hsame] at htiles'
  obtain ⟨⟨front, t, hsplit, ht⟩, -⟩ := htail henabled
  have hsize := blockSize_ge m.fs.sb
  rw [htiles.not_tailed htiles' (by omega) hsplit] at ht
  cases ht

/-- Dropping the index loses nothing exactly when there are no checksums to keep, the root's hash
version is one whose nodes are looked for, or there are no interior nodes. -/
theorem drop_htree_index_iff {crc : Crc} {m : Mount} {d : Disk} {dirIno : UInt32} {inode : Inode}
    {raw : Bytes} {buf buf' : BlockBuffer} {dot dotdot : Record}
    (hinode : m.bufferedInodeVerified crc d buf dirIno = .ok (inode, raw))
    (hdir : m.IndexedDirectory crc d dirIno inode (buf.view d.img m.fs.sb.blockSize) dot dotdot)
    (h : m.bufferDropHtreeIndex crc d buf dirIno = .ok buf') :
    m.DropsIndex crc d dirIno inode (buf.view d.img m.fs.sb.blockSize) dot dotdot buf' ↔
      m.FindsNodes d inode (buf.view d.img m.fs.sb.blockSize) :=
  ⟨hdir.findsNodes (hdir.dropped hinode h), hdir.dropsIndex (hdir.dropped hinode h)⟩

end Mount

theorem BlockBuffer.exists_edit {read : Nat → Result Bytes} {block : Nat} (buf : BlockBuffer)
    (h : ∃ bytes, read block = .ok bytes) (f : Bytes → Bytes) : ∃ buf', buf.edit read block f =
      .ok buf' := by
  obtain ⟨bytes, hread⟩ := h
  unfold edit getMut
  cases buf.dirty.get? block with
  | none =>
    rw [hread]
    exact ⟨_, rfl⟩
  | some staged => exact ⟨_, rfl⟩

theorem Mount.exists_linearizeAll {crc : Crc} {m : Mount} {d : Disk} {dirIno : UInt32}
    {inode : Inode}
    {blocks : List (Nat × Nat)} (h : ∀ b ∈ blocks, ∃ bytes, m.fs.reader d b.1 = .ok bytes)
    (buf : BlockBuffer) : ∃ buf', m.linearizeAll crc d dirIno inode blocks buf = .ok buf' := by
  induction blocks generalizing buf with
  | nil => exact ⟨buf, rfl⟩
  | cons b blocks ih =>
    obtain ⟨buf₁, hedit⟩ := buf.exists_edit (h b List.mem_cons_self)
      (m.linearBlock crc dirIno inode b.2)
    obtain ⟨buf₂, hrest⟩ := ih (fun b' hb' => h b' (List.mem_cons_of_mem _ hb')) buf₁
    exact ⟨buf₂, by rw [linearizeAll, hedit]; exact hrest⟩

namespace Mount

def oneNodeMount : Mount where
  fs := ⟨Path.smallSb, [⟨3, 4, 10, 0, 0, 1, 0⟩], 64 * 1024, true⟩
  csum := ⟨0xFFFFFFFF, true⟩
  cleared := SortedMap.empty
  journal := none
  directCommitFailed := false

/-- Inode 12: a directory of three blocks from 5 on, with an index of casefolded names, on a volume
that does not say that it has any. -/
def oneNodeInode : Inode := { Path.indexedInode with
  size := 3072
  blocks := 6
  flags := inodeFlagExtents ||| inodeFlagIndex ||| inodeFlagCasefold
  block := [0x0A, 0xF3, 1, 0, 4, 0, 0, 0, 0, 0, 0, 0] ++ [0, 0, 0, 0, 3, 0, 0, 0, 5, 0, 0, 0] ++
    List.replicate 36 0 }

def oneNodeUnsummed : Bytes :=
  [0xED, 0x41, 0, 0] ++ u32le 3072 ++ List.replicate 18 0 ++ [2, 0] ++ u32le 6 ++
    u32le (inodeFlagExtents ||| inodeFlagIndex ||| inodeFlagCasefold) ++ [0, 0, 0, 0] ++
      oneNodeInode.block ++
    List.replicate 28 0 ++ [32, 0] ++ List.replicate 126 0

def oneNodeRaw : Bytes := oneNodeMount.csum.patchInodeChecksum linuxCrc32c 12 0 oneNodeUnsummed

def oneNodeDot : Record := ⟨12, InlineData.dotName, 2, [0, 0, 0]⟩

/-- The root's `..`, with an index of one node under it and a checksum in its last four bytes; its
hash version is half-MD4, or SipHash. -/
def oneNodeDotdot (known : Bool) : Record := ⟨2, InlineData.dotdotName, 2,
  [0, 0] ++ [0, 0, 0, 0, if known then 1 else 6, 8, 1, 0] ++ [123, 0, 1, 0, 1, 0, 0, 0] ++
    List.replicate 980 0 ++ u32le (if known then 983583044 else 3194720119)⟩

def oneNodeNode : Record :=
  ⟨0, [], 0, [126, 0, 1, 0, 2, 0, 0, 0] ++ List.replicate 1004 0 ++ u32le 2115595380⟩

def oneNodeLeaf : Record := ⟨13, [0x61], 1, List.replicate 1003 0⟩

def oneNodeTail : Record :=
  Record.tail (oneNodeMount.tailSum linuxCrc32c 12 oneNodeInode oneNodeLeaf.bytes)

section OneNode

variable (known : Bool)

def oneNodeBlocks : List (Nat × Bytes) := [
  (5, [oneNodeDot, oneNodeDotdot known].flatMap Record.bytes), (6, oneNodeNode.bytes),
  (7, oneNodeLeaf.bytes ++ oneNodeTail.bytes)]

def oneNodeDisk : Disk where
  img := Image.writeBlocks (fun _ => 0) 1024 (oneNodeBlocks known)
  size := 64 * 1024

def oneNodeBuffer : BlockBuffer := BlockBuffer.new.put 12 (List.replicate 768 0 ++ oneNodeRaw)

def oneNodeView : Nat → Bytes :=
  oneNodeBuffer.view (oneNodeDisk known).img oneNodeMount.fs.sb.blockSize

example : oneNodeMount.csum.verifyInode linuxCrc32c 12 0 oneNodeRaw = true := by decide +kernel

theorem oneNode_map {l : Nat} (hl : l < 3) :
    oneNodeMount.mapInodeLogical (oneNodeDisk known) oneNodeInode l = .ok (some (5 + l)) := by
  have hall : ∀ known : Bool, ∀ l < 3,
      oneNodeMount.mapInodeLogical (oneNodeDisk known) oneNodeInode l = .ok (some (5 + l)) := by
    decide +kernel
  exact hall known l hl

theorem oneNode_view {b : Nat} {bytes : Bytes} (hmem : (b, bytes) ∈ oneNodeBlocks known) :
    oneNodeView known b = bytes := by
  have hlen : ∀ w ∈ oneNodeBlocks known, w.2.length = 1024 := by
    cases known <;> decide +kernel
  have hne : b ≠ 12 := by
    have hkeys : ∀ b ∈ (oneNodeBlocks known).map Prod.fst, b ≠ 12 := by
      simp [oneNodeBlocks]
    exact hkeys b (List.mem_map_of_mem hmem)
  have h := Image.block_writeBlocks (fun _ => 0) 1024 (oneNodeBlocks known) hlen b
  rw [lastWrite_of_mem _ (by simp [oneNodeBlocks]) _ hmem, Option.getD_some] at h
  rw [oneNodeView, show oneNodeMount.fs.sb.blockSize = 1024 from rfl, oneNodeBuffer,
    BlockBuffer.view_put, Function.update_of_ne hne, BlockBuffer.view_new, oneNodeDisk, h]

theorem oneNode_inodeAt : InodeAt linuxCrc32c oneNodeMount (oneNodeView known) 12 12 768
    oneNodeInode
    oneNodeRaw := by
  have hparses : Inode.Parses oneNodeUnsummed := ⟨by decide +kernel, fun _ => by decide +kernel⟩
  obtain ⟨hlen, hfields, hchecked⟩ := oneNodeMount.csum.dirInode_ok linuxCrc32c 12 0 hparses
  rw [if_pos (show oneNodeMount.csum.enabled = true from rfl),
    ← oneNodeRaw] at hlen hfields hchecked
  have hraw : oneNodeRaw.length = 256 := hlen.trans (by decide +kernel)
  have hview : oneNodeView known 12 = List.replicate 768 0 ++ oneNodeRaw := by
    rw [oneNodeView, oneNodeBuffer, BlockBuffer.view_put, Function.update_self]
  refine ⟨by decide, ?_, ?_, ?_, hchecked⟩
  · rw [hview, List.length_append, List.length_replicate, hraw]
    decide
  · rw [hview, slice_append_right _ _ _ _ (by rw [List.length_replicate]), List.length_replicate,
      Nat.sub_self]
    exact slice_zero_of_length_le _ _ (by rw [hraw]; decide)
  · rw [Inode.parse_eq_ok, ← hfields.2]
    exact ⟨hfields.1, by decide⟩

theorem oneNode_root : oneNodeMount.dxRoot (oneNodeDisk known) oneNodeInode (oneNodeView known) =
    [oneNodeDot, oneNodeDotdot known].flatMap Record.bytes := by
  rw [dxRoot, logicalBlock_of_map (oneNode_map known (by decide))]
  exact oneNode_view known List.mem_cons_self

theorem oneNode_levels : oneNodeMount.dxLevels (oneNodeDisk known) oneNodeInode
    (oneNodeView known) = 1 := by
  rw [dxLevels, oneNode_root]
  cases known <;> decide

theorem oneNode_level : oneNodeMount.dxLevel (oneNodeDisk known) oneNodeInode (oneNodeView known)
    0 = [1] := by
  rw [dxLevel, oneNode_root]
  cases known <;> decide

theorem oneNode_isNode {l : Nat} :
    oneNodeMount.isNode (oneNodeDisk known) oneNodeInode (oneNodeView known) l = true ↔ l = 1 := by
  rw [isNode_eq_true, oneNode_levels]
  constructor
  · rintro ⟨j, hj, c, hc, rfl⟩
    obtain rfl : j = 0 := by omega
    rw [oneNode_level] at hc
    rw [List.mem_singleton.mp hc]
    rfl
  · rintro rfl
    exact ⟨0, by decide, 1, by rw [oneNode_level]; exact List.mem_cons_self, rfl⟩

example : oneNodeMount.isNode (oneNodeDisk true) oneNodeInode (oneNodeView true) 2 = false := by
  decide +kernel

theorem oneNode_directory : oneNodeMount.IndexedDirectory linuxCrc32c (oneNodeDisk known) 12
    oneNodeInode (oneNodeView known) oneNodeDot (oneNodeDotdot known) := by
  have htotal : oneNodeMount.totalBlocks oneNodeInode = 3 := rfl
  have hroot := oneNode_root known
  constructor
  case indexed => decide
  case distinct =>
    intro l hl l' hl' phys hmap hmap'
    rw [htotal] at hl hl'
    rw [oneNode_map known hl] at hmap
    rw [oneNode_map known hl'] at hmap'
    have h1 := Option.some.inj (Except.ok.inj hmap)
    have h2 := Option.some.inj (Except.ok.inj hmap')
    omega
  case apart =>
    intro block off hlocated l hl hmap
    rw [htotal] at hl
    rw [oneNode_map known hl] at hmap
    obtain ⟨rfl, -⟩ := Prod.mk.inj
      (Except.ok.inj ((oneNode_inodeAt known).located.symm.trans hlocated))
    have h1 := Option.some.inj (Except.ok.inj hmap)
    omega
  case nonempty => decide
  case rootRecords =>
    rw [hroot]
    refine ⟨rfl, ?_, ?_⟩
    · cases known <;> decide +kernel
    · cases known <;> decide
  case dotRecord => decide
  case dotdotRecord => cases known <;> decide +kernel
  case rootInfo =>
    rw [hroot]
    cases known <;> decide
  case rootNode =>
    rw [hroot]
    constructor <;> cases known <;> decide +kernel
  case nodes =>
    intro l hnode
    obtain rfl := (oneNode_isNode known).mp hnode
    have hview := oneNode_view known (List.mem_cons_of_mem _ List.mem_cons_self)
    refine ⟨by decide, by decide, 6, oneNodeNode, oneNode_map known (by decide), ?_, rfl,
      rfl, by decide +kernel, ?_⟩
    · rw [hview]
      exact ⟨by simp, by decide +kernel, nofun⟩
    · rw [hview]
      constructor <;> decide +kernel
  case leafBlocks =>
    intro l hleaf phys hmap
    obtain ⟨hl, hne, hnot⟩ := mem_leaves.mp hleaf
    have hother : l ≠ 1 := by
      rintro rfl
      rw [(oneNode_isNode known).mpr rfl] at hnot
      cases hnot
    obtain rfl : l = 2 := by
      rw [htotal] at hl
      omega
    rw [oneNode_map known (by decide)] at hmap
    obtain rfl := Option.some.inj (Except.ok.inj hmap)
    rw [oneNode_view known (List.mem_cons_of_mem _ (List.mem_cons_of_mem _ List.mem_cons_self))]
    refine ⟨[oneNodeLeaf, oneNodeTail], ⟨by simp, ?_, ?_⟩, fun _ =>
      ⟨⟨[oneNodeLeaf], oneNodeTail, rfl, ?_⟩, ?_⟩⟩
    · intro r hr
      obtain rfl | hr := List.mem_cons.mp hr
      · decide +kernel
      · rw [List.mem_singleton.mp hr]
        exact Record.valid_tail _ _
    · intro r hr
      obtain rfl := List.mem_singleton.mp hr
      decide
    · exact Record.isTail_tail _
    · exact verify_tail _

end OneNode

end Mount

namespace Mount

theorem oneNode_inode (known : Bool) :
    oneNodeMount.bufferedInodeVerified linuxCrc32c (oneNodeDisk known) oneNodeBuffer 12 =
      .ok (oneNodeInode, oneNodeRaw) :=
  bufferedInodeVerified_of_staged (oneNode_inodeAt known)
    ((BlockBuffer.staged_put _ _ _ _).mpr (.inl rfl))

theorem oneNode_reader (known : Bool) {b : Nat} (hb : b < 64) :
    ∃ bytes, oneNodeMount.fs.reader (oneNodeDisk known) b = .ok bytes :=
  ⟨_, Filesystem.reader_of_fits oneNodeMount.fs (oneNodeDisk known) b
    (by change (b + 1) * 1024 ≤ 64 * 1024; omega) (by change 64 * 1024 < 2 ^ 64; decide)⟩

theorem oneNode_bufferedBlock (known : Bool) {b : Nat} {bytes : Bytes}
    (hmem : (b, bytes) ∈ oneNodeBlocks known) :
    oneNodeBuffer.bufferedBlock (oneNodeMount.fs.reader (oneNodeDisk known)) b = .ok bytes := by
  have hkeys : ∀ b ∈ (oneNodeBlocks known).map Prod.fst, b ≠ 12 ∧ b < 64 := by
    simp [oneNodeBlocks]
  obtain ⟨hne, hlt⟩ := hkeys b (List.mem_map_of_mem hmem)
  have hget : oneNodeBuffer.dirty.get? b = none := by
    rw [oneNodeBuffer, BlockBuffer.put, SortedMap.get?_insert, if_neg hne]
    rfl
  obtain ⟨found, hread⟩ := oneNode_reader known hlt
  have hfound : oneNodeBuffer.bufferedBlock (oneNodeMount.fs.reader (oneNodeDisk known)) b =
      .ok found := by
    rw [BlockBuffer.bufferedBlock, hget]
    exact hread
  have hview : found = oneNodeView known b := BlockBuffer.bufferedBlock_ok hfound
  rw [hfound, hview, oneNode_view known hmem]

theorem oneNode_interiorNodes (known : Bool) : ∃ nodes,
    oneNodeMount.interiorNodes linuxCrc32c (oneNodeDisk known) 12 oneNodeInode oneNodeBuffer
      ([oneNodeDot, oneNodeDotdot known].flatMap Record.bytes) = .ok nodes ∧ ∀ b ∈ nodes,
      b < 64 := by
  have hnodes := (oneNode_directory known).interiorNodes_eq
  rw [← oneNodeView, oneNode_root] at hnodes
  rw [hnodes]
  split
  · have hphys : oneNodeMount.physical (oneNodeDisk known) oneNodeInode
        (1 : UInt32).toNat = .ok 6 := by
      rw [show (1 : UInt32).toNat = 1 from rfl]
      exact physical_eq_ok.mpr (oneNode_map known (show 1 < 3 by decide))
    have hchecked : oneNodeMount.checkDxBlock linuxCrc32c 12 oneNodeInode oneNodeNode.bytes false =
        .ok () := by
      decide +kernel
    have hparse : Htree.parseNodeEntries oneNodeNode.bytes = .ok (⟨126, 1⟩, [⟨0, 2⟩]) := by
      decide +kernel
    have hblock := oneNode_bufferedBlock known (List.mem_cons_of_mem _ List.mem_cons_self)
    have hlevel : oneNodeMount.levelNodes linuxCrc32c (oneNodeDisk known) 12 oneNodeInode
      oneNodeBuffer [1] =
        .ok ([6], [2]) := by
      rw [levelNodes, hphys, Result.ok_bind, hblock, Result.ok_bind, hchecked,
        Result.ok_bind, hparse, Result.ok_bind]
      rfl
    rw [oneNode_levels, oneNode_level, indexNodes, hlevel, Result.ok_bind]
    exact ⟨[6], rfl, by simp⟩
  · exact ⟨[], rfl, nofun⟩

theorem oneNode_drops (known : Bool) : ∃ buf',
    oneNodeMount.bufferDropHtreeIndex linuxCrc32c (oneNodeDisk known) oneNodeBuffer 12 =
      .ok buf' := by
  obtain ⟨nodes, hnodes, hlt⟩ := oneNode_interiorNodes known
  have hroot : oneNodeMount.checkDxBlock linuxCrc32c 12 oneNodeInode
      ([oneNodeDot, oneNodeDotdot known].flatMap Record.bytes) true = .ok () := by
    cases known <;> decide +kernel
  obtain ⟨buf₁, hlinear⟩ : ∃ buf₁, oneNodeMount.linearizeIndex linuxCrc32c (oneNodeDisk known) 12
      oneNodeInode 5 nodes oneNodeBuffer = .ok buf₁ := by
    rw [linearizeIndex, if_pos (show oneNodeMount.csum.enabled = true from rfl)]
    refine exists_linearizeAll ?_ oneNodeBuffer
    intro b hb
    refine oneNode_reader known ?_
    obtain rfl | hb := List.mem_cons.mp hb
    · decide
    · obtain ⟨phys, hphys, rfl⟩ := List.mem_map.mp hb
      exact hlt phys hphys
  obtain ⟨buf₂, hwritten⟩ := buf₁.exists_edit (oneNode_reader known (show 12 < 64 by decide))
    (fun table => copyAt table 768 (oneNodeMount.csum.patchInodeChecksum linuxCrc32c 12
      oneNodeInode.generation (copyAt oneNodeRaw 0x20
        (u32le (oneNodeInode.flags &&& ~~~inodeFlagIndex)))))
  refine ⟨buf₂, ?_⟩
  unfold bufferDropHtreeIndex
  rw [oneNode_inode, Result.ok_bind]
  dsimp only
  rw [if_neg (by decide), physical_eq_ok.mpr (oneNode_map known (by decide)), Result.ok_bind,
    oneNode_bufferedBlock known List.mem_cons_self, Result.ok_bind, hroot, Result.ok_bind, hnodes,
    Result.ok_bind, hlinear, Result.ok_bind]
  rw [bufferWriteDirInode, if_pos (show oneNodeMount.csum.enabled = true from rfl),
    bufferWriteInode, (oneNode_inodeAt known).located]
  exact hwritten

theorem drop_htree_index_one_node : ∃ buf',
    oneNodeMount.bufferDropHtreeIndex linuxCrc32c (oneNodeDisk true) oneNodeBuffer 12 = .ok buf' ∧
      oneNodeMount.DropsIndex linuxCrc32c (oneNodeDisk true) 12 oneNodeInode (oneNodeView true)
        oneNodeDot (oneNodeDotdot true) buf' := by
  obtain ⟨buf', h⟩ := oneNode_drops true
  refine ⟨buf', h, (drop_htree_index_iff (oneNode_inode true) (oneNode_directory true) h).mpr ?_⟩
  refine .inr (.inl ?_)
  rw [← oneNodeView, oneNode_root]
  decide

end Mount

end FsExt4
