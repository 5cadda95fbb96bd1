import FsExt4.DirLookup

namespace FsExt4.Path

open Lib Jbd2 Dir

theorem pushAll_map_ok (entries es : List DirEntry)
    (h : entries.length + es.length ≤ maxDirEntries) :
    pushAll entries (es.map .ok) = .ok (entries ++ es) := by
  induction es generalizing entries with
  | nil => rw [List.map_nil, pushAll, List.append_nil]
  | cons e es ih =>
    rw [List.length_cons] at h
    rw [List.map_cons, pushAll, if_neg (by omega),
      ih _ (by rw [List.length_append, List.length_singleton]; omega),
      List.append_assoc, List.singleton_append]

section Blocks

variable {crc : Crc} {v : Volume} {d : Disk} {ino : UInt32} {dir : Inode} {layout : Layout}

theorem mapLogical_eq_mapBlock (hext : dir.hasExtents) (l : Nat) :
    Extent.mapLogical dir.block v.blockSize l = v.mapBlock dir l := by
  rw [Volume.mapBlock, Indirect.mapLogicalAny]
  exact (if_pos hext).symm

theorem listBlocks_eq (h : WellFormed crc v d ino dir layout) (hext : dir.hasExtents)
    (ls : List Nat) (entries : List DirEntry)
    (hmax : entries.length + (ls.flatMap (blockEntries v layout)).length ≤ maxDirEntries) :
    (listBlocks v dir ls entries).exec d =
      (.ok (entries ++ ls.flatMap (blockEntries v layout)), d) := by
  induction ls generalizing entries with
  | nil =>
    rw [List.flatMap_nil, List.append_nil]
    rfl
  | cons l ls ih =>
    rw [List.flatMap_cons, List.length_append] at hmax
    rw [listBlocks, mapLogical_eq_mapBlock hext, List.flatMap_cons]
    cases hl : layout l with
    | none =>
      rw [Io.exec_bind_ok _ _ _ _ _ (h.hole l hl), blockEntries_hole hl, List.nil_append]
      exact ih entries (by omega)
    | some rs =>
      obtain ⟨⟨phys, hmap, hfit, hread⟩, htiles⟩ := h.records l rs hl
      have hentries : blockEntries v layout l = liveEntries v.sb.hasFiletype rs :=
        blockEntries_eq hl
      rw [Io.exec_bind_ok _ _ _ _ _ hmap]
      dsimp only
      rw [Io.exec_bind_ok _ _ _ _ _ (exec_readPhys hfit), hread, htiles.dirBlockIter_eq, ← hentries,
        Io.exec_bind_ok _ _ _ _ _ (by rw [Io.exec_liftM, pushAll_map_ok _ _ (by omega)]),
        ih _ (by rw [List.length_append]; omega), List.append_assoc]

theorem dirEntries_eq_contents (h : WellFormed crc v d ino dir layout) (hext : dir.hasExtents)
    (hmax : (contents v dir layout).length ≤ maxDirEntries) (inodeRaw : Bytes) :
    (dirEntries v ino dir inodeRaw).exec d = (.ok (contents v dir layout), d) := by
  have hlist := listBlocks_eq h hext (List.range (v.totalBlocks dir)) []
    (by rw [List.length_nil, Nat.zero_add]; exact hmax)
  rw [dirEntries, Io.exec_bind_ok _ _ _ _ _
    (by rw [Io.exec_liftM, refuseEncryptedNames_ok h.plain]), h.notInline, hext]
  exact hlist

end Blocks

def Volume.groupOf (v : Volume) (ino : UInt32) : Nat := (ino.toNat - 1) / v.sb.inodesPerGroup.toNat

/-- Where the inode is on the device, in a table that starts at block `inodeTable`. -/
def Volume.inodeOffset (v : Volume) (inodeTable : Nat) (ino : UInt32) : Nat :=
  inodeTable * v.blockSize + (ino.toNat - 1) % v.sb.inodesPerGroup.toNat * v.sb.inodeSize

/-- The bytes `raw` are the inode, in the table that its group's descriptor on disk locates. -/
structure OnDisk (crc : Crc) (v : Volume) (d : Disk) (ino : UInt32) (inode : Inode) (raw : Bytes) :
    Prop where
  number : ino ≠ 0 ∧ ino ≤ v.sb.inodesCount ∧ v.sb.inodesPerGroup ≠ 0
  group : v.groupOf ino < v.sb.blockGroupCount
  /-- The descriptor is inside its block, and that block on the device. -/
  table : (v.sb.descriptorLocation (v.groupOf ino)).2 + v.sb.descSize ≤ v.blockSize ∧
    (v.sb.descriptorLocation (v.groupOf ino)).1 * v.blockSize + v.blockSize ≤ d.size
  stored : ∃ bgd,
    BlockGroupDescriptor.parse
      (slice (d.img.read ((v.sb.descriptorLocation (v.groupOf ino)).1 * v.blockSize) v.blockSize)
        (v.sb.descriptorLocation (v.groupOf ino)).2 v.sb.descSize) v.sb.descSize = .ok bgd ∧
    v.inodeOffset bgd.inodeTable ino + v.sb.inodeSize ≤ d.size ∧
    d.img.read (v.inodeOffset bgd.inodeTable ino) v.sb.inodeSize = raw
  /-- A byte offset on the device is a 64-bit number. -/
  device : d.size ≤ 2 ^ 64
  parsed : Inode.parse raw = .ok inode
  checksum : v.csum.enabled → v.csum.verifyInode crc ino inode.generation raw

theorem Inode.parse_length {raw : Bytes} {inode : Inode} (h : Inode.parse raw = .ok inode) :
    inodeBaseSize ≤ raw.length := by
  by_contra hlen
  rw [Inode.parse, if_pos (Nat.lt_of_not_le hlen)] at h
  cases h

/-- Where `read_raw_inode` reads an inode: behind the table's first byte, all slots in one run. -/
def rawInodeOffset (v : Volume) (ino : UInt32) : DevIo Nat := do
  if ino = 0 ∨ v.sb.inodesCount < ino ∨ v.sb.inodesPerGroup = 0 then
    .fail (.invalidInode ino)
  else
    let group := (ino.toNat - 1) / v.sb.inodesPerGroup.toNat
    if v.sb.blockGroupCount ≤ group then .fail (.invalidInode ino)
    else
      let (descBlock, descOff) := v.sb.descriptorLocation group
      if 2 ^ 64 ≤ descBlock * v.blockSize then
        .fail (.corrupt "group descriptor block number overflow")
      else
        let table ← readAt (descBlock * v.blockSize) v.blockSize
        if table.length < descOff + v.sb.descSize then
          .fail (.corrupt "group descriptor outside its block")
        else
          let bgd ← liftM (BlockGroupDescriptor.parse (slice table descOff v.sb.descSize)
            v.sb.descSize)
          let loc := (ino.toNat - 1) % v.sb.inodesPerGroup.toNat
          let offset := bgd.inodeTable * v.blockSize + loc * v.sb.inodeSize
          if 2 ^ 64 ≤ offset then .fail (.corrupt "inode table offset overflow")
          else return offset

/-- What `read_raw_inode` does with the bytes that it reads. -/
def checkRawInode (crc : Crc) (v : Volume) (ino : UInt32) (expected : Inode) (raw : Bytes) :
    DevIo Bytes := do
  let parsed ← liftM (Inode.parse raw)
  if v.csum.enabled && !v.csum.verifyInode crc ino parsed.generation raw then
    .fail (.badChecksum "inode")
  else if parsed.block ≠ expected.block ∨ parsed.size ≠ expected.size ∨
      parsed.generation ≠ expected.generation then
    .fail (.corrupt "inline directory: the inode table disagrees with the inode being looked up")
  else
    return raw

theorem readRawInode_eq_bind (crc : Crc) (v : Volume) (ino : UInt32) (expected : Inode) :
    readRawInode crc v ino expected = (do
      let raw ← readAt (← rawInodeOffset v ino) v.sb.inodeSize
      checkRawInode crc v ino expected raw) := by
  unfold readRawInode rawInodeOffset
  split
  · rfl
  dsimp only
  split
  · rfl
  split
  · rfl
  rw [Io.bind_assoc]
  congr 1
  funext table
  split
  · rfl
  rw [Io.bind_assoc]
  congr 1
  funext bgd
  split
  · rfl
  · rfl

theorem OnDisk.offset {crc : Crc} {v : Volume} {d : Disk} {ino : UInt32} {inode : Inode}
    {raw : Bytes}
    (h : OnDisk crc v d ino inode raw) : ∃ off, (rawInodeOffset v ino).exec d = (.ok off, d) ∧
      off + v.sb.inodeSize ≤ d.size ∧ d.img.read off v.sb.inodeSize = raw := by
  obtain ⟨hne, hcount, hipg⟩ := h.number
  obtain ⟨bgd, hbgd, hfit, hraw⟩ := h.stored
  refine ⟨v.inodeOffset bgd.inodeTable ino, ?_, hfit, hraw⟩
  have hgroup := h.group
  have hdevice := h.device
  have htable := h.table
  have hlen : raw.length = v.sb.inodeSize := by
    rw [← hraw, Image.length_read]
  have hsize : inodeBaseSize ≤ v.sb.inodeSize := by
    rw [← hlen]
    exact Inode.parse_length h.parsed
  have hblock : 1024 ≤ v.blockSize := blockSize_ge v.sb
  simp only [inodeBaseSize] at hsize
  simp only [Volume.groupOf] at hgroup hbgd htable
  simp only [Volume.inodeOffset] at hfit
  rw [rawInodeOffset, if_neg (by
    rintro (h0 | h0 | h0)
    · exact hne h0
    · exact absurd hcount (UInt32.not_le.2 h0)
    · exact hipg h0)]
  dsimp only
  rw [if_neg (by omega), if_neg (by omega), Io.exec_bind_ok _ _ _ _ _ (exec_readAt d _ _ htable.2),
    Image.length_read, if_neg (by omega),
    Io.exec_bind_ok _ _ _ _ _ (by rw [Io.exec_liftM, hbgd]), if_neg (by omega)]
  rfl

theorem readRawInode_eq {crc : Crc} {v : Volume} {d : Disk} {ino : UInt32} {inode : Inode}
    {raw : Bytes} (h : OnDisk crc v d ino inode raw) :
    (readRawInode crc v ino inode).exec d = (.ok raw, d) := by
  obtain ⟨off, hoffset, hfit, hraw⟩ := h.offset
  have hcsum : (v.csum.enabled && !v.csum.verifyInode crc ino inode.generation raw) = false := by
    cases henabled : v.csum.enabled with
    | false => rfl
    | true => simp [h.checksum henabled]
  rw [readRawInode_eq_bind, Io.exec_bind_ok _ _ _ _ _ hoffset,
    Io.exec_bind_ok _ _ _ _ _ (exec_readAt d _ _ hfit), hraw, checkRawInode,
    Io.exec_bind_ok _ _ _ _ _ (by rw [Io.exec_liftM, h.parsed]), hcsum]
  simp

/-- A directory in its inode: the parent's number, then records to the end of `i_block`, then, when
its size says so, records in the `system.data` attribute. -/
structure InlineDir (crc : Crc) (v : Volume) (d : Disk) (ino : UInt32) (dir : Inode) (raw : Bytes)
    (rs more : List Record) : Prop where
  plain : dir.flags &&& inodeFlagEncrypt = 0
  inlined : dir.hasInlineData = true
  parent : u32leAt dir.block 0 ≠ 0
  inBlock : Tiles v.sb.hasFiletype rs (dir.block.drop InlineData.inlineDotdotSize)
  whole : dir.size ≤ InlineData.inlineBlockSize → more = []
  continued : InlineData.inlineBlockSize < dir.size →
    OnDisk crc v d ino dir raw ∧
    ∃ extra, (Xattr.get dir raw v.sb.inodeSize v.blockSize Xattr.systemData).exec d =
        (.ok (some extra), d) ∧
      dir.size - InlineData.inlineBlockSize ≤ extra.length ∧
      Tiles v.sb.hasFiletype more (extra.take (dir.size - InlineData.inlineBlockSize))

def inlineContents (v : Volume) (ino : UInt32) (dir : Inode) (rs more : List Record) :
    List DirEntry :=
  ⟨ino, InlineData.dotName, .directory⟩ ::
    ⟨u32leAt dir.block 0, InlineData.dotdotName, .directory⟩ ::
      (liveEntries v.sb.hasFiletype rs ++ liveEntries v.sb.hasFiletype more)

section Inline

variable {crc : Crc} {v : Volume} {d : Disk} {ino : UInt32} {dir : Inode} {raw : Bytes}
  {rs more : List Record}

theorem inline_dirEntries_eq (h : InlineDir crc v d ino dir raw rs more) {continuation : Bytes}
    {cs : List Record} (hcont : Tiles v.sb.hasFiletype cs continuation) :
    InlineData.dirEntries ino dir continuation v.sb.hasFiletype =
      .ok (inlineContents v ino dir rs cs) := by
  rw [InlineData.dirEntries, if_neg h.parent, h.inBlock.dirBlockIter_eq, hcont.dirBlockIter_eq,
    mapM_id_ok, mapM_id_ok]
  rfl

theorem dirContinuation_eq (h : InlineDir crc v d ino dir raw rs more) :
    ∃ continuation, (InlineData.dirContinuation dir raw v.sb.inodeSize v.blockSize).exec d =
        (.ok continuation, d) ∧ Tiles v.sb.hasFiletype more continuation := by
  by_cases hsize : dir.size ≤ InlineData.inlineBlockSize
  · refine ⟨[], ?_, ?_⟩
    · rw [InlineData.dirContinuation, if_pos hsize]
      rfl
    · rw [h.whole hsize]
      exact Tiles.nil _
  · obtain ⟨-, extra, hget, hlen, htiles⟩ := h.continued (Nat.lt_of_not_le hsize)
    refine ⟨_, ?_, htiles⟩
    rw [InlineData.dirContinuation, if_neg hsize]
    dsimp only
    rw [Io.exec_bind_ok _ _ _ _ _ hget]
    dsimp only
    rw [if_neg (by omega)]
    rfl

theorem dirEntries_eq_inlineContents (h : InlineDir crc v d ino dir raw rs more) :
    (dirEntries v ino dir raw).exec d = (.ok (inlineContents v ino dir rs more), d) := by
  obtain ⟨continuation, hcont, htiles⟩ := dirContinuation_eq h
  rw [dirEntries, Io.exec_bind_ok _ _ _ _ _
    (by rw [Io.exec_liftM, refuseEncryptedNames_ok h.plain]), h.inlined]
  change (InlineData.readDir _ _ _ _ _ _).exec d = _
  rw [InlineData.readDir, Io.exec_bind_ok _ _ _ _ _ hcont, Io.exec_liftM,
    inline_dirEntries_eq h htiles]

theorem findEntry_eq_scan_inline (h : InlineDir crc v d ino dir raw rs more) (name : Bytes) :
    (findEntry crc v ino dir name).exec d = (scan name (inlineContents v ino dir rs more), d) := by
  have hsplit : inlineContents v ino dir rs more =
      inlineContents v ino dir rs [] ++ liveEntries v.sb.hasFiletype more := by
    simp [inlineContents, liveEntries]
  rw [findEntry, Io.exec_bind_ok _ _ _ _ _ (by rw [Io.exec_liftM, refuseEncryptedNames_ok h.plain]),
    h.inlined]
  change (findInline crc v ino dir name).exec d = _
  rw [findInline, Io.exec_bind_ok _ _ _ _ _
    (by rw [Io.exec_liftM, inline_dirEntries_eq h (Tiles.nil _)]), hsplit]
  cases hfind : (inlineContents v ino dir rs []).find? (fun e => e.name == name) with
  | some e =>
    rw [scan_append_of_some hfind]
    rfl
  | none =>
    rw [scan_append_of_none hfind]
    dsimp only
    by_cases hsize : dir.size ≤ InlineData.inlineBlockSize
    · rw [if_pos hsize, h.whole hsize]
      rfl
    · obtain ⟨hdisk, -⟩ := h.continued (Nat.lt_of_not_le hsize)
      obtain ⟨continuation, hcont, htiles⟩ := dirContinuation_eq h
      rw [if_neg hsize, Io.exec_bind_ok _ _ _ _ _ (readRawInode_eq hdisk),
        Io.exec_bind_ok _ _ _ _ _ hcont,
        Io.exec_bind_ok _ _ _ _ _
          (by rw [Io.exec_liftM, htiles.dirBlockIter_eq, findIn_map_ok])]
      rw [scan]
      cases (liveEntries v.sb.hasFiletype more).find? (fun e => e.name == name) <;> rfl

end Inline

/-- A block that an index names, `levels` above the leaves: every node parses, and every leaf is a
block of entries in the directory. -/
inductive IndexBlock (v : Volume) (dir : Inode) (layout : Layout) : Nat → UInt32 → Prop where
  | leaf (l : UInt32) (hlt : l.toNat < v.totalBlocks dir) (hmapped : layout l.toNat ≠ none)
      (hleaf : ¬ InIndex dir layout l.toNat) : IndexBlock v dir layout 0 l
  | node (levels : Nat) (l : UInt32) (hmapped : layout l.toNat ≠ none)
      (hnode : Htree.NodeAt (blockBytes layout l.toNat) 8)
      (hchildren : ∀ c ∈ Htree.children (blockBytes layout l.toNat) 8,
      IndexBlock v dir layout levels c) :
      IndexBlock v dir layout (levels + 1) l

/-- An index of any number of levels, hashed with a version the crate computes. -/
structure WholeIndex (v : Volume) (dir : Inode) (layout : Layout) : Prop where
  mapped : layout 0 ≠ none
  version : storedVersion (blockBytes layout 0) ≤ 5
  reserved : u32leAt (blockBytes layout 0) 24 = 0
  node : Htree.NodeAt (blockBytes layout 0) (24 + ((blockBytes layout 0).getD 29 0).toNat)
  below : ∀ c ∈ Htree.children (blockBytes layout 0) (24 + ((blockBytes layout 0).getD 29 0).toNat),
    IndexBlock v dir layout ((blockBytes layout 0).getD 30 0).toNat c

theorem IndexBlock.leads {v : Volume} {dir : Inode} {layout : Layout} (major : UInt32)
    {levels : Nat} {l : UInt32} (h : IndexBlock v dir layout levels l) :
    ∃ leaf, Leads layout major levels l leaf ∧ leaf.toNat < v.totalBlocks dir ∧
    layout leaf.toNat ≠ none ∧
      ¬ InIndex dir layout leaf.toNat := by
  induction h with
  | leaf l hlt hmapped hleaf => exact ⟨l, .leaf l, hlt, hmapped, hleaf⟩
  | node levels l hmapped hnode hchildren ih =>
    obtain ⟨-, hmem⟩ := Htree.chosen_mem_children hnode major
    obtain ⟨leaf, hleads, hleaf⟩ := ih _ hmem
    exact ⟨leaf, .node levels l leaf _ _ hmapped (Htree.parseNodeEntries_ok hnode) hleads, hleaf⟩

theorem WholeIndex.leads {v : Volume} {dir : Inode} {layout : Layout} (h : WholeIndex v dir layout)
    (name : Bytes) :
    ∃ leaf, IndexLeads v layout name leaf ∧ leaf.toNat < v.totalBlocks dir ∧
    layout leaf.toNat ≠ none ∧
      ¬ InIndex dir layout leaf.toNat := by
  obtain ⟨version, hversion⟩ := Option.isSome_iff_exists.1
    ((Hash.HashVersion.fromU8_isSome_iff ((blockBytes layout 0).getD 28 0)).2 h.version)
  have hinfo := Htree.parseRootInfo_eq (Nat.le_trans (by omega) h.node.length_ge) h.reserved
  rw [hversion] at hinfo
  obtain ⟨-, hmem⟩ := Htree.chosen_mem_children h.node
    (Hash.nameHash name (Hash.effectiveVersion version v.hash.unsignedHash) v.hash.hashSeed).major
  obtain ⟨leaf, hleads, hleaf⟩ := (h.below _ hmem).leads
    (Hash.nameHash name (Hash.effectiveVersion version v.hash.unsignedHash) v.hash.hashSeed).major
  exact ⟨leaf, ⟨_, _, _, hinfo, Htree.parseRootEntries_ok hinfo h.node, hleads⟩, hleaf⟩

inductive Contents where
  | blocks (layout : Layout)
  | inline (rs more : List Record)

namespace Contents

variable (crc : Crc) (v : Volume) (d : Disk) (ino : UInt32) (dir : Inode) (raw : Bytes)

def entries : Contents → List DirEntry
  | blocks layout => contents v dir layout
  | inline rs more => inlineContents v ino dir rs more

/-- A well-formed directory that can be listed: blocks mapped by extents, with an index that is
whole if there is one, or an inline directory. Names are distinct. -/
def Listable : Contents → Prop
  | blocks layout => WellFormed crc v d ino dir layout ∧ dir.hasExtents ∧
      (dir.isIndexed → WholeIndex v dir layout) ∧ ((contents v dir layout).map DirEntry.name).Nodup
  | inline rs more => InlineDir crc v d ino dir raw rs more ∧
      ((inlineContents v ino dir rs more).map DirEntry.name).Nodup

/-- The linear scan comes to block `l`: it does not pass over it, nor stop at it or in front of
it. -/
def Scanned (layout : Layout) (l : Nat) : Prop :=
  firstScanned crc v ino dir layout ≤ l ∧
    ∀ l', firstScanned crc v ino dir layout ≤ l' → l' ≤ l → badTail crc v ino dir
      (blockBytes layout l') = false

/-- Every entry of a directory of blocks is in the leaf that the index leads its name to, or in a
block that the linear scan comes to. -/
def Reached : Contents → Prop
  | blocks layout => ∀ l < v.totalBlocks dir, ∀ e ∈ blockEntries v layout l,
      (∃ leaf, dir.isIndexed ∧ IndexLeads v layout e.name leaf ∧ leaf.toNat = l) ∨
      Scanned crc v ino dir layout l
  | inline _ _ => True

end Contents

section Agreement

variable {crc : Crc} {v : Volume} {d : Disk} {ino : UInt32} {dir : Inode} {raw : Bytes}
  {layout : Layout}

theorem eq_block_of_name (hnd : ((contents v dir layout).map DirEntry.name).Nodup) {l l' : Nat}
    (hl : l < v.totalBlocks dir) (hl' : l' < v.totalBlocks dir) {e e' : DirEntry}
      (he : e ∈ blockEntries v layout l)
    (he' : e' ∈ blockEntries v layout l') (hname : e.name = e'.name) : l = l' := by
  rw [contents, List.map_flatMap] at hnd
  have hblocks := List.pairwise_iff_getElem.mp (List.pairwise_flatMap.mp hnd).2
  have happart : ∀ i j, i < j → j < v.totalBlocks dir → ∀ x ∈ blockEntries v layout i,
      ∀ y ∈ blockEntries v layout j, x.name ≠ y.name := by
    intro i j hij hj x hx y hy
    have h := hblocks i j (by rw [List.length_range]; omega) (by rwa [List.length_range]) hij
    rw [List.getElem_range, List.getElem_range] at h
    exact h _ (List.mem_map_of_mem hx) _ (List.mem_map_of_mem hy)
  obtain hlt | heq | hgt := Nat.lt_trichotomy l l'
  · exact absurd hname (happart l l' hlt hl' e he e' he')
  · exact heq
  · exact absurd hname.symm (happart l' l hgt hl e' he' e he)

theorem blockEntries_subset_contents (dir : Inode) {l : Nat} (hl : l < v.totalBlocks dir)
    {e : DirEntry} (he : e ∈ blockEntries v layout l) : e ∈ contents v dir layout :=
  List.mem_flatMap.2 ⟨l, List.mem_range.2 hl, he⟩

theorem mem_of_scan {name : Bytes} {es : List DirEntry} {i : UInt32} (h : scan name es = .ok i) :
    ∃ e ∈ es, e.name = name ∧ e.inode = i := by
  rw [scan] at h
  split at h
  · rename_i e he
    exact ⟨e, List.mem_of_find?_eq_some he, by simpa using List.find?_some he, Except.ok.inj h⟩
  · cases h

theorem mem_scanned {l : Nat} : l ∈ scanned crc v ino dir layout ↔
    firstScanned crc v ino dir layout ≤ l ∧ l < v.totalBlocks dir := by
  rw [scanned, List.mem_range'_1]
  omega

theorem scanned_subset_contents {e : DirEntry}
    (he : e ∈ (scanned crc v ino dir layout).flatMap (blockEntries v layout)) : e ∈
      contents v dir layout := by
  obtain ⟨l, hl, he⟩ := List.mem_flatMap.mp he
  exact blockEntries_subset_contents dir (mem_scanned.mp hl).2 he

theorem scan_of_unique (hnd : ((contents v dir layout).map DirEntry.name).Nodup)
    {es : List DirEntry} {e : DirEntry} (hsub : ∀ x ∈ es, x ∈ contents v dir layout) (he : e ∈ es) :
    es.find? (fun x => x.name == e.name) = some e := by
  cases hfind : es.find? (fun x => x.name == e.name) with
  | none => exact absurd ⟨e, he, rfl⟩ (find?_eq_none_iff.mp hfind)
  | some e' =>
    have hname : e'.name = e.name := by simpa using List.find?_some hfind
    have h' := find?_of_mem_nodup hnd (hsub e' (List.mem_of_find?_eq_some hfind))
    rw [hname, find?_of_mem_nodup hnd (hsub e he)] at h'
    exact h'.symm

theorem Leads.unique {major : UInt32} {levels : Nat} {l a b : UInt32}
    (ha : Leads layout major levels l a) (hb : Leads layout major levels l b) : a = b := by
  induction ha with
  | leaf l => cases hb; rfl
  | node levels l leaf limits entries hmapped hparse hrest ih =>
    cases hb with
    | node _ _ _ limits' entries' _ hparse' hrest' =>
      obtain ⟨rfl, rfl⟩ := Prod.mk.inj (Except.ok.inj (hparse.symm.trans hparse'))
      exact ih hrest'

theorem IndexLeads.unique {name : Bytes} {a b : UInt32} (ha : IndexLeads v layout name a)
    (hb : IndexLeads v layout name b) : a = b := by
  obtain ⟨info, limits, entries, hinfo, hparse, ha⟩ := ha
  obtain ⟨info', limits', entries', hinfo', hparse', hb⟩ := hb
  obtain rfl := Except.ok.inj (hinfo.symm.trans hinfo')
  obtain ⟨rfl, rfl⟩ := Prod.mk.inj (Except.ok.inj (hparse.symm.trans hparse'))
  exact ha.unique hb

section Blocks

variable (h : WellFormed crc v d ino dir layout)

include h

theorem findEntryLinear_eq_ok_iff (hnd : ((contents v dir layout).map DirEntry.name).Nodup)
    {l : Nat} (hl : l < v.totalBlocks dir) {e : DirEntry} (he : e ∈ blockEntries v layout l) :
    (findEntryLinear crc v ino dir e.name).exec d = (.ok e.inode, d) ↔
    Contents.Scanned crc v ino dir layout l := by
  constructor
  · intro heq
    by_cases hclear : Clear crc v ino dir layout e.name (firstScanned crc v ino dir layout)
        (v.totalBlocks dir - firstScanned crc v ino dir layout)
    · rw [(findEntryLinear_range h).1 hclear] at heq
      obtain ⟨e', he', hname, -⟩ := mem_of_scan (Prod.mk.inj heq).1
      obtain ⟨l', hl', he'⟩ := List.mem_flatMap.mp he'
      obtain ⟨hfirst, hlt'⟩ := mem_scanned.mp hl'
      obtain rfl := eq_block_of_name hnd hlt' hl he' he hname
      refine ⟨hfirst, fun b hb hle => Bool.eq_false_iff.mpr fun hbad => ?_⟩
      obtain ⟨l'', -, hlt'', e'', he'', hname''⟩ := hclear b hb (by omega) hbad
      have := eq_block_of_name hnd (by omega) hl he'' he hname''
      omega
    · rw [(findEntryLinear_range h).2 hclear] at heq
      cases (Prod.mk.inj heq).1
  · rintro ⟨hfirst, hgood⟩
    have hclear : Clear crc v ino dir layout e.name (firstScanned crc v ino dir layout)
        (v.totalBlocks dir - firstScanned crc v ino dir layout) := by
      intro b hb _ hbad
      refine ⟨l, hfirst, ?_, e, he, rfl⟩
      by_contra hle
      rw [hgood b hb (by omega)] at hbad
      cases hbad
    have hmem : e ∈ (scanned crc v ino dir layout).flatMap (blockEntries v layout) :=
      List.mem_flatMap.mpr ⟨l, mem_scanned.mpr ⟨hfirst, hl⟩, he⟩
    rw [(findEntryLinear_range h).1 hclear, scan,
      scan_of_unique hnd (fun _ hx => scanned_subset_contents hx) hmem]

/-- Lookup resolves the name of an entry exactly when the index leads it to the entry's block, or
the linear scan comes there. -/
theorem findEntry_eq_ok_iff (hindex : dir.isIndexed → WholeIndex v dir layout)
    (hnd : ((contents v dir layout).map DirEntry.name).Nodup) {l : Nat} (hl : l < v.totalBlocks dir)
      {e : DirEntry}
    (he : e ∈ blockEntries v layout l) :
    (findEntry crc v ino dir e.name).exec d = (.ok e.inode, d) ↔
      (∃ leaf, dir.isIndexed ∧ IndexLeads v layout e.name leaf ∧ leaf.toNat = l) ∨
        Contents.Scanned crc v ino dir layout l := by
  rw [exec_findEntry h]
  by_cases hidx : dir.isIndexed = true
  · rw [if_pos hidx]
    obtain ⟨leaf, hleads, hlt, hmapped, hleaf⟩ := (hindex hidx).leads e.name
    rw [Io.exec_bind_ok _ _ _ _ _
      (findEntryHtree_of_leads h (hindex hidx).mapped hleads hmapped (h.tails _ hmapped hleaf))]
    by_cases hat : leaf.toNat = l
    · subst hat
      rw [scan_of_unique hnd (fun _ hx => blockEntries_subset_contents dir hlt hx) he]
      exact iff_of_true rfl (.inl ⟨leaf, hidx, hleads, rfl⟩)
    · have hnone : (blockEntries v layout leaf.toNat).find? (fun x => x.name == e.name) = none := by
        refine find?_eq_none_iff.mpr ?_
        rintro ⟨e', he', hname⟩
        exact hat (eq_block_of_name hnd hlt hl he' he hname)
      rw [hnone]
      refine (findEntryLinear_eq_ok_iff h hnd hl he).trans ⟨.inr, ?_⟩
      rintro (⟨leaf', -, hleads', rfl⟩ | hscanned)
      · exact absurd (congrArg UInt32.toNat (hleads.unique hleads')) hat
      · exact hscanned
  · rw [if_neg hidx]
    refine (findEntryLinear_eq_ok_iff h hnd hl he).trans ⟨.inr, ?_⟩
    rintro (⟨-, hindexed, -⟩ | hscanned)
    · exact absurd hindexed hidx
    · exact hscanned

theorem mem_of_findEntry (hindex : dir.isIndexed → WholeIndex v dir layout) {name : Bytes}
    {i : UInt32} (hfind : (findEntry crc v ino dir name).exec d = (.ok i, d)) :
    ∃ e ∈ contents v dir layout, e.name = name ∧ e.inode = i := by
  have hlinear : (findEntryLinear crc v ino dir name).exec d = (.ok i, d) →
      ∃ e ∈ contents v dir layout, e.name = name ∧ e.inode = i := by
    intro heq
    by_cases hclear : Clear crc v ino dir layout name (firstScanned crc v ino dir layout)
        (v.totalBlocks dir - firstScanned crc v ino dir layout)
    · rw [(findEntryLinear_range h).1 hclear] at heq
      obtain ⟨e, he, hname⟩ := mem_of_scan (Prod.mk.inj heq).1
      exact ⟨e, scanned_subset_contents he, hname⟩
    · rw [(findEntryLinear_range h).2 hclear] at heq
      cases (Prod.mk.inj heq).1
  rw [exec_findEntry h] at hfind
  by_cases hidx : dir.isIndexed = true
  · rw [if_pos hidx] at hfind
    obtain ⟨leaf, hleads, hlt, hmapped, hleaf⟩ := (hindex hidx).leads name
    rw [Io.exec_bind_ok _ _ _ _ _
      (findEntryHtree_of_leads h (hindex hidx).mapped hleads hmapped
        (h.tails _ hmapped hleaf))] at hfind
    cases hentry : (blockEntries v layout leaf.toNat).find? (fun e => e.name == name) with
    | some e =>
      rw [hentry] at hfind
      exact ⟨e, blockEntries_subset_contents dir hlt (List.mem_of_find?_eq_some hentry),
        by simpa using List.find?_some hentry, Except.ok.inj (Prod.mk.inj hfind).1⟩
    | none =>
      rw [hentry] at hfind
      exact hlinear hfind
  · rw [if_neg hidx] at hfind
    exact hlinear hfind

end Blocks

/-- A listing succeeds, and its names with their inodes are what lookup resolves exactly when every
entry can be reached, through the index or by the linear scan. -/
theorem listing_agrees_iff {shape : Contents} (h : shape.Listable crc v d ino dir raw)
    (hmax : (shape.entries v ino dir).length ≤ maxDirEntries) :
    (∃ listed, (dirEntries v ino dir raw).exec d = (.ok listed, d) ∧
      ∀ (name : Bytes) (i : UInt32), (∃ e ∈ listed, e.name = name ∧ e.inode = i) ↔
        (findEntry crc v ino dir name).exec d = (.ok i, d)) ↔
      shape.Reached crc v ino dir := by
  cases shape with
  | blocks layout =>
    obtain ⟨hwell, hext, hindex, hnd⟩ := h
    have hlist := dirEntries_eq_contents hwell hext hmax raw
    constructor
    · rintro ⟨listed, hlisted, hagree⟩ l hl e he
      obtain rfl := Except.ok.inj (Prod.mk.inj (hlist.symm.trans hlisted)).1
      exact (findEntry_eq_ok_iff hwell hindex hnd hl he).mp
        ((hagree e.name e.inode).mp ⟨e, blockEntries_subset_contents dir hl he, rfl, rfl⟩)
    · intro hreached
      refine ⟨_, hlist, fun name i => ⟨?_, mem_of_findEntry hwell hindex⟩⟩
      rintro ⟨e, he, rfl, rfl⟩
      obtain ⟨l, hl, he⟩ := List.mem_flatMap.mp he
      have hl := List.mem_range.mp hl
      exact (findEntry_eq_ok_iff hwell hindex hnd hl he).mpr (hreached l hl e he)
  | inline rs more =>
    obtain ⟨hinline, hnd⟩ := h
    refine iff_of_true ⟨_, dirEntries_eq_inlineContents hinline, fun name i => ?_⟩ trivial
    rw [findEntry_eq_scan_inline hinline, ← scan_eq_ok_iff hnd]
    simp

end Agreement

theorem xattr_get_inInode {inode : Inode} {raw name : Bytes} {inodeSize blockSize : Nat}
    {es : List Xattr.XattrEntry} (hacl : inode.fileAcl = 0)
    (h : Xattr.inInode raw inodeSize = .ok es) (d : Disk) :
    (Xattr.get inode raw inodeSize blockSize name).exec d =
      (.ok ((es.find? (fun e => e.name == name)).map Xattr.XattrEntry.value), d) := by
  have hall : (Xattr.readAll inode raw inodeSize blockSize).exec d = (.ok es, d) := by
    rw [Xattr.readAll, Io.exec_bind_ok _ _ _ _ _ (by rw [Io.exec_liftM, h]), if_pos hacl]
    rfl
  rw [Xattr.get, Io.exec_bind_ok _ _ _ _ _ hall]
  rfl

/-- The directory has `a` in `i_block` and `b` in the attribute. -/
def inlineRecords : List Record := [⟨13, [0x61], 1, List.replicate 47 0⟩]

def inlineMore : List Record := [⟨14, [0x62], 1, [0, 0, 0]⟩]

def inlineInode : Inode where
  mode := 0x41ED
  size := 72
  linksCount := 2
  blocks := 0
  flags := inodeFlagInlineData
  block := [2, 0, 0, 0] ++ inlineRecords.flatMap Record.bytes
  generation := 0
  fileAcl := 0

/-- The inode as stored, its attribute behind 32 bytes of extra fields. -/
def inlineRaw : Bytes :=
  [0xED, 0x41, 0, 0, 72, 0, 0, 0] ++ List.replicate 18 0 ++ [2, 0] ++ List.replicate 4 0 ++
    [0, 0, 0, 0x10] ++ List.replicate 4 0 ++ inlineInode.block ++ List.replicate 28 0 ++ [32, 0] ++
    List.replicate 30 0 ++ [0, 0, 2, 0xEA] ++ [4, 7, 80, 0, 0, 0, 0, 0, 12, 0, 0, 0, 0, 0, 0, 0] ++
    [0x64, 0x61, 0x74, 0x61] ++ List.replicate 60 0 ++ inlineMore.flatMap Record.bytes

def inlineDisk : Disk where
  img := Image.write (Image.write (fun _ => 0) 2048 [0, 0, 0, 0, 0, 0, 0, 0, 4, 0, 0, 0])
    6912 inlineRaw
  size := 64 * 1024

example : (Inode.parse inlineRaw).toOption = some inlineInode := by decide +kernel

theorem inlineDisk_onDisk : OnDisk linuxCrc32c small inlineDisk 12 inlineInode inlineRaw where
  number := by decide
  group := by decide
  table := by decide
  stored := by
    have hbgd : Result.Ends (fun bgd => bgd.inodeTable = 4)
        (BlockGroupDescriptor.parse (slice (inlineDisk.img.read 2048 1024) 0 32) 32) := by
      decide +kernel
    obtain ⟨bgd, hbgd, htable⟩ := hbgd.exists_ok
    have hoff : small.inodeOffset 4 12 = 6912 := by decide
    refine ⟨bgd, hbgd, ?_⟩
    rw [htable, hoff]
    refine ⟨by decide, ?_⟩
    have hlen : inlineRaw.length = 256 := by decide +kernel
    have hread := Image.read_write_self
      (Image.write (fun _ => 0) 2048 [0, 0, 0, 0, 0, 0, 0, 0, 4, 0, 0, 0]) 6912 inlineRaw
    rw [hlen] at hread
    exact hread
  device := by decide
  parsed := by
    have hends : Result.Ends (· = inlineInode) (Inode.parse inlineRaw) := by decide +kernel
    obtain ⟨i, hi, rfl⟩ := hends.exists_ok
    exact hi
  checksum := fun h => by cases h

theorem inlineDisk_inlineDir :
    InlineDir linuxCrc32c small inlineDisk 12 inlineInode inlineRaw inlineRecords inlineMore where
  plain := by decide
  inlined := by decide
  parent := by decide
  inBlock := by
    refine Tiles.of_live ?_
    decide
  whole := by decide
  continued := by
    intro _
    refine ⟨inlineDisk_onDisk, inlineMore.flatMap Record.bytes, ?_, by decide, ?_⟩
    · have hends : Result.Ends (fun es => (es.find? (fun e => e.name == Xattr.systemData)).map
          Xattr.XattrEntry.value = some (inlineMore.flatMap Record.bytes))
          (Xattr.inInode inlineRaw 256) := by
        decide +kernel
      obtain ⟨es, hes, hvalue⟩ := hends.exists_ok
      have hget := @xattr_get_inInode inlineInode inlineRaw Xattr.systemData 256 1024 es rfl
        hes inlineDisk
      rw [hvalue] at hget
      exact hget
    · have htake : (inlineMore.flatMap Record.bytes).take
          (inlineInode.size - InlineData.inlineBlockSize) = inlineMore.flatMap Record.bytes := by
        decide
      rw [htake]
      refine Tiles.of_live ?_
      decide

theorem BelowRoot.le {layout : Layout} {levels : Nat} {c : UInt32} (h : BelowRoot layout levels c) :
    levels ≤ ((blockBytes layout 0).getD 30 0).toNat := by
  induction h with
  | top c hc => exact Nat.le_refl _
  | under levels l c h hc ih => omega

theorem twoBlocks_whole {csum : Checksummer} {root leaf : List Record}
    (hversion : storedVersion (blockBytes (twoBlocks root leaf) 0) ≤ 5)
    (hreserved : u32leAt (blockBytes (twoBlocks root leaf) 0) 24 = 0)
    (hlength : (blockBytes (twoBlocks root leaf) 0).getD 29 0 = 8)
    (hlevels : (blockBytes (twoBlocks root leaf) 0).getD 30 0 = 0)
    (hnode : Htree.NodeAt (blockBytes (twoBlocks root leaf) 0) 32)
    (hchildren : Htree.children (blockBytes (twoBlocks root leaf) 0) 32 = [1]) :
    WholeIndex (smallWith csum) indexedInode (twoBlocks root leaf) where
  mapped := nofun
  version := hversion
  reserved := hreserved
  node := by
    rw [hlength]
    exact hnode
  below := by
    intro c hc
    rw [hlength, show 24 + (8 : UInt8).toNat = 32 from rfl, hchildren, List.mem_singleton] at hc
    rw [hc, hlevels]
    refine .leaf 1 (show 1 < (2048 + 1023) / 1024 by decide) nofun ?_
    rintro ⟨-, h | ⟨levels, c, -, hbelow⟩⟩
    · cases h
    · have hle := hbelow.le
      rw [hlevels] at hle
      exact absurd hle (Nat.not_succ_le_zero levels)

/-- The root as the kernel leaves it when it makes an index of a directory with checksums: the first
bytes of the old tail stand in front of the index's checksum. -/
def grownRoot : List Record := rootWith 1 123 [0x0c, 0, 0, 0xde, 225, 76, 134, 63]

def tailedLeaf : List Record :=
    [⟨13, [0x61], 1, List.replicate 1003 0⟩, ⟨0, [], 0xde, [82, 206, 60, 158]⟩]

def summed : Volume := smallWith ⟨0, true⟩

def grownLayout : Layout := twoBlocks grownRoot tailedLeaf

def grownDisk : Disk := twoBlocksDisk grownRoot tailedLeaf

theorem grown_listable : (Contents.blocks grownLayout).Listable linuxCrc32c summed grownDisk 12
    indexedInode [] := by
  have hroot : Tiles true grownRoot (grownRoot.flatMap Record.bytes) := by
    refine Tiles.of_live ?_
    decide +kernel
  have hleaf : Tiles true tailedLeaf (tailedLeaf.flatMap Record.bytes) := by
    refine ⟨rfl, ?_, ?_⟩
    · intro r hr
      obtain rfl | hr := List.mem_cons.mp hr
      · exact ⟨by decide +kernel, by decide +kernel, fun _ => by decide +kernel⟩
      · obtain rfl := List.mem_singleton.mp hr
        exact ⟨by decide, by decide, fun h => absurd rfl h⟩
    · intro r hr
      obtain rfl := List.mem_singleton.mp hr
      decide +kernel
  refine ⟨twoBlocks_wellFormed hroot hleaf (by decide +kernel) (by decide +kernel)
    (by decide +kernel), by decide,
    fun _ => ?_, by decide⟩
  exact twoBlocks_whole (by decide +kernel) (by decide +kernel) (by decide +kernel)
    (by decide +kernel)
    ⟨by decide +kernel, by decide +kernel, by decide +kernel⟩ (by decide +kernel)

theorem grown_root_bad : badTail linuxCrc32c summed 12 indexedInode
    (blockBytes grownLayout 0) = true := by
  decide +kernel

/-- The directory lists `.`, and lookup does not find it: its block is passed over. -/
theorem grown_dot_not_found :
    (Contents.blocks grownLayout).Listable linuxCrc32c summed grownDisk 12 indexedInode [] ∧
      (dirEntries summed 12 indexedInode []).exec grownDisk =
        (.ok (contents summed indexedInode grownLayout), grownDisk) ∧
      (∃ e ∈ contents summed indexedInode grownLayout, e.name = InlineData.dotName ∧ e.inode = 12) ∧
      (findEntry linuxCrc32c summed 12 indexedInode InlineData.dotName).exec grownDisk =
        (.error .notFound, grownDisk) := by
  have hlistable := grown_listable
  obtain ⟨hwell, hext, hindex, hnd⟩ := id hlistable
  refine ⟨hlistable, dirEntries_eq_contents hwell hext (by decide) [], by decide, ?_⟩
  obtain ⟨leaf, hleads, hlt, hmapped, hleaf⟩ := (hindex (by decide)).leads InlineData.dotName
  have htwo : summed.totalBlocks indexedInode = 2 := by decide
  have hone : leaf.toNat = 1 := by
    have hne : leaf.toNat ≠ 0 := fun h0 => hleaf ⟨by decide, .inl h0⟩
    omega
  have hfirst : firstScanned linuxCrc32c summed 12 indexedInode grownLayout = 1 := by
    rw [firstScanned, grown_root_bad]
    rfl
  have hclear : Clear linuxCrc32c summed 12 indexedInode grownLayout InlineData.dotName 1
      (2 - 1) := by
    intro l h1 h2 hbad
    obtain rfl : l = 1 := by omega
    rw [← hone, hwell.tails _ hmapped hleaf] at hbad
    cases hbad
  have hroot : grownLayout 0 ≠ none := by decide
  have hlinear := (findEntryLinear_range hwell).1
    (show Clear linuxCrc32c summed 12 indexedInode grownLayout InlineData.dotName _ _ by
      rw [hfirst, htwo]
      exact hclear)
  rw [exec_findEntry hwell, if_pos (by decide), Io.exec_bind_ok _ _ _ _ _
    (findEntryHtree_of_leads hwell hroot hleads hmapped (hwell.tails _ hmapped hleaf)), hone]
  refine hlinear.trans ?_
  rw [scanned, hfirst, htwo]
  have hscan : (List.flatMap (blockEntries summed grownLayout) (List.range' 1 (2 - 1))).find?
      (fun e => e.name == InlineData.dotName) = none := by decide
  rw [scan, hscan]

/-- At an indexed directory of two blocks and at an inline one that is continued, where the listing
agrees, and at one with a root that the scan passes over, where it does not. -/
theorem listing_agrees_iff_small :
    (∃ listed, (dirEntries small 12 indexedInode []).exec (indexedDisk 1) =
        (.ok listed, indexedDisk 1) ∧
      ∀ (name : Bytes) (i : UInt32), (∃ e ∈ listed, e.name = name ∧ e.inode = i) ↔
        (findEntry linuxCrc32c small 12 indexedInode name).exec (indexedDisk 1) =
          (.ok i, indexedDisk 1)) ∧
    (∃ listed, (dirEntries small 12 inlineInode inlineRaw).exec inlineDisk =
      (.ok listed, inlineDisk) ∧
      ∀ (name : Bytes) (i : UInt32), (∃ e ∈ listed, e.name = name ∧ e.inode = i) ↔
        (findEntry linuxCrc32c small 12 inlineInode name).exec inlineDisk = (.ok i, inlineDisk)) ∧
    ¬ ∃ listed, (dirEntries summed 12 indexedInode []).exec grownDisk = (.ok listed, grownDisk) ∧
      ∀ (name : Bytes) (i : UInt32), (∃ e ∈ listed, e.name = name ∧ e.inode = i) ↔
        (findEntry linuxCrc32c summed 12 indexedInode name).exec grownDisk =
          (.ok i, grownDisk) := by
  have hindexed : (Contents.blocks (indexedLayout 1)).Listable linuxCrc32c small (indexedDisk 1) 12
      indexedInode [] := by
    refine ⟨indexedDisk_wellFormed (.inl rfl), by decide, fun _ => ?_, by decide⟩
    exact twoBlocks_whole (by decide +kernel) (by decide +kernel) (by decide +kernel)
      (by decide +kernel)
      ⟨by decide +kernel, by decide +kernel, by decide +kernel⟩ (by decide +kernel)
  have hinline : (Contents.inline inlineRecords inlineMore).Listable linuxCrc32c small inlineDisk
    12 inlineInode
      inlineRaw := ⟨inlineDisk_inlineDir, by decide⟩
  refine ⟨(listing_agrees_iff hindexed (by decide)).mpr ?_,
    (listing_agrees_iff hinline (by decide)).mpr trivial,
    fun hagree => ?_⟩
  · intro l _ e _
    exact .inr ⟨Nat.zero_le l, fun _ _ _ => rfl⟩
  · have hreached := (listing_agrees_iff grown_listable (by decide)).mp hagree
    have hdot : (⟨12, InlineData.dotName, .directory⟩ : DirEntry) ∈ blockEntries summed grownLayout
      0 := by decide
    obtain ⟨leaf, hidx, hleads, hzero⟩ | ⟨hfirst, -⟩ := hreached 0 (by decide) _ hdot
    · obtain ⟨-, -, hindex, -⟩ := grown_listable
      obtain ⟨leaf', hleads', -, -, hleaf'⟩ := (hindex hidx).leads InlineData.dotName
      obtain rfl := hleads.unique hleads'
      exact hleaf' ⟨hidx, .inl hzero⟩
    · rw [firstScanned, grown_root_bad] at hfirst
      exact absurd hfirst (by decide)

end FsExt4.Path
