import FsExt4.TreeNodes

namespace FsExt4

open Lib Jbd2 Alloc

theorem patchInodeSizeAndBlocks_wraps {raw raw' : Bytes} {newSize newSectors : Nat}
    (hparses : Inode.Parses raw)
    (hsize : newSize < 2 ^ 64) (h : patchInodeSizeAndBlocks raw newSize newSectors = .ok raw') :
    raw'.length = raw.length ∧ Inode.Parses raw' ∧
      Inode.fields raw' = { Inode.fields raw with size := newSize, blocks :=
        newSectors % 2 ^ 48 } := by
  have heq : patchInodeSizeAndBlocks raw newSize (newSectors % 2 ^ 48) = .ok raw' := by
    rw [← h, patchInodeSizeAndBlocks_eq hparses.base, patchInodeSizeAndBlocks_eq hparses.base]
    have hlow : newSectors % 2 ^ 48 % 2 ^ 32 = newSectors % 2 ^ 32 := by omega
    have hhigh : newSectors % 2 ^ 48 / 2 ^ 32 % 2 ^ 16 = newSectors / 2 ^ 32 % 2 ^ 16 := by omega
    unfold sizePatches
    rw [hlow, hhigh]
  exact patchInodeSizeAndBlocks_ok hparses hsize (Nat.mod_lt _ (by decide)) heq

section Leaves

variable {node node' : Bytes} {new : Extent}

theorem planInsertExtent_eq_ok (h : planInsertExtent node new = .ok node') :
    ∃ header es, ExtentHeader.parse node = .ok header ∧ header.depth = 0 ∧
    parseLeafEntries node header = .ok es ∧
      (∀ e ∈ es, e.meets new = false) ∧ (insertIntoLeafSorted es new).length % 2 ^ 16 ≤ header.max ∧
      nodeSize * (1 + (insertIntoLeafSorted es new).length) ≤ node.length ∧
      node' = buildNode node.length header.max header.depth header.generation
        ((insertIntoLeafSorted es new).map encodeExtent) := by
  unfold planInsertExtent at h
  obtain ⟨header, hparse, h⟩ := Result.bind_eq_ok h
  split at h
  · cases h
  rename_i hleaf
  obtain ⟨es, hentries, h⟩ := Result.bind_eq_ok h
  obtain ⟨_, hmeets, h⟩ := Result.bind_eq_ok h
  dsimp only at h
  split at h
  · cases h
  rename_i hfits
  refine ⟨header, es, hparse, by simpa [ExtentHeader.isLeaf] using hleaf, hentries,
    checkNoOverlap_eq_ok_iff.mp hmeets, Nat.le_of_not_lt hfits, buildRoot_eq_ok.mp h⟩

theorem planPromoteLeaf_eq_ok {blockSize leafPhys : Nat} {reserved : Bool} {promo : PromotionPlan}
    (h : planPromoteLeaf node new blockSize leafPhys reserved = .ok promo) :
    ∃ header es, ExtentHeader.parse node = .ok header ∧ header.depth = 0 ∧
    parseLeafEntries node header = .ok es ∧
      (∀ e ∈ es, e.meets new = false) ∧
      (insertIntoLeafSorted es new).length % 2 ^ 16 ≤
        (blockSize - (if reserved then 4 else 0) - nodeSize) / nodeSize % 2 ^ 16 ∧
      promo = ⟨buildLeafBlock header.generation (insertIntoLeafSorted es new) blockSize reserved,
        buildDepth1IndexRoot header.generation leafPhys⟩ := by
  unfold planPromoteLeaf at h
  obtain ⟨⟨header, es⟩, hread, h⟩ := Result.bind_eq_ok h
  obtain ⟨_, hmeets, h⟩ := Result.bind_eq_ok h
  obtain ⟨hparse, hdepth, hentries⟩ := readLeafEntries_eq_ok.mp hread
  dsimp only at h
  generalize (blockSize - (if reserved = true then 4 else 0) - nodeSize) / nodeSize % 2 ^
    16 = room at h ⊢
  split at h
  · cases h
  · rename_i hfits
    exact ⟨header, es, hparse, hdepth, hentries, checkNoOverlap_eq_ok_iff.mp hmeets,
      Nat.le_of_not_lt hfits, (Except.ok.inj h).symm⟩

end Leaves

section Extents

variable {es es' : List Extent} {logical phys : Nat}

theorem dirExtent_valid (hphys : phys < 2 ^ 48) : (Mount.dirExtent logical phys).Valid :=
  ⟨Nat.mod_lt _ (by decide), Nat.le_refl _, show 1 ≤ maxExtentLen false by decide, hphys⟩

theorem Inserted.clear (hins : Inserted (Mount.dirExtent logical phys) es es') :
    ∀ e ∈ es, e.meets (Mount.dirExtent logical phys) = false := by
  obtain ⟨front, m, behind, rfl, -, hfront, hm, hbehind⟩ := hins
  intro e he
  obtain he | he := List.mem_append.mp he
  · obtain he | he := List.mem_append.mp he
    · exact meets_eq_false.mpr (Or.inr (hfront e he))
    · exact hm e he
  · exact meets_eq_false.mpr (Or.inl (hbehind e he))

theorem inserted_dirExtent (hins : Inserted (Mount.dirExtent logical phys) es es') (ho : InOrder es)
    (h : logical < 2 ^ 32) (hphys : phys < 2 ^ 48) (hinit : ∀ e ∈ es, e.uninitialized = false) :
    InOrder es' ∧ (∀ e ∈ es', e.uninitialized = false) ∧
      (fun l => (mapping es' l).map Prod.fst) =
        Function.update (fun l => (mapping es l).map Prod.fst) logical (some phys) := by
  have hnew := @dirExtent_valid logical phys hphys
  have hcontains : ∀ l, (Mount.dirExtent logical phys).contains l = true ↔ l = logical := by
    intro l
    rw [contains_iff]
    change logical % 2 ^ 32 ≤ l ∧ l < logical % 2 ^ 32 + 1 ↔ _
    rw [Nat.mod_eq_of_lt h]
    omega
  have hmeets := Inserted.clear hins
  have hmapping := hins.mapping ho hnew hmeets
  have horder := hins.inOrder ho hnew hmeets
  refine ⟨horder, ?_, ?_⟩
  · intro e he
    have hpos := (horder.valid e he).pos
    have hself : e.contains e.logicalBlock = true := contains_iff.mpr ⟨Nat.le_refl _, by omega⟩
    have hone := (mapping_of_mem horder.apart he hself).symm.trans (hmapping e.logicalBlock)
    split at hone
    · exact (Prod.mk.inj (Option.some.inj hone)).2
    · obtain ⟨e', hfind, heq⟩ := Option.map_eq_some_iff.mp hone.symm
      rw [← (Prod.mk.inj heq).2]
      exact hinit e' (List.mem_of_find?_eq_some hfind)
  · funext l
    rw [hmapping l]
    by_cases hl : l = logical
    · subst hl
      rw [if_pos ((hcontains l).mpr rfl), Function.update_self]
      change some (phys + (l - l % 2 ^ 32)) = some phys
      rw [Nat.mod_eq_of_lt h, Nat.sub_self, Nat.add_zero]
    · rw [if_neg (fun hc => hl ((hcontains l).mp hc)), Function.update_of_ne hl]

theorem firstStart_eq_zero (ho : InOrder es) (hzero : ((mapping es 0).map Prod.fst).isSome = true) :
    firstStart Extent.logicalBlock es = 0 := by
  rw [Option.isSome_map] at hzero
  obtain ⟨p, hp⟩ := Option.isSome_iff_exists.mp hzero
  obtain ⟨e, hfind, -⟩ := Option.map_eq_some_iff.mp hp
  have hle := firstStart_le ho.apart (List.mem_of_find?_eq_some hfind)
  have hcover := covers_iff.mp (List.find?_some hfind)
  omega

end Extents

section Shapes

variable {blockSize : Nat} {read : NodeReader} {root : Bytes} {header : ExtentHeader}
  {es : List Extent}

theorem wellFormed_leafRoot (ho : InOrder es) (hparse : ExtentHeader.parse root = .ok header)
    (hfits : es.length ≤ header.max) (hroom : nodeSize * (1 + es.length) ≤ 60)
      (hdepth : header.depth = 0) :
    WellFormed blockSize read (buildNode 60 header.max header.depth header.generation
      (es.map encodeExtent)) (LevelTree.leaf es) := by
  have hmax : header.max < 2 ^ 16 := by
    obtain ⟨-, -, -, rfl⟩ := ExtentHeader.parse_eq_ok.mp hparse
    exact UInt16.toNat_lt _
  have hfour : es.length ≤ 4 := by
    unfold nodeSize at hroom
    omega
  have hlen : (buildNode 60 header.max header.depth header.generation
      (es.map encodeExtent)).length = 60 := by
    refine length_buildNode (fun b hb => ?_) (by rwa [List.length_map])
    obtain ⟨e, -, rfl⟩ := List.mem_map.mp hb
    exact length_encodeExtent e
  refine ⟨Nat.zero_le _, hlen, ?_, hfour, fun h => absurd h (Nat.lt_irrefl _), trivial, ho.valid,
    ho.apart, .nil, List.not_mem_nil⟩
  rw [hdepth]
  exact represents_leaf ho.valid hfits hmax

theorem wellFormed_oneLeaf {leaf : Bytes} {leafPhys : Nat} (ho : InOrder es)
    (hlen : root.length = 60)
    (hparse : ExtentHeader.parse root = .ok header) (hdepth : header.depth = 1)
    (hindex : parseIndexEntries root header = .ok [⟨firstStart Extent.logicalBlock es, leafPhys⟩])
    (hread : read leafPhys = .ok leaf) (hleaf : Represents read (LevelTree.leaf es) leaf)
    (hpos : 1 ≤ es.length) (hfill : es.length ≤ nodeMaxEntries blockSize) (hzero : leafPhys ≠ 0) :
    WellFormed blockSize read root (LevelTree.node [(leafPhys, LevelTree.leaf es)]) where
  depth := by decide
  length := hlen
  tree := ⟨header, hparse, hdepth, hindex, List.forall_mem_singleton.mpr ⟨leaf, hread, hleaf⟩⟩
  rootFill := show 1 ≤ 4 by decide
  rootIndex := fun _ => Nat.le_refl _
  filled := List.forall_mem_singleton.mpr ⟨⟨hpos, hfill⟩, trivial⟩
  valid := by
    have heq : (LevelTree.node [(leafPhys, LevelTree.leaf es)]).entries = es := List.append_nil es
    rw [heq]
    exact ho.valid
  apart := by
    have heq : (LevelTree.node [(leafPhys, LevelTree.leaf es)]).entries = es := List.append_nil es
    rw [heq]
    exact ho.apart
  distinct := List.nodup_singleton _
  nonzero := fun h => hzero (List.mem_singleton.mp h).symm

theorem parse_depth1IndexRoot (generation : UInt32) {leafPhys : Nat} (hphys : leafPhys < 2 ^ 48) :
    ExtentHeader.parse (buildDepth1IndexRoot generation leafPhys) = .ok ⟨1, 4, 1, generation⟩ ∧
      parseIndexEntries (buildDepth1IndexRoot generation leafPhys) ⟨1, 4, 1, generation⟩ =
        .ok [⟨0, leafPhys⟩] := by
  constructor
  · exact parse_buildNode (show 1 ≤ 4 by decide) (by decide) (by decide)
  · apply parseEntries_buildNode length_encodeIndex
    intro idx hidx
    rw [List.mem_singleton.mp hidx]
    exact parse_encodeIndex _ ⟨show 0 < 2 ^ 32 by decide, hphys⟩

end Shapes

namespace Mount

section Inode

variable {crc : Crc} {m : Mount} {d : Disk} {buf buf₁ buf' : BlockBuffer} {taken freed : Set Slot}
  {fresh puts : List Nat} {ino : UInt32} {inode : Inode} {raw raw₁ : Bytes} {blk off : Nat}

theorem bufferGrownDir_ok (h : Consistent crc m d)
    (ht : Takes crc m d taken freed buf buf₁ fresh puts)
    (hold : InodeAt crc m (buf₁.view d.img m.fs.sb.blockSize) ino blk off inode raw)
    (hparses : Inode.Parses raw₁) (hlen : raw₁.length = raw.length) {newBlock : Bytes}
    (hfields : Inode.fields raw₁ = { inode with block := newBlock })
    (hsize : inode.size + m.fs.sb.blockSize < 2 ^ 64) {consumed phys : Nat} {block : Bytes}
    (hphys : m.Content phys) (hblock : block.length = m.fs.sb.blockSize)
    (hgrow : m.bufferGrownDir crc d buf₁ ino inode raw₁ consumed phys block = .ok buf') :
    Takes crc m d taken freed buf buf' fresh (puts ++ [blk] ++ [phys]) ∧
      (∃ written, m.bufferedInodeVerified crc d buf' ino = .ok ({ inode with
        block := newBlock
        size := inode.size + m.fs.sb.blockSize
        blocks := (inode.blocks + m.fs.sb.blockSize / 512 * consumed) % 2 ^ 48 }, written)) ∧
      buf'.view d.img m.fs.sb.blockSize phys = block ∧
      ∀ b, m.Content b → b ≠ phys →
        buf'.view d.img m.fs.sb.blockSize b = buf₁.view d.img m.fs.sb.blockSize b := by
  obtain ⟨hmeta, hoff, -⟩ := h.inode_isMetadata hold.located
  have hne : ∀ b, m.Content b → b ≠ blk := by
    rintro b hb rfl
    exact hb.content hmeta
  unfold bufferGrownDir at hgrow
  obtain ⟨raw₂, hpatch, hgrow⟩ := Result.bind_eq_ok hgrow
  obtain ⟨buf₂, hwrite, hgrow⟩ := Result.bind_eq_ok hgrow
  obtain rfl := Except.ok.inj hgrow
  obtain ⟨hlen₂, hparses₂, hfields₂⟩ := patchInodeSizeAndBlocks_wraps hparses hsize hpatch
  have hgeneration : (Inode.fields raw₂).generation = inode.generation := by rw [hfields₂, hfields]
  obtain ⟨written, hfound, hview, hstaged⟩ :=
    bufferWriteDirInode_ok hold (hlen₂.trans hlen) hparses₂ hgeneration hwrite
  have hview₂ : ∀ b, b ≠ blk → buf₂.view d.img m.fs.sb.blockSize b =
      buf₁.view d.img m.fs.sb.blockSize b := by
    intro b hb
    rw [hview, Function.update_of_ne hb]
  have hopen : Open crc m d buf₂ (taken ∪ m.slotsOf fresh) freed := by
    obtain ⟨hsealed, -, -⟩ := m.csum.dirInode_ok crc ino inode.generation hparses₂
    have hwrite' := hwrite
    unfold bufferWriteDirInode bufferWriteInode at hwrite'
    rw [hold.located, Result.ok_bind] at hwrite'
    refine ht.isOpen.edit hoff (fun b hb => ?_) hwrite'
    apply length_copyAt
    rw [hsealed, hlen₂, hlen, hold.length, hb, ← ht.isOpen.coherent.whole blk]
    exact hold.fits
  have htake := (ht.open_put hoff hopen hview₂).put (hphys.offTables h) hblock
    (Nat.lt_trans (Nat.lt_of_lt_of_le hphys.inVolume h.addressable) (by decide))
  refine ⟨htake, ⟨written, ?_⟩, ?_, ?_⟩
  · obtain ⟨blk', off', hat⟩ := bufferedInodeVerified_ok hfound
    obtain ⟨rfl, rfl⟩ := Prod.mk.inj (Except.ok.inj (hold.located.symm.trans hat.located))
    rw [hfields₂, hfields] at hat
    have hkeep : (buf₂.put phys block).view d.img m.fs.sb.blockSize blk =
        buf₂.view d.img m.fs.sb.blockSize blk := by
      rw [BlockBuffer.view_put, Function.update_of_ne (hne phys hphys).symm]
    have hat' : InodeAt crc m ((buf₂.put phys block).view d.img m.fs.sb.blockSize) ino blk off
        { inode with
          block := newBlock
          size := inode.size + m.fs.sb.blockSize
          blocks := (inode.blocks + m.fs.sb.blockSize / 512 * consumed) % 2 ^ 48 } written := by
      refine ⟨hat.located, ?_, ?_, hat.parsed, hat.checked⟩
      · rw [hkeep]
        exact hat.fits
      · rw [hkeep]
        exact hat.stored
    refine bufferedInodeVerified_of_staged hat' ?_
    rw [BlockBuffer.staged_put, hstaged]
    exact Or.inr (Or.inl rfl)
  · rw [BlockBuffer.view_put, Function.update_self]
  · intro b hb hphys'
    rw [BlockBuffer.view_put, Function.update_of_ne hphys', hview₂ b (hne b hb)]

end Inode

section Nodes

variable {crc : Crc} {m : Mount} {d : Disk} {buf buf₁ : BlockBuffer} {taken freed : Set Slot}
  {fresh puts : List Nat} {ino generation : UInt32} {writes : List (Nat × Bytes)}

theorem view_putNodes_of_not_mem {b : Nat} (hb : b ∉ writes.map Prod.fst) :
    (m.putNodes crc ino generation buf writes).view d.img m.fs.sb.blockSize b =
      buf.view d.img m.fs.sb.blockSize b := by
  induction writes generalizing buf with
  | nil => rfl
  | cons w rest ih =>
    obtain ⟨h1, h2⟩ := not_or.mp (fun hor => hb (List.mem_cons.mpr hor))
    change (m.putNodes crc ino generation (buf.put w.1 _) rest).view d.img m.fs.sb.blockSize b = _
    rw [ih h2, BlockBuffer.view_put, Function.update_of_ne h1]

theorem view_putNodes_of_mem (hnodup : (writes.map Prod.fst).Nodup) {w : Nat × Bytes}
    (hw : w ∈ writes) :
    (m.putNodes crc ino generation buf writes).view d.img m.fs.sb.blockSize w.1 =
      m.sealedNode crc ino generation w.2 := by
  induction writes generalizing buf with
  | nil => exact absurd hw List.not_mem_nil
  | cons x rest ih =>
    obtain ⟨hnot, hrest⟩ := List.nodup_cons.mp hnodup
    change (m.putNodes crc ino generation (buf.put x.1 _) rest).view d.img m.fs.sb.blockSize w.1 = _
    obtain rfl | hw := List.mem_cons.mp hw
    · rw [view_putNodes_of_not_mem hnot, BlockBuffer.view_put, Function.update_self]
    · exact ih hrest hw

theorem Takes.putNodes (h : Takes crc m d taken freed buf buf₁ fresh puts)
    (hw : ∀ w ∈ writes, m.OffTables w.1 ∧ w.2.length = m.fs.sb.blockSize ∧ w.1 < 2 ^ 64) :
    Takes crc m d taken freed buf (m.putNodes crc ino generation buf₁ writes) fresh
      (puts ++ writes.map Prod.fst) := by
  induction writes generalizing buf₁ puts with
  | nil =>
    rw [List.map_nil, List.append_nil]
    exact h
  | cons w rest ih =>
    obtain ⟨hoff, hlen, h64⟩ := hw w List.mem_cons_self
    have h1024 := blockSize_ge m.fs.sb
    have hsealed : (m.sealedNode crc ino generation w.2).length = m.fs.sb.blockSize := by
      rw [(sealedNode_spec (by omega)).1, hlen]
    have hput := ih (h.put hoff hsealed h64) (fun w hin => hw w (List.mem_cons_of_mem _ hin))
    rw [List.append_assoc] at hput
    exact hput

end Nodes

section Mapped

variable (crc : Crc) (m : Mount)

def tableMap (blockSize : Nat) (v : Nat → Bytes) (iBlock : Bytes) (logical : Nat) : Option Nat :=
  if logical < Indirect.directCount then Indirect.present (Indirect.ptrAt iBlock logical)
  else if logical < Indirect.directCount + Indirect.ppb blockSize then
    if Indirect.ptrAt iBlock 12 = 0 then none
    else Indirect.present (Indirect.ptrAt (v (Indirect.ptrAt iBlock 12))
      (logical - Indirect.directCount))
  else none

def tableNodes (iBlock : Bytes) : List Nat :=
  if Indirect.ptrAt iBlock 12 = 0 then [] else [Indirect.ptrAt iBlock 12]

/-- An extent tree in good order in a view: its extents initialized, its nodes with their checksums
and with no more slots than a node has room for. -/
structure KeptTree (v : Nat → Bytes) (ino : UInt32) (inode : Inode) {n : Nat}
    (t : LevelTree Extent n) : Prop where
  extents : inode.flags &&& inodeFlagExtents ≠ 0
  wellFormed : WellFormed m.fs.sb.blockSize (fun b => .ok (v b)) inode.block t
  initialized : ∀ e ∈ t.entries, e.uninitialized = false
  room : ∀ b ∈ t.addresses, ∀ header, ExtentHeader.parse (v b) = .ok header →
    header.max ≤ nodeMaxEntries m.fs.sb.blockSize
  checked : ∀ b ∈ t.addresses, m.csum.enabled = true →
    m.csum.verifyExtentTail crc ino inode.generation (v b) = true

/-- A mapping in good order in a view: the blocks it is kept in, and where each logical block is. -/
inductive MappedBy (v : Nat → Bytes) (ino : UInt32) (inode : Inode) : List Nat →
    (Nat → Option Nat) → Prop where
  | tree {n : Nat} (t : LevelTree Extent n) (h : KeptTree crc m v ino inode t) :
      MappedBy v ino inode t.addresses (fun logical => (mapping t.entries logical).map Prod.fst)
  | table (hextents : inode.flags &&& inodeFlagExtents = 0)
      (hdouble : Indirect.ptrAt inode.block 13 = 0) (htriple : Indirect.ptrAt inode.block 14 = 0) :
      MappedBy v ino inode (tableNodes inode.block) (tableMap m.fs.sb.blockSize v inode.block)

/-- A directory without holes whose mapping is kept in blocks of its own. -/
structure Directory (v : Nat → Bytes) (ino : UInt32) (inode : Inode) (nodes : List Nat)
    (map : Nat → Option Nat) : Prop where
  isDir : inode.isDir = true
  inline : inode.hasInlineData = false
  mapped : MappedBy crc m v ino inode nodes map
  dense : ∀ logical, (map logical).isSome = true ↔ logical < divCeil inode.size m.fs.sb.blockSize
  content : ∀ b ∈ nodes, m.Content b ∧ m.used v (m.blockSlot b) = true

end Mapped

section Reads

variable {crc : Crc} {m : Mount} {v : Nat → Bytes} {ino : UInt32} {inode : Inode} {nodes : List Nat}
  {map : Nat → Option Nat} {d : Disk}

theorem MappedBy.reads (h : MappedBy crc m v ino inode nodes map)
    (hinline : inode.hasInlineData = false)
    (hbs : Indirect.BlockSize m.fs.sb.blockSize) (h64 : d.size < 2 ^ 64)
    (hv : ∀ b ∈ nodes, (b + 1) * m.fs.sb.blockSize ≤ d.size ∧ d.img.block m.fs.sb.blockSize b = v b)
    {logical : Nat}
    (hlogical : inode.flags &&& inodeFlagExtents = 0 →
    logical < Indirect.addressable m.fs.sb.blockSize) :
    m.mapInodeLogical d inode logical = .ok (map logical) := by
  unfold mapInodeLogical
  rw [hinline, if_neg Bool.false_ne_true]
  unfold Indirect.mapLogicalAny
  cases h with
  | tree t ht =>
    have hne : (inode.flags &&& inodeFlagExtents != 0) = true := by simpa using ht.extents
    rw [hne, if_pos rfl]
    have hnodes : WellFormed m.fs.sb.blockSize (nodeOn d m.fs.sb.blockSize) inode.block t := by
      apply ht.wellFormed.congr
      intro b hb
      obtain ⟨hfit, hblock⟩ := hv b hb
      rw [Nat.succ_mul] at hfit
      unfold nodeOn
      rw [if_pos ⟨by omega, hfit⟩, ← hblock]
      rfl
    rw [Extent.mapLogical_exec (Extent.lookup_exec hnodes logical)]
    change Except.ok _ = Except.ok ((mapping t.entries logical).map Prod.fst)
    unfold mapping
    cases hfind : t.entries.find? (covers Extent.logicalBlock Extent.length logical) with
    | none => rfl
    | some e =>
      have hone := ht.initialized e (List.mem_of_find?_eq_some hfind)
      rw [Option.bind_some, hone]
      rfl
  | table hextents hdouble htriple =>
    have heq : (inode.flags &&& inodeFlagExtents != 0) = false := by simpa using hextents
    rw [heq, if_neg Bool.false_ne_true, Indirect.exec_lookup hbs (hlogical hextents)]
    unfold Indirect.tierOf tableMap
    dsimp only
    by_cases hdirect : logical < Indirect.directCount
    · rw [if_pos hdirect, if_pos hdirect]
      rfl
    · rw [if_neg hdirect, if_neg hdirect]
      by_cases hsingle : logical < Indirect.directCount + Indirect.ppb m.fs.sb.blockSize
      · rw [if_pos hsingle, if_pos hsingle]
        by_cases hzero : Indirect.ptrAt inode.block 12 = 0
        · rw [if_pos hzero]
          simp [PointerTree.walk, hzero]
        · obtain ⟨hfit, hblock⟩ := hv (Indirect.ptrAt inode.block 12) (by simp [tableNodes, hzero])
          rw [Nat.succ_mul] at hfit
          have hnode : Indirect.node m.fs.sb.blockSize d (Indirect.ptrAt inode.block 12) =
              .ok (Indirect.ptrAt (v (Indirect.ptrAt inode.block 12))) := by
            unfold Indirect.node
            rw [exec_readAt d _ _ hfit, ← hblock]
            rfl
          rw [if_neg hzero]
          simp [PointerTree.walk, hzero, hnode, Indirect.present, Except.bind]
      · rw [if_neg hsingle, if_neg hsingle]
        split
        · simp [PointerTree.walk, hdouble]
        · simp [PointerTree.walk, htriple]

end Reads

section Staged

variable {crc : Crc} {m : Mount} {v v' : Nat → Bytes} {ino : UInt32} {new : Inode} {n : Nat}
  {t : LevelTree Extent n} {writes : List (Nat × Bytes)}

theorem nodeMaxEntries_tail {blockSize : Nat} (h1024 : 1024 ≤ blockSize)
    (h64k : blockSize ≤ 65536) :
    nodeSize * (1 + nodeMaxEntries blockSize) + 4 ≤ blockSize := by
  unfold nodeMaxEntries nodeSize
  rw [Nat.mod_eq_of_lt (by omega)]
  omega

theorem KeptTree.of_staged (h64k : m.fs.sb.blockSize ≤ 65536)
    (hextents : new.flags &&& inodeFlagExtents ≠ 0)
    (hwell : WellFormed m.fs.sb.blockSize (overlay writes (fun b => .ok (v b))) new.block t)
    (hinit : ∀ e ∈ t.entries, e.uninitialized = false)
    (hnodup : (writes.map Prod.fst).Nodup)
    (hsized : ∀ w ∈ writes, w.2.length = m.fs.sb.blockSize ∧
      ∀ header, ExtentHeader.parse w.2 = .ok header → header.max ≤ nodeMaxEntries m.fs.sb.blockSize)
    (hsealed : ∀ w ∈ writes, v' w.1 = m.sealedNode crc ino new.generation w.2)
    (hkept : ∀ b ∈ t.addresses, b ∉ writes.map Prod.fst → v' b = v b ∧
      (∀ header, ExtentHeader.parse (v b) = .ok header →
      header.max ≤ nodeMaxEntries m.fs.sb.blockSize) ∧
      (m.csum.enabled = true → m.csum.verifyExtentTail crc ino new.generation (v b) = true)) :
    KeptTree crc m v' ino new t := by
  have h1024 := blockSize_ge m.fs.sb
  have htail := nodeMaxEntries_tail h1024 h64k
  obtain ⟨h84, -, -⟩ := nodeMaxEntries_bounds h1024 h64k
  have hsame : ∀ w ∈ writes, SameNode (nodeMaxEntries m.fs.sb.blockSize) (v' w.1) w.2 := by
    intro w hw
    have hlen := (hsized w hw).1
    obtain ⟨hlength, hagree, -⟩ := @sealedNode_spec crc m ino new.generation w.2 (by omega)
    rw [hsealed w hw]
    exact ⟨hlength, hagree.mono (Nat.le_refl _) (by omega)⟩
  have hwrite : ∀ b ∈ writes.map Prod.fst, ∃ w ∈ writes, w.1 = b :=
    fun b hb => List.mem_map.mp hb
  have hrep : Represents (fun b => .ok (v' b)) t new.block := by
    apply hwell.tree.of_sameNode hwell.filled (Nat.le_trans hwell.rootFill (by omega))
      (SameNode.refl _ _)
    intro b hb child hchild
    by_cases hin : b ∈ writes.map Prod.fst
    · obtain ⟨w, hw, rfl⟩ := hwrite b hin
      rw [overlay_of_mem hnodup hw] at hchild
      obtain rfl := Except.ok.inj hchild
      exact ⟨_, rfl, hsame w hw⟩
    · rw [overlay_of_not_mem hin] at hchild
      obtain rfl := Except.ok.inj hchild
      refine ⟨_, rfl, ?_⟩
      rw [(hkept b hb hin).1]
      exact SameNode.refl _ _
  refine ⟨hextents, ?_, hinit, ?_, ?_⟩
  · exact ⟨hwell.depth, hwell.length, hrep, hwell.rootFill, hwell.rootIndex, hwell.filled,
      hwell.valid, hwell.apart, hwell.distinct, hwell.nonzero⟩
  · intro b hb header hparse
    by_cases hin : b ∈ writes.map Prod.fst
    · obtain ⟨w, hw, rfl⟩ := hwrite b hin
      obtain ⟨hlength, hagree⟩ := hsame w hw
      rw [parse_header_congr hlength
        (hagree.mono (Nat.le_refl _) (Nat.le_mul_of_pos_right _ (by omega)))] at hparse
      exact (hsized w hw).2 header hparse
    · obtain ⟨hv, hmax, -⟩ := hkept b hb hin
      rw [hv] at hparse
      exact hmax header hparse
  · intro b hb henabled
    by_cases hin : b ∈ writes.map Prod.fst
    · obtain ⟨w, hw, rfl⟩ := hwrite b hin
      have hlen := (hsized w hw).1
      rw [hsealed w hw]
      exact (@sealedNode_spec crc m ino new.generation w.2 (by omega)).2.2 henabled
    · obtain ⟨hv, -, hcheck⟩ := hkept b hb hin
      rw [hv]
      exact hcheck henabled

end Staged

/-- A transaction that is about to give a directory one block more, to hold `block`. -/
structure Growing (crc : Crc) (m : Mount) (d : Disk) (taken freed : Set Slot) (buf : BlockBuffer)
    (ino : UInt32) (inode : Inode) (raw : Bytes) (nodes : List Nat) (map : Nat → Option Nat)
      (block : Bytes) : Prop where
  consistent : Consistent crc m d
  isOpen : Open crc m d buf taken freed
  metadataUsed : m.MetadataUsed (buf.view d.img m.fs.sb.blockSize)
  found : ∃ blk off, InodeAt crc m (buf.view d.img m.fs.sb.blockSize) ino blk off inode raw
  directory : Directory crc m (buf.view d.img m.fs.sb.blockSize) ino inode nodes map
  logical : divCeil inode.size m.fs.sb.blockSize < 2 ^ 32
  block : block.length = m.fs.sb.blockSize

/-- The inode of a directory with one block more, `consumed` blocks having been taken for it. -/
def grownInode (inode : Inode) (blockSize : Nat) (newBlock : Bytes) (consumed : Nat) : Inode :=
  { inode with
    block := newBlock
    size := inode.size + blockSize
    blocks := (inode.blocks + blockSize / 512 * consumed) % 2 ^ 48 }

/-- A directory has grown by one block at `phys`, its mapping by the nodes of `more`; nothing else
has come into use, and no other block that was in use has changed but those of the tables and of the
mapping. -/
structure Grown (crc : Crc) (m : Mount) (d : Disk) (taken freed : Set Slot) (buf : BlockBuffer)
    (ino : UInt32)
    (inode : Inode) (nodes : List Nat) (map : Nat → Option Nat) (block : Bytes) (buf' : BlockBuffer)
    (newBlock : Bytes) (phys : Nat) (more nodes' : List Nat) : Prop where
  isOpen : Open crc m d buf' (taken ∪ m.slotsOf (phys :: more)) freed
  found : ∃ raw, m.bufferedInodeVerified crc d buf' ino =
    .ok (grownInode inode m.fs.sb.blockSize newBlock (1 + more.length), raw)
  mapped : MappedBy crc m (buf'.view d.img m.fs.sb.blockSize) ino
    (grownInode inode m.fs.sb.blockSize newBlock (1 + more.length)) nodes'
    (Function.update map (divCeil inode.size m.fs.sb.blockSize) (some phys))
  perm : nodes'.Perm (nodes ++ more)
  data : buf'.view d.img m.fs.sb.blockSize phys = block
  used : ∀ s, m.used (buf'.view d.img m.fs.sb.blockSize) s = true ↔
    m.used (buf.view d.img m.fs.sb.blockSize) s = true ∨ s ∈ m.slotsOf (phys :: more)
  free : ∀ b ∈ phys :: more, m.used (buf.view d.img m.fs.sb.blockSize) (m.blockSlot b) = false
  distinct : (phys :: more).Nodup
  content : ∀ b ∈ phys :: more, m.Content b
  kept : ∀ b, m.Content b → m.used (buf.view d.img m.fs.sb.blockSize) (m.blockSlot b) =
    true → b ∉ nodes →
    buf'.view d.img m.fs.sb.blockSize b = buf.view d.img m.fs.sb.blockSize b

section Paths

variable {crc : Crc} {m : Mount} {d : Disk} {buf buf₁ buf' : BlockBuffer} {taken freed : Set Slot}
  {ino : UInt32} {inode : Inode} {raw raw₁ : Bytes} {blk off phys : Nat}
    {nodes nodes' more puts : List Nat}
  {map : Nat → Option Nat} {block newBlock : Bytes}

theorem MappedBy.congr {v v' : Nat → Bytes} (h : MappedBy crc m v ino inode nodes map)
    (hv : ∀ b ∈ nodes, v' b = v b) : MappedBy crc m v' ino inode nodes map := by
  cases h with
  | tree t ht =>
    refine .tree t ⟨ht.extents, ht.wellFormed.congr fun b hb => by rw [hv b hb],
      ht.initialized, ?_, ?_⟩
    · intro b hb
      rw [hv b hb]
      exact ht.room b hb
    · intro b hb
      rw [hv b hb]
      exact ht.checked b hb
  | table hextents hdouble htriple =>
    have heq : tableMap m.fs.sb.blockSize v inode.block = tableMap m.fs.sb.blockSize v'
        inode.block := by
      funext logical
      unfold tableMap
      by_cases hzero : Indirect.ptrAt inode.block 12 = 0
      · rw [if_pos hzero, if_pos hzero]
      · rw [hv _ (by simp [tableNodes, hzero])]
    rw [heq]
    exact .table hextents hdouble htriple

theorem InodeAt.later (h : Consistent crc m d)
    (hold : InodeAt crc m (buf.view d.img m.fs.sb.blockSize) ino blk off inode raw)
    (ht : Takes crc m d taken freed buf buf₁ more puts) (hputs : blk ∉ puts) :
    InodeAt crc m (buf₁.view d.img m.fs.sb.blockSize) ino blk off inode raw := by
  have hview := ht.other blk (h.inode_isMetadata hold.located).2.1
    (h.superblock_lt_inode hold.located).ne' hputs
  refine ⟨hold.located, ?_, ?_, hold.parsed, hold.checked⟩
  · rw [hview]
    exact hold.fits
  · rw [hview]
    exact hold.stored

section Growing

variable (hg : Growing crc m d taken freed buf ino inode raw nodes map block)

include hg

theorem Growing.fields : Inode.Parses raw ∧ Inode.fields raw = inode := by
  obtain ⟨blk, off, hold⟩ := hg.found
  obtain ⟨hparses, heq⟩ : Inode.Parses raw ∧ inode = Inode.fields raw :=
    Inode.parse_eq_ok.mp hold.parsed
  exact ⟨hparses, heq.symm⟩

theorem Growing.patched (hpatch : patchInodeBlockArea raw newBlock = .ok raw₁) :
    Inode.Parses raw₁ ∧ raw₁.length = raw.length ∧ Inode.fields raw₁ =
      { inode with block := newBlock } ∧
      newBlock.length = 60 := by
  obtain ⟨hparses, heq⟩ := hg.fields
  obtain ⟨hlen, hparses₁, h60, hfields⟩ := patchInodeBlockArea_ok hparses hpatch
  rw [heq] at hfields
  exact ⟨hparses₁, hlen, hfields, h60⟩

theorem Growing.groups : 0 < m.fs.groups.length := by
  obtain ⟨blk, off, hold⟩ := hg.found
  obtain ⟨g, bgd, hbgd, -⟩ := hg.consistent.inode_inTable hold.located
  exact Nat.zero_lt_of_lt (lt_of_getElem?_eq_some hbgd)

theorem Growing.size : inode.size + m.fs.sb.blockSize < 2 ^ 64 := by
  have h64k := hg.consistent.blockSize
  have hlt := hg.logical
  unfold divCeil at hlt
  have hmod := Nat.lt_of_div_lt_div (show (inode.size + m.fs.sb.blockSize - 1) / m.fs.sb.blockSize <
    2 ^ 32 * m.fs.sb.blockSize / m.fs.sb.blockSize by
      rw [Nat.mul_div_cancel _ (Nat.lt_of_lt_of_le (by decide) (blockSize_ge m.fs.sb))]
      exact hlt)
  omega

theorem Growing.grown (ht : Takes crc m d taken freed buf buf₁ (phys :: more) puts)
    (hputs : ∀ b ∈ puts, b ∈ nodes ++ more)
    (hparses : Inode.Parses raw₁) (hlen : raw₁.length = raw.length)
    (hfields : Inode.fields raw₁ = { inode with block := newBlock })
    (hmapped : MappedBy crc m (buf₁.view d.img m.fs.sb.blockSize) ino
      (grownInode inode m.fs.sb.blockSize newBlock (1 + more.length)) nodes'
      (Function.update map (divCeil inode.size m.fs.sb.blockSize) (some phys)))
    (hnodes : nodes'.Perm (nodes ++ more))
    (hgrow : m.bufferGrownDir crc d buf₁ ino inode raw₁ (1 + more.length) phys block = .ok buf') :
    Grown crc m d taken freed buf ino inode nodes map block buf' newBlock phys more nodes' := by
  have h := hg.consistent
  have hdir := hg.directory
  obtain ⟨blk, off, hold⟩ := hg.found
  have hcontent : ∀ b ∈ nodes ++ more, m.Content b := by
    intro b hb
    obtain hb | hb := List.mem_append.mp hb
    · exact (hdir.content b hb).1
    · exact ht.content b (List.mem_cons_of_mem _ hb)
  have hphys : phys ∉ nodes ++ more := by
    intro hin
    obtain hin | hin := List.mem_append.mp hin
    · have hfree := ht.free phys List.mem_cons_self
      rw [(hdir.content phys hin).2] at hfree
      cases hfree
    · exact (List.nodup_cons.mp ht.distinct).1 hin
  have hblk : blk ∉ puts :=
    fun hin => (hcontent blk (hputs blk hin)).content (h.inode_isMetadata hold.located).1
  obtain ⟨htake, hfound, hdata, hsame⟩ := bufferGrownDir_ok h ht (InodeAt.later h hold ht hblk)
    hparses hlen hfields hg.size (ht.content phys List.mem_cons_self) hg.block hgrow
  refine ⟨htake.isOpen, hfound, ?_, hnodes, hdata, htake.used, htake.free, htake.distinct,
    htake.content, ?_⟩
  · apply hmapped.congr
    intro b hb
    have hin := hnodes.mem_iff.mp hb
    exact hsame b (hcontent b hin) (fun he => hphys (he ▸ hin))
  · intro b hb hused hnot
    have hne : ∀ b' ∈ phys :: more, b ≠ b' := by
      rintro b' hb' rfl
      have hfree := ht.free b hb'
      rw [hused] at hfree
      cases hfree
    rw [hsame b hb (hne phys List.mem_cons_self)]
    apply ht.other b (hb.offTables h) (hb.ne_superblock h hg.groups)
    intro hin
    obtain hin | hin := List.mem_append.mp (hputs b hin)
    · exact hnot hin
    · exact hne b (List.mem_cons_of_mem _ hin) rfl

end Growing

end Paths

theorem KeptTree.of_oneLeaf {crc : Crc} {m : Mount} {v : Nat → Bytes} {ino : UInt32} {new : Inode}
    {es : List Extent} {leafPhys : Nat} {leaf : Bytes} {header leafHeader : ExtentHeader}
    (h64k : m.fs.sb.blockSize ≤ 65536) (hextents : new.flags &&& inodeFlagExtents ≠ 0)
      (ho : InOrder es)
    (hinit : ∀ e ∈ es, e.uninitialized = false) (hlen : new.block.length = 60)
    (hparse : ExtentHeader.parse new.block = .ok header) (hdepth : header.depth = 1)
    (hindex : parseIndexEntries new.block header =
      .ok [⟨firstStart Extent.logicalBlock es, leafPhys⟩])
    (hleafLen : leaf.length = m.fs.sb.blockSize) (hleafParse : ExtentHeader.parse leaf =
      .ok leafHeader)
    (hmax : leafHeader.max ≤ nodeMaxEntries m.fs.sb.blockSize)
    (hleaf : ∀ read : NodeReader, Represents read (LevelTree.leaf es) leaf) (hpos : 1 ≤ es.length)
    (hfill : es.length ≤ nodeMaxEntries m.fs.sb.blockSize) (hzero : leafPhys ≠ 0)
    (hstaged : v leafPhys = m.sealedNode crc ino new.generation leaf) :
    KeptTree crc m v ino new (LevelTree.node [(leafPhys, LevelTree.leaf es)]) := by
  have heq : (LevelTree.node [(leafPhys, LevelTree.leaf es)]).entries = es := List.append_nil es
  have hread : overlay [(leafPhys, leaf)] (fun b => .ok (v b)) leafPhys = .ok leaf :=
    overlay_of_mem (List.nodup_singleton _) (List.mem_singleton_self _)
  have hwell := @wellFormed_oneLeaf m.fs.sb.blockSize _ _ _ _ leaf leafPhys ho hlen hparse hdepth
    hindex hread (hleaf _) hpos hfill hzero
  refine @KeptTree.of_staged crc m v v ino new 1 (LevelTree.node [(leafPhys, LevelTree.leaf es)])
    [(leafPhys, leaf)] h64k hextents hwell (by rw [heq]; exact hinit) (List.nodup_singleton _)
    (List.forall_mem_singleton.mpr ⟨hleafLen, fun header' hp => by
      rw [← Except.ok.inj (hleafParse.symm.trans hp)]
      exact hmax⟩) (List.forall_mem_singleton.mpr hstaged) (fun b hb hnot => absurd hb hnot)

end Mount

end FsExt4
