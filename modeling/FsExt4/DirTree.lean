import FsExt4.DirMapped

namespace FsExt4

open Lib Jbd2 Alloc

theorem Represents.oneLeaf {read : NodeReader} {t : LevelTree Extent 1} {root : Bytes}
    (h : Represents read t root) (hfill : t.fill = 1) :
    ∃ (leafPhys : Nat) (leaf : Bytes) (es : List Extent) (header : ExtentHeader),
      t = LevelTree.node [(leafPhys, LevelTree.leaf es)] ∧ ExtentHeader.parse root = .ok header ∧
      header.depth = 1 ∧
        parseIndexEntries root header = .ok [⟨firstStart Extent.logicalBlock es, leafPhys⟩] ∧
        ExtentIdx.parse (slice root nodeSize nodeSize) =
          .ok ⟨firstStart Extent.logicalBlock es, leafPhys⟩ ∧
        read leafPhys = .ok leaf ∧ Represents read (LevelTree.leaf es) leaf := by
  obtain ⟨header, hparse, hdepth, hindices, hbelow⟩ := h
  obtain ⟨⟨leafPhys, es⟩, hone⟩ := List.length_eq_one_iff.mp hfill
  obtain rfl : t = LevelTree.node [(leafPhys, es)] := hone
  obtain ⟨leaf, hread, hleaf⟩ := hbelow (leafPhys, es) (List.mem_singleton_self _)
  refine ⟨leafPhys, leaf, es, header, rfl, hparse, hdepth, hindices, ?_, hread, hleaf⟩
  have hslot := ((mapM_range_eq_ok_iff _ _ _).mp hindices).2 0 Nat.one_pos
  unfold entryAt at hslot
  split at hslot
  · cases hslot
  · exact hslot

namespace Mount

section Trees

variable {crc : Crc} {m : Mount} {d : Disk} {buf buf₁ buf' : BlockBuffer} {taken freed : Set Slot}
  {ino : UInt32}
  {inode : Inode} {raw block leaf' : Bytes} {nodes : List Nat} {map : Nat → Option Nat}
  {plan : BlockAllocationPlan} {es : List Extent} {leafPhys : Nat} {header : ExtentHeader}

theorem nodeMaxEntries_untailed (h : Consistent crc m d) (reserved : Bool) :
    (m.fs.sb.blockSize - (if reserved then 4 else 0) - nodeSize) / nodeSize % 2 ^ 16 ≤
      nodeMaxEntries m.fs.sb.blockSize := by
  have hlog := logBlockSize_le h
  unfold nodeMaxEntries Superblock.blockSize nodeSize
  generalize m.fs.sb.logBlockSize = log at hlog
  cases reserved <;> interval_cases log <;> decide

theorem Growing.firstStart_eq_zero
    (hg : Growing crc m d taken freed buf ino inode raw nodes map block)
    {es' : List Extent} {phys : Nat} (horder : InOrder es')
    (hmap : (fun l => (mapping es' l).map Prod.fst) =
      Function.update map (divCeil inode.size m.fs.sb.blockSize) (some phys)) :
    firstStart Extent.logicalBlock es' = 0 := by
  apply FsExt4.firstStart_eq_zero horder
  rw [show (mapping es' 0).map Prod.fst = _ from congrFun hmap 0]
  by_cases hlast : 0 = divCeil inode.size m.fs.sb.blockSize
  · rw [← hlast, Function.update_self]
    rfl
  · rw [Function.update_of_ne hlast]
    exact (hg.directory.dense 0).mpr (Nat.pos_of_ne_zero (Ne.symm hlast))

theorem Growing.firstStart_before
    (hg : Growing crc m d taken freed buf ino inode raw nodes map block)
    (hpos : 1 ≤ es.length) (horder : InOrder es) (hmap : map = fun l =>
      (mapping es l).map Prod.fst) :
    firstStart Extent.logicalBlock es = 0 := by
  obtain ⟨e, he⟩ := List.exists_mem_of_length_pos hpos
  have hself : e.contains e.logicalBlock = true :=
    contains_iff.mpr ⟨Nat.le_refl _, Nat.lt_add_of_pos_right (horder.valid e he).pos⟩
  have hat : ∀ l, map l = (mapping es l).map Prod.fst := congrFun hmap
  have hlt : e.logicalBlock < divCeil inode.size m.fs.sb.blockSize := by
    apply (hg.directory.dense _).mp
    rw [hat, mapping_of_mem horder.apart he hself]
    rfl
  apply FsExt4.firstStart_eq_zero horder
  rw [← hat]
  exact (hg.directory.dense 0).mpr (Nat.zero_lt_of_lt hlt)

theorem length_leafNode {len max : Nat} {generation : UInt32}
    (h : nodeSize * (1 + es.length) ≤ len) :
    (buildNode len max 0 generation (es.map encodeExtent)).length = len := by
  apply length_buildNode
  · intro b hb
    obtain ⟨e, -, rfl⟩ := List.mem_map.mp hb
    exact length_encodeExtent e
  · rw [List.length_map]
    exact h

theorem Growing.grown_oneLeaf (hg : Growing crc m d taken freed buf ino inode raw nodes map block)
    (hextents : inode.flags &&& inodeFlagExtents ≠ 0) {phys max : Nat} {more puts : List Nat}
    (ht : Takes crc m d taken freed buf buf₁ (phys :: more) puts)
      (hputs : ∀ b ∈ puts, b ∈ nodes ++ more)
    (hnodes : nodes ++ more = [leafPhys]) {raw₁ newRoot : Bytes} {generation : UInt32}
    (horder : InOrder es) (hinit : ∀ e ∈ es, e.uninitialized = false)
    (hmap : (fun l => (mapping es l).map Prod.fst) =
      Function.update map (divCeil inode.size m.fs.sb.blockSize) (some phys))
    (hraw : Inode.Parses raw₁ ∧ raw₁.length = raw.length ∧ Inode.fields raw₁ =
      { inode with block := newRoot } ∧
      newRoot.length = 60)
    (hparse : ExtentHeader.parse newRoot = .ok header) (hdepth : header.depth = 1)
    (hindex : parseIndexEntries newRoot header = .ok [⟨0, leafPhys⟩])
    (hpos : 1 ≤ es.length) (hfits : es.length ≤ max) (hmax : max ≤ nodeMaxEntries m.fs.sb.blockSize)
    (hgrow : m.bufferGrownDir crc d (buf₁.put leafPhys (m.sealedNode crc ino inode.generation
      (buildNode m.fs.sb.blockSize max 0 generation (es.map encodeExtent)))) ino inode raw₁
        (1 + more.length) phys block = .ok buf') :
    Grown crc m d taken freed buf ino inode nodes map block buf' newRoot phys more [leafPhys] := by
  have h := hg.consistent
  have h1024 := blockSize_ge m.fs.sb
  have h64k := h.blockSize
  obtain ⟨hparses, hraw, hfields, h60⟩ := hraw
  obtain ⟨-, hcap16, hroom⟩ := nodeMaxEntries_bounds h1024 h64k
  have hleafPhys : m.Content leafPhys := by
    have hin : leafPhys ∈ nodes ++ more := hnodes ▸ List.mem_singleton_self _
    obtain hin | hin := List.mem_append.mp hin
    · exact (hg.directory.content leafPhys hin).1
    · exact ht.content leafPhys (List.mem_cons_of_mem _ hin)
  have hlen : (buildNode m.fs.sb.blockSize max 0 generation (es.map encodeExtent)).length =
      m.fs.sb.blockSize := by
    apply length_leafNode
    unfold nodeSize at hroom ⊢
    omega
  have hsealed : (m.sealedNode crc ino inode.generation
      (buildNode m.fs.sb.blockSize max 0 generation (es.map encodeExtent))).length =
        m.fs.sb.blockSize := by
    rw [(sealedNode_spec (by omega)).1, hlen]
  have htake := ht.put (hleafPhys.offTables h) hsealed
    (Nat.lt_trans (Nat.lt_of_lt_of_le hleafPhys.inVolume h.addressable) (by decide))
  rw [← hg.firstStart_eq_zero horder hmap] at hindex
  have hkept : KeptTree crc m ((buf₁.put leafPhys (m.sealedNode crc ino inode.generation
      (buildNode m.fs.sb.blockSize max 0 generation (es.map encodeExtent)))).view d.img
        m.fs.sb.blockSize) ino (grownInode inode m.fs.sb.blockSize newRoot (1 + more.length))
        (LevelTree.node [(leafPhys, LevelTree.leaf es)]) := by
    apply @KeptTree.of_oneLeaf crc m _ ino (grownInode inode m.fs.sb.blockSize newRoot
      (1 + more.length)) es leafPhys _
      header ⟨(es.map encodeExtent).length, max, 0, generation⟩ h64k hextents horder hinit h60
        hparse hdepth hindex hlen
    · exact parse_buildNode (by rw [List.length_map]; exact hfits) (by omega) (by decide)
    · exact hmax
    · exact fun _ => represents_leaf horder.valid hfits (by omega)
    · exact hpos
    · omega
    · exact hleafPhys.ne_zero h hg.groups
    · rw [BlockBuffer.view_put, Function.update_self]
      rfl
  have hmapped := MappedBy.tree _ hkept
  rw [show (LevelTree.node [(leafPhys, LevelTree.leaf es)]).entries = es from List.append_nil es,
    hmap] at hmapped
  refine hg.grown htake ?_ hparses hraw hfields hmapped ?_ hgrow
  · intro b hb
    obtain hb | hb := List.mem_append.mp hb
    · exact hputs b hb
    · rw [hnodes]
      exact hb
  · rw [hnodes]

theorem bufferExtendDirRoot_ok (hg : Growing crc m d taken freed buf ino inode raw [] map block)
    {t : LevelTree Extent 0} (ht : KeptTree crc m (buf.view d.img m.fs.sb.blockSize) ino inode t)
    (hmap : map = fun l => (mapping t.entries l).map Prod.fst)
    (hplan : m.Takeable (buf.view d.img m.fs.sb.blockSize) plan)
    (hrun : m.bufferExtendDirRoot crc d buf ino inode raw block
      (dirExtent (divCeil inode.size m.fs.sb.blockSize) plan.firstBlock) plan = .ok buf') :
    ∃ newBlock more nodes', Grown crc m d taken freed buf ino inode [] map block buf' newBlock
      plan.firstBlock more nodes' := by
  have h := hg.consistent
  have hphys := Nat.lt_of_lt_of_le hplan.content.inVolume h.addressable
  have horder : InOrder t.entries := ⟨ht.wellFormed.apart, ht.wellFormed.valid⟩
  have hcount := length_insertIntoLeafSorted t.entries
    (dirExtent (divCeil inode.size m.fs.sb.blockSize) plan.firstBlock)
  have hfour : t.entries.length ≤ 4 := ht.wellFormed.rootFill
  obtain ⟨header, hparse, hdepth, hentries⟩ := ht.wellFormed.tree
  unfold bufferExtendDirRoot at hrun
  obtain ⟨buf₁, halloc, hrun⟩ := Result.bind_eq_ok hrun
  have htake := bufferDirBlockAlloc_takes h hg.isOpen hplan halloc
  split at hrun
  · rename_i newRoot hinsert
    obtain ⟨raw₁, hpatch, hgrow⟩ := Result.bind_eq_ok hrun
    obtain ⟨header', es, hparse', -, hentries', hmeets, hfits, hroom, rfl⟩ :=
      planInsertExtent_eq_ok hinsert
    obtain rfl := Except.ok.inj (hparse.symm.trans hparse')
    obtain rfl := Except.ok.inj (hentries.symm.trans hentries')
    obtain ⟨hparses, hraw, hfields, h60⟩ := hg.patched hpatch
    obtain ⟨horder', hinit', hmap'⟩ := inserted_dirExtent (inserted_leaf hmeets) horder hg.logical
      hphys ht.initialized
    rw [ht.wellFormed.length] at hroom hpatch hfields
    rw [Nat.mod_eq_of_lt (by omega)] at hfits
    have hkept : KeptTree crc m (buf₁.view d.img m.fs.sb.blockSize) ino
      (grownInode inode m.fs.sb.blockSize _ 1) (LevelTree.leaf _) :=
      @KeptTree.of_staged crc m (buf₁.view d.img m.fs.sb.blockSize) _ ino
        (grownInode inode m.fs.sb.blockSize _ 1) 0 (LevelTree.leaf _) [] h.blockSize ht.extents
          (wellFormed_leafRoot horder' hparse hfits hroom hdepth) hinit'
        .nil (fun w hw => absurd hw List.not_mem_nil) (fun w hw => absurd hw List.not_mem_nil)
        (fun b hb => absurd hb List.not_mem_nil)
    refine ⟨_, [], [], hg.grown htake (fun b hb => absurd hb List.not_mem_nil) hparses
      hraw hfields ?_ (List.Perm.refl _) hgrow⟩
    rw [hmap, ← hmap']
    exact .tree _ hkept
  · split at hrun
    · obtain ⟨⟨leafPhys, buf₂⟩, halloc₂, hrun⟩ := Result.bind_eq_ok hrun
      obtain ⟨promo, hpromo, hrun⟩ := Result.bind_eq_ok hrun
      obtain ⟨raw₁, hpatch, hgrow⟩ := Result.bind_eq_ok hrun
      have htake₂ := htake.trans
        (bufferAllocDirBlock_takes h htake.isOpen (htake.metadataUsed hg.metadataUsed) halloc₂)
      obtain ⟨header', es, hparse', -, hentries', hmeets, hfits, rfl⟩ :=
        planPromoteLeaf_eq_ok hpromo
      obtain rfl := Except.ok.inj (hparse.symm.trans hparse')
      obtain rfl := Except.ok.inj (hentries.symm.trans hentries')
      obtain ⟨horder', hinit', hmap'⟩ := inserted_dirExtent (inserted_leaf hmeets) horder
        hg.logical hphys ht.initialized
      have hleafPhys : m.Content leafPhys := htake₂.content leafPhys (by simp)
      obtain ⟨hroot, hindex⟩ := parse_depth1IndexRoot header.generation
        (Nat.lt_of_lt_of_le hleafPhys.inVolume h.addressable)
      rw [Nat.mod_eq_of_lt (by omega)] at hfits
      exact ⟨_, [leafPhys], [leafPhys], hg.grown_oneLeaf ht.extents htake₂
        (fun b hb => absurd hb List.not_mem_nil)
        rfl horder' hinit' (by rw [hmap', hmap]) (hg.patched hpatch) hroot rfl hindex hcount.1 hfits
        (nodeMaxEntries_untailed h m.csum.enabled) hgrow⟩
    · cases hrun

theorem bufferExtendDirDeep_ok (hg : Growing crc m d taken freed buf ino inode raw nodes map block)
    {n fuel : Nat} {t : LevelTree Extent n} (ht : KeptTree crc m (buf.view d.img m.fs.sb.blockSize)
      ino inode t)
    (hnodes : nodes = t.addresses) (hmap : map = fun l => (mapping t.entries l).map Prod.fst)
    (hdisk : ∀ b ∈ nodes, m.fs.reader d b = .ok (buf.view d.img m.fs.sb.blockSize b))
    (hplan : m.Takeable (buf.view d.img m.fs.sb.blockSize) plan) (hfuel : n < fuel) :
    ∃ result, m.bufferExtendDirDeep crc d fuel buf ino inode raw block
        (dirExtent (divCeil inode.size m.fs.sb.blockSize) plan.firstBlock) plan = some result ∧
      ∀ buf', result = .ok buf' → ∃ newBlock more nodes',
        Grown crc m d taken freed buf ino inode nodes map block buf' newBlock plan.firstBlock more
          nodes' := by
  subst hnodes hmap
  have h := hg.consistent
  have h1024 := blockSize_ge m.fs.sb
  have h64k := h.blockSize
  have hdir := hg.directory
  have hwell := ht.wellFormed
  have hphys := Nat.lt_of_lt_of_le hplan.content.inVolume h.addressable
  have hwell' : WellFormed m.fs.sb.blockSize (m.fs.reader d) inode.block t := hwell.congr hdisk
  have hfresh : Allocator.Fresh
    (m.allocMeta d buf ((ino - 1).toNat / m.fs.sb.inodesPerGroup.toNat) plan)
      (0 :: t.addresses) := allocMeta_fresh h hg.isOpen hg.metadataUsed hplan
        (fun b hb => (hdir.content b hb).2)
  have hnew := @dirExtent_valid (divCeil inode.size m.fs.sb.blockSize) _ hphys
  obtain ⟨planned, hplanned, hok⟩ := planInsertExtentDeep_ok h1024 h64k hwell' hfresh hnew hfuel
  unfold bufferExtendDirDeep
  dsimp only
  rw [hplanned]
  refine ⟨_, rfl, fun buf' hrun => ?_⟩
  dsimp only at hrun
  obtain ⟨deep, hdeep, hrun⟩ := Result.bind_eq_ok hrun
  obtain ⟨pending, hpending, hrun⟩ := Result.bind_eq_ok hrun
  obtain ⟨buf₁, halloc, hrun⟩ := Result.bind_eq_ok hrun
  obtain ⟨buf₂, hallocs, hrun⟩ := Result.bind_eq_ok hrun
  obtain ⟨raw₁, hpatch, hgrow⟩ := Result.bind_eq_ok hrun
  obtain ⟨n', t', ht'⟩ := hok deep hdeep
  rw [hdeep] at hplanned
  obtain ⟨hbuilt, hdrawn⟩ := planInsertExtentDeep_keeps hplanned
  have hfirsts := pendingMeta_drawn hpending hdrawn
  obtain ⟨htakeable, hdistinct⟩ := pendingMeta_takeable h hg.isOpen hg.metadataUsed hplan hpending
  have htake := bufferDirBlockAlloc_takes h hg.isOpen hplan halloc
  obtain ⟨hnot, hnodup⟩ := List.nodup_cons.mp hdistinct
  have htakes := bufferDirBlockAllocs_takes h htake.isOpen
    (fun p hp => (htakeable p (List.mem_cons_of_mem _ hp)).later
    htake (fun hin => hnot (List.mem_map.mpr ⟨p, hp, List.mem_singleton.mp hin⟩))) hnodup hallocs
  rw [hfirsts] at htakes
  have htake₂ := htake.trans htakes
  have hcontent : ∀ b ∈ t.addresses ++ deep.allocatedBlocks, m.Content b := by
    intro b hb
    obtain hb | hb := List.mem_append.mp hb
    · exact (hdir.content b hb).1
    · exact htake₂.content b (List.mem_cons_of_mem _ hb)
  have hsized : ∀ w ∈ deep.blockWrites, w.2.length = m.fs.sb.blockSize ∧
      ∀ header, ExtentHeader.parse w.2 = .ok header →
      header.max ≤ nodeMaxEntries m.fs.sb.blockSize := by
    intro w hw
    have hin := ht'.addresses.mem_iff.mpr (ht'.within w.1 (List.mem_map_of_mem hw))
    obtain ⟨k, child, bytes, hread, hrep, hpos, hfill⟩ := ht'.tree.node_at ht'.filled hin
    rw [overlay_of_mem ht'.once hw] at hread
    obtain rfl := Except.ok.inj hread
    exact (hbuilt w hw).room h1024 h64k hrep hpos hfill
  have htake₃ := @Takes.putNodes _ _ _ _ _ _ _ _ _ ino inode.generation deep.blockWrites htake₂
      (fun w hw => by
      have hc := hcontent w.1 (ht'.within w.1 (List.mem_map_of_mem hw))
      exact ⟨hc.offTables h, (hsized w hw).1,
        Nat.lt_trans (Nat.lt_of_lt_of_le hc.inVolume h.addressable) (by decide)⟩)
  obtain ⟨hparses, hraw, hfields, h60⟩ := hg.patched hpatch
  obtain ⟨horder', hinit', hmap'⟩ := inserted_dirExtent ht'.entries ⟨hwell.apart, hwell.valid⟩
    hg.logical hphys ht.initialized
  have hlength : pending.length = deep.allocatedBlocks.length := by rw [← hfirsts, List.length_map]
  rw [hlength] at hgrow
  refine ⟨_, deep.allocatedBlocks, t'.addresses, hg.grown htake₃ ?_ hparses hraw hfields ?_
    ht'.addresses hgrow⟩
  · intro b hb
    exact ht'.within b hb
  · rw [← hmap']
    have hoverlay : ∀ b ∈ t'.addresses, overlay deep.blockWrites
      (fun b => .ok (buf.view d.img m.fs.sb.blockSize b)) b =
        overlay deep.blockWrites (m.fs.reader d) b := by
      intro b hb
      by_cases hin : b ∈ deep.blockWrites.map Prod.fst
      · obtain ⟨w, hw, rfl⟩ := List.mem_map.mp hin
        rw [overlay_of_mem ht'.once hw, overlay_of_mem ht'.once hw]
      · rw [overlay_of_not_mem hin, overlay_of_not_mem hin]
        obtain hb | hb := List.mem_append.mp (ht'.addresses.mem_iff.mp hb)
        · exact (hdisk b hb).symm
        · exact absurd (ht'.fresh b hb) hin
    refine .tree t' (@KeptTree.of_staged crc m (buf.view d.img m.fs.sb.blockSize) _ ino
      (grownInode inode m.fs.sb.blockSize deep.newRoot (1 + deep.allocatedBlocks.length)) n' t'
        deep.blockWrites h64k
      ht.extents ((ht'.wellFormed hwell' hnew (Inserted.clear ht'.entries)).congr hoverlay) hinit'
        ht'.once hsized
      (fun w hw => view_putNodes_of_mem ht'.once hw) ?_)
    intro b hb hnot'
    obtain hb | hb := List.mem_append.mp (ht'.addresses.mem_iff.mp hb)
    · have hc := (hdir.content b hb).1
      refine ⟨?_, ht.room b hb, ht.checked b hb⟩
      rw [view_putNodes_of_not_mem hnot']
      exact htake₂.other b (hc.offTables h) (hc.ne_superblock h hg.groups) List.not_mem_nil
    · exact absurd (ht'.fresh b hb) hnot'

theorem Growing.grown_leaf (hg : Growing crc m d taken freed buf ino inode raw [leafPhys] map block)
    (ht : KeptTree crc m (buf.view d.img m.fs.sb.blockSize) ino inode
      (LevelTree.node [(leafPhys, LevelTree.leaf es)]))
    (hparse : ExtentHeader.parse inode.block = .ok header) (hdepth : header.depth = 1)
    (hindex : parseIndexEntries inode.block header =
      .ok [⟨firstStart Extent.logicalBlock es, leafPhys⟩])
    (hleaf : Represents (fun b => .ok (buf.view d.img m.fs.sb.blockSize b)) (LevelTree.leaf es)
      (buf.view d.img m.fs.sb.blockSize leafPhys))
    (hmap : map = fun l => (mapping es l).map Prod.fst)
    (hplan : m.Takeable (buf.view d.img m.fs.sb.blockSize) plan)
    (hinsert : planInsertExtent (buf.view d.img m.fs.sb.blockSize leafPhys)
      (dirExtent (divCeil inode.size m.fs.sb.blockSize) plan.firstBlock) = .ok leaf')
    (halloc : m.bufferDirBlockAlloc crc d buf plan = .ok buf₁)
    (hgrow : m.bufferGrownDir crc d
      (buf₁.put leafPhys (m.sealedNode crc ino inode.generation leaf')) ino inode raw 1
      plan.firstBlock block = .ok buf') :
    Grown crc m d taken freed buf ino inode [leafPhys] map block buf' inode.block plan.firstBlock []
      [leafPhys] := by
  have h := hg.consistent
  have hphys := Nat.lt_of_lt_of_le hplan.content.inVolume h.addressable
  have hentries : (LevelTree.node [(leafPhys, LevelTree.leaf es)]).entries = es :=
    List.append_nil es
  have hinit := ht.initialized
  have horder : InOrder (LevelTree.node [(leafPhys, LevelTree.leaf es)]).entries :=
    ⟨ht.wellFormed.apart, ht.wellFormed.valid⟩
  rw [hentries] at hinit horder
  obtain ⟨⟨hpos, hfill⟩, -⟩ := ht.wellFormed.filled _ (List.mem_singleton_self _)
  have hpos : 1 ≤ es.length := hpos
  have hfill : es.length ≤ nodeMaxEntries m.fs.sb.blockSize := hfill
  obtain ⟨leafHeader, hleafParse, hleafDepth, hleafEntries⟩ := hleaf
  obtain ⟨leafHeader', es', hparse', -, hentries', hmeets, hfits, -, rfl⟩ :=
    planInsertExtent_eq_ok hinsert
  obtain rfl := Except.ok.inj (hleafParse.symm.trans hparse')
  obtain rfl : es = es' := Except.ok.inj (hleafEntries.symm.trans hentries')
  obtain ⟨horder', hinit', hmap'⟩ := inserted_dirExtent (inserted_leaf hmeets) horder
    hg.logical hphys hinit
  have hcount := length_insertIntoLeafSorted es
    (dirExtent (divCeil inode.size m.fs.sb.blockSize) plan.firstBlock)
  have hroom := (nodeMaxEntries_bounds (blockSize_ge m.fs.sb) h.blockSize).2.2
  unfold nodeSize at hroom
  have hlog := h.blockSize
  rw [Nat.mod_eq_of_lt (by omega)] at hfits
  rw [hg.firstStart_before hpos horder hmap] at hindex
  generalize insertIntoLeafSorted es
    (dirExtent (divCeil inode.size m.fs.sb.blockSize) plan.firstBlock) = es' at *
  rw [hg.isOpen.coherent.whole, hleafDepth] at hgrow
  obtain ⟨hparses, hfields⟩ := hg.fields
  refine hg.grown_oneLeaf ht.extents (bufferDirBlockAlloc_takes h hg.isOpen hplan halloc)
    (fun b hb => absurd hb List.not_mem_nil) rfl horder' hinit' (by rw [hmap', hmap])
    ⟨hparses, rfl, hfields, ht.wellFormed.length⟩ hparse hdepth hindex hcount.1 hfits
      (ht.room _ ?_ _ hleafParse) hgrow
  exact List.mem_singleton_self _

theorem bufferExtendDirDepth1_ok (hg : Growing crc m d taken freed buf ino inode raw nodes map
    block) {fuel : Nat}
    {t : LevelTree Extent 1} (ht : KeptTree crc m (buf.view d.img m.fs.sb.blockSize) ino inode t)
    (hnodes : nodes = t.addresses) (hmap : map = fun l => (mapping t.entries l).map Prod.fst)
    (hdisk : ∀ b ∈ nodes, m.fs.reader d b = .ok (buf.view d.img m.fs.sb.blockSize b))
    (hplan : m.Takeable (buf.view d.img m.fs.sb.blockSize) plan) (hfuel : 1 < fuel) :
    ∃ result, m.bufferExtendDirDepth1 crc d fuel buf ino inode raw block
        (dirExtent (divCeil inode.size m.fs.sb.blockSize) plan.firstBlock) plan = some result ∧
      ∀ buf', result = .ok buf' → ∃ newBlock more nodes',
        Grown crc m d taken freed buf ino inode nodes map block buf' newBlock plan.firstBlock more
          nodes' := by
  have hdeep := bufferExtendDirDeep_ok hg ht hnodes hmap hdisk hplan hfuel
  have h := hg.consistent
  obtain ⟨header, hparse, hdepth, hfill⟩ := ht.wellFormed.tree.header_fill
  unfold bufferExtendDirDepth1
  rw [hparse]
  dsimp only
  split
  · exact hdeep
  rename_i hone
  rw [hfill, not_not] at hone
  obtain ⟨leafPhys, leaf, es, header', rfl, hparse', -, hindex, hidx, hread, hleaf⟩ :=
    ht.wellFormed.tree.oneLeaf hone
  obtain rfl := Except.ok.inj (hparse.symm.trans hparse')
  obtain rfl := Except.ok.inj hread
  have hentries : (LevelTree.node [(leafPhys, LevelTree.leaf es)]).entries = es :=
    List.append_nil es
  have haddresses : (LevelTree.node [(leafPhys, LevelTree.leaf es)]).addresses = [leafPhys] := rfl
  have hinit := ht.initialized
  have horder : InOrder (LevelTree.node [(leafPhys, LevelTree.leaf es)]).entries :=
    ⟨ht.wellFormed.apart, ht.wellFormed.valid⟩
  rw [hentries] at hmap hinit horder
  rw [haddresses] at hnodes
  subst hnodes
  rw [hidx, Result.ok_bind]
  split
  · exact ⟨_, rfl, fun buf' hbuf => by cases hbuf⟩
  rename_i leafPhys' leaf hleafAt
  obtain ⟨leaf', hbuffered, hleafAt⟩ := Result.bind_eq_ok hleafAt
  split at hleafAt
  · cases hleafAt
  obtain ⟨rfl, rfl⟩ := Prod.mk.inj (Except.ok.inj hleafAt)
  obtain rfl := BlockBuffer.bufferedBlock_ok hbuffered
  split
  · split
    · exact hdeep
    · exact ⟨_, rfl, fun buf' hbuf => by cases hbuf⟩
  rename_i newLeaf hinsert
  refine ⟨_, rfl, fun buf' hrun => ?_⟩
  obtain ⟨buf₁, halloc, hgrow⟩ := Result.bind_eq_ok hrun
  exact ⟨_, [], [leafPhys], hg.grown_leaf ht hparse hdepth hindex hleaf hmap hplan hinsert
    halloc hgrow⟩

end Trees

end Mount

end FsExt4
