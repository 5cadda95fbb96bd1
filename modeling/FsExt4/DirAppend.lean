import FsExt4.DirTree
import FsExt4.IndirectPlan

namespace FsExt4

open Lib Jbd2 Alloc

theorem divCeil_add_self (a : Nat) {n : Nat} (h : 0 < n) : divCeil (a + n) n = divCeil a n + 1 := by
  unfold divCeil
  rw [show a + n + n - 1 = a + n - 1 + n by omega, Nat.add_div_right _ h]

theorem copyAt_within {b src : Bytes} {off n i : Nat} (hfit : off + n ≤ b.length)
    (hin : i + src.length ≤ n) :
    copyAt b off (copyAt (slice b off n) i src) = copyAt b (off + i) src := by
  have hslice : (slice b off n).length = n := by
    rw [length_slice]
    omega
  have hinner : (copyAt (slice b off n) i src).length =
    n := by rw [length_copyAt _ _ _ (by omega), hslice]
  refine ext_getD ?_ ?_
  · rw [length_copyAt _ _ _ (by omega), length_copyAt _ _ _ (by omega)]
  · intro k _
    rw [getD_copyAt b off _ k (by omega), getD_copyAt b (off + i) src k (by omega), hinner]
    by_cases hk : off ≤ k ∧ k < off + n
    · rw [if_pos hk, getD_copyAt _ _ _ _ (by omega), getD_slice _ _ _ _ (by omega)]
      by_cases hi : off + i ≤ k ∧ k < off + i + src.length
      · rw [if_pos hi, if_pos (by omega)]
        congr 1
        omega
      · rw [if_neg hi, if_neg (by omega)]
        congr 1
        omega
    · rw [if_neg hk, if_neg (by omega)]

namespace Mount

section Table

open Indirect

variable {blockSize : Nat} {v v' : Nat → Bytes} {b : Bytes} {p q : UInt32} {logical : Nat}

theorem present_of_ne_zero {n : Nat} (h : n ≠ 0) : present n = some n := if_neg h

theorem tableMap_direct (hlen : b.length = 60) (hp : p.toNat ≠ 0) (h : logical < directCount) :
    tableMap blockSize v (writeU32Le b logical p) =
      Function.update (tableMap blockSize v b) logical (some p.toNat) := by
  have hslot : ∀ j, ptrAt (writeU32Le b logical p) j = if j = logical then p.toNat else ptrAt b j :=
    ptrAt_writeU32Le b p (by unfold directCount at h; omega)
  have h12 : ptrAt (writeU32Le b logical p) 12 = ptrAt b 12 := by
    rw [hslot, if_neg (by unfold directCount at h; omega)]
  funext l
  by_cases hl : l = logical
  · subst hl
    unfold tableMap
    rw [Function.update_self, if_pos h, hslot, if_pos rfl, present_of_ne_zero hp]
  · rw [Function.update_of_ne hl]
    unfold tableMap
    rw [hslot, if_neg hl, h12]

theorem tableMap_single {b' : Bytes} (hp : p.toNat ≠ 0) (h : directCount ≤ logical)
    (hroom : logical < directCount + ppb blockSize) (hdirect : ∀ j, j < directCount →
    ptrAt b' j = ptrAt b j) (hq : ptrAt b' 12 ≠ 0)
    (hslot : ∀ j, ptrAt (v' (ptrAt b' 12)) j = if j = logical - directCount then p.toNat
      else if ptrAt b 12 = 0 then 0 else ptrAt (v (ptrAt b 12)) j) :
    tableMap blockSize v' b' = Function.update (tableMap blockSize v b) logical (some p.toNat) := by
  funext l
  by_cases hl : l = logical
  · subst hl
    unfold tableMap
    rw [Function.update_self, if_neg (by omega), if_pos hroom, if_neg hq, hslot, if_pos rfl,
      present_of_ne_zero hp]
  · rw [Function.update_of_ne hl]
    unfold tableMap
    by_cases hlow : l < directCount
    · rw [if_pos hlow, if_pos hlow, hdirect l hlow]
    · rw [if_neg hlow, if_neg hlow]
      by_cases hin : l < directCount + ppb blockSize
      · rw [if_pos hin, if_pos hin, if_neg hq, hslot, if_neg (by omega)]
        by_cases hzero : ptrAt b 12 = 0
        · rw [if_pos hzero, if_pos hzero]
          rfl
        · rw [if_neg hzero, if_neg hzero]
      · rw [if_neg hin, if_neg hin]

end Table

section Growth

open Indirect

variable {crc : Crc} {m : Mount} {d : Disk} {buf buf₁ buf' : BlockBuffer} {taken freed : Set Slot}
  {ino : UInt32}
  {inode : Inode} {raw block : Bytes} {nodes : List Nat} {map : Nat → Option Nat} {p : UInt32}

theorem allocMapped_takes (h : Consistent crc m d) (ho : Open crc m d buf taken freed)
    (hmeta : m.MetadataUsed (buf.view d.img m.fs.sb.blockSize))
      (halloc : m.allocMapped crc d buf ino = .ok (p, buf')) :
    Takes crc m d taken freed buf buf' [p.toNat] [] := by
  unfold allocMapped at halloc
  obtain ⟨⟨phys, buf₁⟩, hdraw, halloc⟩ := Result.bind_eq_ok halloc
  dsimp only at halloc
  split at halloc
  · cases halloc
  rename_i hlt
  obtain ⟨rfl, rfl⟩ := Prod.mk.inj (Except.ok.inj halloc)
  rw [UInt32.toNat_ofNat_of_lt' (Nat.lt_of_not_le hlt)]
  exact bufferAllocDirBlock_takes h ho hmeta hdraw

section Slots

variable (hg : Growing crc m d taken freed buf ino inode raw nodes map block)

include hg

theorem Growing.length_block : inode.block.length = 60 := by
  obtain ⟨hparses, hfields⟩ := hg.fields
  have h128 : 128 ≤ raw.length := hparses.base
  rw [← hfields]
  change (slice raw 0x28 60).length = 60
  rw [length_slice]
  omega

theorem Growing.pointed {i : Nat} (hi : i < 15) (p : UInt32) :
    Inode.Parses (copyAt raw (0x28 + 4 * i) (u32le p)) ∧
    (copyAt raw (0x28 + 4 * i) (u32le p)).length = raw.length ∧
      Inode.fields (copyAt raw (0x28 + 4 * i) (u32le p)) =
        { inode with block := writeU32Le inode.block i p } := by
  obtain ⟨hparses, hfields⟩ := hg.fields
  have h128 : 128 ≤ raw.length := hparses.base
  have h60 := hg.length_block
  have hblock : slice raw 0x28 60 = inode.block := by rw [← hfields]; rfl
  have hnew : copyAt raw 0x28 (writeU32Le inode.block i p) = copyAt raw (0x28 + 4 * i)
      (u32le p) := by
    rw [← hblock, Nat.mul_comm 4 i]
    exact copyAt_within (by omega) (by rw [length_u32le]; omega)
  have hpatch : patchInodeBlockArea raw (writeU32Le inode.block i p) =
      .ok (copyAt raw (0x28 + 4 * i) (u32le p)) := by
    unfold patchInodeBlockArea
    rw [if_neg (by unfold inodeBaseSize; omega), length_writeU32Le _ _ (by omega),
      if_neg (not_not.mpr h60), hnew]
  obtain ⟨h1, h2, h3, -⟩ := hg.patched hpatch
  exact ⟨h1, h2, h3⟩

theorem Growing.pointer {i : Nat} (hi : i < 15) : (u32leAt raw (0x28 + 4 * i)).toNat =
    ptrAt inode.block i := by
  obtain ⟨hparses, hfields⟩ := hg.fields
  rw [← hfields]
  unfold ptrAt u32leAt
  change _ = (UInt32.ofNat (ofLe (slice (slice raw 0x28 60) (i * 4) 4))).toNat
  rw [slice_slice _ _ _ _ _ (by omega), Nat.mul_comm i 4]

theorem Growing.nodes_kept {fresh puts : List Nat}
    (ht : Takes crc m d taken freed buf buf₁ fresh puts) {b : Nat}
    (hb : b ∈ nodes) (hputs : b ∉ puts) :
    buf₁.view d.img m.fs.sb.blockSize b = buf.view d.img m.fs.sb.blockSize b := by
  have hc := (hg.directory.content b hb).1
  exact ht.other b (hc.offTables hg.consistent) (hc.ne_superblock hg.consistent hg.groups) hputs

theorem Growing.ptr_ne_zero {phys : Nat} (hc : m.Content phys) : phys ≠ 0 :=
    hc.ne_zero hg.consistent hg.groups

variable (hextents : inode.flags &&& inodeFlagExtents = 0) (hdouble : ptrAt inode.block 13 = 0)
  (htriple : ptrAt inode.block 14 = 0) (hnodes : nodes = tableNodes inode.block)
  (hmap : map = tableMap m.fs.sb.blockSize (buf.view d.img m.fs.sb.blockSize) inode.block)

include hextents hdouble htriple hnodes hmap

theorem Growing.grown_direct (ht : Takes crc m d taken freed buf buf₁ [p.toNat] [])
    (hlow : divCeil inode.size m.fs.sb.blockSize < directCount)
    (hgrow : m.bufferGrownDir crc d buf₁ ino inode
      (copyAt raw (0x28 + 4 * divCeil inode.size m.fs.sb.blockSize)
      (u32le p)) 1 p.toNat block = .ok buf') :
    Grown crc m d taken freed buf ino inode nodes map block buf'
      (writeU32Le inode.block (divCeil inode.size m.fs.sb.blockSize) p) p.toNat [] nodes := by
  have h60 := hg.length_block
  have hp := hg.ptr_ne_zero (ht.content p.toNat (List.mem_singleton_self _))
  unfold directCount at hlow
  obtain ⟨hparses, hlen, hfields⟩ := hg.pointed (show divCeil inode.size m.fs.sb.blockSize <
    15 by omega) p
  have hslot : ∀ j, 12 ≤ j → ptrAt (writeU32Le inode.block (divCeil inode.size m.fs.sb.blockSize) p)
    j = ptrAt inode.block j := by
    intro j hj
    rw [ptrAt_writeU32Le _ _ (by omega), if_neg (by omega)]
  have htable : MappedBy crc m (buf.view d.img m.fs.sb.blockSize) ino
    (grownInode inode m.fs.sb.blockSize
      (writeU32Le inode.block (divCeil inode.size m.fs.sb.blockSize) p) 1) _ _ :=
    .table hextents ((hslot 13 (by decide)).trans hdouble) ((hslot 14 (by decide)).trans htriple)
  have hsame : tableNodes (writeU32Le inode.block (divCeil inode.size m.fs.sb.blockSize) p) =
      nodes := by
    unfold tableNodes
    rw [hslot 12 (by decide), hnodes]
    rfl
  change MappedBy _ _ _ _ _ (tableNodes (writeU32Le inode.block _ p))
    (tableMap _ _ (writeU32Le inode.block _ p)) at htable
  rw [hsame, tableMap_direct h60 hp hlow, ← hmap] at htable
  refine hg.grown ht (fun b hb => absurd hb List.not_mem_nil) hparses hlen hfields ?_ ?_ hgrow
  · exact htable.congr (fun b hb => hg.nodes_kept ht hb List.not_mem_nil)
  · rw [List.append_nil]

theorem Growing.grown_single (ht : Takes crc m d taken freed buf buf₁ [p.toNat] [])
    (hhigh : directCount ≤ divCeil inode.size m.fs.sb.blockSize)
    (hroom : divCeil inode.size m.fs.sb.blockSize < directCount + ppb m.fs.sb.blockSize)
    (hq : ptrAt inode.block 12 ≠ 0)
    (hgrow : m.bufferGrownDir crc d (buf₁.put (ptrAt inode.block 12) (writeU32Le
      (buf.view d.img m.fs.sb.blockSize (ptrAt inode.block 12))
      (divCeil inode.size m.fs.sb.blockSize - directCount) p)) ino inode raw 1 p.toNat
        block = .ok buf') :
    Grown crc m d taken freed buf ino inode nodes map block buf' inode.block p.toNat [] nodes := by
  have h := hg.consistent
  obtain ⟨hparses, hfields⟩ := hg.fields
  have hp := hg.ptr_ne_zero (ht.content p.toNat (List.mem_singleton_self _))
  have hone : nodes = [ptrAt inode.block 12] := by rw [hnodes, tableNodes, if_neg hq]
  have hc : m.Content (ptrAt inode.block 12) :=
    (hg.directory.content _ (hone ▸ List.mem_singleton_self _)).1
  have hview := hg.isOpen.coherent.whole (ptrAt inode.block 12)
  have hslots : (divCeil inode.size m.fs.sb.blockSize - directCount) * 4 + 4 ≤
      m.fs.sb.blockSize := by
    unfold ppb at hroom
    omega
  have htake := ht.put (hc.offTables h)
    ((length_writeU32Le _ p (by rw [hview]; exact hslots)).trans hview)
    (Nat.lt_trans (ptrAt_lt inode.block 12) (by decide))
  have htable : MappedBy crc m ((buf₁.put (ptrAt inode.block 12) (writeU32Le
      (buf.view d.img m.fs.sb.blockSize (ptrAt inode.block 12))
        (divCeil inode.size m.fs.sb.blockSize - directCount)
      p)).view d.img m.fs.sb.blockSize) ino (grownInode inode m.fs.sb.blockSize inode.block 1) _
        _ :=
    .table hextents hdouble htriple
  change MappedBy _ _ _ _ _ (tableNodes inode.block) (tableMap _ _ inode.block) at htable
  rw [← hnodes, @tableMap_single _ (buf.view d.img m.fs.sb.blockSize) _ _ _ _ inode.block
    hp hhigh hroom (fun _ _ => rfl) hq ?_, ← hmap] at htable
  · refine hg.grown htake ?_ hparses rfl hfields htable ?_ hgrow
    · rw [List.append_nil, hone]
      exact fun b hb => hb
    · rw [List.append_nil]
  · intro j
    rw [BlockBuffer.view_put, Function.update_self, ptrAt_writeU32Le _ _
      (by rw [hview]; exact hslots), if_neg hq]

theorem Growing.grown_newSingle {q : UInt32} (ht : Takes crc m d taken freed buf buf₁
    [p.toNat, q.toNat] []) (hhigh : directCount ≤ divCeil inode.size m.fs.sb.blockSize)
    (hroom : divCeil inode.size m.fs.sb.blockSize < directCount + ppb m.fs.sb.blockSize)
    (hq : ptrAt inode.block 12 = 0)
    (hgrow : m.bufferGrownDir crc d
      (buf₁.put q.toNat (writeU32Le (List.replicate m.fs.sb.blockSize 0)
      (divCeil inode.size m.fs.sb.blockSize - directCount) p)) ino inode
      (copyAt raw (0x28 + 4 * directCount) (u32le q)) 2 p.toNat block = .ok buf') :
    Grown crc m d taken freed buf ino inode nodes map block buf'
      (writeU32Le inode.block directCount q) p.toNat [q.toNat] [q.toNat] := by
  have h := hg.consistent
  have h60 := hg.length_block
  have hp := hg.ptr_ne_zero (ht.content p.toNat List.mem_cons_self)
  have hc := ht.content q.toNat (List.mem_cons_of_mem _ (List.mem_singleton_self _))
  have hq' := hg.ptr_ne_zero hc
  have hnone : nodes = [] := by rw [hnodes, tableNodes, if_pos hq]
  have hslots : (divCeil inode.size m.fs.sb.blockSize - directCount) * 4 + 4 ≤
      m.fs.sb.blockSize := by
    unfold ppb at hroom
    omega
  have hzeros : (List.replicate m.fs.sb.blockSize (0 : UInt8)).length = m.fs.sb.blockSize :=
    List.length_replicate
  obtain ⟨hparses, hlen, hfields⟩ := hg.pointed (show directCount < 15 by decide) q
  have htake := ht.put (hc.offTables h)
    ((length_writeU32Le _ p (by rw [hzeros]; exact hslots)).trans hzeros)
    (Nat.lt_trans (UInt32.toNat_lt q) (by decide))
  have hslot : ∀ j, ptrAt (writeU32Le inode.block directCount q) j = if j = directCount then q.toNat
      else ptrAt inode.block j := ptrAt_writeU32Le _ _ (by unfold directCount; omega)
  have hself : ptrAt (writeU32Le inode.block directCount q) 12 = q.toNat := hslot 12
  have htable : MappedBy crc m ((buf₁.put q.toNat (writeU32Le (List.replicate m.fs.sb.blockSize 0)
      (divCeil inode.size m.fs.sb.blockSize - directCount) p)).view d.img m.fs.sb.blockSize) ino
      (grownInode inode m.fs.sb.blockSize (writeU32Le inode.block directCount q) 2) _ _ :=
    .table hextents ((hslot 13).trans hdouble) ((hslot 14).trans htriple)
  change MappedBy _ _ _ _ _ (tableNodes (writeU32Le inode.block _ q))
    (tableMap _ _ (writeU32Le inode.block _ q)) at htable
  have hsame : tableNodes (writeU32Le inode.block directCount q) = [q.toNat] := by
    unfold tableNodes
    rw [hself, if_neg hq']
  rw [hsame, @tableMap_single _ (buf.view d.img m.fs.sb.blockSize) _ inode.block _ _ _ hp
    hhigh hroom ?_ (by rw [hself]; exact hq') ?_, ← hmap] at htable
  · refine hg.grown htake ?_ hparses hlen hfields htable ?_ hgrow
    · rw [hnone]
      exact fun b hb => hb
    · rw [hnone]
      rfl
  · intro j hj
    rw [hslot, if_neg (Nat.ne_of_lt hj)]
  · intro j
    rw [hself, BlockBuffer.view_put, Function.update_self, ptrAt_writeU32Le _ _
      (by rw [hzeros]; exact hslots), ptrAt_zeros, if_pos hq]

theorem bufferExtendMappedDir_ok (hrun : m.bufferExtendMappedDir crc d buf ino inode raw
      (divCeil inode.size m.fs.sb.blockSize) block = .ok buf') :
    ∃ newBlock phys more nodes', Grown crc m d taken freed buf ino inode nodes map block buf'
      newBlock phys more
      nodes' := by
  unfold bufferExtendMappedDir at hrun
  by_cases hroom : directCount + m.fs.sb.blockSize / 4 ≤ divCeil inode.size m.fs.sb.blockSize
  · rw [if_pos hroom] at hrun
    cases hrun
  rw [if_neg hroom] at hrun
  rw [Nat.not_le] at hroom
  obtain ⟨⟨p, buf₁⟩, halloc, hrun⟩ := Result.bind_eq_ok hrun
  have ht := allocMapped_takes hg.consistent hg.isOpen hg.metadataUsed halloc
  dsimp only at hrun
  split at hrun
  · rename_i hlow
    exact ⟨_, _, _, _, hg.grown_direct hextents hdouble htriple hnodes hmap ht hlow hrun⟩
  rename_i hhigh
  rw [Nat.not_lt] at hhigh
  rw [Nat.mul_comm 4 (divCeil inode.size m.fs.sb.blockSize - directCount)] at hrun
  have hpointer : (u32leAt raw (0x28 + 4 * directCount)).toNat = ptrAt inode.block 12 :=
    hg.pointer (show directCount < 15 by decide)
  split at hrun
  · rename_i hzero
    obtain ⟨⟨q, buf₂⟩, halloc₂, hrun⟩ := Result.bind_eq_ok hrun
    have ht₂ := ht.trans (allocMapped_takes hg.consistent ht.isOpen
      (ht.metadataUsed hg.metadataUsed) halloc₂)
    rw [hzero] at hpointer
    exact ⟨_, _, _, _, hg.grown_newSingle hextents hdouble htriple hnodes hmap ht₂ hhigh hroom
      hpointer.symm hrun⟩
  · rename_i hne
    obtain ⟨indirect, hread, hrun⟩ := Result.bind_eq_ok hrun
    rw [hpointer] at hread hrun
    obtain rfl := BlockBuffer.bufferedBlock_ok hread
    have hne' : ptrAt inode.block 12 ≠ 0 := fun hzero =>
      hne (UInt32.toNat_inj.mp (hpointer.trans hzero))
    have hin : ptrAt inode.block 12 ∈ nodes := by
      rw [hnodes, tableNodes, if_neg hne']
      exact List.mem_singleton_self _
    rw [hg.nodes_kept ht hin List.not_mem_nil] at hrun
    exact ⟨_, _, _, _, hg.grown_single hextents hdouble htriple hnodes hmap ht hhigh
      hroom hne' hrun⟩

end Slots

/-- A directory is given one block more: when a result comes, as it does when `fuel` is enough for
any tree, it has grown. -/
theorem bufferAppendDirBlock_ok (hg : Growing crc m d taken freed buf ino inode raw nodes map block)
    {fuel : Nat} (hread : m.bufferedInodeVerified crc d buf ino = .ok (inode, raw))
    (hdisk : ∀ b ∈ nodes, m.fs.reader d b = .ok (buf.view d.img m.fs.sb.blockSize b))
      (hfuel : extMaxDepth < fuel) :
    ∃ result, m.bufferAppendDirBlock crc d fuel buf ino block = some result ∧
      ∀ buf', result = .ok buf' → ∃ newBlock phys more nodes',
        Grown crc m d taken freed buf ino inode nodes map block buf' newBlock phys more nodes' := by
  have h := hg.consistent
  unfold bufferAppendDirBlock
  rw [hread]
  dsimp only
  rw [hg.directory.isDir]
  generalize hnodes : nodes = nodes₀ at *
  generalize hmap : map = map₀ at *
  cases hg.directory.mapped with
  | table hextents hdouble htriple =>
    rw [if_neg (by decide), if_pos hextents]
    exact ⟨_, rfl, fun buf' hrun => bufferExtendMappedDir_ok hg hextents hdouble htriple
      rfl rfl hrun⟩
  | @tree n t ht =>
    rw [if_neg (by decide), if_neg ht.extents]
    cases hplan : m.planBufferedBlockAllocation (m.fs.reader d) buf 1
      ((ino - 1).toNat / m.fs.sb.inodesPerGroup.toNat) with
    | error e => exact ⟨_, rfl, fun buf' hrun => by cases hrun⟩
    | ok plan =>
      have htakeable := (hg.isOpen.plannedRun h.coherent hplan).takeable hg.metadataUsed
      obtain ⟨header, hparse, hdepth⟩ := ht.wellFormed.tree.parse
      have hn := ht.wellFormed.depth
      rw [hparse]
      dsimp only
      rw [hdepth]
      by_cases hone : n = 1
      · subst hone
        rw [if_pos rfl]
        obtain ⟨result, hresult, hok⟩ := bufferExtendDirDepth1_ok hg ht rfl rfl hdisk htakeable
          (Nat.lt_of_le_of_lt hn hfuel)
        refine ⟨result, hresult, fun buf' hrun => ?_⟩
        obtain ⟨newBlock, more, nodes', hgrown⟩ := hok buf' hrun
        exact ⟨newBlock, _, more, nodes', hgrown⟩
      rw [if_neg hone]
      by_cases hdeep : 1 < n
      · rw [if_pos hdeep]
        obtain ⟨result, hresult, hok⟩ := bufferExtendDirDeep_ok hg ht rfl rfl hdisk htakeable
          (Nat.lt_of_le_of_lt hn hfuel)
        refine ⟨result, hresult, fun buf' hrun => ?_⟩
        obtain ⟨newBlock, more, nodes', hgrown⟩ := hok buf' hrun
        exact ⟨newBlock, _, more, nodes', hgrown⟩
      · rw [if_neg hdeep]
        obtain rfl : n = 0 := by omega
        refine ⟨_, rfl, fun buf' hrun => ?_⟩
        obtain ⟨newBlock, more, nodes', hgrown⟩ := bufferExtendDirRoot_ok hg ht rfl htakeable hrun
        exact ⟨newBlock, _, more, nodes', hgrown⟩

theorem Grown.directory {buf' : BlockBuffer} {newBlock : Bytes} {phys : Nat}
    {more nodes' : List Nat}
    (hgrown : Grown crc m d taken freed buf ino inode nodes map block buf' newBlock phys
      more nodes')
    (hg : Growing crc m d taken freed buf ino inode raw nodes map block) :
    Directory crc m (buf'.view d.img m.fs.sb.blockSize) ino
      (grownInode inode m.fs.sb.blockSize newBlock (1 + more.length)) nodes'
      (Function.update map (divCeil inode.size m.fs.sb.blockSize) (some phys)) where
  isDir := hg.directory.isDir
  inline := hg.directory.inline
  mapped := hgrown.mapped
  dense := by
    intro l
    change _ ↔ l < divCeil (inode.size + m.fs.sb.blockSize) m.fs.sb.blockSize
    rw [divCeil_add_self _ (Nat.lt_of_lt_of_le (by decide) (blockSize_ge m.fs.sb))]
    by_cases hl : l = divCeil inode.size m.fs.sb.blockSize
    · subst hl
      rw [Function.update_self]
      exact ⟨fun _ => Nat.lt_succ_self _, fun _ => rfl⟩
    · rw [Function.update_of_ne hl, hg.directory.dense]
      omega
  content := by
    intro b hb
    obtain hb | hb := List.mem_append.mp (hgrown.perm.mem_iff.mp hb)
    · obtain ⟨hc, hused⟩ := hg.directory.content b hb
      exact ⟨hc, (hgrown.used _).mpr (Or.inl hused)⟩
    · have hin := List.mem_cons_of_mem phys hb
      exact ⟨hgrown.content b hin, (hgrown.used _).mpr (Or.inr ⟨b, hin, rfl⟩)⟩

end Growth

end Mount

end FsExt4
