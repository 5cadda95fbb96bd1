import FsExt4.DirAppend
import FsExt4.FileReplace

namespace FsExt4

open Lib Jbd2 Alloc

namespace Mount

section Commits

variable {crc : Crc} {m m' : Mount} {d d' : Disk} {buf : BlockBuffer} {taken : Set Slot}

theorem Consistent.commit (h : Consistent crc m d) (ho : Open crc m d buf taken ∅)
    (hc : Committed m m' d d' buf) :
    Consistent crc m' d' ∧ ∀ s, m'.used (d'.img.block m'.fs.sb.blockSize) s =
      m.used (buf.view d.img m.fs.sb.blockSize) s := by
  obtain ⟨hcoherent, hused⟩ := h.coherent.commit ho (fun b _ hb => hb) hc
  obtain ⟨fs', csum', cleared', journal', direct'⟩ := m'
  obtain rfl : fs' = m.fs := hc.fs
  refine ⟨⟨hcoherent, h.blockSize, h.addressable, h.origin, h.inodeSize, h.descriptors,
    h.inodeTables, ?_⟩, hused⟩
  intro jw hjw b hb
  obtain ⟨jw₀, hj, hmap, -⟩ := hc.journal jw hjw
  rw [hmap] at hb
  obtain ⟨hmeta, hbit⟩ := h.journal jw₀ hj b hb
  exact ⟨hmeta, (hused _).trans (ho.kept _ hbit (fun hin => hin))⟩

end Commits

section Blocks

variable {crc : Crc} {m m' : Mount} {d d' : Disk} {v v' : Nat → Bytes} {ino : UInt32}
  {inode : Inode} {raw : Bytes}
  {nodes : List Nat} {map : Nat → Option Nat} {blocks : List Bytes} {block : Bytes}

/-- A directory that holds these blocks in order, each in a block of its own that is in use and that
the mapping is not kept in. -/
structure HoldsBlocks (crc : Crc) (m : Mount) (v : Nat → Bytes) (ino : UInt32) (inode : Inode)
    (nodes : List Nat) (map : Nat → Option Nat) (blocks : List Bytes) : Prop where
  directory : Directory crc m v ino inode nodes map
  count : divCeil inode.size m.fs.sb.blockSize = blocks.length
  held : ∀ i phys, map i = some phys → m.Content phys ∧ m.used v (m.blockSlot phys) = true ∧
    phys ∉ nodes ∧
    blocks[i]? = some (v phys)
  apart : ∀ i j phys, map i = some phys → map j = some phys → i = j
  lands : ∀ b, b ∈ nodes ∨ (∃ i, map i = some b) → m.Lands b

theorem HoldsBlocks.congr (h : HoldsBlocks crc m v ino inode nodes map blocks)
    (hv : ∀ b, m.Lands b → v' b = v b) (hused : ∀ s, m.used v' s = m.used v s) :
    HoldsBlocks crc m v' ino inode nodes map blocks where
  directory := by
    have hdir := h.directory
    refine ⟨hdir.isDir, hdir.inline, hdir.mapped.congr (fun b hb => hv b (h.lands b (Or.inl hb))),
      hdir.dense, ?_⟩
    intro b hb
    rw [hused]
    exact hdir.content b hb
  count := h.count
  held := by
    intro i phys hi
    rw [hused, hv phys (h.lands phys (Or.inr ⟨i, hi⟩))]
    exact h.held i phys hi
  apart := h.apart
  lands := h.lands

theorem HoldsBlocks.of_committed {buf : BlockBuffer} (hc : Committed m m' d d' buf)
    (h : HoldsBlocks crc m v ino inode nodes map blocks) : HoldsBlocks crc m' v ino inode nodes map
      blocks := by
  obtain ⟨fs', csum', cleared', journal', direct'⟩ := m'
  obtain rfl : fs' = m.fs := hc.fs
  obtain rfl : csum' = m.csum := hc.csum
  have hdir := h.directory
  have hcontent : ∀ {b}, m.Content b → Content ⟨m.fs, m.csum, cleared', journal', direct'⟩ b :=
    fun hb => ⟨hb.first, hb.inVolume, hb.content⟩
  refine ⟨⟨hdir.isDir, hdir.inline, ?_, hdir.dense, ?_⟩, h.count, ?_, h.apart, ?_⟩
  · cases hdir.mapped with
    | tree t ht => exact .tree t ⟨ht.extents, ht.wellFormed, ht.initialized, ht.room, ht.checked⟩
    | table hextents hdouble htriple => exact .table hextents hdouble htriple
  · intro b hb
    obtain ⟨hc, hu⟩ := hdir.content b hb
    exact ⟨hcontent hc, hu⟩
  · intro i phys hi
    obtain ⟨hc, hu⟩ := h.held i phys hi
    exact ⟨hcontent hc, hu⟩
  · intro b hb jw hjw
    obtain ⟨jw₀, hj, hmap, -⟩ := hc.journal jw hjw
    rw [hmap]
    exact h.lands b hb jw₀ hj

theorem HoldsBlocks.size_le (h : HoldsBlocks crc m v ino inode nodes map blocks) :
    blocks.length ≤ m.fs.sb.blocksCount ∧ inode.size ≤ m.fs.sb.blocksCount * m.fs.sb.blockSize := by
  have hmapped : ∀ i, i < blocks.length → ∃ phys, map i = some phys := by
    intro i hi
    rw [← h.count] at hi
    exact Option.isSome_iff_exists.mp ((h.directory.dense i).mpr hi)
  have hcard : blocks.length ≤ m.fs.sb.blocksCount := by
    have hle := Finset.card_le_card_of_injOn (s := Finset.range blocks.length)
      (t := Finset.range m.fs.sb.blocksCount) (fun i => (map i).getD 0) (by
        intro i hi
        obtain ⟨phys, hphys⟩ := hmapped i (by simpa using hi)
        simpa [hphys] using (h.held i phys hphys).1.inVolume) (by
        intro i hi j hj heq
        obtain ⟨p, hp⟩ := hmapped i (by simpa using hi)
        obtain ⟨q, hq⟩ := hmapped j (by simpa using hj)
        simp only [hp, hq, Option.getD_some] at heq
        subst heq
        exact h.apart i j p hp hq)
    simpa using hle
  refine ⟨hcard, ?_⟩
  have hbs := blockSize_ge m.fs.sb
  have hcount := h.count
  unfold divCeil at hcount
  have hlt := Nat.lt_mul_div_succ (inode.size + m.fs.sb.blockSize - 1)
    (show 0 < m.fs.sb.blockSize by omega)
  rw [hcount, Nat.mul_add, Nat.mul_comm] at hlt
  have hmul := Nat.mul_le_mul_right m.fs.sb.blockSize hcard
  omega

theorem HoldsBlocks.step {buf buf' : BlockBuffer} {taken : Set Slot} {newBlock : Bytes} {phys : Nat}
    {more nodes' : List Nat} (hd : HoldsBlocks crc m (buf.view d.img m.fs.sb.blockSize) ino inode
      nodes map blocks)
    (hg : Growing crc m d taken ∅ buf ino inode raw nodes map block)
    (hgrown : Grown crc m d taken ∅ buf ino inode nodes map block buf' newBlock phys more nodes') :
    HoldsBlocks crc m (buf'.view d.img m.fs.sb.blockSize) ino
      (grownInode inode m.fs.sb.blockSize newBlock (1 + more.length)) nodes'
      (Function.update map (divCeil inode.size m.fs.sb.blockSize) (some phys))
        (blocks ++ [block]) := by
  have h := hg.consistent
  have hfree := hgrown.free
  have hold : ∀ i p, map i = some p → p ∉ phys :: more := by
    intro i p hi hin
    have hu := (hd.held i p hi).2.1
    rw [hfree p hin] at hu
    cases hu
  have hphys : phys ∉ nodes' := by
    intro hin
    obtain hin | hin := List.mem_append.mp (hgrown.perm.mem_iff.mp hin)
    · have hu := (hg.directory.content phys hin).2
      rw [hgrown.free phys List.mem_cons_self] at hu
      cases hu
    · exact (List.nodup_cons.mp hgrown.distinct).1 hin
  have hcases : ∀ i p, Function.update map (divCeil inode.size m.fs.sb.blockSize)
    (some phys) i = some p →
      (i = blocks.length ∧ p = phys) ∨ (i ≠ blocks.length ∧ map i = some p) := by
    intro i p hi
    rw [hd.count] at hi
    by_cases heq : i = blocks.length
    · subst heq
      rw [Function.update_self] at hi
      exact Or.inl ⟨rfl, (Option.some.inj hi).symm⟩
    · rw [Function.update_of_ne heq] at hi
      exact Or.inr ⟨heq, hi⟩
  have hnew : ∀ b ∈ phys :: more, m.Lands b := by
    intro b hb
    apply h.lands hg.groups (hgrown.content b hb).first (hgrown.content b hb).content
    rw [Bool.eq_false_iff]
    intro hu
    have hbuffered := hg.isOpen.kept _ hu (fun hin => hin)
    rw [hfree b hb] at hbuffered
    cases hbuffered
  refine ⟨hgrown.directory hg, ?_, ?_, ?_, ?_⟩
  · change divCeil (inode.size + m.fs.sb.blockSize) m.fs.sb.blockSize = _
    rw [divCeil_add_self _ (Nat.lt_of_lt_of_le (by decide) (blockSize_ge m.fs.sb)), hd.count,
      List.length_append, List.length_singleton]
  · intro i p hi
    obtain ⟨rfl, rfl⟩ | ⟨hne, hi⟩ := hcases i p hi
    · refine ⟨hgrown.content p List.mem_cons_self, (hgrown.used _).mpr
        (Or.inr ⟨p, List.mem_cons_self, rfl⟩), hphys, ?_⟩
      rw [hgrown.data, List.getElem?_append_right (Nat.le_refl _), Nat.sub_self]
      rfl
    · obtain ⟨hc, hu, hnot, hget⟩ := hd.held i p hi
      refine ⟨hc, (hgrown.used _).mpr (Or.inl hu), ?_, ?_⟩
      · intro hin
        obtain hin | hin := List.mem_append.mp (hgrown.perm.mem_iff.mp hin)
        · exact hnot hin
        · exact hold i p hi (List.mem_cons_of_mem _ hin)
      · rw [hgrown.kept p hc hu hnot, List.getElem?_append_left
          (List.getElem?_eq_some_iff.mp hget).1]
        exact hget
  · intro i j p hi hj
    obtain ⟨hlast, hp⟩ | ⟨-, hi'⟩ := hcases i p hi
    · obtain ⟨hlast', -⟩ | ⟨-, hj'⟩ := hcases j p hj
      · exact hlast.trans hlast'.symm
      · exact absurd (List.mem_cons.mpr (Or.inl hp)) (hold j p hj')
    · obtain ⟨-, hp⟩ | ⟨-, hj'⟩ := hcases j p hj
      · exact absurd (List.mem_cons.mpr (Or.inl hp)) (hold i p hi')
      · exact hd.apart i j p hi' hj'
  · rintro b (hb | ⟨i, hi⟩)
    · obtain hb | hb := List.mem_append.mp (hgrown.perm.mem_iff.mp hb)
      · exact hd.lands b (Or.inl hb)
      · exact hnew b (List.mem_cons_of_mem _ hb)
    · obtain ⟨-, rfl⟩ | ⟨-, hi⟩ := hcases i b hi
      · exact hnew b List.mem_cons_self
      · exact hd.lands b (Or.inr ⟨i, hi⟩)

end Blocks

section Runs

variable {crc : Crc} {fuel : Nat} {ino : UInt32} {m m' : Mount} {d d' : Disk} {inode : Inode}
  {raw : Bytes} {nodes : List Nat} {map : Nat → Option Nat} {blocks more : List Bytes}

/-- Transactions that each give the directory one block: those that were committed gave it these
blocks, in this order; in between others may have failed, so long as the mount goes on. -/
inductive Appends (crc : Crc) (fuel : Nat) (ino : UInt32) : Mount → Disk → List Bytes → Mount →
    Disk → Prop where
  | done (m : Mount) (d : Disk) : Appends crc fuel ino m d [] m d
  | stored {m m₁ m' : Mount} {d d₁ d' : Disk} {buf : BlockBuffer} {block : Bytes}
      {more : List Bytes}
      (happend : m.bufferAppendDirBlock crc d fuel BlockBuffer.new ino block = some (.ok buf))
      (hcommit : (m.commitBlockBuffer crc buf).exec d = (.ok (.ok (), m₁), d₁))
      (hrest : Appends crc fuel ino m₁ d₁ more m' d') : Appends crc fuel ino m d
        (block :: more) m' d'
  | failed {m m₁ m' : Mount} {d d₁ d' : Disk} {buf : BlockBuffer} {block : Bytes}
      {more : List Bytes} {e : Error}
      (happend : m.bufferAppendDirBlock crc d fuel BlockBuffer.new ino block = some (.ok buf))
      (hcommit : (m.commitBlockBuffer crc buf).exec d = (.ok (.error e, m₁), d₁))
        (hlive : ¬ m₁.Halted)
      (hrest : Appends crc fuel ino m₁ d₁ more m' d') : Appends crc fuel ino m d more m' d'

/-- The run in which every transaction is committed, when they all can be. -/
def appendDirBlocks (crc : Crc) (fuel : Nat) (ino : UInt32) : Mount → Disk → List Bytes →
    Option (Mount × Disk)
  | m, d, [] => some (m, d)
  | m, d, block :: more =>
    match m.bufferAppendDirBlock crc d fuel BlockBuffer.new ino block with
    | some (.ok buf) =>
      match (m.commitBlockBuffer crc buf).exec d with
      | (.ok (.ok (), m₁), d₁) => appendDirBlocks crc fuel ino m₁ d₁ more
      | _ => none
    | _ => none

theorem appendDirBlocks_appends (h : appendDirBlocks crc fuel ino m d more = some (m', d')) :
    Appends crc fuel ino m d more m' d' := by
  induction more generalizing m d with
  | nil =>
    obtain ⟨rfl, rfl⟩ := Prod.mk.inj (Option.some.inj h)
    exact .done m d
  | cons block more ih =>
    unfold appendDirBlocks at h
    split at h
    · rename_i buf happend
      split at h
      · rename_i m₁ d₁ hcommit
        exact .stored happend hcommit (ih h)
      · cases h
    · cases h

theorem MappedBy.lt_addressable {v : Nat → Bytes} (h : MappedBy crc m v ino inode nodes map)
    {logical : Nat}
    (hsome : (map logical).isSome = true) (hextents : inode.flags &&& inodeFlagExtents = 0) :
    logical < Indirect.addressable m.fs.sb.blockSize := by
  cases h with
  | tree t ht => exact absurd hextents ht.extents
  | table =>
    unfold Indirect.addressable
    by_contra hge
    have hnone : tableMap m.fs.sb.blockSize v inode.block logical = none := by
      unfold tableMap
      rw [if_neg (by omega), if_neg (by omega)]
    rw [hnone] at hsome
    cases hsome

theorem HoldsBlocks.finds (h : Consistent crc m d)
    (hdev : m.fs.sb.blocksCount * m.fs.sb.blockSize ≤ d.size)
    (h64 : d.size < 2 ^ 64) (hd : HoldsBlocks crc m (d.img.block m.fs.sb.blockSize) ino inode
      nodes map blocks)
    {i phys : Nat} (hi : map i = some phys) :
    m.mapInodeLogical d inode i = .ok (some phys) ∧
      m.fs.reader d phys = .ok (d.img.block m.fs.sb.blockSize phys) := by
  have hsome : (map i).isSome = true := Option.isSome_iff_exists.mpr ⟨phys, hi⟩
  refine ⟨?_, ?_⟩
  · rw [← hi]
    apply hd.directory.mapped.reads hd.directory.inline (indirectBlockSize h) h64
    · intro b hb
      exact ⟨Nat.le_trans (Nat.mul_le_mul_right _ (hd.directory.content b hb).1.inVolume) hdev, rfl⟩
    · exact hd.directory.mapped.lt_addressable hsome
  · exact Filesystem.reader_of_fits m.fs d phys
      (Nat.le_trans (Nat.mul_le_mul_right _ (hd.held i phys hi).1.inVolume) hdev) h64

theorem HoldsBlocks.placed {v : Nat → Bytes} (hd : HoldsBlocks crc m v ino inode nodes map blocks)
    {i : Nat}
    (hi : i < blocks.length) : ∃ phys, map i = some phys ∧ blocks[i]? = some (v phys) := by
  rw [← hd.count] at hi
  obtain ⟨phys, hphys⟩ := Option.isSome_iff_exists.mp ((hd.directory.dense i).mpr hi)
  exact ⟨phys, hphys, (hd.held i phys hphys).2.2.2⟩

theorem HoldsBlocks.reads (h : Consistent crc m d)
    (hdev : m.fs.sb.blocksCount * m.fs.sb.blockSize ≤ d.size)
    (h64 : d.size < 2 ^ 64) (hd : HoldsBlocks crc m (d.img.block m.fs.sb.blockSize) ino inode
      nodes map blocks)
    {i : Nat} {block : Bytes} (hi : blocks[i]? = some block) :
    ∃ phys, m.mapInodeLogical d inode i = .ok (some phys) ∧ m.fs.reader d phys = .ok block := by
  obtain ⟨phys, hphys, hget⟩ := hd.placed (List.getElem?_eq_some_iff.mp hi).1
  rw [Option.some.inj (hi.symm.trans hget)]
  exact ⟨phys, hd.finds h hdev h64 hphys⟩

theorem HoldsBlocks.landed {buf : BlockBuffer} {taken : Set Slot} (h : Consistent crc m d)
    (ho : Open crc m d buf taken ∅) (hdev : m.fs.sb.blocksCount * m.fs.sb.blockSize ≤
      min d.size m.fs.sizeBytes)
    (h64 : d.size < 2 ^ 64) (hread : ∃ old, m.readInodeVerified crc d ino = .ok old)
    (hfound : m.bufferedInodeVerified crc d buf ino = .ok (inode, raw))
    (hd : HoldsBlocks crc m (buf.view d.img m.fs.sb.blockSize) ino inode nodes map blocks)
    (hcommit : (m.commitBlockBuffer crc buf).exec d = (.ok (.ok (), m'), d')) :
    Committed m m' d d' buf ∧ Consistent crc m' d' ∧
      (∀ s, m'.used (d'.img.block m.fs.sb.blockSize) s = m.used
        (buf.view d.img m.fs.sb.blockSize) s) ∧
      m'.readInodeVerified crc d' ino = .ok (inode, raw) ∧
      HoldsBlocks crc m' (d'.img.block m.fs.sb.blockSize) ino inode nodes map blocks := by
  obtain ⟨⟨inode₀, raw₀⟩, hread⟩ := hread
  have hc := ho.committed h.coherent hcommit
  obtain ⟨hconsistent, hused⟩ := h.commit ho hc
  rw [hc.fs] at hused
  have hused' : ∀ s, m.used (d'.img.block m.fs.sb.blockSize) s = m.used
      (buf.view d.img m.fs.sb.blockSize) s := by
    obtain ⟨fs', csum', cleared', journal', direct'⟩ := m'
    obtain rfl : fs' = m.fs := hc.fs
    exact hused
  have hholds := hd.congr hc.block hused'
  obtain ⟨blk, off, hat⟩ := bufferedInodeVerified_ok hfound
  refine ⟨hc, hconsistent, hused, ?_, hholds.of_committed hc⟩
  have hblock := hc.block blk (h.inode_isMetadata hat.located).2.2
  obtain ⟨haddress, hfits⟩ := readInodeVerified_fits hread hat.located
  have hat' := (⟨hat.located, by rw [hblock]; exact hat.fits, by rw [hblock]; exact hat.stored,
    hat.parsed, hat.checked⟩ : InodeAt crc m (d'.img.block m.fs.sb.blockSize) ino blk off _ raw)
  rw [readInodeVerified_congr hc.fs hc.csum]
  refine readInodeVerified_of_at hat' haddress (by rw [hc.size]; exact hfits) (fun _ =>
    ⟨min (m.fs.sb.blocksCount * m.fs.sb.blockSize) m.fs.sizeBytes, ?_, ?_⟩)
  · unfold byteCeiling
    exact if_neg (by omega)
  · have hsize := hholds.size_le.2
    omega

theorem HoldsBlocks.growing {buf : BlockBuffer} {taken freed : Set Slot} {block : Bytes}
    (h : Consistent crc m d)
    (ho : Open crc m d buf taken freed) (hmeta : m.MetadataUsed (buf.view d.img m.fs.sb.blockSize))
    (hfound : m.bufferedInodeVerified crc d buf ino = .ok (inode, raw))
    (hd : HoldsBlocks crc m (buf.view d.img m.fs.sb.blockSize) ino inode nodes map blocks)
    (hblock : block.length = m.fs.sb.blockSize) (hcount : blocks.length < 2 ^ 32) :
    Growing crc m d taken freed buf ino inode raw nodes map block :=
  ⟨h, ho, hmeta, bufferedInodeVerified_ok hfound, hd.directory, by rw [hd.count]; exact hcount,
    hblock⟩

theorem HoldsBlocks.committed (h : Consistent crc m d)
    (hdev : m.fs.sb.blocksCount * m.fs.sb.blockSize ≤ min d.size m.fs.sizeBytes)
      (h64 : d.size < 2 ^ 64)
    (hread : m.readInodeVerified crc d ino = .ok (inode, raw))
    (hd : HoldsBlocks crc m (d.img.block m.fs.sb.blockSize) ino inode nodes map blocks)
      {block : Bytes}
    (hblock : block.length = m.fs.sb.blockSize) (hcount : blocks.length < 2 ^ 32)
      (hfuel : extMaxDepth < fuel)
    {buf : BlockBuffer} (happend : m.bufferAppendDirBlock crc d fuel BlockBuffer.new ino block =
      some (.ok buf))
    (hcommit : (m.commitBlockBuffer crc buf).exec d = (.ok (.ok (), m'), d')) :
    Committed m m' d d' buf ∧ Consistent crc m' d' ∧ ∃ inode' raw' newNodes map',
      m'.readInodeVerified crc d' ino = .ok (inode', raw') ∧ inode'.size =
        inode.size + m.fs.sb.blockSize ∧
      HoldsBlocks crc m' (d'.img.block m.fs.sb.blockSize) ino inode' newNodes map'
        (blocks ++ [block]) ∧
      ∀ b, m.Content b → m.Lands b → m.used (d.img.block m.fs.sb.blockSize) (m.blockSlot b) =
        true → b ∉ nodes →
        d'.img.block m.fs.sb.blockSize b = d.img.block m.fs.sb.blockSize b ∧
        m'.used (d'.img.block m.fs.sb.blockSize) (m.blockSlot b) = true ∧ b ∉ newNodes := by
  have hbuffered : m.bufferedInodeVerified crc d BlockBuffer.new ino = .ok (inode, raw) := by
    obtain ⟨blk, off, hat⟩ := readInodeVerified_ok hread
    unfold bufferedInodeVerified
    rw [hat.located]
    exact hread
  have hview := BlockBuffer.view_new d.img m.fs.sb.blockSize
  have hstart : HoldsBlocks crc m (BlockBuffer.new.view d.img m.fs.sb.blockSize) ino inode nodes map
      blocks := by
    rw [hview]
    exact hd
  have hg := hstart.growing h (h.coherent.isOpen .new) (by rw [hview]; exact h.coherent.metadata)
    hbuffered hblock hcount
  have hdisk : ∀ b ∈ nodes, m.fs.reader d b =
      .ok (BlockBuffer.new.view d.img m.fs.sb.blockSize b) := by
    intro b hb
    rw [hview]
    exact Filesystem.reader_of_fits m.fs d b (Nat.le_trans (Nat.mul_le_mul_right _
      (hd.directory.content b hb).1.inVolume) (Nat.le_trans hdev (Nat.min_le_left _ _))) h64
  obtain ⟨result, hresult, hok⟩ := bufferAppendDirBlock_ok hg hbuffered hdisk hfuel
  rw [happend] at hresult
  obtain ⟨newBlock, phys, more, nodes', hgrown⟩ := hok buf (Option.some.inj hresult).symm
  obtain ⟨raw', hfound⟩ := hgrown.found
  obtain ⟨hc, hconsistent, hused, hread', hholds⟩ := (hstart.step hg hgrown).landed h
    hgrown.isOpen hdev h64 ⟨_, hread⟩ hfound hcommit
  refine ⟨hc, hconsistent, _, raw', nodes', _, hread', rfl, hholds, ?_⟩
  · intro b hcontent hlands hbit hnot
    refine ⟨?_, ?_, ?_⟩
    · rw [hc.block b hlands]
      exact hgrown.kept b hcontent hbit hnot
    · rw [hused (m.blockSlot b)]
      exact (hgrown.used _).mpr (Or.inl hbit)
    · intro hin
      obtain hin | hin := List.mem_append.mp (hgrown.perm.mem_iff.mp hin)
      · exact hnot hin
      · have hfree := hgrown.free b (List.mem_cons_of_mem _ hin)
        rw [BlockBuffer.view_new, hbit] at hfree
        cases hfree

theorem Appends.keeps (hrun : Appends crc fuel ino m d more m' d') (h : Consistent crc m d)
    (hdev : m.fs.sb.blocksCount * m.fs.sb.blockSize ≤ min d.size m.fs.sizeBytes)
      (h64 : d.size < 2 ^ 64)
    (hread : m.readInodeVerified crc d ino = .ok (inode, raw))
    (hd : HoldsBlocks crc m (d.img.block m.fs.sb.blockSize) ino inode nodes map blocks)
    (hblocks : ∀ b ∈ more, b.length = m.fs.sb.blockSize)
      (hcount : blocks.length + more.length ≤ 2 ^ 32)
    (hfuel : extMaxDepth < fuel) :
    m'.fs = m.fs ∧ d'.size = d.size ∧ Consistent crc m' d' ∧ ∃ inode' raw' nodes' map',
      m'.readInodeVerified crc d' ino = .ok (inode', raw') ∧
      inode'.size = inode.size + more.length * m.fs.sb.blockSize ∧
      HoldsBlocks crc m' (d'.img.block m.fs.sb.blockSize) ino inode' nodes' map' (blocks ++ more) ∧
      ∀ b, m.Content b → m.Lands b → m.used (d.img.block m.fs.sb.blockSize) (m.blockSlot b) =
        true → b ∉ nodes →
        d'.img.block m.fs.sb.blockSize b = d.img.block m.fs.sb.blockSize b := by
  induction hrun generalizing inode raw nodes map blocks with
  | done m d =>
    refine ⟨rfl, rfl, h, inode, raw, nodes, map, hread, ?_, ?_, fun b _ _ _ _ => rfl⟩
    · rw [List.length_nil, Nat.zero_mul, Nat.add_zero]
    · rw [List.append_nil]
      exact hd
  | @failed m m₁ m' d d₁ d' buf block more e happend hcommit hlive hrest ih =>
    obtain hhalt | ⟨hm, hdisk⟩ := commitBlockBuffer_error hcommit
    · exact absurd hhalt hlive
    · rw [hm, hdisk] at ih
      exact ih h hdev h64 hread hd hblocks hcount
  | @stored m m₁ m' d d₁ d' buf block more happend hcommit hrest ih =>
    obtain ⟨hc, hconsistent, inode₁, raw₁, nodes₁, map₁, hread₁, hsize₁, hd₁, hkept⟩ :=
      HoldsBlocks.committed h hdev h64 hread hd (hblocks block List.mem_cons_self)
        (by rw [List.length_cons] at hcount; omega) hfuel happend hcommit
    have hlands : ∀ b, m.Lands b → m₁.Lands b := by
      intro b hb jw hjw
      obtain ⟨jw₀, hj, hmap, -⟩ := hc.journal jw hjw
      rw [hmap, hc.fs]
      exact hb jw₀ hj
    have hsame := hc.size
    obtain ⟨fs', csum', cleared', journal', direct'⟩ := m₁
    obtain rfl : fs' = m.fs := hc.fs
    obtain ⟨hfs, hsize, hconsistent', inode', raw', nodes', map', hread', hsize', hd', hkept'⟩ :=
      ih hconsistent (by rw [hsame]; exact hdev) (by rw [hsame]; exact h64) hread₁ hd₁
        (fun b hb => hblocks b (List.mem_cons_of_mem _ hb)) (by
          rw [List.length_append, List.length_singleton]
          rw [List.length_cons] at hcount
          omega)
    refine ⟨hfs, hsize.trans hsame, hconsistent', inode', raw', nodes', map', hread', ?_, ?_, ?_⟩
    · rw [hsize', hsize₁, List.length_cons, Nat.succ_mul]
      change inode.size + m.fs.sb.blockSize + more.length * m.fs.sb.blockSize = _
      omega
    · rw [List.append_assoc] at hd'
      exact hd'
    · intro b hcontent hb hbit hnot
      obtain ⟨hstays, hbit', hnot'⟩ := hkept b hcontent hb hbit hnot
      exact (hkept' b ⟨hcontent.first, hcontent.inVolume, hcontent.content⟩ (hlands b hb) hbit'
        hnot').trans hstays

/-- A directory that was given blocks, one transaction after another, has them behind those it had:
each is where the mapping says and reads as it was given, and what else was in use is unchanged. -/
theorem appended_blocks_are_held (h : Consistent crc m d)
    (hdev : m.fs.sb.blocksCount * m.fs.sb.blockSize ≤ min d.size m.fs.sizeBytes)
      (h64 : d.size < 2 ^ 64)
    (hread : m.readInodeVerified crc d ino = .ok (inode, raw))
    (hd : HoldsBlocks crc m (d.img.block m.fs.sb.blockSize) ino inode nodes map blocks)
    (hblocks : ∀ b ∈ more, b.length = m.fs.sb.blockSize)
      (hcount : blocks.length + more.length ≤ 2 ^ 32)
    (hfuel : extMaxDepth < fuel) (hrun : Appends crc fuel ino m d more m' d') :
    Consistent crc m' d' ∧ ∃ inode' raw' nodes' map', m'.readInodeVerified crc d' ino =
      .ok (inode', raw') ∧
      inode'.size = inode.size + more.length * m.fs.sb.blockSize ∧
      HoldsBlocks crc m' (d'.img.block m.fs.sb.blockSize) ino inode' nodes' map' (blocks ++ more) ∧
      (∀ i block, (blocks ++ more)[i]? = some block →
        ∃ phys, m'.mapInodeLogical d' inode' i = .ok (some phys) ∧ m'.fs.reader d' phys =
          .ok block) ∧
      ∀ b, m.Content b → m.Lands b → m.used (d.img.block m.fs.sb.blockSize) (m.blockSlot b) =
        true → b ∉ nodes →
        d'.img.block m.fs.sb.blockSize b = d.img.block m.fs.sb.blockSize b := by
  obtain ⟨hfs, hsize, hconsistent, inode', raw', nodes', map', hread', hsize', hd', hkept⟩ :=
    hrun.keeps h hdev h64 hread hd hblocks hcount hfuel
  refine ⟨hconsistent, inode', raw', nodes', map', hread', hsize', hd', ?_, hkept⟩
  intro i block hi
  rw [← hfs] at hd'
  refine hd'.reads hconsistent ?_ (by rw [hsize]; exact h64) hi
  rw [hfs, hsize]
  exact Nat.le_trans hdev (Nat.min_le_left _ _)

end Runs

/-- One group of 63 blocks of 1 KiB; blocks 1 to 8 are the tables', blocks 9 to 19 the
directory's. -/
def pointerVolume : Mount where
  fs := {
    sb := inlineSb
    groups := [⟨3, 4, 5, 44, 4, 3, 0⟩]
    sizeBytes := 64 * 1024
    isWritable := true }
  csum := ⟨0, false⟩
  cleared := SortedMap.empty
  journal := none
  directCommitFailed := false

def pointerDir : Bytes :=
  copyAll (List.replicate 256 0) [(0, u16le 0x41ED), (4, u32le (11 * 1024)), (0x1A, u16le 2),
    (0x1C, u32le 22),
    (0x28, ((List.range 11).map (fun i => u32le (UInt32.ofNat (9 + i)))).flatten), (0x80, u16le 32)]

def pointerDisk : Disk where
  img := Image.writeAll (fun _ => 0) [(2 * 1024, pointerVolume.fs.groups.flatMap rawDescriptor),
    (3 * 1024, [0xFF, 0xFF, 0x07]), (4 * 1024, [0xFF, 0x0F]), (7 * 1024 + 768, pointerDir),
    (9 * 1024, u32le 12)]
  size := 64 * 1024

example : pointerDisk.img.read (7 * 1024 + 768) 256 = pointerDir := by decide +kernel

theorem pointer_isMetadata_lt {b : Nat} (h : pointerVolume.IsMetadata b) : b < 9 :=
  isMetadata_lt (by decide) h

theorem pointer_mounted : Mounted linuxCrc32c pointerVolume pointerDisk where
  parsed := ⟨⟨0, 0, by decide⟩, by decide, by decide⟩
  clusters := by decide
  groups := by
    have hends : Result.Ends (fun groups => groups = pointerVolume.fs.groups)
        ((readAll linuxCrc32c inlineSb ⟨0, false⟩ (64 * 1024)).exec pointerDisk).1 := by
      decide +kernel
    obtain ⟨groups, hg, rfl⟩ := hends.exists_ok
    exact readAll_eq_of_fst hg
  cleared := rfl
  separate := separate_of_forall (by decide) (by decide) (by decide)
  offJournal := fun jw hjw => by cases hjw
  initialised := by
    intro b hb hbit hu
    have hall : ∀ b ∈ List.range 9, b = 0 ∨
        pointerVolume.used (pointerDisk.img.block 1024) (pointerVolume.blockSlot b) = true := by
      decide +kernel
    have hfirst : 1 ≤ b := hb.1
    exact (hall b (List.mem_range.mpr (pointer_isMetadata_lt hb))).resolve_left (by omega)
  uninitialised := by
    intro b hb hbit hu
    have hall : ∀ b ∈ List.range 9,
        pointerVolume.uninitIn (pointerDisk.img.block 1024) .block
          (pointerVolume.blockSlot b).group = false := by
      decide +kernel
    rw [show pointerVolume.fs.sb.blockSize = 1024 from rfl,
      hall b (List.mem_range.mpr (pointer_isMetadata_lt hb))] at hu
    cases hu

theorem pointer_consistent : Consistent linuxCrc32c pointerVolume pointerDisk where
  coherent := pointer_mounted.coherent.1
  blockSize := by decide
  addressable := by decide
  origin := by decide
  inodeSize := by decide
  descriptors := by
    have hall : ∀ g < 1, pointerVolume.IsMetadata (pointerVolume.descAt g).1 := by decide
    exact hall
  inodeTables := offTables_of_le 5 (by decide)
  journal := fun jw hjw => by cases hjw

theorem pointer_inode : pointerVolume.readInodeVerified linuxCrc32c pointerDisk 12 =
    .ok (Inode.fields pointerDir, pointerDir) := by
  have hends : Result.Ends (fun r => r = (Inode.fields pointerDir, pointerDir))
      (pointerVolume.readInodeVerified linuxCrc32c pointerDisk 12) := by
    decide +kernel
  obtain ⟨r, hr, rfl⟩ := hends.exists_ok
  exact hr

theorem pointer_map (v : Nat → Bytes) (i : Nat) :
    tableMap 1024 v (Inode.fields pointerDir).block i = if i < 11 then some (9 + i) else none := by
  have hslots : ∀ i < 12, Indirect.present (Indirect.ptrAt (Inode.fields pointerDir).block i) =
      if i < 11 then some (9 + i) else none := by
    decide +kernel
  have hsingle : Indirect.ptrAt (Inode.fields pointerDir).block 12 = 0 := by decide +kernel
  unfold tableMap
  by_cases hi : i < Indirect.directCount
  · rw [if_pos hi]
    exact hslots i hi
  · have hge : ¬ i < 11 := fun hlt => hi (Nat.lt_succ_of_lt hlt)
    rw [if_neg hi, hsingle, if_pos rfl, ite_self, if_neg hge]

def pointerBlocks : List Bytes := (List.range 11).map (fun i => pointerDisk.img.block 1024 (9 + i))

example : pointerBlocks[0]? = some (u32le 12 ++ List.replicate 1020 0) := by decide +kernel

theorem pointer_holds : HoldsBlocks linuxCrc32c pointerVolume (pointerDisk.img.block 1024) 12
    (Inode.fields pointerDir) (tableNodes (Inode.fields pointerDir).block)
    (tableMap 1024 (pointerDisk.img.block 1024) (Inode.fields pointerDir).block) pointerBlocks := by
  have hnodes : tableNodes (Inode.fields pointerDir).block = [] := by decide +kernel
  have hsize : divCeil (Inode.fields pointerDir).size 1024 = 11 := by decide +kernel
  have hmapped : ∀ {i phys}, tableMap 1024 (pointerDisk.img.block 1024)
    (Inode.fields pointerDir).block i = some phys →
      i < 11 ∧ phys = 9 + i := by
    intro i phys hi
    rw [pointer_map] at hi
    split at hi
    · rename_i hlt
      exact ⟨hlt, (Option.some.inj hi).symm⟩
    · cases hi
  refine ⟨⟨by decide +kernel, by decide +kernel, ?_, ?_, ?_⟩, ?_, ?_, ?_,
    fun b _ jw hjw => by cases hjw⟩
  · exact .table (by decide +kernel) (by decide +kernel) (by decide +kernel)
  · intro i
    rw [show pointerVolume.fs.sb.blockSize = 1024 from rfl, hsize, pointer_map]
    by_cases hi : i < 11
    · simp [hi]
    · simp [hi]
  · rw [hnodes]
    exact fun b hb => absurd hb List.not_mem_nil
  · rw [show pointerVolume.fs.sb.blockSize = 1024 from rfl, hsize, pointerBlocks, List.length_map,
      List.length_range]
  · intro i phys hi
    obtain ⟨hlt, rfl⟩ := hmapped hi
    have hused : ∀ i < 11,
        pointerVolume.used (pointerDisk.img.block 1024) (pointerVolume.blockSlot (9 + i)) =
          true := by
      decide +kernel
    refine ⟨⟨show 1 ≤ 9 + i by omega, show 9 + i < 64 by omega, fun hm => ?_⟩, hused i hlt, ?_, ?_⟩
    · have hlow := pointer_isMetadata_lt hm
      omega
    · rw [hnodes]
      exact List.not_mem_nil
    · rw [pointerBlocks, List.getElem?_map, List.getElem?_range hlt]
      rfl
  · intro i j phys hi hj
    obtain ⟨-, rfl⟩ := hmapped hi
    obtain ⟨-, hp⟩ := hmapped hj
    omega

def pointerAppended : List Bytes := [List.replicate 1024 1, List.replicate 1024 2]

theorem pointer_appends :
    ∃ m' d', Appends linuxCrc32c 6 12 pointerVolume pointerDisk pointerAppended m' d' := by
  have hsome : (appendDirBlocks linuxCrc32c 6 12 pointerVolume pointerDisk pointerAppended).isSome =
      true := by
    decide +kernel
  obtain ⟨⟨m', d'⟩, hrun⟩ := Option.isSome_iff_exists.mp hsome
  exact ⟨m', d', appendDirBlocks_appends hrun⟩

/-- The last direct pointer is used, and then the first slot of a new single-indirect block. -/
theorem pointer_directory_holds_appended :
    ∃ m' d', Appends linuxCrc32c 6 12 pointerVolume pointerDisk pointerAppended m' d' ∧
      Consistent linuxCrc32c m' d' ∧ ∃ inode' raw' nodes' map',
      m'.readInodeVerified linuxCrc32c d' 12 = .ok (inode', raw') ∧
      inode'.size = (Inode.fields
        pointerDir).size + pointerAppended.length * pointerVolume.fs.sb.blockSize ∧
      HoldsBlocks linuxCrc32c m' (d'.img.block pointerVolume.fs.sb.blockSize) 12 inode' nodes' map'
        (pointerBlocks ++ pointerAppended) ∧
      (∀ i block, (pointerBlocks ++ pointerAppended)[i]? = some block →
        ∃ phys, m'.mapInodeLogical d' inode' i = .ok (some phys) ∧ m'.fs.reader d' phys =
          .ok block) ∧
      ∀ b, pointerVolume.Content b → pointerVolume.Lands b →
        pointerVolume.used (pointerDisk.img.block pointerVolume.fs.sb.blockSize)
          (pointerVolume.blockSlot b) = true →
        b ∉ tableNodes (Inode.fields pointerDir).block →
          d'.img.block pointerVolume.fs.sb.blockSize b = pointerDisk.img.block
            pointerVolume.fs.sb.blockSize b := by
  obtain ⟨m', d', hrun⟩ := pointer_appends
  exact ⟨m', d', hrun, appended_blocks_are_held pointer_consistent (by decide)
    (by decide) pointer_inode pointer_holds
    (by decide +kernel) (by decide +kernel) (by decide) hrun⟩

end Mount

end FsExt4
