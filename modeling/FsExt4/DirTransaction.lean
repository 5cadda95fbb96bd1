import FsExt4.DirRuns

namespace FsExt4

open Lib Jbd2 Dir

namespace Mount

section Buffered

variable {crc : Crc} {m : Mount} {d : Disk} {buf buf' : BlockBuffer} {ino : UInt32} {inode : Inode}
  {raw : Bytes}

theorem bufferedInodeVerified_congr
    (h : ∀ block off, locateInode m.fs.sb m.fs.groups ino = .ok (block, off) →
      buf'.dirty.get? block = buf.dirty.get? block) :
    m.bufferedInodeVerified crc d buf' ino = m.bufferedInodeVerified crc d buf ino := by
  unfold bufferedInodeVerified
  cases hlocate : locateInode m.fs.sb m.fs.groups ino with
  | error e => rfl
  | ok found =>
    obtain ⟨block, off⟩ := found
    rw [Result.ok_bind, Result.ok_bind]
    dsimp only
    rw [h block off hlocate]

theorem Content.ne_inode (h : Consistent crc m d) {b block off : Nat} (hc : m.Content b)
    (hlocate : locateInode m.fs.sb m.fs.groups ino = .ok (block, off)) : block ≠ b := by
  rintro rfl
  exact hc.content (h.inode_isMetadata hlocate).1

theorem bufferedInodeVerified_put (h : Consistent crc m d) {b : Nat} (hc : m.Content b)
    (bytes : Bytes) :
    m.bufferedInodeVerified crc d (buf.put b bytes) ino = m.bufferedInodeVerified crc d
      buf ino := by
  apply bufferedInodeVerified_congr
  intro block off hlocate
  unfold BlockBuffer.put
  rw [SortedMap.get?_insert, if_neg (hc.ne_inode h hlocate)]

theorem bufferedInodeVerified_getMut (h : Consistent crc m d) {b : Nat} (hc : m.Content b)
    {bytes : Bytes} (hget : buf.getMut (m.fs.reader d) b = .ok (bytes, buf')) :
    m.bufferedInodeVerified crc d buf' ino = m.bufferedInodeVerified crc d buf ino := by
  unfold BlockBuffer.getMut at hget
  split at hget
  · obtain ⟨-, rfl⟩ := Prod.mk.inj (Except.ok.inj hget)
    rfl
  · obtain ⟨read, -, hget⟩ := Result.bind_eq_ok hget
    obtain ⟨-, rfl⟩ := Prod.mk.inj (Except.ok.inj hget)
    exact bufferedInodeVerified_put h hc read

theorem Open.getMut {taken freed : Set Slot} (ho : Open crc m d buf taken freed) {b : Nat}
    (hoff : m.OffTables b)
    {bytes : Bytes} (hget : buf.getMut (m.fs.reader d) b = .ok (bytes, buf')) :
      Open crc m d buf' taken freed := by
  obtain ⟨-, hview, hcleared, hstaged⟩ := BlockBuffer.getMut_ok hget
  refine Open.of_offTables hoff (fun b' _ => by rw [hview]) ?_
    (BlockBuffer.getMut_bounded hget ho.coherent.bounded)
    hcleared (fun b' hb => (hstaged b').mpr (Or.inr hb)) ho
  intro b'
  rw [hview]
  exact ho.coherent.whole b'

end Buffered

section Blocks

variable {crc : Crc} {m : Mount} {v v' : Nat → Bytes} {ino : UInt32} {inode : Inode}
  {nodes : List Nat} {map : Nat → Option Nat} {blocks : List Bytes}

theorem HoldsBlocks.set {d : Disk} (h : Consistent crc m d)
    (hd : HoldsBlocks crc m v ino inode nodes map blocks) {i phys : Nat} (hi : map i = some phys)
      {bytes : Bytes}
    (hself : v' phys = bytes) (hother : ∀ b, b ≠ phys → v' b = v b) :
    HoldsBlocks crc m v' ino inode nodes map (blocks.set i bytes) := by
  obtain ⟨hcontent, -, hnode, hget⟩ := hd.held i phys hi
  have hused : ∀ s, m.used v' s = m.used v s := used_of_offTables (hcontent.offTables h) hother
  have hdir := hd.directory
  refine ⟨⟨hdir.isDir, hdir.inline, ?_, hdir.dense, ?_⟩, ?_, ?_, hd.apart, hd.lands⟩
  · apply hdir.mapped.congr
    intro b hb
    exact hother b (fun he => hnode (he ▸ hb))
  · intro b hb
    rw [hused]
    exact hdir.content b hb
  · rw [List.length_set]
    exact hd.count
  · intro j p hj
    obtain ⟨hc, hu, hnot, hat⟩ := hd.held j p hj
    rw [hused]
    refine ⟨hc, hu, hnot, ?_⟩
    by_cases heq : i = j
    · subst heq
      obtain rfl : phys = p := Option.some.inj (hi.symm.trans hj)
      rw [List.getElem?_set_self (List.getElem?_eq_some_iff.mp hget).1, hself]
    · have hne : p ≠ phys := by
        rintro rfl
        exact heq (hd.apart i j p hi hj)
      rw [List.getElem?_set_ne heq, hother p hne]
      exact hat

end Blocks

section Transaction

variable {crc : Crc} {m : Mount} {d : Disk} {buf buf' : BlockBuffer} {taken : Set Slot}
  {ino : UInt32}
  {inode : Inode} {raw : Bytes} {nodes : List Nat} {map : Nat → Option Nat} {blocks : List Bytes}

/-- An open transaction that finds these blocks in the directory, and has given nothing back. -/
structure DirTxn (crc : Crc) (m : Mount) (d : Disk) (buf : BlockBuffer) (taken : Set Slot)
    (ino : UInt32) (inode : Inode) (raw : Bytes) (nodes : List Nat) (map : Nat → Option Nat)
      (blocks : List Bytes) : Prop where
  isOpen : Open crc m d buf taken ∅
  found : m.bufferedInodeVerified crc d buf ino = .ok (inode, raw)
  holds : HoldsBlocks crc m (buf.view d.img m.fs.sb.blockSize) ino inode nodes map blocks

/-- The mapping of the directory is on the device as the transaction has it. -/
def NodesLanded (m : Mount) (d : Disk) (buf : BlockBuffer) (nodes : List Nat) : Prop :=
  ∀ b ∈ nodes, buf.view d.img m.fs.sb.blockSize b = d.img.block m.fs.sb.blockSize b

namespace DirTxn

theorem metadataUsed (ht : DirTxn crc m d buf taken ino inode raw nodes map blocks)
    (h : Consistent crc m d) :
    m.MetadataUsed (buf.view d.img m.fs.sb.blockSize) := by
  intro b hb hbit
  exact ht.isOpen.kept _ (h.coherent.metadata b hb hbit) (fun hin => hin)

theorem maps (ht : DirTxn crc m d buf taken ino inode raw nodes map blocks) (h : Consistent crc m d)
    (hdev : m.fs.sb.blocksCount * m.fs.sb.blockSize ≤ d.size) (h64 : d.size < 2 ^ 64)
    (hnodes : m.NodesLanded d buf nodes) {i : Nat} (hi : i < blocks.length) :
    ∃ phys, m.mapInodeLogical d inode i = .ok (some phys) ∧ map i = some phys ∧
      blocks[i]? = some (buf.view d.img m.fs.sb.blockSize phys) := by
  obtain ⟨phys, hphys, hget⟩ := ht.holds.placed hi
  have hsome : (map i).isSome = true := Option.isSome_iff_exists.mpr ⟨phys, hphys⟩
  have hdir := ht.holds.directory
  refine ⟨phys, ?_, hphys, hget⟩
  rw [← hphys]
  apply hdir.mapped.reads hdir.inline (indirectBlockSize h) h64
  · intro b hb
    exact ⟨Nat.le_trans (Nat.mul_le_mul_right _ (hdir.content b hb).1.inVolume) hdev,
      (hnodes b hb).symm⟩
  · exact hdir.mapped.lt_addressable hsome

theorem put (ht : DirTxn crc m d buf taken ino inode raw nodes map blocks) (h : Consistent crc m d)
    {i phys : Nat}
    (hi : map i = some phys) {bytes : Bytes} (hlen : bytes.length = m.fs.sb.blockSize) :
    DirTxn crc m d (buf.put phys bytes) taken ino inode raw nodes map (blocks.set i bytes) := by
  have hcontent := (ht.holds.held i phys hi).1
  have h64 : phys < 2 ^ 64 := Nat.lt_trans (Nat.lt_of_lt_of_le hcontent.inVolume h.addressable)
    (by decide)
  refine ⟨ht.isOpen.put (hcontent.offTables h) hlen h64, ?_, ?_⟩
  · rw [bufferedInodeVerified_put h hcontent]
    exact ht.found
  · refine ht.holds.set h hi ?_ ?_
    · rw [BlockBuffer.view_put, Function.update_self]
    · intro b hb
      rw [BlockBuffer.view_put, Function.update_of_ne hb]

theorem getMut (ht : DirTxn crc m d buf taken ino inode raw nodes map blocks)
    (h : Consistent crc m d) {i phys : Nat}
    (hi : map i = some phys) {bytes : Bytes} (hget : buf.getMut (m.fs.reader d) phys =
      .ok (bytes, buf')) :
    DirTxn crc m d buf' taken ino inode raw nodes map blocks := by
  have hcontent := (ht.holds.held i phys hi).1
  obtain ⟨-, hview, -, -⟩ := BlockBuffer.getMut_ok hget
  refine ⟨ht.isOpen.getMut (hcontent.offTables h) hget, ?_, ?_⟩
  · rw [bufferedInodeVerified_getMut h hcontent hget]
    exact ht.found
  · rw [hview]
    exact ht.holds

theorem readLogical (ht : DirTxn crc m d buf taken ino inode raw nodes map blocks)
    (h : Consistent crc m d)
    (hdev : m.fs.sb.blocksCount * m.fs.sb.blockSize ≤ d.size) (h64 : d.size < 2 ^ 64)
    (hnodes : m.NodesLanded d buf nodes) {i : Nat} (hi : i < blocks.length) {bytes : Bytes}
    (hread : m.readLogical d inode i buf = .ok (bytes, buf')) :
    blocks[i]? = some bytes ∧ DirTxn crc m d buf' taken ino inode raw nodes map blocks ∧
      buf'.view d.img m.fs.sb.blockSize = buf.view d.img m.fs.sb.blockSize := by
  obtain ⟨phys, hmap, hphys, hget⟩ := ht.maps h hdev h64 hnodes hi
  unfold Mount.readLogical at hread
  rw [hmap, Result.ok_bind] at hread
  dsimp only at hread
  obtain ⟨rfl, hview, -, -⟩ := BlockBuffer.getMut_ok hread
  exact ⟨hget, ht.getMut h hphys hread, hview⟩

theorem append (ht : DirTxn crc m d buf taken ino inode raw nodes map blocks)
    (h : Consistent crc m d)
    (hdev : m.fs.sb.blocksCount * m.fs.sb.blockSize ≤ d.size) (h64 : d.size < 2 ^ 64)
    (hnodes : m.NodesLanded d buf nodes) {block : Bytes} (hblock : block.length = m.fs.sb.blockSize)
    (hcount : blocks.length < 2 ^ 32) {fuel : Nat} (hfuel : extMaxDepth < fuel) :
    ∃ result, m.bufferAppendDirBlock crc d fuel buf ino block = some result ∧ ∀ buf',
    result = .ok buf' →
      ∃ taken' newBlock consumed raw' nodes' phys, DirTxn crc m d buf' taken' ino
        (grownInode inode m.fs.sb.blockSize newBlock consumed) raw' nodes'
        (Function.update map blocks.length (some phys)) (blocks ++ [block]) := by
  have hg := ht.holds.growing h ht.isOpen (ht.metadataUsed h) ht.found hblock hcount
  have hdisk : ∀ b ∈ nodes, m.fs.reader d b = .ok (buf.view d.img m.fs.sb.blockSize b) := by
    intro b hb
    rw [hnodes b hb]
    exact Filesystem.reader_of_fits m.fs d b (Nat.le_trans (Nat.mul_le_mul_right _
      (ht.holds.directory.content b hb).1.inVolume) hdev) h64
  obtain ⟨result, hresult, hok⟩ := bufferAppendDirBlock_ok hg ht.found hdisk hfuel
  refine ⟨result, hresult, ?_⟩
  intro buf' hbuf
  obtain ⟨newBlock, phys, more, nodes', hgrown⟩ := hok buf' hbuf
  obtain ⟨raw', hfound⟩ := hgrown.found
  have hholds := ht.holds.step hg hgrown
  rw [ht.holds.count] at hholds
  exact ⟨_, newBlock, _, raw', nodes', phys, hgrown.isOpen, hfound, hholds⟩

end DirTxn

end Transaction

end Mount

end FsExt4
