import FsExt4.HtreeIndex

namespace FsExt4

open Lib Jbd2 Dir Hash Htree

namespace Mount

section Model

variable (crc : Crc) (m : Mount) (d : Disk) (parentIno : UInt32) (parent : Inode)
  (hash : HashParams)

/-- The leaf that an entry of the name goes in, read with the index blocks on the way to it. -/
def leafForEntry (buf : BlockBuffer) (name : Bytes) : Result (Nat × Bytes × BlockBuffer) := do
  if parent.flags &&& (inodeFlagCasefold ||| inodeFlagEncrypt) ≠ 0 then throw .outOfBounds
  let (root, buf) ← m.readLogical d parent 0 buf
  m.checkDxBlock crc parentIno parent root true
  match ← m.lookupLeafStaged crc d parentIno parent hash name root buf with
  | (none, _) => throw (.corruptDirEntry "htree root has no entries")
  | (some leaf, buf) =>
    if leaf = 0 then throw (.corruptDirEntry "htree routes a name to its own root")
    match ← m.mapInodeLogical d parent leaf.toNat with
    | none => throw (.corruptDirEntry "htree leaf is not mapped")
    | some phys =>
      let (block, buf) ← buf.getMut (m.fs.reader d) phys
      return (phys, block, buf)

variable {crc m d parentIno parent hash}

theorem bufferAddDirEntryIndexed_ok {buf buf' : BlockBuffer} {name : Bytes} {target : UInt32}
    {fileType : DirEntryType}
    (h : m.bufferAddDirEntryIndexed crc d parentIno parent hash buf name target
      fileType = .ok buf') :
    ∃ phys block buf₁ new, m.leafForEntry crc d parentIno parent hash buf name =
      .ok (phys, block, buf₁) ∧
      m.addToBlock crc parentIno parent name target fileType block = .ok new ∧
      buf' = buf₁.put phys new := by
  unfold bufferAddDirEntryIndexed at h
  unfold leafForEntry
  dsimp only at h ⊢
  split at h
  · cases h
  rename_i hplain
  rw [if_neg hplain]
  obtain ⟨⟨root, buf₁⟩, hroot, h⟩ := Result.bind_eq_ok h
  rw [hroot, Result.ok_bind]
  obtain ⟨u, hchecked, h⟩ := Result.bind_eq_ok h
  dsimp only
  rw [hchecked, Result.ok_bind]
  obtain ⟨⟨leaf, buf₂⟩, hlookup, h⟩ := Result.bind_eq_ok h
  rw [hlookup, Result.ok_bind]
  cases leaf with
  | none => cases h
  | some leaf =>
    dsimp only at h ⊢
    split at h
    · cases h
    rename_i hleaf
    rw [if_neg hleaf]
    obtain ⟨found, hmap, h⟩ := Result.bind_eq_ok h
    rw [hmap, Result.ok_bind]
    cases found with
    | none => cases h
    | some phys =>
      obtain ⟨⟨block, buf₃⟩, hget, h⟩ := Result.bind_eq_ok h
      dsimp only
      rw [hget, Result.ok_bind]
      obtain ⟨new, hadd, h⟩ := Result.bind_eq_ok h
      exact ⟨phys, block, buf₃, new, rfl, hadd, (Except.ok.inj h).symm⟩

end Model

section Transaction

variable {crc : Crc} {m : Mount} {d : Disk} {buf buf' : BlockBuffer} {taken : Set Slot}
  {ino : UInt32}
  {dir : Inode} {raw : Bytes} {nodes : List Nat} {map : Nat → Option Nat} {blocks : List Bytes}
  {hash : HashParams} {info : DxRootInfo} {leaves : List UInt32} {items : UInt32 → List DirEntry}
  {name : Bytes} {target : UInt32} {fileType : DirEntryType}

namespace DirTxn

variable (ht : DirTxn crc m d buf taken ino dir raw nodes map blocks) (h : Consistent crc m d)
  (hdev : m.fs.sb.blocksCount * m.fs.sb.blockSize ≤ d.size) (h64 : d.size < 2 ^ 64)
  (hnodes : m.NodesLanded d buf nodes)

include ht h hdev h64 hnodes

theorem descendStaged {major leaf : UInt32} {levels : Nat} {from_ : UInt32}
    (hpath : ∀ p ∈ (route (blockAt blocks) major levels from_).1, p.toNat < blocks.length)
    (hrun : m.descendStaged crc d ino dir major levels from_ buf = .ok (some leaf, buf')) :
    (route (blockAt blocks) major levels from_).2 = leaf ∧
      DirTxn crc m d buf' taken ino dir raw nodes map blocks ∧
      buf'.view d.img m.fs.sb.blockSize = buf.view d.img m.fs.sb.blockSize := by
  induction levels generalizing from_ buf with
  | zero =>
    obtain ⟨hleaf, rfl⟩ := Prod.mk.inj (Except.ok.inj hrun)
    exact ⟨Option.some.inj hleaf, ht, rfl⟩
  | succ levels ih =>
    have hlt : from_.toNat < blocks.length := by
      apply hpath
      rw [route]
      cases parseNodeEntries (blockAt blocks from_) <;> exact List.mem_cons_self
    rw [Mount.descendStaged] at hrun
    obtain ⟨⟨node, buf₁⟩, hread, hrun⟩ := Result.bind_eq_ok hrun
    obtain ⟨hget, ht₁, hview⟩ := ht.readLogical h hdev h64 hnodes hlt hread
    obtain rfl := blockAt_of_getElem? hget
    obtain ⟨-, -, hrun⟩ := Result.bind_eq_ok hrun
    obtain ⟨⟨limits, entries⟩, hparse, hrun⟩ := Result.bind_eq_ok hrun
    rw [route, hparse] at hpath ⊢
    dsimp only at hpath hrun ⊢
    split at hrun
    · cases hrun
    · have hnodes₁ : m.NodesLanded d buf₁ nodes := by
        intro b hb
        rw [hview]
        exact hnodes b hb
      obtain ⟨hleaf, ht', hview'⟩ :=
        ih ht₁ hnodes₁ (fun p hp => hpath p (List.mem_cons_of_mem _ hp)) hrun
      exact ⟨hleaf, ht', hview'.trans hview⟩

variable (hidx : IndexedDir crc m hash ino dir blocks info leaves items)

include hidx

theorem lookupLeafStaged {leaf : UInt32}
    (hrun : m.lookupLeafStaged crc d ino dir hash name (blockAt blocks 0) buf =
      .ok (some leaf, buf')) :
    leafOf (blockAt blocks) info.indirectLevels (indexKey hash info name) = leaf ∧
      DirTxn crc m d buf' taken ino dir raw nodes map blocks ∧
      buf'.view d.img m.fs.sb.blockSize = buf.view d.img m.fs.sb.blockSize := by
  have hroot := hidx.index.index.root.1
  have hat : NodeAt (blockAt blocks 0) (24 + info.infoLength) := by
    rw [hidx.index.infoLength]
    exact hroot
  unfold Mount.lookupLeafStaged at hrun
  rw [hidx.index.parsed, Result.ok_bind, parseRootEntries_ok hidx.index.parsed hat, Result.ok_bind,
    hidx.index.infoLength] at hrun
  dsimp only at hrun
  split at hrun
  · cases hrun
  · refine ht.descendStaged h hdev h64 hnodes ?_ hrun
    intro p hp
    exact (hidx.index.index.way_lt (indexKey hash info name)).1 p (List.mem_cons_of_mem _ hp)

theorem leafForEntry {phys : Nat} {block : Bytes}
    (hrun : m.leafForEntry crc d ino dir hash buf name = .ok (phys, block, buf')) :
    DirTxn crc m d buf' taken ino dir raw nodes map blocks ∧
      buf'.view d.img m.fs.sb.blockSize = buf.view d.img m.fs.sb.blockSize ∧
      map (leafOf (blockAt blocks) info.indirectLevels (indexKey hash info name)).toNat =
        some phys ∧
      block = blockAt blocks (leafOf (blockAt blocks) info.indirectLevels
        (indexKey hash info name)) := by
  unfold Mount.leafForEntry at hrun
  dsimp only at hrun
  split at hrun
  · cases hrun
  obtain ⟨⟨root, buf₁⟩, hroot, hrun⟩ := Result.bind_eq_ok hrun
  have hpos : (0 : UInt32).toNat < blocks.length :=
    (hidx.index.index.way_lt 0).1 0 List.mem_cons_self
  obtain ⟨hget, ht₁, hview₁⟩ := ht.readLogical h hdev h64 hnodes hpos hroot
  have hrootAt : blockAt blocks 0 = root := blockAt_of_getElem? hget
  subst hrootAt
  obtain ⟨-, -, hrun⟩ := Result.bind_eq_ok hrun
  obtain ⟨⟨leaf, buf₂⟩, hlookup, hrun⟩ := Result.bind_eq_ok hrun
  have hnodes₁ : m.NodesLanded d buf₁ nodes := by
    intro b hb
    rw [hview₁]
    exact hnodes b hb
  cases leaf with
  | none => cases hrun
  | some leaf =>
    obtain ⟨hleaf, ht₂, hview₂⟩ := ht₁.lookupLeafStaged h hdev h64 hnodes₁ hidx hlookup
    dsimp only at hrun
    split at hrun
    · cases hrun
    obtain ⟨found, hfound, hrun⟩ := Result.bind_eq_ok hrun
    have hlt := (hidx.index.index.way_lt (indexKey hash info name)).2
    rw [hleaf] at hlt ⊢
    have hview := hview₂.trans hview₁
    have hnodes₂ : m.NodesLanded d buf₂ nodes := by
      intro b hb
      rw [hview]
      exact hnodes b hb
    obtain ⟨at_, hmaps, hmap, hblock⟩ := ht₂.maps h hdev h64 hnodes₂ hlt
    rw [hmaps] at hfound
    obtain rfl := Except.ok.inj hfound
    obtain ⟨⟨bytes, buf₃⟩, hgetMut, hrun⟩ := Result.bind_eq_ok hrun
    obtain ⟨hphys, hrest⟩ := Prod.mk.inj (Except.ok.inj hrun)
    obtain ⟨hbytes, hbuf⟩ := Prod.mk.inj hrest
    obtain ⟨hread, hview₃, -, -⟩ := BlockBuffer.getMut_ok hgetMut
    rw [← hphys, ← hbytes, ← hbuf]
    refine ⟨ht₂.getMut h hmap hgetMut, hview₃.trans hview, hmap, ?_⟩
    rw [blockAt_of_getElem? hblock]
    exact hread

theorem added
    (hrun : m.bufferAddDirEntryIndexed crc d ino dir hash buf name target fileType = .ok buf') :
    ∃ blocks' items', DirTxn crc m d buf' taken ino dir raw nodes map blocks' ∧
      blocks'.length = blocks.length ∧ IndexedDir crc m hash ino dir blocks' info leaves items' ∧
      (leaves.flatMap items').Perm (newEntry m.fs.sb.hasFiletype target name fileType ::
        leaves.flatMap items) := by
  obtain ⟨phys, block, buf₁, new, hleaf, hadd, rfl⟩ := bufferAddDirEntryIndexed_ok hrun
  obtain ⟨ht₁, -, hmap, rfl⟩ := ht.leafForEntry h hdev h64 hnodes hidx hleaf
  obtain ⟨es, hblock, hperm⟩ := (hidx.leaf _ (hidx.mem_leaves _)).added hadd
  obtain ⟨items', hidx', hall⟩ := @IndexedDir.inserted _ _ _ _ _ _ _ _ _ hidx
    (newEntry m.fs.sb.hasFiletype target name fileType) new es hblock hperm
  exact ⟨_, items', ht₁.put h hmap hblock.length, List.length_set, hidx', hall⟩

end DirTxn

section Split

theorem splitTail_ok {es : List DirEntry} {leaf : Bytes} {reserved : Nat}
    (hblock : EntryBlock crc m ino dir.generation es leaf)
      (h : m.splitTail crc ino dir leaf = .ok reserved) :
    reserved = m.freshTail := by
  have htail := hblock.reservedTail
  unfold Mount.reservedTail at htail
  unfold splitTail at h
  split at h
  · rename_i hcsum
    rw [if_pos hcsum] at htail
    split at h
    · rw [← htail]
      exact (Except.ok.inj h).symm
    · cases h
  · rename_i hcsum
    rw [if_neg hcsum] at htail
    rw [← htail]
    exact (Except.ok.inj h).symm

theorem EntryBlock.halves {version : HashVersion} {seed : List UInt32} {split : LeafSplit}
    {es : List DirEntry} {leaf : Bytes} (hblock : EntryBlock crc m ino dir.generation es leaf)
    (hsplit : planLeafSplit leaf version seed m.fs.sb.hasFiletype m.fs.sb.blockSize m.freshTail =
      .ok split) :
    (m.freshTail ≤ m.fs.sb.blockSize ∧ m.fs.sb.blockSize - m.freshTail ≤ 65532) ∧ ∃ left right,
      Halves m.fs.sb.hasFiletype version seed m.fs.sb.blockSize m.freshTail es split
        left right := by
  obtain ⟨slots, hslots, rfl⟩ := hblock.slots
  have hle := hslots.le
  have hsize := hslots.fills.size
  rw [List.length_take, Nat.min_eq_left (Nat.sub_le _ _)] at hsize
  rw [← hblock.length] at hsplit ⊢
  exact ⟨⟨hle, hsize⟩, planLeafSplit_halves hle hslots.fills hsplit⟩

theorem addToHalf_ok {version : HashVersion} {seed : List UInt32} {split : LeafSplit}
    {left right : List Dir.Slot} {es : List DirEntry} {leftBlock rightBlock : Bytes}
    (hh : Halves m.fs.sb.hasFiletype version seed m.fs.sb.blockSize m.freshTail es split left right)
    (hle : m.freshTail ≤ m.fs.sb.blockSize) (hsize : m.fs.sb.blockSize - m.freshTail ≤ 65532)
    (hadd : addToHalf split (nameHash name version seed).major target name fileType
      m.fs.sb.hasFiletype m.freshTail = .ok (leftBlock, rightBlock)) :
    ∃ low high, EntryBlock crc m ino dir.generation low
      (m.retailed crc ino dir m.freshTail leftBlock) ∧
      EntryBlock crc m ino dir.generation high (m.retailed crc ino dir m.freshTail rightBlock) ∧
      (low ++ high).Perm (newEntry m.fs.sb.hasFiletype target name fileType :: es) ∧
      (∀ x ∈ low, ¬ split.splitOutHash ≤ (nameHash x.name version seed).major) ∧
      ∀ x ∈ high, split.splitOutHash ≤ (nameHash x.name version seed).major := by
  have hzeros : (List.replicate m.freshTail (0 : UInt8)).length = m.freshTail :=
    List.length_replicate
  have hleft : (slotBytes left).length + m.freshTail = m.fs.sb.blockSize := by
    rw [hh.lengths.1, Nat.sub_add_cancel hle]
  have hright : (slotBytes right).length + m.freshTail = m.fs.sb.blockSize := by
    rw [hh.lengths.2, Nat.sub_add_cancel hle]
  have hlow : ∀ x ∈ slotEntries m.fs.sb.hasFiletype left, ¬ split.splitOutHash ≤
      (nameHash x.name version seed).major :=
    fun x hx => UInt32.not_le.mpr (hh.low x hx)
  unfold addToHalf at hadd
  split at hadd
  · rename_i hreach
    cases hnew : addEntryToBlock split.rightBytes target name fileType m.fs.sb.hasFiletype
      m.freshTail with
    | error e =>
      rw [hnew] at hadd
      cases hadd
    | ok grown =>
      rw [hnew] at hadd
      obtain ⟨rfl, rfl⟩ := Prod.mk.inj (Except.ok.inj hadd)
      rw [hh.rightBytes] at hnew
      obtain ⟨high, hblock, hperm⟩ := EntryBlock.of_added hh.rightValid
        (by rw [hh.lengths.2]; exact hsize) hzeros hright hnew
      rw [hh.leftBytes]
      refine ⟨_, high, EntryBlock.sealed hh.leftValid (by rw [hh.lengths.1]; exact hsize) hzeros
        hleft, hblock, ?_, hlow, ?_⟩
      · exact (hperm.append_left _).trans (List.perm_middle.trans (hh.perm.cons _))
      · intro x hx
        obtain rfl | hx := List.mem_cons.mp (hperm.mem_iff.mp hx)
        · exact hreach
        · exact hh.high x hx
  · rename_i hreach
    cases hnew : addEntryToBlock split.leftBytes target name fileType m.fs.sb.hasFiletype
      m.freshTail with
    | error e =>
      rw [hnew] at hadd
      cases hadd
    | ok grown =>
      rw [hnew] at hadd
      obtain ⟨rfl, rfl⟩ := Prod.mk.inj (Except.ok.inj hadd)
      rw [hh.leftBytes] at hnew
      obtain ⟨low, hblock, hperm⟩ := EntryBlock.of_added hh.leftValid
        (by rw [hh.lengths.1]; exact hsize) hzeros hleft hnew
      rw [hh.rightBytes]
      refine ⟨low, _, hblock, EntryBlock.sealed hh.rightValid (by rw [hh.lengths.2]; exact hsize)
        hzeros hright, ?_, ?_, hh.high⟩
      · exact (hperm.append_right _).trans (hh.perm.cons _)
      · intro x hx
        obtain rfl | hx := List.mem_cons.mp (hperm.mem_iff.mp hx)
        · exact hreach
        · exact hlow x hx

/-- What a split stages leaves the index whole, the entry added. -/
structure SplitDir (crc : Crc) (m : Mount) (hash : HashParams) (ino : UInt32) (dir : Inode)
    (map : Nat → Option Nat) (blocks : List Bytes) (info : DxRootInfo) (leaves : List UInt32)
      (items : UInt32 → List DirEntry) (e : DirEntry)
    (split : HtreeSplit) (l p : UInt32) : Prop where
  leafPhys : map l.toNat = some split.leafPhys
  parentPhys : map p.toNat = some split.parentPhys
  inside : l.toNat < blocks.length ∧ p.toNat < blocks.length
  small : blocks.length < 2 ^ 32
  lengths : split.left.length = m.fs.sb.blockSize ∧ split.right.length = m.fs.sb.blockSize ∧
    split.parent.length = m.fs.sb.blockSize
  index : ∃ leaves' items', IndexedDir crc m hash ino dir
    (((blocks ++ [split.right]).set l.toNat split.left).set p.toNat split.parent) info
      leaves' items' ∧
    (leaves'.flatMap items').Perm (e :: leaves.flatMap items)

namespace DirTxn

variable (ht : DirTxn crc m d buf taken ino dir raw nodes map blocks) (h : Consistent crc m d)
  (hdev : m.fs.sb.blocksCount * m.fs.sb.blockSize ≤ d.size) (h64 : d.size < 2 ^ 64)
  (hnodes : m.NodesLanded d buf nodes)

include ht h hdev h64 hnodes

theorem buffered {l : UInt32} (hl : l.toNat < blocks.length) {phys : Nat} {block : Bytes}
    (hphys : m.physical d dir l.toNat = .ok phys) (hread : buf.bufferedBlock (m.fs.reader d) phys =
      .ok block) :
    map l.toNat = some phys ∧ block = blockAt blocks l := by
  obtain ⟨at_, hmaps, hmap, hget⟩ := ht.maps h hdev h64 hnodes hl
  rw [physical_eq_ok, hmaps] at hphys
  obtain rfl := Option.some.inj (Except.ok.inj hphys)
  rw [blockAt_of_getElem? hget]
  exact ⟨hmap, BlockBuffer.bufferedBlock_ok hread⟩

variable (hidx : IndexedDir crc m hash ino dir blocks info leaves items)

include hidx

theorem splitParent {rootPhys parentPhys countOffset : Nat} {parent : Bytes} {leafLogical : UInt32}
    (hlevels : info.indirectLevels ≤ 1) (hroot : map (0 : UInt32).toNat = some rootPhys)
    (hrun : m.splitParent crc d buf ino dir rootPhys (blockAt blocks 0) info.indirectLevels
      (indexKey hash info name) = .ok (parentPhys, parent, countOffset, leafLogical)) :
    ∃ p, parentOf (blockAt blocks) info.indirectLevels (indexKey hash info name) = p ∧
      p.toNat < blocks.length ∧ map p.toNat = some parentPhys ∧ parent = blockAt blocks p ∧
      countOffset = dxOffset p ∧
      leafLogical = leafOf (blockAt blocks) info.indirectLevels (indexKey hash info name) := by
  have hindex := hidx.index.index
  have hat : NodeAt (blockAt blocks 0) (24 + info.infoLength) := by
    rw [hidx.index.infoLength]
    exact hindex.root.1
  obtain ⟨-, hmem, hleaf⟩ := hindex.ways hlevels (indexKey hash info name)
  have hplt := (hindex.way_lt (indexKey hash info name)).1 _ hmem
  unfold Mount.splitParent at hrun
  rw [parseRootEntries_ok hidx.index.parsed hat, Result.ok_bind, hidx.index.infoLength] at hrun
  dsimp only at hrun
  obtain hzero | hone := Nat.le_one_iff_eq_zero_or_eq_one.mp hlevels
  · rw [if_pos hzero] at hrun
    have hparent : parentOf (blockAt blocks) info.indirectLevels (indexKey hash info name) = 0 :=
      if_pos hzero
    rw [hparent] at hleaf hplt
    obtain ⟨h1, hrun⟩ := Prod.mk.inj (Except.ok.inj hrun)
    obtain ⟨h2, hrun⟩ := Prod.mk.inj hrun
    obtain ⟨h3, h4⟩ := Prod.mk.inj hrun
    refine ⟨0, hparent, hplt, by rw [hroot, h1], h2.symm, h3.symm, ?_⟩
    rw [hleaf, ← h4]
    rfl
  · rw [if_neg (by rw [hone]; decide)] at hrun
    have hparent : parentOf (blockAt blocks) info.indirectLevels (indexKey hash info name) =
        chosenBlock (blockAt blocks 0) 32 (indexKey hash info name) := if_neg (by rw [hone]; decide)
    have hne : parentOf (blockAt blocks) info.indirectLevels (indexKey hash info name) ≠ 0 := by
      intro hzero
      apply hindex.inner (indexKey hash info name)
      rw [(hindex.ways hlevels _).1, if_neg (by rw [hone]; decide), hzero]
      exact List.mem_singleton_self _
    obtain ⟨nodePhys, hphys, hrun⟩ := Result.bind_eq_ok hrun
    obtain ⟨node, hread, hrun⟩ := Result.bind_eq_ok hrun
    obtain ⟨-, -, hrun⟩ := Result.bind_eq_ok hrun
    change m.physical d dir (chosenBlock (blockAt blocks 0) 32 (indexKey hash info name)).toNat =
      _ at hphys
    rw [← hparent] at hphys
    obtain ⟨hmap, rfl⟩ := ht.buffered h hdev h64 hnodes hplt hphys hread
    have hnode := (hindex.block _ _ hmem).1
    have hoffset : dxOffset (parentOf (blockAt blocks) info.indirectLevels
      (indexKey hash info name)) = 8 := if_neg hne
    rw [hoffset] at hnode hleaf
    rw [parseNodeEntries_ok hnode, Result.ok_bind] at hrun
    obtain ⟨h1, hrun⟩ := Prod.mk.inj (Except.ok.inj hrun)
    obtain ⟨h2, hrun⟩ := Prod.mk.inj hrun
    obtain ⟨h3, h4⟩ := Prod.mk.inj hrun
    refine ⟨_, rfl, hplt, by rw [hmap, h1], h2.symm, by rw [← h3, hoffset], ?_⟩
    rw [hleaf, ← h4]
    rfl

theorem planned {split : HtreeSplit}
    (hplan : m.planHtreeSplit crc d hash buf ino name target fileType m.fs.sb.hasFiletype =
      .ok (some split)) :
    ∃ l p, SplitDir crc m hash ino dir map blocks info leaves items
      (newEntry m.fs.sb.hasFiletype target name fileType) split l p := by
  have hindex := hidx.index.index
  unfold Mount.planHtreeSplit at hplan
  rw [ht.found, Result.ok_bind] at hplan
  dsimp only at hplan
  split at hplan
  · cases hplan
  obtain ⟨rootPhys, hphys, hplan⟩ := Result.bind_eq_ok hplan
  obtain ⟨root, hread, hplan⟩ := Result.bind_eq_ok hplan
  obtain ⟨hrootMap, rfl⟩ := ht.buffered h hdev h64 hnodes
    ((hindex.way_lt 0).1 0 List.mem_cons_self) hphys hread
  obtain ⟨-, -, hplan⟩ := Result.bind_eq_ok hplan
  rw [hidx.index.parsed, Result.ok_bind] at hplan
  split at hplan
  · cases hplan
  rename_i hlevels
  rw [Nat.not_lt] at hlevels
  obtain ⟨⟨parentPhys, parent, countOffset, leafLogical⟩, hparent, hplan⟩ := Result.bind_eq_ok hplan
  obtain ⟨p, hp, hplt, hparentMap, rfl, rfl, rfl⟩ := ht.splitParent h hdev h64 hnodes hidx hlevels
    hrootMap hparent
  dsimp only at hplan
  split at hplan
  · cases hplan
  obtain ⟨leafPhys, hleafPhys, hplan⟩ := Result.bind_eq_ok hplan
  obtain ⟨leaf, hleafRead, hplan⟩ := Result.bind_eq_ok hplan
  have hllt := (hindex.way_lt (indexKey hash info name)).2
  obtain ⟨hleafMap, rfl⟩ := ht.buffered h hdev h64 hnodes hllt hleafPhys hleafRead
  obtain ⟨reserved, htail, hplan⟩ := Result.bind_eq_ok hplan
  have hblock := hidx.leaf _ (hidx.mem_leaves (indexKey hash info name))
  obtain rfl := splitTail_ok hblock htail
  cases hsplit : planLeafSplit
    (blockAt blocks (leafOf (blockAt blocks) info.indirectLevels (indexKey hash info name)))
      (effectiveVersion info.hashVersion hash.unsignedHash) hash.hashSeed m.fs.sb.hasFiletype
        m.fs.sb.blockSize
      m.freshTail with
  | error e =>
    rw [hsplit] at hplan
    cases hplan
  | ok halves =>
    rw [hsplit] at hplan
    dsimp only at hplan
    split at hplan
    · cases hplan
    rename_i hnew
    rw [ht.holds.count] at hnew hplan
    obtain ⟨⟨hle, hsize⟩, left, right, hh⟩ := hblock.halves hsplit
    have hinsert : ∀ out, (if dxOffset p = 32 then
          planInsertDxEntryRoot (blockAt blocks p) 32 halves.splitOutHash
            (UInt32.ofNat blocks.length)
        else planInsertDxEntryNode (blockAt blocks p) halves.splitOutHash
          (UInt32.ofNat blocks.length)) = .ok out →
        InsertsEntry (blockAt blocks p) (dxOffset p)
          ⟨halves.splitOutHash, UInt32.ofNat blocks.length⟩ out := by
      intro out hout
      have hpmem := (hindex.ways hlevels (indexKey hash info name)).2.1
      rw [hp] at hpmem
      have hnode := (hindex.block _ p hpmem).1
      apply planInsertDxEntryGeneric_ok hnode
      unfold dxOffset at hout ⊢
      by_cases hzero : p = 0
      · rw [if_pos hzero] at hout ⊢
        exact hout
      · rw [if_neg hzero] at hout ⊢
        exact hout
    split at hplan
    · cases hplan
    · cases hplan
    rename_i parent hrouted
    have hins := (hinsert parent hrouted).patched crc m.csum ino dir.generation
    split at hplan
    · cases hplan
    · cases hplan
    rename_i leftBlock rightBlock hadd
    obtain rfl := Option.some.inj (Except.ok.inj hplan)
    obtain ⟨low, high, hleft, hright, hperm, hlow, hhigh⟩ := addToHalf_ok hh hle hsize hadd
    obtain ⟨xk, hxk⟩ := hh.leftMost
    obtain ⟨xb, hxb, hbound⟩ := hh.bound
    obtain ⟨items', hidx', hall⟩ := @IndexedDir.split _ _ _ _ _ _ _ _ _ hidx hlevels
      (newEntry m.fs.sb.hasFiletype target name fileType) _ _ _ _ _ _ _ _ _ rfl hp hleft hright
        hperm hlow hhigh
      ⟨xk, hh.perm.mem_iff.mp (List.mem_append_left _ hxk), UInt32.not_le.mpr (hh.low xk hxk)⟩
      ⟨xb, hh.perm.mem_iff.mp (List.mem_append_right _ hxb), hbound⟩ hins
      (UInt32.toNat_ofNat_of_lt' (Nat.lt_of_not_le hnew))
    obtain ⟨-, -, hget⟩ := (ht.holds.held p.toNat parentPhys hparentMap).2
    refine ⟨_, p, hleafMap, hparentMap, ⟨hllt, hplt⟩, Nat.lt_of_not_le hnew,
      ⟨hleft.length, hright.length, ?_⟩, _, items', hidx', hall⟩
    rw [hins.length, blockAt_of_getElem? hget]
    exact ht.isOpen.coherent.whole parentPhys

theorem split {fuel : Nat} (hfuel : extMaxDepth < fuel)
    (hrun : m.bufferSplitHtreeLeafAndAddEntry crc d fuel hash buf ino name target fileType
      m.fs.sb.hasFiletype = some (.ok (some buf'))) :
    ∃ taken' dir' raw' nodes' map' blocks' leaves' items',
      DirTxn crc m d buf' taken' ino dir' raw' nodes' map' blocks' ∧ blocks'.length =
        blocks.length + 1 ∧
      IndexedDir crc m hash ino dir' blocks' info leaves' items' ∧
      (leaves'.flatMap items').Perm (newEntry m.fs.sb.hasFiletype target name fileType ::
        leaves.flatMap items) := by
  unfold bufferSplitHtreeLeafAndAddEntry at hrun
  cases hplan : m.planHtreeSplit crc d hash buf ino name target fileType m.fs.sb.hasFiletype with
  | error e =>
    rw [hplan] at hrun
    cases hrun
  | ok found =>
    rw [hplan] at hrun
    cases found with
    | none => cases hrun
    | some split =>
      obtain ⟨l, p, hs⟩ := ht.planned h hdev h64 hnodes hidx hplan
      obtain ⟨hleft, hright, hparent⟩ := hs.lengths
      obtain ⟨leaves', items', hidx', hall⟩ := hs.index
      obtain ⟨result, hresult, hok⟩ := ht.append h hdev h64 hnodes hright hs.small hfuel
      dsimp only at hrun
      rw [hresult, Option.map_some] at hrun
      obtain ⟨grown, hgrown, hrun⟩ := Result.bind_eq_ok (Option.some.inj hrun)
      obtain rfl := Option.some.inj (Except.ok.inj hrun)
      obtain ⟨taken', newBlock, consumed, raw', nodes', phys, ht'⟩ := hok grown hgrown
      have hold : ∀ {k : UInt32} {at_ : Nat}, k.toNat < blocks.length → map k.toNat = some at_ →
          Function.update map blocks.length (some phys) k.toNat = some at_ := by
        intro k at_ hk hmap
        rw [Function.update_of_ne (Nat.ne_of_lt hk)]
        exact hmap
      have ht₁ := ht'.put h (hold hs.inside.1 hs.leafPhys) hleft
      have ht₂ := ht₁.put h (hold hs.inside.2 hs.parentPhys) hparent
      refine ⟨taken', _, raw', nodes', _, _, leaves', items', ht₂, ?_, hidx'.of_inode rfl rfl, hall⟩
      rw [List.length_set, List.length_set, List.length_append, List.length_singleton]

end DirTxn

end Split

end Transaction

end Mount

end FsExt4
