import FsExt4.HtreeStaging

namespace FsExt4

open Lib Jbd2 Dir Hash Htree

namespace Dir

theorem eq_map_of_mapM_id {α : Type} {l : List (Result α)} {xs : List α} (h : l.mapM id = .ok xs) :
    l = xs.map .ok := by
  induction l generalizing xs with
  | nil =>
    obtain rfl := Except.ok.inj h
    rfl
  | cons r l ih =>
    rw [List.mapM_cons] at h
    obtain ⟨x, hx, h⟩ := Result.bind_eq_ok h
    obtain ⟨rest, hrest, h⟩ := Result.bind_eq_ok h
    obtain rfl := Except.ok.inj h
    rw [List.map_cons, ← ih hrest]
    congr 1

end Dir

namespace Mount

section Lookup

variable {crc : Crc} {m : Mount} {d : Disk} {ino : UInt32} {dir : Inode} {raw : Bytes}
  {nodes : List Nat}
  {map : Nat → Option Nat} {blocks : List Bytes} {hash : HashParams} {info : DxRootInfo}
    {leaves : List UInt32}
  {items : UInt32 → List DirEntry}

def volume (m : Mount) (hash : HashParams) : Path.Volume := ⟨m.fs.sb, hash, m.csum⟩

variable (h : Consistent crc m d) (hdev : m.fs.sb.blocksCount * m.fs.sb.blockSize ≤ d.size)
  (h64 : d.size < 2 ^ 64)
  (hd : HoldsBlocks crc m (d.img.block m.fs.sb.blockSize) ino dir nodes map blocks)

include h hdev h64 hd

theorem HoldsBlocks.exec_block {l : UInt32} (hl : l.toNat < blocks.length) :
    ∃ phys, ((m.volume hash).mapBlock dir l.toNat).exec d = (.ok (some phys), d) ∧
      ((m.volume hash).readPhys phys).exec d = (.ok (blockAt blocks l), d) := by
  obtain ⟨phys, hphys, hget⟩ := hd.placed hl
  obtain ⟨hmap, -⟩ := hd.finds h hdev h64 hphys
  unfold mapInodeLogical at hmap
  rw [hd.directory.inline, if_neg Bool.false_ne_true] at hmap
  refine ⟨phys, Prod.ext hmap ((mapLogicalAny_readsBlocks _ _ _ _).exec_snd d), ?_⟩
  rw [blockAt_of_getElem? hget]
  apply Path.exec_readPhys
  have hfits := Nat.le_trans
    (Nat.mul_le_mul_right m.fs.sb.blockSize (hd.held _ phys hphys).1.inVolume) hdev
  rw [Nat.succ_mul] at hfits
  exact hfits

theorem HoldsBlocks.exec_readDxBlock {l : UInt32} (hl : l.toNat < blocks.length) :
    (Path.readDxBlock (m.volume hash) dir l).exec d = (.ok (blockAt blocks l), d) := by
  obtain ⟨phys, hmap, hread⟩ := @HoldsBlocks.exec_block _ _ _ _ _ _ _ _ hash h hdev h64 hd l hl
  unfold Path.readDxBlock
  rw [Io.exec_bind_ok _ _ _ _ _ hmap]
  exact hread

theorem HoldsBlocks.exec_descend {major : UInt32} {levels : Nat} {from_ : UInt32}
    (hpath : ∀ p ∈ (route (blockAt blocks) major levels from_).1,
      p.toNat < blocks.length ∧ NodeAt (blockAt blocks p) 8) :
    (descend major (Path.readDxBlock (m.volume hash) dir) levels from_).exec d =
      (.ok (some (route (blockAt blocks) major levels from_).2), d) := by
  induction levels generalizing from_ with
  | zero => rfl
  | succ levels ih =>
    have hmem : from_ ∈ (route (blockAt blocks) major (levels + 1) from_).1 := by
      rw [route]
      cases parseNodeEntries (blockAt blocks from_) <;> exact List.mem_cons_self
    obtain ⟨hlt, hnode⟩ := hpath from_ hmem
    rw [route_succ hnode] at hpath ⊢
    rw [descend, Io.exec_bind_ok _ _ _ _ _ (HoldsBlocks.exec_readDxBlock h hdev h64 hd hlt),
      Io.exec_bind_ok _ _ _ _ _ (by rw [Io.exec_liftM, parseNodeEntries_ok hnode])]
    dsimp only
    rw [(chosen_mem_children hnode major).1]
    exact ih (fun p hp => hpath p (List.mem_cons_of_mem _ hp))

variable (hidx : IndexedDir crc m hash ino dir blocks info leaves items)

include hidx

theorem IndexedDir.finds (name : Bytes) :
    (Path.findEntryHtree crc (m.volume hash) ino dir name).exec d =
      (.ok (((leaves.flatMap items).find? (fun e => e.name == name)).map DirEntry.inode), d) := by
  have hindex := hidx.index.index
  have hat : NodeAt (blockAt blocks 0) (24 + info.infoLength) := by
    rw [hidx.index.infoLength]
    exact hindex.root.1
  have hleaf := hidx.leaf _ (hidx.mem_leaves (indexKey hash info name))
  obtain ⟨phys0, hmap0, hread0⟩ := @HoldsBlocks.exec_block _ _ _ _ _ _ _ _ hash h hdev h64 hd 0
    ((hindex.way_lt 0).1 0 List.mem_cons_self)
  obtain ⟨phys, hmap, hread⟩ := @HoldsBlocks.exec_block _ _ _ _ _ _ _ _ hash h hdev h64 hd _
    (hindex.way_lt (indexKey hash info name)).2
  have hdescend : (lookupLeafWith name (blockAt blocks 0) hash.hashSeed hash.unsignedHash
      (Path.readDxBlock (m.volume hash) dir)).exec d =
        (.ok (some (leafOf (blockAt blocks) info.indirectLevels (indexKey hash info name))),
        d) := by
    unfold lookupLeafWith
    rw [Io.exec_bind_ok _ _ _ _ _ (by rw [Io.exec_liftM, hidx.index.parsed])]
    dsimp only
    rw [Io.exec_bind_ok _ _ _ _ _
      (by rw [Io.exec_liftM, parseRootEntries_ok hidx.index.parsed hat])]
    dsimp only
    rw [(chosen_mem_children hat 0).1, hidx.index.infoLength]
    apply HoldsBlocks.exec_descend h hdev h64 hd
    intro p hp
    have hin : p ∈ path (blockAt blocks) info.indirectLevels (indexKey hash info name) :=
      List.mem_cons_of_mem _ hp
    have hne : p ≠ 0 := by
      rintro rfl
      exact hindex.inner _ hp
    have hnode := (hindex.block _ p hin).1
    rw [dxOffset, if_neg hne] at hnode
    exact ⟨(hindex.way_lt _).1 p hin, hnode⟩
  have hfind : (leaves.flatMap items).find? (fun e => e.name == name) =
      (items (leafOf (blockAt blocks) info.indirectLevels (indexKey hash info name))).find?
        (fun e => e.name == name) := by
    apply hidx.routed.find
    intro e he
    rw [eq_of_beq he]
  rw [UInt32.toNat_zero] at hmap0
  unfold Path.findEntryHtree
  rw [Io.exec_bind_ok _ _ _ _ _ hmap0]
  dsimp only
  rw [Io.exec_bind_ok _ _ _ _ _ hread0]
  change (lookupLeafWith name (blockAt blocks 0) hash.hashSeed hash.unsignedHash _ >>= _).exec d = _
  rw [Io.exec_bind_ok _ _ _ _ _ hdescend]
  dsimp only
  rw [Io.exec_bind_ok _ _ _ _ _ hmap]
  dsimp only
  rw [Io.exec_bind_ok _ _ _ _ _ hread]
  have hchecked : ((m.volume hash).csum.enabled && hasCsumTail
    (blockAt blocks (leafOf (blockAt blocks)
      info.indirectLevels (indexKey hash info name))) && !(m.volume hash).csum.verifyDirEntryTail
        crc ino dir.generation
        (blockAt blocks (leafOf (blockAt blocks) info.indirectLevels (indexKey hash info name)))) =
          false := by
    rw [show (m.volume hash).csum = m.csum from rfl, hleaf.checked, Bool.not_true, Bool.and_false]
  have hentries := eq_map_of_mapM_id hleaf.parses
  rw [if_neg (by rw [hchecked]; exact Bool.false_ne_true), Io.exec_liftM]
  rw [show (m.volume hash).sb = m.fs.sb from rfl, hentries, Path.findIn_map_ok, hfind]

end Lookup

section Runs

variable {crc : Crc} {fuel : Nat} {hash : HashParams} {ino : UInt32} {m m' : Mount} {d d' : Disk}
  {dir : Inode} {raw : Bytes} {nodes : List Nat} {map : Nat → Option Nat} {blocks : List Bytes}
    {info : DxRootInfo}
  {leaves : List UInt32} {items : UInt32 → List DirEntry}

structure NewEntry where
  name : Bytes
  target : UInt32
  fileType : DirEntryType

def NewEntry.entry (e : NewEntry) (m : Mount) : DirEntry := newEntry m.fs.sb.hasFiletype e.target
    e.name e.fileType

/-- The transaction as an attempt to add an entry in place leaves it, which has read what it looked
at. -/
def attempted (crc : Crc) (m : Mount) (d : Disk) (ino : UInt32) (dir : Inode) (hash : HashParams)
    (buf : BlockBuffer) (name : Bytes) : BlockBuffer :=
  match m.leafForEntry crc d ino dir hash buf name with
  | .ok (_, _, buf) => buf
  | .error _ => buf

/-- A transaction that may have staged anything but the directory, and has given nothing back. -/
structure Started (crc : Crc) (m : Mount) (d : Disk) (ino : UInt32) (taken : Set Slot)
    (buf : BlockBuffer) : Prop where
  isOpen : Open crc m d buf taken ∅
  inode : m.bufferedInodeVerified crc d buf ino = m.readInodeVerified crc d ino
  kept : ∀ b, m.Content b → m.used (d.img.block m.fs.sb.blockSize) (m.blockSlot b) = true →
    buf.view d.img m.fs.sb.blockSize b = d.img.block m.fs.sb.blockSize b

/-- Transactions that each add an entry to the directory: in the leaf that its name is led to, or
when that is full by a split of the leaf. In between others may have failed, so long as the mount
goes on. -/
inductive IndexAdds (crc : Crc) (fuel : Nat) (hash : HashParams) (ino : UInt32) :
    Mount → Disk → List NewEntry → Mount → Disk → Prop where
  | done (m : Mount) (d : Disk) : IndexAdds crc fuel hash ino m d [] m d
  | inPlace {m m₁ m' : Mount} {d d₁ d' : Disk} {dir : Inode} {raw : Bytes} {taken : Set Slot}
      {start buf : BlockBuffer}
      {e : NewEntry} {more : List NewEntry} (hread : m.readInodeVerified crc d ino = .ok (dir, raw))
      (hstart : Started crc m d ino taken start)
      (hadd : m.bufferAddDirEntryInplace crc d hash start ino dir e.name e.target
        e.fileType = .ok buf)
      (hcommit : (m.commitBlockBuffer crc buf).exec d = (.ok (.ok (), m₁), d₁))
      (hrest : IndexAdds crc fuel hash ino m₁ d₁ more m' d') : IndexAdds crc fuel hash ino m d
        (e :: more) m' d'
  | split {m m₁ m' : Mount} {d d₁ d' : Disk} {dir : Inode} {raw : Bytes} {taken : Set Slot}
      {start buf : BlockBuffer}
      {e : NewEntry} {more : List NewEntry} (hread : m.readInodeVerified crc d ino = .ok (dir, raw))
      (hstart : Started crc m d ino taken start)
      (hfull : m.bufferAddDirEntryInplace crc d hash start ino dir e.name e.target e.fileType =
        .error .outOfBounds)
      (hsplit : m.bufferSplitHtreeLeafAndAddEntry crc d fuel hash
        (attempted crc m d ino dir hash start e.name) ino
        e.name e.target e.fileType m.fs.sb.hasFiletype = some (.ok (some buf)))
      (hcommit : (m.commitBlockBuffer crc buf).exec d = (.ok (.ok (), m₁), d₁))
      (hrest : IndexAdds crc fuel hash ino m₁ d₁ more m' d') : IndexAdds crc fuel hash ino m d
        (e :: more) m' d'
  | failed {m m₁ m' : Mount} {d d₁ d' : Disk} {buf : BlockBuffer} {more : List NewEntry}
      {error : Error}
      (hcommit : (m.commitBlockBuffer crc buf).exec d = (.ok (.error error, m₁), d₁))
        (hlive : ¬ m₁.Halted)
      (hrest : IndexAdds crc fuel hash ino m₁ d₁ more m' d') : IndexAdds crc fuel hash ino m
        d more m' d'

theorem HoldsBlocks.started {taken : Set Slot} {buf : BlockBuffer}
    (hstart : Started crc m d ino taken buf)
    (hread : m.readInodeVerified crc d ino = .ok (dir, raw))
    (hd : HoldsBlocks crc m (d.img.block m.fs.sb.blockSize) ino dir nodes map blocks) :
    DirTxn crc m d buf taken ino dir raw nodes map blocks ∧ m.NodesLanded d buf nodes := by
  have hdir := hd.directory
  have hnodes : m.NodesLanded d buf nodes := by
    intro b hb
    obtain ⟨hc, hu⟩ := hdir.content b hb
    exact hstart.kept b hc hu
  have hused : ∀ {s}, m.used (d.img.block m.fs.sb.blockSize) s = true →
      m.used (buf.view d.img m.fs.sb.blockSize) s = true :=
    fun {s} hs => hstart.isOpen.kept s hs (fun hin => hin)
  refine ⟨⟨hstart.isOpen, hstart.inode.trans hread,
    ⟨⟨hdir.isDir, hdir.inline, hdir.mapped.congr hnodes, hdir.dense,
    fun b hb => ⟨(hdir.content b hb).1, hused (hdir.content b hb).2⟩⟩, hd.count, ?_, hd.apart,
      hd.lands⟩⟩, hnodes⟩
  intro i phys hi
  obtain ⟨hc, hu, hnot, hget⟩ := hd.held i phys hi
  rw [hstart.kept phys hc hu]
  exact ⟨hc, hused hu, hnot, hget⟩

theorem IndexedDir.of_committed {buf : BlockBuffer} (hc : Committed m m' d d' buf)
    (h : IndexedDir crc m hash ino dir blocks info leaves items) :
    IndexedDir crc m' hash ino dir blocks info leaves items := by
  obtain ⟨fs', csum', cleared', journal', direct'⟩ := m'
  obtain rfl : fs' = m.fs := hc.fs
  obtain rfl : csum' = m.csum := hc.csum
  exact ⟨h.indexed, h.index, fun l hl =>
    ⟨(h.leaf l hl).slots, (h.leaf l hl).length, (h.leaf l hl).checked⟩, h.routed⟩

/-- A volume whose directory holds these entries, each where its index leads to. -/
structure HoldsIndexed (crc : Crc) (m : Mount) (d : Disk) (hash : HashParams) (ino : UInt32)
    (entries : List DirEntry) :
    Prop where
  consistent : Consistent crc m d
  fits : m.fs.sb.blocksCount * m.fs.sb.blockSize ≤ min d.size m.fs.sizeBytes
  addressable : d.size < 2 ^ 64
  indexed : ∃ dir raw nodes map blocks info leaves items, m.readInodeVerified crc d ino =
    .ok (dir, raw) ∧
    HoldsBlocks crc m (d.img.block m.fs.sb.blockSize) ino dir nodes map blocks ∧
    IndexedDir crc m hash ino dir blocks info leaves items ∧ leaves.flatMap items = entries

theorem HoldsIndexed.landed {taken : Set Slot} {buf : BlockBuffer} {entries : List DirEntry}
    (hs : HoldsIndexed crc m d hash ino entries)
      (ht : DirTxn crc m d buf taken ino dir raw nodes map blocks)
    (hidx : IndexedDir crc m hash ino dir blocks info leaves items)
    (hcommit : (m.commitBlockBuffer crc buf).exec d = (.ok (.ok (), m'), d')) :
    m'.fs = m.fs ∧ HoldsIndexed crc m' d' hash ino (leaves.flatMap items) := by
  obtain ⟨dir₀, raw₀, -, -, -, -, -, -, hread, -, -, -⟩ := hs.indexed
  obtain ⟨hc, hconsistent, -, hread', hholds⟩ := ht.holds.landed hs.consistent ht.isOpen hs.fits
    hs.addressable ⟨_, hread⟩ ht.found hcommit
  refine ⟨hc.fs, hconsistent, ?_, ?_, dir, raw, nodes, map, blocks, info, leaves, items, hread', ?_,
    hidx.of_committed hc, rfl⟩
  · rw [hc.fs, hc.size]
    exact hs.fits
  · rw [hc.size]
    exact hs.addressable
  · rw [hc.fs]
    exact hholds

theorem HoldsIndexed.inPlace {taken : Set Slot} {start buf : BlockBuffer} {entries : List DirEntry}
    {e : NewEntry}
    (hs : HoldsIndexed crc m d hash ino entries) (hread : m.readInodeVerified crc d ino =
      .ok (dir, raw))
    (hstart : Started crc m d ino taken start)
    (hadd : m.bufferAddDirEntryInplace crc d hash start ino dir e.name e.target
      e.fileType = .ok buf)
    (hcommit : (m.commitBlockBuffer crc buf).exec d = (.ok (.ok (), m'), d')) :
    m'.fs = m.fs ∧ ∃ entries', HoldsIndexed crc m' d' hash ino entries' ∧
    entries'.Perm (e.entry m :: entries) := by
  obtain ⟨dir₀, raw₀, nodes, map, blocks, info, leaves, items, hread₀, hd, hidx, rfl⟩ := hs.indexed
  obtain ⟨rfl, rfl⟩ := Prod.mk.inj (Except.ok.inj (hread.symm.trans hread₀))
  obtain ⟨ht, hnodes⟩ := hd.started hstart hread
  have hdev := Nat.le_trans hs.fits (Nat.min_le_left _ _)
  rw [bufferAddDirEntryInplace, if_pos hidx.indexed] at hadd
  obtain ⟨blocks', items', ht', -, hidx', hall⟩ := ht.added hs.consistent hdev hs.addressable
    hnodes hidx hadd
  obtain ⟨hfs, hs'⟩ := hs.landed ht' hidx' hcommit
  exact ⟨hfs, _, hs', hall⟩

theorem HoldsIndexed.split {taken : Set Slot} {start buf : BlockBuffer} {entries : List DirEntry}
    {e : NewEntry}
    (hs : HoldsIndexed crc m d hash ino entries) (hread : m.readInodeVerified crc d ino =
      .ok (dir, raw))
    (hstart : Started crc m d ino taken start) (hfuel : extMaxDepth < fuel)
    (hsplit : m.bufferSplitHtreeLeafAndAddEntry crc d fuel hash
      (attempted crc m d ino dir hash start e.name) ino
      e.name e.target e.fileType m.fs.sb.hasFiletype = some (.ok (some buf)))
    (hcommit : (m.commitBlockBuffer crc buf).exec d = (.ok (.ok (), m'), d')) :
    m'.fs = m.fs ∧ ∃ entries', HoldsIndexed crc m' d' hash ino entries' ∧
    entries'.Perm (e.entry m :: entries) := by
  obtain ⟨dir₀, raw₀, nodes, map, blocks, info, leaves, items, hread₀, hd, hidx, rfl⟩ := hs.indexed
  obtain ⟨rfl, rfl⟩ := Prod.mk.inj (Except.ok.inj (hread.symm.trans hread₀))
  obtain ⟨ht, hnodes⟩ := hd.started hstart hread
  have hdev := Nat.le_trans hs.fits (Nat.min_le_left _ _)
  have hattempt : DirTxn crc m d (attempted crc m d ino dir hash start e.name) taken ino dir raw
    nodes map blocks ∧
      m.NodesLanded d (attempted crc m d ino dir hash start e.name) nodes := by
    unfold attempted
    cases hleaf : m.leafForEntry crc d ino dir hash start e.name with
    | error error => exact ⟨ht, hnodes⟩
    | ok found =>
      obtain ⟨phys, block, buf₁⟩ := found
      obtain ⟨ht₁, hview, -, -⟩ := ht.leafForEntry hs.consistent hdev hs.addressable
        hnodes hidx hleaf
      refine ⟨ht₁, ?_⟩
      intro b hb
      dsimp only
      rw [hview]
      exact hnodes b hb
  obtain ⟨ht₁, hnodes₁⟩ := hattempt
  obtain ⟨taken', dir', raw', nodes', map', blocks', leaves', items', ht', -, hidx', hall⟩ :=
    ht₁.split hs.consistent hdev hs.addressable hnodes₁ hidx hfuel hsplit
  obtain ⟨hfs, hs'⟩ := hs.landed ht' hidx' hcommit
  exact ⟨hfs, _, hs', hall⟩

theorem perm_of_committed {e : NewEntry} {more : List NewEntry}
    {entries entries₁ entries' : List DirEntry}
    (hfs : m'.fs = m.fs) (hone : entries₁.Perm (e.entry m :: entries))
    (hrest : entries'.Perm (more.map (fun e => e.entry m') ++ entries₁)) :
    entries'.Perm ((e :: more).map (fun e => e.entry m) ++ entries) := by
  have hentry : (fun e : NewEntry => e.entry m') = fun e => e.entry m := by
    funext e
    unfold NewEntry.entry
    rw [hfs]
  rw [hentry] at hrest
  exact hrest.trans ((hone.append_left _).trans List.perm_middle)

theorem IndexAdds.keeps {added : List NewEntry} {entries : List DirEntry}
    (hrun : IndexAdds crc fuel hash ino m d added m' d')
      (hs : HoldsIndexed crc m d hash ino entries)
    (hfuel : extMaxDepth < fuel) :
    ∃ entries', HoldsIndexed crc m' d' hash ino entries' ∧
      entries'.Perm (added.map (fun e => e.entry m) ++ entries) := by
  induction hrun generalizing entries with
  | done m d => exact ⟨entries, hs, List.Perm.refl _⟩
  | @failed m m₁ m' d d₁ d' buf more error hcommit hlive hrest ih =>
    obtain hhalt | ⟨hm, hdisk⟩ := commitBlockBuffer_error hcommit
    · exact absurd hhalt hlive
    · rw [hm, hdisk] at ih
      exact ih hs
  | @inPlace m m₁ m' d d₁ d' dir raw taken start buf e more hread hstart hadd hcommit hrest ih =>
    obtain ⟨hfs, entries₁, hs₁, hperm⟩ := hs.inPlace hread hstart hadd hcommit
    obtain ⟨entries', hs', hperm'⟩ := ih hs₁
    exact ⟨entries', hs', perm_of_committed hfs hperm hperm'⟩
  | @split m m₁ m' d d₁ d' dir raw taken start buf e more hread hstart hfull hsplit
      hcommit hrest ih =>
    obtain ⟨hfs, entries₁, hs₁, hperm⟩ := hs.split hread hstart hfuel hsplit hcommit
    obtain ⟨entries', hs', hperm'⟩ := ih hs₁
    exact ⟨entries', hs', perm_of_committed hfs hperm hperm'⟩

/-- After any run of transactions that add entries to an indexed directory, in place or by splits of
full leaves, a lookup through the index finds what is among its entries, and nothing else. -/
theorem indexed_entries_are_found {added : List NewEntry} {entries : List DirEntry}
    (hs : HoldsIndexed crc m d hash ino entries) (hfuel : extMaxDepth < fuel)
    (hrun : IndexAdds crc fuel hash ino m d added m' d') :
    ∃ entries', HoldsIndexed crc m' d' hash ino entries' ∧
      entries'.Perm (added.map (fun e => e.entry m) ++ entries) ∧
      ∃ dir raw, m'.readInodeVerified crc d' ino = .ok (dir, raw) ∧
        ∀ name, (Path.findEntryHtree crc (m'.volume hash) ino dir name).exec d' =
          (.ok ((entries'.find? (fun e => e.name == name)).map DirEntry.inode), d') := by
  obtain ⟨entries', hs', hperm⟩ := hrun.keeps hs hfuel
  obtain ⟨dir, raw, nodes, map, blocks, info, leaves, items, hread, hd, hidx, hentries⟩ :=
    hs'.indexed
  refine ⟨entries', hs', hperm, dir, raw, hread, ?_⟩
  intro name
  rw [← hentries]
  exact hidx.finds hs'.consistent (Nat.le_trans hs'.fits (Nat.min_le_left _ _))
    hs'.addressable hd name

end Runs

section Computed

variable {crc : Crc} {fuel : Nat} {hash : HashParams} {ino : UInt32} {m m' : Mount} {d d' : Disk}

/-- A transaction of its own that stages an entry, as `create`, `link` and `rename` do: in place or
by a split. -/
def stageEntry (crc : Crc) (fuel : Nat) (hash : HashParams) (ino : UInt32) (m : Mount) (d : Disk)
    (dir : Inode) (e : NewEntry) : Option BlockBuffer :=
  match m.bufferAddDirEntryInplace crc d hash BlockBuffer.new ino dir e.name e.target
    e.fileType with
  | .ok buf => some buf
  | .error .outOfBounds =>
    match m.bufferSplitHtreeLeafAndAddEntry crc d fuel hash
      (attempted crc m d ino dir hash BlockBuffer.new e.name) ino
      e.name e.target e.fileType m.fs.sb.hasFiletype with
    | some (.ok (some buf)) => some buf
    | _ => none
  | .error _ => none

/-- The run in which every transaction is committed, when they all can be. -/
def addIndexEntries (crc : Crc) (fuel : Nat) (hash : HashParams) (ino : UInt32) :
    Mount → Disk → List NewEntry → Option (Mount × Disk)
  | m, d, [] => some (m, d)
  | m, d, e :: more =>
    match m.readInodeVerified crc d ino with
    | .ok (dir, _) =>
      match stageEntry crc fuel hash ino m d dir e with
      | some buf =>
        match (m.commitBlockBuffer crc buf).exec d with
        | (.ok (.ok (), m₁), d₁) => addIndexEntries crc fuel hash ino m₁ d₁ more
        | _ => none
      | none => none
    | .error _ => none

theorem Started.new {dir : Inode} {raw : Bytes} (h : Consistent crc m d)
    (hread : m.readInodeVerified crc d ino = .ok (dir, raw)) : Started crc m d ino ∅
      BlockBuffer.new where
  isOpen := h.coherent.isOpen .new
  inode := by
    obtain ⟨blk, off, hat⟩ := readInodeVerified_ok hread
    unfold bufferedInodeVerified
    rw [hat.located]
    rfl
  kept := by
    intro b _ _
    rw [BlockBuffer.view_new]

theorem addIndexEntries_adds {added : List NewEntry} {entries : List DirEntry}
    (hs : HoldsIndexed crc m d hash ino entries) (hfuel : extMaxDepth < fuel)
    (h : addIndexEntries crc fuel hash ino m d added = some (m', d')) :
    IndexAdds crc fuel hash ino m d added m' d' := by
  induction added generalizing m d entries with
  | nil =>
    obtain ⟨rfl, rfl⟩ := Prod.mk.inj (Option.some.inj h)
    exact .done m d
  | cons e more ih =>
    unfold addIndexEntries at h
    split at h
    · rename_i dir raw hread
      have hstart := Started.new hs.consistent hread
      split at h
      · rename_i buf hstage
        split at h
        · rename_i m₁ d₁ hcommit
          unfold stageEntry at hstage
          split at hstage
          · rename_i staged hadd
            obtain rfl := Option.some.inj hstage
            obtain ⟨-, entries', hs', -⟩ := hs.inPlace hread hstart hadd hcommit
            exact .inPlace hread hstart hadd hcommit (ih hs' h)
          · rename_i hfull
            split at hstage
            · rename_i staged hsplit
              obtain rfl := Option.some.inj hstage
              obtain ⟨-, entries', hs', -⟩ := hs.split hread hstart hfuel hsplit hcommit
              exact .split hread hstart hfull hsplit hcommit (ih hs' h)
            · cases hstage
          · cases hstage
        · cases h
      · cases h
    · cases h

end Computed

def indexDir : Bytes :=
  copyAll (List.replicate 256 0) [(0, u16le 0x41ED), (4, u32le 2048), (0x1A, u16le 2),
    (0x1C, u32le 4), (0x20, u32le 0x1000), (0x28, u32le 9), (0x2C, u32le 10), (0x80, u16le 32)]

def indexRootHead : Bytes :=
  u32le 12 ++ u16le 12 ++ [1, 2, 0x2E, 0] ++ [0, 0] ++ u32le 2 ++ u16le 1012 ++
    [2, 2, 0x2E, 0x2E] ++ [0, 0] ++ [0, 0, 0, 0] ++ [0, 8, 0, 0] ++ u16le 123 ++ u16le 1 ++ u32le 1

def longName (c : UInt8) : Bytes := List.replicate 248 c

def longSlot (c : UInt8) : Dir.Slot := ⟨13, 248, 1, longName c⟩

def indexSlots : List Dir.Slot := [0x61, 0x62, 0x63, 0x64].map longSlot

def indexEntries : List DirEntry := [0x61, 0x62, 0x63, 0x64].map
    (fun c => ⟨13, longName c, .regFile⟩)

/-- Blocks 1 to 8 are the tables', 9 the root of the index and 10 its leaf. -/
def indexDisk : Disk where
  img := Image.writeAll (fun _ => 0) [(2 * 1024, pointerVolume.fs.groups.flatMap rawDescriptor),
    (3 * 1024, [0xFF, 0x03]), (4 * 1024, [0xFF, 0x0F]), (7 * 1024 + 768, indexDir),
    (9 * 1024, indexRootHead),
    (10 * 1024, (longSlot 0x61).bytes), (10 * 1024 + 256, (longSlot 0x62).bytes),
    (10 * 1024 + 512, (longSlot 0x63).bytes), (10 * 1024 + 768, (longSlot 0x64).bytes)]
  size := 64 * 1024

def indexHash : HashParams := ⟨[0, 0, 0, 0], false⟩

def indexBlocks : List Bytes := [indexDisk.img.block 1024 9, indexDisk.img.block 1024 10]

example : indexDisk.img.read (7 * 1024 + 768) 256 = indexDir := by decide +kernel

theorem indexDisk_mounted : Mounted linuxCrc32c pointerVolume indexDisk where
  parsed := ⟨⟨0, 0, by decide⟩, by decide, by decide⟩
  clusters := by decide
  groups := by
    have hends : Result.Ends (fun groups => groups = pointerVolume.fs.groups)
        ((readAll linuxCrc32c inlineSb ⟨0, false⟩ (64 * 1024)).exec indexDisk).1 := by
      decide +kernel
    obtain ⟨groups, hg, rfl⟩ := hends.exists_ok
    exact readAll_eq_of_fst hg
  cleared := rfl
  separate := separate_of_forall (by decide) (by decide) (by decide)
  offJournal := fun jw hjw => by cases hjw
  initialised := by
    intro b hb hbit hu
    have hall : ∀ b ∈ List.range 9, b = 0 ∨
        pointerVolume.used (indexDisk.img.block 1024) (pointerVolume.blockSlot b) = true := by
      decide +kernel
    have hfirst : 1 ≤ b := hb.1
    exact (hall b (List.mem_range.mpr (pointer_isMetadata_lt hb))).resolve_left (by omega)
  uninitialised := by
    intro b hb hbit hu
    have hall : ∀ b ∈ List.range 9,
        pointerVolume.uninitIn (indexDisk.img.block 1024) .block (pointerVolume.blockSlot b).group =
          false := by
      decide +kernel
    rw [show pointerVolume.fs.sb.blockSize = 1024 from rfl,
      hall b (List.mem_range.mpr (pointer_isMetadata_lt hb))] at hu
    cases hu

theorem indexDisk_consistent : Consistent linuxCrc32c pointerVolume indexDisk where
  coherent := indexDisk_mounted.coherent.1
  blockSize := by decide
  addressable := by decide
  origin := by decide
  inodeSize := by decide
  descriptors := by
    have hall : ∀ g < 1, pointerVolume.IsMetadata (pointerVolume.descAt g).1 := by decide
    exact hall
  inodeTables := offTables_of_le 5 (by decide)
  journal := fun jw hjw => by cases hjw

theorem indexDisk_inode : pointerVolume.readInodeVerified linuxCrc32c indexDisk 12 =
    .ok (Inode.fields indexDir, indexDir) := by
  have hends : Result.Ends (fun r => r = (Inode.fields indexDir, indexDir))
      (pointerVolume.readInodeVerified linuxCrc32c indexDisk 12) := by
    decide +kernel
  obtain ⟨r, hr, rfl⟩ := hends.exists_ok
  exact hr

theorem indexDir_map (v : Nat → Bytes) (i : Nat) :
    tableMap 1024 v (Inode.fields indexDir).block i = if i < 2 then some (9 + i) else none := by
  have hslots : ∀ i < 12, Indirect.present (Indirect.ptrAt (Inode.fields indexDir).block i) =
      if i < 2 then some (9 + i) else none := by
    decide +kernel
  have hsingle : Indirect.ptrAt (Inode.fields indexDir).block 12 = 0 := by decide +kernel
  unfold tableMap
  by_cases hi : i < Indirect.directCount
  · rw [if_pos hi]
    exact hslots i hi
  · have hge : ¬ i < 2 := fun hlt => hi (Nat.lt_trans hlt (by decide))
    rw [if_neg hi, hsingle, if_pos rfl, ite_self, if_neg hge]

theorem indexDir_holds : HoldsBlocks linuxCrc32c pointerVolume (indexDisk.img.block 1024) 12
    (Inode.fields indexDir) (tableNodes (Inode.fields indexDir).block)
    (tableMap 1024 (indexDisk.img.block 1024) (Inode.fields indexDir).block) indexBlocks := by
  have hnodes : tableNodes (Inode.fields indexDir).block = [] := by decide +kernel
  have hsize : divCeil (Inode.fields indexDir).size 1024 = 2 := by decide +kernel
  have hmapped : ∀ {i phys}, tableMap 1024 (indexDisk.img.block 1024) (Inode.fields indexDir).block
    i = some phys →
      i < 2 ∧ phys = 9 + i := by
    intro i phys hi
    rw [indexDir_map] at hi
    split at hi
    · rename_i hlt
      exact ⟨hlt, (Option.some.inj hi).symm⟩
    · cases hi
  refine ⟨⟨by decide +kernel, by decide +kernel, ?_, ?_, ?_⟩, ?_, ?_, ?_,
    fun b _ jw hjw => by cases hjw⟩
  · exact .table (by decide +kernel) (by decide +kernel) (by decide +kernel)
  · intro i
    rw [show pointerVolume.fs.sb.blockSize = 1024 from rfl, hsize, indexDir_map]
    by_cases hi : i < 2
    · simp [hi]
    · simp [hi]
  · rw [hnodes]
    exact fun b hb => absurd hb List.not_mem_nil
  · rw [show pointerVolume.fs.sb.blockSize = 1024 from rfl, hsize]
    rfl
  · intro i phys hi
    obtain ⟨hlt, rfl⟩ := hmapped hi
    have hused : ∀ i < 2, pointerVolume.used (indexDisk.img.block 1024)
        (pointerVolume.blockSlot (9 + i)) = true := by
      decide +kernel
    refine ⟨⟨show 1 ≤ 9 + i by omega, show 9 + i < 64 by omega, fun hm => ?_⟩, hused i hlt, ?_, ?_⟩
    · have hlow := pointer_isMetadata_lt hm
      omega
    · rw [hnodes]
      exact List.not_mem_nil
    · obtain rfl | rfl := Nat.le_one_iff_eq_zero_or_eq_one.mp (Nat.le_of_lt_succ hlt) <;> rfl
  · intro i j phys hi hj
    obtain ⟨-, rfl⟩ := hmapped hi
    obtain ⟨-, hp⟩ := hmapped hj
    omega

/-- The info of the one root there is: hashes of the first version, and no level of nodes. -/
def indexInfo : DxRootInfo := ⟨0, .legacy, 8, 0, 0⟩

example : slotEntries true indexSlots = indexEntries := by decide +kernel

theorem indexDir_leafOf (a : UInt32) : leafOf (blockAt indexBlocks) 0 a = 1 ∧
    NodeAt (blockAt indexBlocks 0) 32 ∧ children (blockAt indexBlocks 0) 32 = [1] := by
  have hnode : NodeAt (blockAt indexBlocks 0) 32 :=
    ⟨by decide +kernel, by decide +kernel, by decide +kernel⟩
  have hchildren : children (blockAt indexBlocks 0) 32 = [1] := by decide +kernel
  have hmem := chosenBlock_mem hnode a
  rw [hchildren] at hmem
  have hone := List.mem_singleton.mp hmem
  refine ⟨?_, hnode, hchildren⟩
  rw [leafOf, route]
  dsimp only
  exact hone

theorem indexDir_indexed : IndexedDir linuxCrc32c pointerVolume indexHash 12
    (Inode.fields indexDir) indexBlocks indexInfo [1] (fun _ => indexEntries) := by
  have hroot := (indexDir_leafOf 0).2
  have hpath : ∀ a, ∀ p ∈ path (blockAt indexBlocks) 0 a, p = 0 := fun a p hp =>
    List.mem_singleton.mp hp
  have hleaf : ∀ a, leafOf (blockAt indexBlocks) 0 a = 1 := fun a => (indexDir_leafOf a).1
  refine ⟨by decide +kernel, ⟨?_, rfl, ⟨?_, ?_, ?_, ?_, ?_⟩⟩, ?_, ⟨by decide, ?_, ?_⟩⟩
  · have hends : Result.Ends (fun info => info = indexInfo)
        (parseRootInfo (blockAt indexBlocks 0)) := by
      decide +kernel
    obtain ⟨info, hinfo, rfl⟩ := hends.exists_ok
    exact hinfo
  · intro a p hp
    obtain rfl := hpath a p hp
    refine ⟨hroot.1, ?_, ?_⟩
    · change (children (blockAt indexBlocks 0) 32).Nodup
      rw [hroot.2]
      exact List.nodup_singleton _
    · change ∀ c ∈ children (blockAt indexBlocks 0) 32, c.toNat < 2
      rw [hroot.2]
      intro c hc
      rw [List.mem_singleton.mp hc]
      exact Nat.one_lt_two
  · exact fun a => List.not_mem_nil
  · exact fun a b _ => rfl
  · intro a b hin
    have hzero := hpath b _ hin
    rw [show indexInfo.indirectLevels = 0 from rfl, hleaf a] at hzero
    exact absurd hzero (by decide)
  · intro l
    rw [List.mem_singleton]
    exact ⟨fun hl => ⟨0, (hleaf 0).trans hl.symm⟩, fun ⟨a, ha⟩ => ha.symm.trans (hleaf a)⟩
  · intro l hl
    obtain rfl := List.mem_singleton.mp hl
    have hfills : Fills true indexSlots (slotBytes indexSlots) := by
      refine ⟨rfl, ?_, by decide +kernel⟩
      intro s hs
      obtain ⟨c, -, rfl⟩ := List.mem_map.mp hs
      have hbody : (longName c).length = 248 := List.length_replicate
      refine ⟨?_, fun _ => ?_⟩
      · change (8 + (longName c).length) % 4 = 0
        rw [hbody]
      · change 248 ≤ (longName c).length
        rw [hbody]
    have hblock : blockAt indexBlocks 1 = slotBytes indexSlots := by decide +kernel
    rw [hblock]
    refine ⟨⟨indexSlots, ⟨?_, by decide +kernel, Or.inl rfl⟩, by decide +kernel⟩, by decide +kernel,
      rfl⟩
    rw [show pointerVolume.freshTail = 0 from rfl, Nat.sub_zero, List.take_length]
    exact hfills
  · exact fun a => List.mem_singleton.mpr (hleaf a)
  · intro i hi e _
    rw [List.mem_singleton.mp hi]
    exact hleaf _

theorem indexDisk_holds : HoldsIndexed linuxCrc32c pointerVolume indexDisk indexHash 12
    indexEntries where
  consistent := indexDisk_consistent
  fits := by decide
  addressable := by decide
  indexed := ⟨_, _, _, _, indexBlocks, indexInfo, [1], fun _ => indexEntries, indexDisk_inode,
    indexDir_holds, indexDir_indexed, List.flatMap_singleton _ _⟩

def indexAdded : List NewEntry := [⟨longName 0x66, 14, .regFile⟩, ⟨[0x67], 15, .regFile⟩]

example : (nameHash (longName 0x66) .legacy indexHash.hashSeed).major =
    3724216912 := by decide +kernel

theorem indexDisk_adds : ∃ m' d', IndexAdds linuxCrc32c 6 indexHash 12 pointerVolume indexDisk
    indexAdded m' d' := by
  have hsome : (addIndexEntries linuxCrc32c 6 indexHash 12 pointerVolume indexDisk
      indexAdded).isSome = true := by
    decide +kernel
  obtain ⟨⟨m', d'⟩, hrun⟩ := Option.isSome_iff_exists.mp hsome
  exact ⟨m', d', addIndexEntries_adds indexDisk_holds (by decide) hrun⟩

/-- A leaf is split and then one of its halves takes a short name. -/
theorem split_directory_finds_entries :
    ∃ m' d', IndexAdds linuxCrc32c 6 indexHash 12 pointerVolume indexDisk indexAdded m' d' ∧
      ∃ entries', HoldsIndexed linuxCrc32c m' d' indexHash 12 entries' ∧
        entries'.Perm (indexAdded.map (fun e => e.entry pointerVolume) ++ indexEntries) ∧
        ∃ dir raw, m'.readInodeVerified linuxCrc32c d' 12 = .ok (dir, raw) ∧
          ∀ name, (Path.findEntryHtree linuxCrc32c (m'.volume indexHash) 12 dir name).exec d' =
            (.ok ((entries'.find? (fun e => e.name == name)).map DirEntry.inode), d') := by
  obtain ⟨m', d', hrun⟩ := indexDisk_adds
  exact ⟨m', d', hrun, indexed_entries_are_found indexDisk_holds (by decide) hrun⟩

end Mount

end FsExt4
