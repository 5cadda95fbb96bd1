import FsExt4.BufferView
import FsExt4.DirEdit
import FsExt4.DirLookup

namespace FsExt4

open Lib Jbd2 Dir

def inodeFlagCasefold : UInt32 := 0x40000000

namespace Mount

section Model

variable (crc : Crc) (m : Mount) (d : Disk)

def mapInodeLogical (inode : Inode) (logical : Nat) : Result (Option Nat) :=
  if inode.hasInlineData then
    .error (.unsupported "inline-data inode: i_block holds data, not a block map")
  else ((Indirect.mapLogicalAny inode.block inode.flags m.fs.sb.blockSize logical).exec d).1

/-- Refuse a root or an interior node of an index whose checksum does not match. -/
def checkDxBlock (dirIno : UInt32) (dir : Inode) (block : Bytes) (root : Bool) : Result Unit :=
  if root ∧ block[29]? ≠ some 8 then .error (.corrupt "htree root info_length is not 8")
  else
    match m.csum.verifyDxTail crc dirIno dir.generation block (if root then 32 else 8) with
    | some false => .error (.badChecksum "htree index block")
    | _ => .ok ()

def reservedTail (block : Bytes) : Nat := if m.csum.enabled && hasCsumTail block then 12 else 0

def retailed (dirIno : UInt32) (dir : Inode) (reserved : Nat) (block : Bytes) : Bytes :=
  if m.csum.enabled && reserved == 12 then m.csum.patchDirEntryTail crc dirIno dir.generation block
  else block

section Edits

variable (parentIno : UInt32) (parent : Inode) (name : Bytes)

/-- What `buffer_remove_dir_entry` makes of a block: nothing, of a part of the index or of a block
without the name. -/
def removeStep (logical : Nat) (block : Bytes) : Result (Option Bytes) := do
  if isHtreeIndexBlock parent logical block then return none
  let reserved := m.reservedTail block
  match ← removeEntryFromBlock block name m.fs.sb.hasFiletype reserved with
  | some new => return some (m.retailed crc parentIno parent reserved new)
  | none => return none

variable (targetIno : UInt32) (fileType : DirEntryType)

def addToBlock (block : Bytes) : Result Bytes := do
  let reserved := m.reservedTail block
  let new ← addEntryToBlock block targetIno name fileType m.fs.sb.hasFiletype reserved
  return m.retailed crc parentIno parent reserved new

/-- What `buffer_add_dir_entry_inplace` makes of a block: nothing, of one with no room. -/
def addStep (_logical : Nat) (block : Bytes) : Result (Option Bytes) :=
  match m.addToBlock crc parentIno parent name targetIno fileType block with
  | .ok new => .ok (some new)
  | .error .outOfBounds => .ok none
  | .error e => .error e

end Edits

/-- The mapped blocks in turn, each through `get_mut`, until there is an edit for one. -/
def scanBlocks (parent : Inode) (step : Nat → Bytes → Result (Option Bytes)) :
    List Nat → BlockBuffer → Result (Bool × BlockBuffer)
  | [], buf => .ok (false, buf)
  | logical :: rest, buf => do
    match ← m.mapInodeLogical d parent logical with
    | none => scanBlocks parent step rest buf
    | some phys =>
      let (block, buf) ← buf.getMut (m.fs.reader d) phys
      match ← step logical block with
      | some new => return (true, buf.put phys new)
      | none => scanBlocks parent step rest buf

def bufferRemoveDirEntry (buf : BlockBuffer) (parentIno : UInt32) (parent : Inode) (name : Bytes) :
    Result BlockBuffer := do
  let nBlocks := divCeil parent.size m.fs.sb.blockSize
  let (found, buf) ← m.scanBlocks d parent (m.removeStep crc parentIno parent name)
    (List.range nBlocks) buf
  if found then return buf else throw .notFound

section Indexed

variable (parentIno : UInt32) (parent : Inode)

def readLogical (logical : Nat) (buf : BlockBuffer) : Result (Bytes × BlockBuffer) := do
  match ← m.mapInodeLogical d parent logical with
  | none => throw (.corruptDirEntry "htree block is not mapped")
  | some phys => buf.getMut (m.fs.reader d) phys

/-- The descent of `lookup_leaf_with` through the nodes below `target`, read into the buffer. -/
def descendStaged (major : UInt32) : Nat → UInt32 → BlockBuffer →
    Result (Option UInt32 × BlockBuffer)
  | 0, target, buf => .ok (some target, buf)
  | levels + 1, target, buf => do
    let (node, buf) ← m.readLogical d parent target.toNat buf
    m.checkDxBlock crc parentIno parent node false
    let (_, entries) ← Htree.parseNodeEntries node
    if entries.isEmpty then return (none, buf)
    descendStaged major levels (Htree.findEntryForHash entries major).block buf

def lookupLeafStaged (hash : HashParams) (name root : Bytes) (buf : BlockBuffer) :
    Result (Option UInt32 × BlockBuffer) := do
  let info ← Htree.parseRootInfo root
  let version := Hash.effectiveVersion info.hashVersion hash.unsignedHash
  let major := (Hash.nameHash name version hash.hashSeed).major
  let (_, entries) ← Htree.parseRootEntries root
  if entries.isEmpty then return (none, buf)
  m.descendStaged crc d parentIno parent major info.indirectLevels
    (Htree.findEntryForHash entries major).block buf

def bufferAddDirEntryIndexed (hash : HashParams) (buf : BlockBuffer) (name : Bytes)
    (targetIno : UInt32) (fileType : DirEntryType) : Result BlockBuffer := do
  if parent.flags &&& (inodeFlagCasefold ||| inodeFlagEncrypt) ≠ 0 then throw .outOfBounds
  let (root, buf) ← m.readLogical d parent 0 buf
  m.checkDxBlock crc parentIno parent root true
  match ← m.lookupLeafStaged crc d parentIno parent hash name root buf with
  | (none, _) => throw (.corruptDirEntry "htree root has no entries")
  | (some leaf, buf) =>
    if leaf = 0 then throw (.corruptDirEntry "htree routes a name to its own root")
    match ← m.mapInodeLogical d parent leaf.toNat with
    | none => throw (.corruptDirEntry "htree leaf is not mapped")
    | some phys =>
      let (block, buf) ← buf.getMut (m.fs.reader d) phys
      let new ← m.addToBlock crc parentIno parent name targetIno fileType block
      return buf.put phys new

end Indexed

/-- Add a name to a directory that is kept in blocks, where a block has room for it. -/
def bufferAddDirEntryInplace (hash : HashParams) (buf : BlockBuffer) (parentIno : UInt32)
    (parent : Inode) (name : Bytes) (targetIno : UInt32) (fileType : DirEntryType) :
    Result BlockBuffer :=
  if parent.isIndexed then
    m.bufferAddDirEntryIndexed crc d parentIno parent hash buf name targetIno fileType
  else do
    let nBlocks := divCeil parent.size m.fs.sb.blockSize
    let (found, buf) ← m.scanBlocks d parent
      (m.addStep crc parentIno parent name targetIno fileType) (List.range nBlocks) buf
    if found then return buf else throw .outOfBounds

end Model

end Mount

namespace BlockBuffer

structure Reads (img : Image) (bs : Nat) (reads : List Nat) (buf buf' : BlockBuffer) : Prop where
  view : buf'.view img bs = buf.view img bs
  staged : ∀ b, buf'.Staged b ↔ buf.Staged b ∨ b ∈ reads

/-- Some blocks were read into the buffer, and one was given new bytes. -/
structure ReadThenEdit (img : Image) (bs : Nat) (reads : List Nat) (phys : Nat) (new : Bytes)
    (buf buf' : BlockBuffer) : Prop where
  view : buf'.view img bs = Function.update (buf.view img bs) phys new
  staged : ∀ b, buf'.Staged b ↔ buf.Staged b ∨ b ∈ reads ∨ b = phys

/-- Every block that was staged has new bytes, and there is no more than one. -/
structure StagesOnlyChanged (img : Image) (bs : Nat) (buf buf' : BlockBuffer) : Prop where
  changed : ∀ b, buf'.Staged b → ¬ buf.Staged b → buf'.view img bs b ≠ buf.view img bs b
  bounded : buf'.dirty.entries.length ≤ buf.dirty.entries.length + 1

theorem staged_iff_mem (buf : BlockBuffer) (b : Nat) :
    buf.Staged b ↔ b ∈ buf.dirty.entries.map Prod.fst := by
  rw [Staged, Option.isSome_iff_ne_none, ne_eq, SortedMap.get?_eq_none_iff]
  simp

namespace Reads

variable {img : Image} {bs : Nat} {reads more : List Nat} {buf buf₁ buf' : BlockBuffer}

theorem refl (img : Image) (bs : Nat) (buf : BlockBuffer) : Reads img bs [] buf buf :=
  ⟨rfl, fun b => by simp⟩

theorem trans (h : Reads img bs reads buf buf₁) (h' : Reads img bs more buf₁ buf') :
    Reads img bs (reads ++ more) buf buf' := by
  refine ⟨h'.view.trans h.view, ?_⟩
  intro b
  rw [h'.staged, h.staged, List.mem_append, or_assoc]

theorem edit (h : Reads img bs reads buf buf') (phys : Nat) (new : Bytes) :
    ReadThenEdit img bs reads phys new buf (buf'.put phys new) := by
  refine ⟨by rw [view_put, h.view], ?_⟩
  intro b
  rw [staged_put, h.staged]
  tauto

theorem of_getMut {fs : Filesystem} {d : Disk} {block : Nat} {bytes : Bytes}
    (h : buf.getMut (fs.reader d) block = .ok (bytes, buf')) :
    bytes = buf.view d.img fs.sb.blockSize block ∧ Reads d.img fs.sb.blockSize
      [block] buf buf' := by
  obtain ⟨hbytes, hview, -, hstaged⟩ := getMut_ok h
  refine ⟨hbytes, hview, ?_⟩
  intro b
  rw [hstaged, List.mem_singleton, or_comm]

end Reads

namespace ReadThenEdit

variable {img : Image} {bs phys : Nat} {reads : List Nat} {new : Bytes}
  {buf buf₁ buf' : BlockBuffer}

theorem after_reads {first : List Nat} (hreads : Reads img bs first buf buf₁)
    (h : ReadThenEdit img bs reads phys new buf₁ buf') :
    ReadThenEdit img bs (first ++ reads) phys new buf buf' := by
  refine ⟨by rw [h.view, hreads.view], ?_⟩
  intro b
  rw [h.staged, hreads.staged, List.mem_append]
  tauto

theorem stagesOnlyChanged_iff (h : ReadThenEdit img bs reads phys new buf buf')
    (hne : new ≠ buf.view img bs phys) :
    StagesOnlyChanged img bs buf buf' ↔ ∀ b ∈ reads, buf.Staged b ∨ b = phys := by
  constructor
  · intro honly b hb
    by_contra hneither
    obtain ⟨hnew, hother⟩ := not_or.mp hneither
    refine honly.changed b ((h.staged b).mpr (.inr (.inl hb))) hnew ?_
    rw [h.view, Function.update_of_ne hother]
  · intro hreads
    have hone : ∀ b, buf'.Staged b → buf.Staged b ∨ b = phys := by
      intro b hb
      obtain hb | hb | hb := (h.staged b).mp hb
      · exact .inl hb
      · exact hreads b hb
      · exact .inr hb
    constructor
    · intro b hb hnew
      obtain rfl := (hone b hb).resolve_left hnew
      rw [h.view, Function.update_self]
      exact hne
    · have hsub : buf'.dirty.entries.map Prod.fst ⊆ phys :: buf.dirty.entries.map Prod.fst := by
        intro b hb
        obtain hb | rfl := hone b ((staged_iff_mem buf' b).mpr hb)
        · exact List.mem_cons_of_mem _ ((staged_iff_mem buf b).mp hb)
        · exact List.mem_cons_self
      have hcount := buf'.dirty.nodup_keys.length_le_of_subset hsub
      simpa using hcount

end ReadThenEdit

end BlockBuffer

namespace Mount

section Scan

variable {crc : Crc} {m : Mount} {d : Disk} {parent : Inode}
  {step : Nat → Bytes → Result (Option Bytes)}

def physicals (m : Mount) (d : Disk) (parent : Inode) (ls : List Nat) : List Nat :=
  ls.filterMap (fun l => match m.mapInodeLogical d parent l with
    | .ok phys => phys
    | .error _ => none)

theorem mem_physicals {ls : List Nat} {phys : Nat} : phys ∈ m.physicals d parent ls ↔
    ∃ l ∈ ls, m.mapInodeLogical d parent l = .ok (some phys) := by
  rw [physicals, List.mem_filterMap]
  refine exists_congr fun l => and_congr_right fun _ => ?_
  cases m.mapInodeLogical d parent l with
  | error e => simp
  | ok found => simp

def EditsAt (m : Mount) (d : Disk) (parent : Inode) (step : Nat → Bytes → Result (Option Bytes))
    (view : Nat → Bytes) (l : Nat) : Prop :=
  ∃ phys new, m.mapInodeLogical d parent l = .ok (some phys) ∧ step l (view phys) = .ok (some new)

theorem scanBlocks_found {ls : List Nat} {buf buf' : BlockBuffer}
    (h : m.scanBlocks d parent step ls buf = .ok (true, buf')) :
    ∃ pre k post phys new, ls = pre ++ k :: post ∧
      m.mapInodeLogical d parent k = .ok (some phys) ∧
      step k (buf.view d.img m.fs.sb.blockSize phys) = .ok (some new) ∧
      (∀ l ∈ pre, ¬ m.EditsAt d parent step (buf.view d.img m.fs.sb.blockSize) l) ∧
      BlockBuffer.ReadThenEdit d.img m.fs.sb.blockSize (m.physicals d parent pre) phys new
        buf buf' := by
  induction ls generalizing buf with
  | nil => cases h
  | cons l ls ih =>
    rw [scanBlocks] at h
    obtain ⟨found, hmap, h⟩ := Result.bind_eq_ok h
    cases found with
    | none =>
      obtain ⟨pre, k, post, phys, new, rfl, hk, hstep, hpre, hread⟩ := ih h
      refine ⟨l :: pre, k, post, phys, new, rfl, hk, hstep, ?_, ?_⟩
      · intro l' hl'
        obtain rfl | hl' := List.mem_cons.mp hl'
        · rintro ⟨phys', new', hmapped, -⟩
          rw [hmap] at hmapped
          cases hmapped
        · exact hpre l' hl'
      · have hskip : m.physicals d parent (l :: pre) = m.physicals d parent pre := by
          simp [physicals, hmap]
        rwa [hskip]
    | some phys =>
      obtain ⟨⟨block, buf₁⟩, hget, h⟩ := Result.bind_eq_ok h
      obtain ⟨rfl, hreads⟩ := BlockBuffer.Reads.of_getMut hget
      obtain ⟨edit, hedit, h⟩ := Result.bind_eq_ok h
      cases edit with
      | some new =>
        obtain ⟨-, rfl⟩ := Prod.mk.inj (Except.ok.inj h)
        refine ⟨[], l, ls, phys, new, rfl, hmap, hedit, nofun, ?_⟩
        have hself := hreads.edit phys new
        refine ⟨hself.view, fun b => ?_⟩
        rw [hself.staged, List.mem_singleton, or_self]
        simp [physicals]
      | none =>
        obtain ⟨pre, k, post, phys', new, rfl, hk, hstep, hpre, hread⟩ := ih h
        rw [hreads.view] at hstep hpre
        refine ⟨l :: pre, k, post, phys', new, rfl, hk, hstep, ?_, ?_⟩
        · intro l' hl'
          obtain rfl | hl' := List.mem_cons.mp hl'
          · rintro ⟨phys'', new', hmapped, hnew⟩
            rw [hmap] at hmapped
            obtain rfl := Option.some.inj (Except.ok.inj hmapped)
            rw [hedit] at hnew
            cases hnew
          · exact hpre l' hl'
        · have hseen : m.physicals d parent (l :: pre) = [phys] ++ m.physicals d parent pre := by
            simp [physicals, hmap]
          rw [hseen]
          exact hread.after_reads hreads

end Scan

end Mount

namespace Htree

/-- The interior nodes that a descent from `target` reads, and the leaf it comes to. -/
def route (node : UInt32 → Bytes) (major : UInt32) : Nat → UInt32 → List UInt32 × UInt32
  | 0, target => ([], target)
  | levels + 1, target =>
    match parseNodeEntries (node target) with
    | .ok (_, entries) =>
      let below := route node major levels (findEntryForHash entries major).block
      (target :: below.1, below.2)
    | .error _ => ([target], target)

end Htree

namespace Mount

section Index

variable (m : Mount) (d : Disk) (parent : Inode)

def logicalBlock (view : Nat → Bytes) (logical : Nat) : Bytes :=
  match m.mapInodeLogical d parent logical with
  | .ok (some phys) => view phys
  | _ => []

def indexRoute (hash : HashParams) (name : Bytes) (view : Nat → Bytes) : List UInt32 × UInt32 :=
  let root := m.logicalBlock d parent view 0
  match Htree.parseRootInfo root, Htree.parseRootEntries root with
  | .ok info, .ok (_, entries) =>
    let version := Hash.effectiveVersion info.hashVersion hash.unsignedHash
    let major := (Hash.nameHash name version hash.hashSeed).major
    let below := Htree.route (fun l => m.logicalBlock d parent view l.toNat) major
      info.indirectLevels (Htree.findEntryForHash entries major).block
    (0 :: below.1, below.2)
  | _, _ => ([0], 0)

end Index

section Descent

variable {crc : Crc} {m : Mount} {d : Disk} {parentIno : UInt32} {parent : Inode}

theorem readLogical_ok {logical : Nat} {buf buf' : BlockBuffer} {bytes : Bytes}
    (h : m.readLogical d parent logical buf = .ok (bytes, buf')) :
    bytes = m.logicalBlock d parent (buf.view d.img m.fs.sb.blockSize) logical ∧
      BlockBuffer.Reads d.img m.fs.sb.blockSize (m.physicals d parent [logical]) buf buf' := by
  unfold readLogical at h
  obtain ⟨found, hmap, h⟩ := Result.bind_eq_ok h
  cases found with
  | none => cases h
  | some phys =>
    obtain ⟨rfl, hreads⟩ := BlockBuffer.Reads.of_getMut h
    have hseen : m.physicals d parent [logical] = [phys] := by
      simp [physicals, hmap]
    rw [hseen, logicalBlock, hmap]
    exact ⟨rfl, hreads⟩

theorem physicals_append (ls ls' : List Nat) :
    m.physicals d parent (ls ++ ls') = m.physicals d parent ls ++ m.physicals d parent ls' :=
  List.filterMap_append

theorem descendStaged_ok {major leaf : UInt32} {levels : Nat} {target : UInt32}
    {buf buf' : BlockBuffer}
    (h : m.descendStaged crc d parentIno parent major levels target buf = .ok (some leaf, buf')) :
    (Htree.route (fun l => m.logicalBlock d parent (buf.view d.img m.fs.sb.blockSize) l.toNat) major
        levels target).2 = leaf ∧
      BlockBuffer.Reads d.img m.fs.sb.blockSize (m.physicals d parent ((Htree.route
        (fun l => m.logicalBlock d parent (buf.view d.img m.fs.sb.blockSize) l.toNat) major
        levels target).1.map UInt32.toNat)) buf buf' := by
  induction levels generalizing target buf with
  | zero =>
    obtain ⟨hleaf, rfl⟩ := Prod.mk.inj (Except.ok.inj h)
    exact ⟨Option.some.inj hleaf, BlockBuffer.Reads.refl _ _ _⟩
  | succ levels ih =>
    rw [descendStaged] at h
    obtain ⟨⟨node, buf₁⟩, hread, h⟩ := Result.bind_eq_ok h
    obtain ⟨rfl, hreads⟩ := readLogical_ok hread
    obtain ⟨-, -, h⟩ := Result.bind_eq_ok h
    obtain ⟨⟨limits, entries⟩, hparse, h⟩ := Result.bind_eq_ok h
    dsimp only at h
    split at h
    · cases h
    · obtain ⟨hleaf, hbelow⟩ := ih h
      rw [hreads.view] at hleaf hbelow
      rw [Htree.route, hparse]
      refine ⟨hleaf, ?_⟩
      rw [List.map_cons, ← List.singleton_append, physicals_append]
      exact hreads.trans hbelow

theorem lookupLeafStaged_ok {hash : HashParams} {name : Bytes} {leaf : UInt32}
    {buf buf₀ buf' : BlockBuffer}
    (hview : buf.view d.img m.fs.sb.blockSize = buf₀.view d.img m.fs.sb.blockSize)
    (h : m.lookupLeafStaged crc d parentIno parent hash name
      (m.logicalBlock d parent (buf₀.view d.img m.fs.sb.blockSize) 0) buf = .ok (some leaf, buf')) :
    ∃ below, m.indexRoute d parent hash name (buf₀.view d.img m.fs.sb.blockSize) =
      (0 :: below, leaf) ∧
      BlockBuffer.Reads d.img m.fs.sb.blockSize (m.physicals d parent (below.map UInt32.toNat))
        buf buf' := by
  unfold lookupLeafStaged at h
  obtain ⟨info, hinfo, h⟩ := Result.bind_eq_ok h
  obtain ⟨⟨limits, entries⟩, hentries, h⟩ := Result.bind_eq_ok h
  dsimp only at h
  split at h
  · cases h
  · obtain ⟨hleaf, hreads⟩ := descendStaged_ok h
    rw [hview] at hleaf hreads
    refine ⟨_, ?_, hreads⟩
    unfold indexRoute
    dsimp only
    rw [hinfo, hentries]
    dsimp only
    rw [hleaf]

end Descent

section Quiet

variable (crc : Crc) (m : Mount) (d : Disk) (parent : Inode) (buf : BlockBuffer)

/-- What the block at `k` is looked for behind is staged already, or is that block. -/
def StagedBefore (before : Nat → Prop) (k : Nat) : Prop :=
  ∀ l, before l → ∀ phys, m.mapInodeLogical d parent l = .ok (some phys) →
    buf.Staged phys ∨ m.mapInodeLogical d parent k = .ok (some phys)

/-- The blocks in front of the first that there is an edit for are staged. -/
def ScanStaged (step : Nat → Bytes → Result (Option Bytes)) : Prop :=
  ∀ k < divCeil parent.size m.fs.sb.blockSize,
    m.EditsAt d parent step (buf.view d.img m.fs.sb.blockSize) k →
    (∀ l < k, ¬ m.EditsAt d parent step (buf.view d.img m.fs.sb.blockSize) l) →
    m.StagedBefore d parent buf (· < k) k

def RouteStaged (hash : HashParams) (name : Bytes) : Prop :=
  m.StagedBefore d parent buf
    (fun l => ∃ node ∈ (m.indexRoute d parent hash name (buf.view d.img m.fs.sb.blockSize)).1,
      node.toNat = l)
    (m.indexRoute d parent hash name (buf.view d.img m.fs.sb.blockSize)).2.toNat

/-- The blocks that an insert looks at, except the one it edits, are staged. -/
def AddStaged (hash : HashParams) (parentIno : UInt32) (name : Bytes) (targetIno : UInt32)
    (fileType : DirEntryType) : Prop :=
  if parent.isIndexed then m.RouteStaged d parent buf hash name
  else m.ScanStaged d parent buf (m.addStep crc parentIno parent name targetIno fileType)

end Quiet

section Staging

variable {crc : Crc} {m : Mount} {d : Disk} {parentIno targetIno : UInt32} {parent : Inode}
  {name : Bytes} {fileType : DirEntryType}

theorem retailed_ne {reserved : Nat} {block new : Bytes}
    (h : Edited (block.length - reserved) block new) :
    m.retailed crc parentIno parent reserved new ≠ block := by
  unfold retailed
  split
  · rename_i hretail
    obtain rfl : reserved = 12 := by simpa using (Bool.and_eq_true_iff.mp hretail).2
    intro heq
    apply h.differs
    have hkept := m.csum.take_patchDirEntryTail crc parentIno parent.generation new
    rw [heq, h.length] at hkept
    exact hkept.symm
  · exact h.ne

theorem removeStep_ne {logical : Nat} {block new : Bytes}
    (h : m.removeStep crc parentIno parent name logical block = .ok (some new)) : new ≠ block := by
  unfold removeStep at h
  dsimp only at h
  split at h
  · cases h
  · obtain ⟨found, hremove, h⟩ := Result.bind_eq_ok h
    cases found with
    | none => cases h
    | some edited =>
      obtain rfl := Option.some.inj (Except.ok.inj h)
      exact retailed_ne (removeEntryFromBlock_edited hremove)

theorem addToBlock_ne {block new : Bytes}
    (h : m.addToBlock crc parentIno parent name targetIno fileType block = .ok new) :
      new ≠ block := by
  unfold addToBlock at h
  obtain ⟨edited, hadd, h⟩ := Result.bind_eq_ok h
  obtain rfl := Except.ok.inj h
  exact retailed_ne (addEntryToBlock_edited hadd)

theorem addStep_ne {logical : Nat} {block new : Bytes}
    (h : m.addStep crc parentIno parent name targetIno fileType logical block = .ok (some new)) :
    new ≠ block := by
  unfold addStep at h
  split at h
  · rename_i edited hadd
    obtain rfl := Option.some.inj (Except.ok.inj h)
    exact addToBlock_ne hadd
  · cases h
  · cases h

theorem scan_stages_iff {step : Nat → Bytes → Result (Option Bytes)} {buf buf' : BlockBuffer}
    (hstep : ∀ l block new, step l block = .ok (some new) → new ≠ block)
    (h : m.scanBlocks d parent step (List.range (divCeil parent.size m.fs.sb.blockSize)) buf =
      .ok (true, buf')) :
    BlockBuffer.StagesOnlyChanged d.img m.fs.sb.blockSize buf buf' ↔
    m.ScanStaged d parent buf step := by
  obtain ⟨pre, k, post, phys, new, hsplit, hk, hnew, hpre, hread⟩ := scanBlocks_found h
  rw [List.range_eq_range', List.range'_eq_append_iff] at hsplit
  obtain ⟨n, hn, rfl, hpost⟩ := hsplit
  obtain ⟨rfl, hlt, -⟩ := List.range'_eq_cons_iff.mp hpost.symm
  simp only [Nat.zero_add, Nat.mul_one] at hk hnew hread
  have hfirst : ∀ l < n, ¬ m.EditsAt d parent step (buf.view d.img m.fs.sb.blockSize) l := by
    intro l hl
    exact hpre l (by simpa using hl)
  rw [hread.stagesOnlyChanged_iff (hstep n _ new hnew)]
  constructor
  · intro hreads k' _ hedits hfirst' l hl phys' hmap
    obtain rfl : k' = n := by
      obtain hlt' | heq | hgt := Nat.lt_trichotomy k' n
      · exact absurd hedits (hfirst k' hlt')
      · exact heq
      · exact absurd ⟨phys, new, hk, hnew⟩ (hfirst' n hgt)
    obtain hs | rfl := hreads phys' (mem_physicals.mpr ⟨l, by simpa using hl, hmap⟩)
    · exact .inl hs
    · exact .inr hk
  · intro hstaged b hb
    obtain ⟨l, hl, hmap⟩ := mem_physicals.mp hb
    have hlt' : l < n := by simpa using hl
    obtain hs | hsame := hstaged n (by omega) ⟨phys, new, hk, hnew⟩ hfirst l hlt' b hmap
    · exact .inl hs
    · rw [hk] at hsame
      exact .inr (Option.some.inj (Except.ok.inj hsame)).symm

theorem indexed_stages_iff {hash : HashParams} {buf buf' : BlockBuffer}
    (h : m.bufferAddDirEntryIndexed crc d parentIno parent hash buf name targetIno
      fileType = .ok buf') :
    BlockBuffer.StagesOnlyChanged d.img m.fs.sb.blockSize buf buf' ↔
      m.RouteStaged d parent buf hash name := by
  unfold bufferAddDirEntryIndexed at h
  dsimp only at h
  split at h
  · cases h
  obtain ⟨⟨root, buf₁⟩, hroot, h⟩ := Result.bind_eq_ok h
  obtain ⟨rfl, hreads₁⟩ := readLogical_ok hroot
  obtain ⟨-, -, h⟩ := Result.bind_eq_ok h
  obtain ⟨⟨leaf, buf₂⟩, hlookup, h⟩ := Result.bind_eq_ok h
  cases leaf with
  | none => cases h
  | some leaf =>
    obtain ⟨below, hroute, hreads₂⟩ := lookupLeafStaged_ok hreads₁.view hlookup
    dsimp only at h
    split at h
    · cases h
    obtain ⟨found, hmap, h⟩ := Result.bind_eq_ok h
    cases found with
    | none => cases h
    | some phys =>
      obtain ⟨⟨block, buf₃⟩, hget, h⟩ := Result.bind_eq_ok h
      obtain ⟨rfl, hreads₃⟩ := BlockBuffer.Reads.of_getMut hget
      obtain ⟨new, hadd, h⟩ := Result.bind_eq_ok h
      obtain rfl := Except.ok.inj h
      have hreads := (hreads₁.trans hreads₂).trans hreads₃
      have hviews := hreads₂.view.trans hreads₁.view
      have hne := addToBlock_ne hadd
      rw [hviews] at hne
      rw [(hreads.edit phys new).stagesOnlyChanged_iff hne, RouteStaged, hroute]
      constructor
      · rintro hstaged l ⟨node, hnode, rfl⟩ phys' hmap'
        have hin : phys' ∈ m.physicals d parent [0] ++ m.physicals d parent
            (below.map UInt32.toNat) := by
          rw [← physicals_append]
          refine mem_physicals.mpr ⟨node.toNat, ?_, hmap'⟩
          obtain rfl | hnode := List.mem_cons.mp hnode
          · exact List.mem_cons_self
          · exact List.mem_cons_of_mem _ (List.mem_map_of_mem hnode)
        obtain hs | rfl := hstaged phys' (List.mem_append_left _ hin)
        · exact .inl hs
        · exact .inr hmap
      · intro hstaged b hb
        obtain hb | hb := List.mem_append.mp hb
        · rw [← physicals_append] at hb
          obtain ⟨l, hl, hmap'⟩ := mem_physicals.mp hb
          have hon : ∃ node ∈ 0 :: below, node.toNat = l := by
            obtain rfl | hl := List.mem_cons.mp hl
            · exact ⟨0, List.mem_cons_self, rfl⟩
            · obtain ⟨node, hnode, rfl⟩ := List.mem_map.mp hl
              exact ⟨node, List.mem_cons_of_mem _ hnode, rfl⟩
          obtain hs | hsame := hstaged l hon b hmap'
          · exact .inl hs
          · rw [hmap] at hsame
            exact .inr (Option.some.inj (Except.ok.inj hsame)).symm
        · exact .inr (List.mem_singleton.mp hb)

end Staging

end Mount

namespace Mount

section Claim

variable {crc : Crc} {m : Mount} {d : Disk} {parentIno : UInt32} {parent : Inode} {name : Bytes}
  {buf buf' : BlockBuffer}

theorem bufferRemoveDirEntry_found
    (h : m.bufferRemoveDirEntry crc d buf parentIno parent name = .ok buf') :
    m.scanBlocks d parent (m.removeStep crc parentIno parent name)
      (List.range (divCeil parent.size m.fs.sb.blockSize)) buf = .ok (true, buf') := by
  unfold bufferRemoveDirEntry at h
  obtain ⟨⟨found, buf₁⟩, hscan, h⟩ := Result.bind_eq_ok h
  cases found with
  | false => cases h
  | true =>
    obtain rfl := Except.ok.inj h
    exact hscan

theorem bufferAddDirEntryInplace_found {hash : HashParams} {targetIno : UInt32}
    {fileType : DirEntryType} (hlinear : ¬ parent.isIndexed = true)
    (h : m.bufferAddDirEntryInplace crc d hash buf parentIno parent name targetIno
      fileType = .ok buf') :
    m.scanBlocks d parent (m.addStep crc parentIno parent name targetIno fileType)
      (List.range (divCeil parent.size m.fs.sb.blockSize)) buf = .ok (true, buf') := by
  rw [bufferAddDirEntryInplace, if_neg hlinear] at h
  obtain ⟨⟨found, buf₁⟩, hscan, h⟩ := Result.bind_eq_ok h
  cases found with
  | false => cases h
  | true =>
    obtain rfl := Except.ok.inj h
    exact hscan

end Claim

/-- A removal, or an insert in place, stages only what it changes exactly when every block that it
looks at on the way to the one it edits is staged already. -/
theorem dir_edit_stages_iff (crc : Crc) (m : Mount) (d : Disk) (hash : HashParams)
    (parentIno : UInt32)
    (parent : Inode) (name : Bytes) (targetIno : UInt32) (fileType : DirEntryType)
    (buf buf' : BlockBuffer) :
    (m.bufferRemoveDirEntry crc d buf parentIno parent name = .ok buf' →
      (BlockBuffer.StagesOnlyChanged d.img m.fs.sb.blockSize buf buf' ↔
        m.ScanStaged d parent buf (m.removeStep crc parentIno parent name))) ∧
    (m.bufferAddDirEntryInplace crc d hash buf parentIno parent name targetIno fileType = .ok buf' →
      (BlockBuffer.StagesOnlyChanged d.img m.fs.sb.blockSize buf buf' ↔
        m.AddStaged crc d parent buf hash parentIno name targetIno fileType)) := by
  constructor
  · intro h
    exact scan_stages_iff (fun _ _ _ => removeStep_ne) (bufferRemoveDirEntry_found h)
  · intro h
    rw [AddStaged]
    by_cases hindexed : parent.isIndexed = true
    · rw [if_pos hindexed]
      rw [bufferAddDirEntryInplace, if_pos hindexed] at h
      exact indexed_stages_iff h
    · rw [if_neg hindexed]
      exact scan_stages_iff (fun _ _ _ => addStep_ne) (bufferAddDirEntryInplace_found hindexed h)

def smallMount : Mount where
  fs := ⟨Path.smallSb, [], 64 * 1024, true⟩
  csum := ⟨0, false⟩
  cleared := SortedMap.empty
  journal := none
  directCommitFailed := false

def linearInode : Inode := { Path.indexedInode with flags := inodeFlagExtents }

example : smallMount.mapInodeLogical (Path.indexedDisk 1) linearInode 2 =
    .ok none := by decide +kernel

theorem linear_first : smallMount.mapInodeLogical (Path.indexedDisk 1) linearInode 0 =
    .ok (some 5) := by
  decide +kernel

theorem linear_second : smallMount.mapInodeLogical (Path.indexedDisk 1) linearInode 1 =
    .ok (some 6) := by
  decide +kernel

theorem linear_unedited : smallMount.removeStep linuxCrc32c 12 linearInode [0x61] 0
    (BlockBuffer.new.view (Path.indexedDisk 1).img smallMount.fs.sb.blockSize 5) = .ok none := by
  decide +kernel

theorem linear_edited : Result.Ends (fun new : Option Bytes => new.isSome = true)
    (smallMount.removeStep linuxCrc32c 12 linearInode [0x61] 1
      (BlockBuffer.new.view (Path.indexedDisk 1).img smallMount.fs.sb.blockSize 6)) := by
  decide +kernel

/-- The removal of the name in the second block puts the first, as it was, in the transaction. -/
theorem remove_stages_first_block :
    ∃ buf', smallMount.bufferRemoveDirEntry linuxCrc32c (Path.indexedDisk 1) .new 12
      linearInode [0x61] = .ok buf' ∧ buf'.dirty.entries.map Prod.fst = [5, 6] ∧
      ¬ BlockBuffer.StagesOnlyChanged (Path.indexedDisk 1).img 1024 .new buf' := by
  have hran : Result.Ends (fun buf' : BlockBuffer => buf'.dirty.entries.map Prod.fst = [5, 6])
      (smallMount.bufferRemoveDirEntry linuxCrc32c (Path.indexedDisk 1) .new 12 linearInode
        [0x61]) := by
    decide +kernel
  obtain ⟨buf', hremove, hstaged⟩ := hran.exists_ok
  refine ⟨buf', hremove, hstaged, ?_⟩
  intro honly
  obtain ⟨new, hedit, hsome⟩ := linear_edited.exists_ok
  obtain ⟨new, rfl⟩ := Option.isSome_iff_exists.mp hsome
  have hscan := (scan_stages_iff (fun _ _ _ => removeStep_ne)
    (bufferRemoveDirEntry_found hremove)).mp honly
  have hfirst := hscan 1 (by decide) ⟨6, new, linear_second, hedit⟩ (by
    rintro l hl ⟨phys, new', hmap, hnew⟩
    obtain rfl : l = 0 := by omega
    rw [linear_first] at hmap
    obtain rfl := Option.some.inj (Except.ok.inj hmap)
    exact absurd (linear_unedited.symm.trans hnew) nofun) 0 (by decide) 5 linear_first
  obtain hstaged | hsame := hfirst
  · exact nomatch hstaged
  · rw [linear_second] at hsame
    exact absurd (Option.some.inj (Except.ok.inj hsame)) (by decide)

end Mount

namespace Mount

def firstStaged : BlockBuffer := BlockBuffer.new.put 5 ((Path.indexedDisk 1).img.block 1024 5)

theorem linear_scanStaged (step : Nat → Bytes → Result (Option Bytes)) :
    smallMount.ScanStaged (Path.indexedDisk 1) linearInode firstStaged step := by
  intro k hk _ _ l hl phys hmap
  have htwo : divCeil linearInode.size smallMount.fs.sb.blockSize = 2 := rfl
  obtain rfl : l = 0 := by omega
  rw [linear_first] at hmap
  obtain rfl := Option.some.inj (Except.ok.inj hmap)
  exact .inl ((BlockBuffer.staged_put _ _ _ _).mpr (.inl rfl))

theorem dir_edit_stages_two :
    (∃ buf', smallMount.bufferRemoveDirEntry linuxCrc32c (Path.indexedDisk 1) firstStaged
      12 linearInode [0x61] = .ok buf' ∧ BlockBuffer.StagesOnlyChanged (Path.indexedDisk 1).img 1024
          firstStaged buf') ∧
    ∃ buf', smallMount.bufferAddDirEntryInplace linuxCrc32c (Path.indexedDisk 1)
      Path.small.hash firstStaged 12 linearInode [0x62] 14 .regFile = .ok buf' ∧
      BlockBuffer.StagesOnlyChanged (Path.indexedDisk 1).img 1024 firstStaged buf' := by
  constructor
  · have hran : Result.Ends (fun _ => True) (smallMount.bufferRemoveDirEntry linuxCrc32c
        (Path.indexedDisk 1) firstStaged 12 linearInode [0x61]) := by
      decide +kernel
    obtain ⟨buf', hremove, -⟩ := hran.exists_ok
    exact ⟨buf', hremove, ((dir_edit_stages_iff linuxCrc32c smallMount (Path.indexedDisk 1)
      Path.small.hash 12
      linearInode [0x61] 14 .regFile firstStaged buf').1 hremove).mpr (linear_scanStaged _)⟩
  · have hran : Result.Ends (fun _ => True) (smallMount.bufferAddDirEntryInplace linuxCrc32c
        (Path.indexedDisk 1) Path.small.hash firstStaged 12 linearInode [0x62] 14 .regFile) := by
      decide +kernel
    obtain ⟨buf', hadd, -⟩ := hran.exists_ok
    refine ⟨buf', hadd, ((dir_edit_stages_iff linuxCrc32c smallMount (Path.indexedDisk 1)
      Path.small.hash 12 linearInode [0x62] 14 .regFile firstStaged buf').2 hadd).mpr ?_⟩
    rw [AddStaged, if_neg (by decide)]
    exact linear_scanStaged _

end Mount

end FsExt4
