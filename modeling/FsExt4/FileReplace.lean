import FsExt4.ExtentPromote
import FsExt4.Path
import FsExt4.WritePaths

namespace FsExt4

open Lib Jbd2 Alloc

def emptyRoot : Bytes := copyAt (copyAt (List.replicate 60 0) 0 (u16le extMagic)) 4 (u16le 4)

def dataBlock (blockSize : Nat) (data : Bytes) (i : Nat) : Bytes :=
  let offInData := i * blockSize
  let chunkEnd := min ((i + 1) * blockSize) data.length
  copyAt (List.replicate blockSize 0) 0 (slice data offInData (chunkEnd - offInData))

namespace Mount

section Model

variable (crc : Crc) (m : Mount) (now : Int) (ino : UInt32) (data : Bytes) (d : Disk)

def stagePayload (buf : BlockBuffer) (first : Nat) : Nat → BlockBuffer
  | 0 => buf
  | n + 1 => (stagePayload buf first n).put (first + n) (dataBlock m.fs.sb.blockSize data n)

def creditFreed (buf : BlockBuffer) (freed : Nat) : Result BlockBuffer :=
  if 0 < freed then m.bufferPatchSbCounters crc (m.fs.reader d) buf freed 0 else .ok buf

/-- An empty write: the old blocks are free, and the inode keeps its attributes' block. -/
def stageEmptied (inode : Inode) (raw : Bytes) (freed : Nat) (buf : BlockBuffer) :
    Result BlockBuffer := do
  let raw ← m.finalizeInodeRawAfterWrite crc now ino raw inode 0
    (xattrBlockSectors inode m.fs.sb.blockSize)
  let buf ← m.creditFreed crc d buf freed
  m.bufferWriteInode d buf ino raw

/-- One run for the whole payload, planned on the device's bitmaps, and the extent that maps it. -/
def stageContent (inode : Inode) (raw : Bytes) (freed : Nat) (buf : BlockBuffer) :
    Result BlockBuffer := do
  let read := m.fs.reader d
  let needed := divCeil data.length m.fs.sb.blockSize % 2 ^ 32
  let plan ← m.planBlocks read needed ((ino.toNat - 1) / m.fs.sb.inodesPerGroup.toNat)
  let buf ← m.bufferMarkBlockRunUsed crc read buf plan.firstBlock needed
  let buf ← m.bufferPatchBgdCounters crc read buf plan.bgd.groupIdx plan.bgd.freeBlocksDelta
    plan.bgd.freeInodesDelta plan.bgd.usedDirsDelta
  let buf ← m.bufferPatchSbCounters crc read buf ((freed : Int) - needed) 0
  let buf := m.stagePayload data buf plan.firstBlock needed
  let newRoot ← planInsertExtent emptyRoot ⟨0, needed % 2 ^ 16, plan.firstBlock, false⟩
  let raw ← patchInodeBlockArea raw newRoot
  let raw ← m.finalizeInodeRawAfterWrite crc now ino raw inode data.length
    (needed * (m.fs.sb.blockSize / 512) + xattrBlockSectors inode m.fs.sb.blockSize)
  m.bufferWriteInode d buf ino raw

def stageReplace (inode : Inode) (raw : Bytes) : Result BlockBuffer := do
  let runs ← m.extentTreeRuns crc d ino inode
  let (freed, buf) ← m.bufferFreeRuns crc d BlockBuffer.new runs
  let raw ← patchInodeBlockArea raw emptyRoot
  if data.isEmpty then m.stageEmptied crc now ino d inode raw freed buf
  else m.stageContent crc now ino data d inode raw freed buf

/-- Commit what a write staged; a failure to stage it leaves mount and device as they are. -/
def commitStaged (size : Nat) : Result BlockBuffer → Result Nat × Mount × Disk
  | .error e => (.error e, m, d)
  | .ok buf =>
    match (m.commitBlockBuffer crc buf).exec d with
    | (.error e, d') => (.error e, m, d')
    | (.ok (.error e, m'), d') => (.error e, m', d')
    | (.ok (.ok (), m'), d') => (.ok size, m', d')

/-- `apply_replace_file_content` of the file a path names, on a volume already marked not clean;
what it does to an inline or an indirect-mapped file is left open. -/
def applyReplaceFileContent (elsewhere : Inode → Bytes → Result Nat × Mount × Disk) :
    Result Nat × Mount × Disk :=
  match m.readInodeVerified crc d ino with
  | .error e => (.error e, m, d)
  | .ok (inode, raw) =>
    if !inode.isFile then (.error (.invalidArgument "write_file target is not a regular file"), m,
      d)
    else if inode.hasInlineData || !inode.hasExtents then elsewhere inode raw
    else m.commitStaged crc d data.length (m.stageReplace crc now ino data d inode raw)

end Model

/-- What replacing a file's content is for: its tree maps every block of the data as written, to a
block that holds it and was free, and the inode counts these blocks and that of its attributes. -/
structure HoldsContent (m : Mount) (d d' : Disk) (old new : Inode) (data : Bytes) : Prop where
  extents : new.hasExtents = true
  size : new.size = data.length
  mapped : ∀ i, i < divCeil data.length m.fs.sb.blockSize →
    ∃ e, (Extent.lookup new.block m.fs.sb.blockSize i).exec d' = (.ok (some e), d') ∧
      e.uninitialized = false ∧
      d'.img.block m.fs.sb.blockSize (e.map i) = dataBlock m.fs.sb.blockSize data i ∧
      m.used (d.img.block m.fs.sb.blockSize) (m.blockSlot (e.map i)) = false
  blocks : new.blocks = divCeil data.length m.fs.sb.blockSize * (m.fs.sb.blockSize / 512) +
    xattrBlockSectors old m.fs.sb.blockSize

def ReplacesContent (crc : Crc) (m m' : Mount) (d d' : Disk) (ino : UInt32) (old : Inode)
    (data : Bytes) :
    Prop :=
  ∃ new raw, m'.readInodeVerified crc d' ino = .ok (new, raw) ∧ HoldsContent m d d' old new data

end Mount

@[simp] theorem length_dataBlock (blockSize : Nat) (data : Bytes) (i : Nat) :
    (dataBlock blockSize data i).length = blockSize := by
  have hstep : (i + 1) * blockSize = i * blockSize + blockSize := Nat.succ_mul i blockSize
  unfold dataBlock
  rw [length_copyAt, List.length_replicate]
  rw [length_slice, List.length_replicate]
  omega

namespace Mount

section Payload

variable {crc : Crc} {m : Mount} {d : Disk} {buf : BlockBuffer} {first : Nat}

theorem view_stagePayload (data : Bytes) (n b : Nat) :
    (m.stagePayload data buf first n).view d.img m.fs.sb.blockSize b =
      if first ≤ b ∧ b < first + n then dataBlock m.fs.sb.blockSize data (b - first)
      else buf.view d.img m.fs.sb.blockSize b := by
  induction n with
  | zero => rw [stagePayload, if_neg (by omega)]
  | succ n ih =>
    rw [stagePayload, BlockBuffer.view_put]
    by_cases hb : b = first + n
    · subst hb
      rw [Function.update_self, if_pos (by omega), Nat.add_sub_cancel_left]
    · rw [Function.update_of_ne hb, ih]
      by_cases hin : first ≤ b ∧ b < first + n
      · rw [if_pos hin, if_pos (by omega)]
      · rw [if_neg hin, if_neg (by omega)]

theorem Open.stagePayload {taken freed : Set Slot} (ho : Open crc m d buf taken freed)
    (data : Bytes)
    {n : Nat} (hoff : ∀ b, first ≤ b → b < first + n → m.OffTables b) (h64 : first + n ≤ 2 ^ 64) :
    Open crc m d (m.stagePayload data buf first n) taken freed := by
  induction n with
  | zero => exact ho
  | succ n ih =>
    have hprefix := ih (fun b h1 h2 => hoff b h1 (by omega)) (by omega)
    exact hprefix.put (hoff _ (by omega) (by omega)) (length_dataBlock _ _ _) (by omega)

end Payload

end Mount

theorem planInsertExtent_emptyRoot (new : Extent) :
    planInsertExtent emptyRoot new = .ok (buildNode 60 4 0 0 [encodeExtent new]) := by
  have hread : readLeafEntries emptyRoot = .ok (⟨0, 4, 0, 0⟩, []) := by decide
  have hone : insertIntoLeafSorted [] new = [new] := by
    have hpos : mergedPos [new] new = 0 := mergedPos_middle (A := []) (B := []) (by simp) (by simp)
    change mergeNext [new] (mergedPos [new] new) = [new]
    rw [hpos]
    exact mergeNext_last [] new
  have hlen : emptyRoot.length = 60 := by decide
  rw [planInsertExtent_clear hread hlen (by simp), hone]
  rfl

theorem lookup_oneExtent {d : Disk} {blockSize : Nat} {new : Extent}
    (hlogical : new.logicalBlock < 2 ^ 32) (logical : Nat) :
    (Extent.lookup (buildNode 60 4 0 0 [encodeExtent new]) blockSize logical).exec d =
      (.ok (if new.stored.contains logical then some new.stored else none), d) := by
  have hroot : Represents (nodeOn d blockSize) (LevelTree.leaf [new.stored])
      (buildNode 60 4 0 0 [encodeExtent new]) :=
    @represents_stored (nodeOn d blockSize) 60 0 [new] 4
      (fun e he => List.mem_singleton.mp he ▸ hlogical) (by simp) (by decide)
  rw [Extent.lookup_leafRoot hroot (List.pairwise_singleton _ _), List.find?_singleton]
  rfl

def contentExtent (needed first : Nat) : Extent := ⟨0, needed % 2 ^ 16, first, false⟩

def replacedInode (inode : Inode) (blockSize needed first size : Nat) : Inode :=
  { inode with
    block := buildNode 60 4 0 0 [encodeExtent (contentExtent needed first)]
    size := size
    blocks := needed * (blockSize / 512) + xattrBlockSectors inode blockSize }

namespace Mount

section Staged

variable {crc : Crc} {m m' : Mount} {d d' : Disk} {now : Int} {ino : UInt32} {data : Bytes}
  {buf buf' : BlockBuffer} {taken freed : Set Slot} {inode : Inode} {raw₀ raw : Bytes}
    {block off : Nat}

theorem xattrBlockSectors_le (inode : Inode) {blockSize : Nat} (h : blockSize ≤ 65536) :
    xattrBlockSectors inode blockSize ≤ 128 := by
  unfold xattrBlockSectors
  split <;> omega

theorem PlannedRun.block_ok (h : Consistent crc m d) {count : Nat} {plan : BlockAllocationPlan}
    (hplan : PlannedRun m (d.img.block m.fs.sb.blockSize) [] count plan) {b : Nat}
    (h1 : plan.firstBlock ≤ b) (h2 : b < plan.firstBlock + count) :
    m.OffTables b ∧ m.Lands b ∧ ¬ m.IsMetadata b ∧
      m.used (d.img.block m.fs.sb.blockSize) (m.blockSlot b) = false := by
  have hcount := hplan.count
  have hfree := (hplan.free.free b h1 (by omega)).1
  have hmeta := hplan.free.not_isMetadata h.coherent.metadata h1 (by omega)
  have hfirst := hplan.free.inGroup.first
  have hgroups := hplan.inGroups
  exact ⟨h.offTables (by omega) hmeta, h.lands (by omega) (by omega) hmeta hfree, hmeta, hfree⟩

theorem stageContent_ok (h : Consistent crc m d) (ho : Open crc m d buf taken freed)
    (hold : InodeAt crc m (d.img.block m.fs.sb.blockSize) ino block off inode raw₀)
    (hparses : Inode.Parses raw) (hlen : raw.length = raw₀.length)
    (hfields : Inode.fields raw = { inode with block := emptyRoot }) (hsize : data.length < 2 ^ 64)
    {count : Nat} (hstage : m.stageContent crc now ino data d inode raw count buf = .ok buf') :
    ∃ plan raw' taken', PlannedRun m (d.img.block m.fs.sb.blockSize) []
        (divCeil data.length m.fs.sb.blockSize % 2 ^ 32) plan ∧
      Open crc m d buf' taken' freed ∧
      InodeAt crc m (buf'.view d.img m.fs.sb.blockSize) ino block off
        (replacedInode inode m.fs.sb.blockSize (divCeil data.length m.fs.sb.blockSize % 2 ^ 32)
          plan.firstBlock data.length) raw' ∧
      ∀ i, i < divCeil data.length m.fs.sb.blockSize % 2 ^ 32 →
        buf'.view d.img m.fs.sb.blockSize (plan.firstBlock + i) = dataBlock m.fs.sb.blockSize
          data i := by
  have hbnd := h.coherent.accepted.bounds
  have hsep := h.coherent.separate
  have hbs := h.blockSize
  unfold stageContent at hstage
  dsimp only at hstage
  generalize hneeded : divCeil data.length m.fs.sb.blockSize % 2 ^ 32 = needed at hstage ⊢
  have hneeded32 : needed < 2 ^ 32 := hneeded ▸ Nat.mod_lt _ (by decide)
  obtain ⟨plan, hp, hstage⟩ := Result.bind_eq_ok hstage
  obtain ⟨buf₁, hmark, hstage⟩ := Result.bind_eq_ok hstage
  obtain ⟨buf₂, hpatch, hstage⟩ := Result.bind_eq_ok hstage
  obtain ⟨buf₃, hsb, hstage⟩ := Result.bind_eq_ok hstage
  obtain ⟨newRoot, hinsert, hstage⟩ := Result.bind_eq_ok hstage
  obtain ⟨raw₁, harea, hstage⟩ := Result.bind_eq_ok hstage
  obtain ⟨raw₂, hfinal, hwrite⟩ := Result.bind_eq_ok hstage
  have hplan := h.coherent.plannedRun hp
  have hblock := fun b h1 h2 => hplan.block_ok h (b := b) h1 h2
  have hvolume := hplan.inVolume
  have haddressable := h.addressable
  have hrun := hplan.free.inGroup
  rw [hplan.count] at hrun
  rw [hplan.group] at hpatch
  have ho₃ := (ho.allocBlocks hbnd hsep hrun hmark hpatch).patchSbCounters h hsb
  have hpayload := ho₃.stagePayload data (fun b h1 h2 => (hblock b h1 h2).1)
    (show plan.firstBlock + needed ≤ 2 ^ 64 by omega)
  rw [planInsertExtent_emptyRoot] at hinsert
  obtain rfl := Except.ok.inj hinsert
  obtain ⟨hlen₁, hparses₁, -, hfields₁⟩ := patchInodeBlockArea_ok hparses harea
  have hsectors : needed * (m.fs.sb.blockSize / 512) + xattrBlockSectors inode m.fs.sb.blockSize <
      2 ^ 48 := by
    have hx := xattrBlockSectors_le inode hbs
    have hmul : needed * (m.fs.sb.blockSize / 512) ≤ 2 ^ 32 * 128 :=
      Nat.mul_le_mul (by omega) (by omega)
    omega
  obtain ⟨ho', hat, hother⟩ := hpayload.writeInode h hold hparses₁ (hlen₁.trans hlen)
    (by rw [hfields₁, hfields]) hsize hsectors hfinal hwrite
  rw [hfields₁, hfields] at hat
  refine ⟨plan, raw₂, _, hplan, ho', hat, ?_⟩
  intro i hi
  have hin := hblock (plan.firstBlock + i) (by omega) (by omega)
  rw [hother, view_stagePayload, if_pos (by omega), Nat.add_sub_cancel_left]
  rintro rfl
  exact hin.2.2.1 (h.inode_isMetadata hold.located).1

end Staged

end Mount

namespace Mount

section Replaced

variable {crc : Crc} {m m' : Mount} {d d' : Disk} {now : Int} {ino : UInt32} {data : Bytes}
  {inode : Inode} {raw : Bytes} {size : Nat}

theorem commitStaged_ok {staged : Result BlockBuffer} {bound : Nat}
    (h : m.commitStaged crc d bound staged = (.ok size, m', d')) :
    ∃ buf, staged = .ok buf ∧ (m.commitBlockBuffer crc buf).exec d = (.ok (.ok (), m'), d') ∧
      size = bound := by
  cases staged with
  | error e => cases (Prod.mk.inj h).1
  | ok buf =>
    unfold commitStaged at h
    dsimp only at h
    refine ⟨buf, rfl, ?_⟩
    split at h
    · cases (Prod.mk.inj h).1
    · cases (Prod.mk.inj h).1
    · rename_i hexec
      obtain ⟨hsize, hrest⟩ := Prod.mk.inj h
      obtain ⟨rfl, rfl⟩ := Prod.mk.inj hrest
      exact ⟨hexec, (Except.ok.inj hsize).symm⟩

theorem readInodeVerified_congr (hfs : m'.fs = m.fs) (hcsum : m'.csum = m.csum) :
    m'.readInodeVerified crc d ino = m.readInodeVerified crc d ino := by
  unfold Mount.readInodeVerified verifiedInode byteCeiling
  rw [hfs, hcsum]

theorem Committed.readInodeVerified (h : Consistent crc m d) {buf : BlockBuffer}
    (hc : Committed m m' d d' buf) (hold : m.readInodeVerified crc d ino = .ok (inode, raw))
    {block off : Nat} {new : Inode} {raw' : Bytes}
    (hat : InodeAt crc m (buf.view d.img m.fs.sb.blockSize) ino block off new raw')
    (hdir : new.isDir = true → inode.isDir = true ∧ new.size = inode.size) :
    m'.readInodeVerified crc d' ino = .ok (new, raw') := by
  have hlands := (h.inode_isMetadata hat.located).2.2
  have hblock := hc.block block hlands
  have hat' : InodeAt crc m (d'.img.block m.fs.sb.blockSize) ino block off new raw' :=
    ⟨hat.located, by rw [hblock]; exact hat.fits, by rw [hblock]; exact hat.stored, hat.parsed,
      hat.checked⟩
  obtain ⟨h64, hfits⟩ := readInodeVerified_fits hold hat.located
  have hread := readInodeVerified_of_at hat' h64 (by rw [hc.size]; exact hfits) (by
    intro hnew
    obtain ⟨hwas, hsize⟩ := hdir hnew
    rw [hsize]
    exact readInodeVerified_ceiling hold hwas)
  rw [readInodeVerified_congr hc.fs hc.csum]
  exact hread

/-- A file written as one run: its inode, its blocks on the device, and that they were free. -/
structure OneRun (crc : Crc) (m m' : Mount) (d d' : Disk) (ino : UInt32) (old : Inode)
    (data : Bytes) (needed first : Nat) : Prop where
  pos : 0 < needed
  physical : first < 2 ^ 48
  read : ∃ raw, m'.readInodeVerified crc d' ino =
    .ok (replacedInode old m.fs.sb.blockSize needed first data.length, raw)
  held : ∀ i, i < needed →
    d'.img.block m.fs.sb.blockSize (first + i) = dataBlock m.fs.sb.blockSize data i ∧
      m.used (d.img.block m.fs.sb.blockSize) (m.blockSlot (first + i)) = false

theorem not_isDir_of_isFile (h : inode.isFile = true) : inode.isDir = false := by
  unfold Inode.isFile at h
  unfold Inode.isDir
  rw [beq_iff_eq] at h
  rw [h]
  rfl

theorem stageReplace_committed (h : Consistent crc m d) (hsize : data.length < 2 ^ 64)
    (hread : m.readInodeVerified crc d ino = .ok (inode, raw)) (hfile : inode.isFile = true)
    {buf : BlockBuffer} (hstage : m.stageReplace crc now ino data d inode raw = .ok buf)
    (hcommit : (m.commitBlockBuffer crc buf).exec d = (.ok (.ok (), m'), d')) :
    (data = [] ∧ ∃ raw', m'.readInodeVerified crc d' ino = .ok ({ inode with
        block := emptyRoot, size := 0, blocks := xattrBlockSectors inode m.fs.sb.blockSize },
          raw')) ∨
      ∃ first, OneRun crc m m' d d' ino inode data
        (divCeil data.length m.fs.sb.blockSize % 2 ^ 32) first := by
  have hbnd := h.coherent.accepted.bounds
  have hsep := h.coherent.separate
  have hdir := not_isDir_of_isFile hfile
  obtain ⟨block, off, hold⟩ := readInodeVerified_ok hread
  obtain ⟨hparses, hfields⟩ := Inode.parse_eq_ok.mp hold.parsed
  unfold stageReplace at hstage
  obtain ⟨runs, -, hstage⟩ := Result.bind_eq_ok hstage
  obtain ⟨⟨freedCount, buf₁⟩, hfree, hstage⟩ := Result.bind_eq_ok hstage
  obtain ⟨raw₁, harea, hstage⟩ := Result.bind_eq_ok hstage
  obtain ⟨taken, freed, ho⟩ := (h.coherent.isOpen .new).freeRuns hbnd hsep hfree
  obtain ⟨hlen₁, hparses₁, -, hfields₁⟩ := patchInodeBlockArea_ok hparses harea
  rw [← hfields] at hfields₁
  split at hstage
  · rename_i hempty
    left
    unfold stageEmptied at hstage
    obtain ⟨raw₂, hfinal, hstage⟩ := Result.bind_eq_ok hstage
    obtain ⟨buf₂, hsb, hwrite⟩ := Result.bind_eq_ok hstage
    have ho₂ : Open crc m d buf₂ taken freed := by
      unfold creditFreed at hsb
      split at hsb
      · exact ho.patchSbCounters h hsb
      · obtain rfl := Except.ok.inj hsb
        exact ho
    have hsectors : xattrBlockSectors inode m.fs.sb.blockSize < 2 ^ 48 :=
      Nat.lt_of_le_of_lt (xattrBlockSectors_le inode h.blockSize) (by decide)
    obtain ⟨ho', hat, -⟩ := ho₂.writeInode h hold hparses₁ hlen₁ (by rw [hfields₁])
      (by decide) hsectors hfinal hwrite
    rw [hfields₁] at hat
    have hc := ho'.committed h.coherent hcommit
    exact ⟨List.isEmpty_iff.mp hempty, raw₂, hc.readInodeVerified h hread hat
      (fun hno => absurd hno (Bool.eq_false_iff.mp hdir))⟩
  · right
    obtain ⟨plan, raw', taken', hplan, ho', hat, hview⟩ :=
      stageContent_ok h ho hold hparses₁ hlen₁ hfields₁ hsize hstage
    have hc := ho'.committed h.coherent hcommit
    have hvolume := hplan.inVolume
    have haddressable := h.addressable
    have hpos := hplan.pos
    refine ⟨plan.firstBlock, hpos, by omega, ⟨raw', hc.readInodeVerified h hread hat
      (fun hno => absurd hno (Bool.eq_false_iff.mp hdir))⟩, ?_⟩
    intro i hi
    obtain ⟨-, hlands, -, hfree⟩ := hplan.block_ok h (b := plan.firstBlock + i)
      (by omega) (by omega)
    exact ⟨by rw [hc.block _ hlands, hview i hi], hfree⟩

theorem applyReplaceFileContent_ok (h : Consistent crc m d) (hsize : data.length < 2 ^ 64)
    (hread : m.readInodeVerified crc d ino = .ok (inode, raw)) (hextents : inode.hasExtents = true)
    (hinline : inode.hasInlineData = false) {elsewhere : Inode → Bytes → Result Nat × Mount × Disk}
    (hok : m.applyReplaceFileContent crc now ino data d elsewhere = (.ok size, m', d')) :
    (data = [] ∧ ∃ raw', m'.readInodeVerified crc d' ino = .ok ({ inode with
        block := emptyRoot, size := 0, blocks := xattrBlockSectors inode m.fs.sb.blockSize },
          raw')) ∨
      ∃ first, OneRun crc m m' d d' ino inode data
        (divCeil data.length m.fs.sb.blockSize % 2 ^ 32) first := by
  unfold applyReplaceFileContent at hok
  rw [hread] at hok
  dsimp only at hok
  split at hok
  · cases (Prod.mk.inj hok).1
  rename_i hfile
  rw [hextents, hinline] at hok
  obtain ⟨buf, hstage, hcommit, -⟩ := commitStaged_ok hok
  exact stageReplace_committed h hsize hread (by simpa using hfile) hstage hcommit

end Replaced

end Mount

namespace Mount

section Whole

variable {crc : Crc} {m m' : Mount} {d d' : Disk} {now : Int} {ino : UInt32} {data : Bytes}
  {inode : Inode} {raw : Bytes}

theorem lookup_replacedInode (d : Disk) (inode : Inode) (blockSize needed first size i : Nat) :
    (Extent.lookup (replacedInode inode blockSize needed first size).block blockSize i).exec d =
      (.ok (if (contentExtent needed first).stored.contains i
        then some (contentExtent needed first).stored
        else none), d) :=
  lookup_oneExtent (show 0 < 2 ^ 32 by decide) i

theorem stored_contentExtent {needed first : Nat} (hphysical : first < 2 ^ 48) :
    (contentExtent needed first).stored =
      ⟨0, if 32768 < needed % 2 ^ 16 then needed % 2 ^ 16 - 32768 else needed % 2 ^ 16, first,
        decide (32768 < needed % 2 ^ 16)⟩ := by
  unfold Extent.stored contentExtent extInitMaxLen
  dsimp only
  rw [if_neg Bool.false_ne_true, Nat.mod_mod, Nat.mod_eq_of_lt hphysical]

theorem OneRun.replaces {first : Nat} (hextents : inode.hasExtents = true)
    (h : OneRun crc m m' d d' ino inode data (divCeil data.length m.fs.sb.blockSize % 2 ^ 32) first)
    (hle : divCeil data.length m.fs.sb.blockSize ≤ 32768) :
    ReplacesContent crc m m' d d' ino inode data := by
  obtain ⟨raw', hread⟩ := h.read
  refine ⟨_, raw', hread, hextents, rfl, ?_, ?_⟩
  · intro i hi
    have hlookup := lookup_replacedInode d' inode m.fs.sb.blockSize
      (divCeil data.length m.fs.sb.blockSize % 2 ^ 32) first data.length i
    rw [Nat.mod_eq_of_lt (show divCeil data.length m.fs.sb.blockSize <
      2 ^ 32 by omega)] at hlookup h ⊢
    have hstored : (contentExtent (divCeil data.length m.fs.sb.blockSize) first).stored =
        ⟨0, divCeil data.length m.fs.sb.blockSize, first, false⟩ := by
      rw [stored_contentExtent h.physical, Nat.mod_eq_of_lt (by omega), if_neg (by omega),
        decide_eq_false (by omega)]
    rw [hstored, if_pos (contains_iff.mpr ⟨Nat.zero_le _, by dsimp only; omega⟩)] at hlookup
    obtain ⟨hheld, hfree⟩ := h.held i hi
    exact ⟨_, hlookup, rfl, hheld, hfree⟩
  · change divCeil data.length m.fs.sb.blockSize % 2 ^ 32 * (m.fs.sb.blockSize / 512) + _ = _
    rw [Nat.mod_eq_of_lt (by omega)]

theorem OneRun.le_of_replaces {first : Nat}
    (h : OneRun crc m m' d d' ino inode data (divCeil data.length m.fs.sb.blockSize % 2 ^ 32) first)
    (hrep : ReplacesContent crc m m' d d' ino inode data) :
    divCeil data.length m.fs.sb.blockSize ≤ 32768 := by
  obtain ⟨new, raw', hread', hholds⟩ := hrep
  obtain ⟨raw'', hread⟩ := h.read
  obtain ⟨rfl, -⟩ := Prod.mk.inj (Except.ok.inj (hread.symm.trans hread'))
  by_contra hlong
  rw [Nat.not_le] at hlong
  have hfound : ∀ i, i < divCeil data.length m.fs.sb.blockSize →
      (contentExtent (divCeil data.length m.fs.sb.blockSize % 2 ^ 32) first).stored.contains i =
        true ∧
        (contentExtent (divCeil data.length m.fs.sb.blockSize % 2 ^ 32)
          first).stored.uninitialized =
          false := by
    intro i hi
    obtain ⟨e, hlookup, hinit, -⟩ := hholds.mapped i hi
    have hsame := Except.ok.inj
      (Prod.mk.inj (hlookup.symm.trans (lookup_replacedInode _ _ _ _ _ _ i))).1
    split at hsame
    · rename_i hcontains
      rw [Option.some.inj hsame] at hinit
      exact ⟨hcontains, hinit⟩
    · cases hsame
  rw [stored_contentExtent h.physical] at hfound
  have hinit := of_decide_eq_false (hfound 0 (by omega)).2
  have hlast := contains_iff.mp (hfound 32768 hlong).1
  dsimp only at hlast
  rw [if_neg hinit] at hlast
  omega

/-- Replacing a file's content maps the whole of it exactly when it has no more blocks than one
extent of written blocks can say. -/
theorem replace_content_iff (h : Consistent crc m d) (hsize : data.length < 2 ^ 64)
    (hread : m.readInodeVerified crc d ino = .ok (inode, raw)) (hextents : inode.hasExtents = true)
    (hinline : inode.hasInlineData = false)
    {elsewhere : Inode → Bytes → Result Nat × Mount × Disk} {size : Nat}
    (hok : m.applyReplaceFileContent crc now ino data d elsewhere = (.ok size, m', d')) :
    ReplacesContent crc m m' d d' ino inode data ↔
      divCeil data.length m.fs.sb.blockSize ≤ 32768 := by
  rcases applyReplaceFileContent_ok h hsize hread hextents hinline hok with
    ⟨rfl, raw', hempty⟩ | ⟨first, hrun⟩
  · have hzero : divCeil ([] : Bytes).length m.fs.sb.blockSize = 0 := by
      have hbs := blockSize_ge m.fs.sb
      exact Nat.div_eq_of_lt (by rw [List.length_nil]; omega)
    rw [hzero]
    refine ⟨fun _ => Nat.zero_le _, fun _ => ⟨_, raw', hempty, hextents, rfl, ?_, ?_⟩⟩
    · intro i hi
      rw [hzero] at hi
      exact absurd hi (Nat.not_lt_zero i)
    · rw [hzero, Nat.zero_mul, Nat.zero_add]
  · exact ⟨fun hrep => hrun.le_of_replaces hrep, fun hle => hrun.replaces hextents hle⟩

end Whole

end Mount

namespace Mount

/-- One group of 65536 blocks of 8 KiB, the most that a bitmap block has bits for. -/
def wideSb : Superblock where
  inodesCount := 16
  blocksCount := 65536
  firstDataBlock := 0
  logBlockSize := 3
  blocksPerGroup := 65536
  inodesPerGroup := 16
  inodeSize := 256
  featureIncompat := 0
  descSize := 32
  reservedGdtBlocks := 0
  journalInode := 0
  featureCompat := 0
  featureRoCompat := 0x1
  firstInode := 11
  metaBgField := 0
  backupBgs := [0, 0]
  uuid := List.replicate 16 0

/-- Blocks 0 to 4 are in use: superblock, descriptor, two bitmaps and the inode table. -/
def wideGroup : Mount where
  fs := {
    sb := wideSb
    groups := [⟨2, 3, 4, 65531, 5, 1, 0⟩]
    sizeBytes := 65536 * 8192
    isWritable := true }
  csum := ⟨0, false⟩
  cleared := SortedMap.empty
  journal := none
  directCommitFailed := false

/-- An empty extent-mapped file, in an inode with 32 bytes of extra words. -/
def wideFile : Bytes :=
  copyAt (copyAt (copyAt (copyAt (copyAt (List.replicate 256 0) 0 (u16le 0x81A4)) 0x1A (u16le 1))
    0x20 (u32le inodeFlagExtents)) 0x28 emptyRoot) 0x80 (u16le 32)

def wideDisk : Disk where
  img := Image.writeBlocks (fun _ => 0) 8192 [(1, wideGroup.fs.groups.flatMap rawDescriptor),
    (2, [0x1F]), (3, [0xFF, 0x0F]), (4, List.replicate 2816 0 ++ wideFile)]
  size := 65536 * 8192

theorem wide_isMetadata_lt {b : Nat} (h : wideGroup.IsMetadata b) : b < 5 :=
  isMetadata_lt (by decide) h

theorem wide_separate : wideGroup.Separate :=
  separate_of_forall (by decide) (by decide) (by decide)

example : wideGroup.used (wideDisk.img.block 8192) (wideGroup.blockSlot 4) =
    true := by decide +kernel

theorem wide_mounted : Mounted linuxCrc32c wideGroup wideDisk where
  parsed := ⟨⟨0, 0, by decide⟩, by decide, by decide⟩
  clusters := by decide
  groups := by
    have hends : Result.Ends (fun groups => groups = wideGroup.fs.groups)
        ((readAll linuxCrc32c wideSb ⟨0, false⟩ (65536 * 8192)).exec wideDisk).1 := by
      decide +kernel
    obtain ⟨groups, hg, rfl⟩ := hends.exists_ok
    exact readAll_eq_of_fst hg
  cleared := rfl
  separate := wide_separate
  offJournal := fun jw hjw => by cases hjw
  initialised := by
    intro b hb hbit hu
    have hall : ∀ b ∈ List.range 5,
        wideGroup.used (wideDisk.img.block 8192) (wideGroup.blockSlot b) = true := by
      decide +kernel
    exact hall b (List.mem_range.mpr (wide_isMetadata_lt hb))
  uninitialised := by
    intro b hb hbit hu
    have hall : ∀ b ∈ List.range 5,
        wideGroup.uninitIn (wideDisk.img.block 8192) .block (wideGroup.blockSlot b).group =
          false := by
      decide +kernel
    rw [show wideGroup.fs.sb.blockSize = 8192 from rfl,
      hall b (List.mem_range.mpr (wide_isMetadata_lt hb))] at hu
    cases hu

theorem wide_consistent : Consistent linuxCrc32c wideGroup wideDisk where
  coherent := wide_mounted.coherent.1
  blockSize := by decide
  addressable := by decide
  origin := by decide
  inodeSize := by decide
  descriptors := by
    have hall : ∀ g < 1, wideGroup.IsMetadata (wideGroup.descAt g).1 := by decide
    exact hall
  inodeTables := offTables_of_le 4 (by decide)
  journal := fun jw hjw => by cases hjw

end Mount

namespace Mount

theorem wide_reader {b : Nat} (hb : b < 65536) : ∃ bytes, wideGroup.fs.reader wideDisk b =
    .ok bytes := by
  refine ⟨_, Filesystem.reader_of_fits _ _ b ?_ (by decide)⟩
  exact Nat.mul_le_mul_right 8192 hb

theorem wide_bit_free {i : Nat} (h : 5 ≤ i) : Lib.bit (wideDisk.img.block 8192 2) i = false := by
  by_cases hlow : i < 8
  · have hall : ∀ i ∈ List.range 8, 5 ≤ i → Lib.bit (wideDisk.img.block 8192 2) i = false := by
      decide +kernel
    exact hall i (List.mem_range.mpr hlow) h
  · have hbyte : (wideDisk.img.block 8192 2).getD (i / 8) 0 = 0 := by
      by_cases hin : i / 8 < 8192
      · rw [Image.block, Image.getD_read _ _ _ _ hin]
        have hwhere : ∀ w ∈ atOffsets 8192 [(1, wideGroup.fs.groups.flatMap rawDescriptor),
            (2, [0x1F]), (3, [0xFF, 0x0F]), (4, List.replicate 2816 0 ++ wideFile)],
            w.1 + w.2.length ≤ 2 * 8192 + 1 ∨ 3 * 8192 ≤ w.1 := by
          decide +kernel
        refine (Image.writeAll_of_not_mem _ _ _ ?_).trans rfl
        intro w hw
        have hout := hwhere w hw
        omega
      · rw [List.getD_eq_getElem?_getD, List.getElem?_eq_none
          (by rw [Image.block, Image.length_read]; omega)]
        rfl
    rw [Lib.bit, hbyte]
    simp

theorem wide_plan {needed : Nat} (hint : Nat) (hpos : 0 < needed) (hfits : needed ≤ 65531) :
    ∃ plan, wideGroup.planBlocks (wideGroup.fs.reader wideDisk) needed hint = .ok plan := by
  have hbitmap : wideGroup.fs.reader wideDisk 2 = .ok (wideDisk.img.block 8192 2) :=
    Filesystem.reader_of_fits wideGroup.fs wideDisk 2 (by decide) (by decide)
  have hgroups : wideGroup.allocationGroups = [⟨2, 3, 4, 65531, 5, 1, 0⟩] := by decide
  have hof : blockBitmapOf wideSb wideGroup.allocationGroups (wideGroup.fs.reader wideDisk) 0
      ⟨2, 3, 4, 65531, 5, 1, 0⟩ = .ok (wideDisk.img.block 8192 2) := by
    rw [← hbitmap]
    rfl
  refine (planBlockAllocationExcluding_iff hpos ?_).mpr ⟨0, ?_, _, _, 5, ?_, hfits, hof, ?_⟩
  · intro gi bgd hbgd
    rw [hgroups] at hbgd
    obtain ⟨rfl, rfl⟩ : gi = 0 ∧ bgd = ⟨2, 3, 4, 65531, 5, 1, 0⟩ := by
      cases gi with
      | zero => exact ⟨rfl, (Option.some.inj hbgd).symm⟩
      | succ gi => cases hbgd
    exact ⟨_, hof⟩
  · rw [visited, hgroups]
    exact mem_groupOrder_of_lt (by decide) (Nat.lt_of_le_of_lt (Nat.min_le_right _ _) (by decide))
      (by decide)
  · rw [hgroups]
    rfl
  · have hclamp : clampBits (wideDisk.img.block 8192 2) (blocksInGroup wideSb 0) = 65536 := by
      have hlen : (wideDisk.img.block 8192 2).length = 8192 := Image.length_read _ _ _
      have hblocks : blocksInGroup wideSb 0 = 65536 := by decide
      rw [clampBits, hlen, hblocks]
      rfl
    rw [show wideGroup.fs.sb = wideSb from rfl, hclamp, markReservedInGroup_nil]
    exact ⟨by omega, fun k _ => wide_bit_free (by omega)⟩

end Mount

theorem exists_patchInodeBlockArea {raw newRoot : Bytes} (hparses : Inode.Parses raw)
    (hroot : newRoot.length = 60) :
    ∃ raw', patchInodeBlockArea raw newRoot = .ok raw' ∧ Inode.Parses raw' ∧ raw'.length =
      raw.length := by
  have hok : patchInodeBlockArea raw newRoot = .ok (copyAt raw 0x28 newRoot) := by
    unfold patchInodeBlockArea
    rw [if_neg (Nat.not_lt.mpr hparses.base), if_neg (by rw [not_not]; exact hroot)]
  obtain ⟨hlen, hparses', -⟩ := patchInodeBlockArea_ok hparses hok
  exact ⟨_, hok, hparses', hlen⟩

namespace Mount

theorem exists_finalizeInodeRawAfterWrite {crc : Crc} {m : Mount} {raw : Bytes}
    (hparses : Inode.Parses raw)
    (now : Int) (ino : UInt32) (orig : Inode) (newSize newSectors : Nat) :
    ∃ raw', m.finalizeInodeRawAfterWrite crc now ino raw orig newSize newSectors = .ok raw' := by
  unfold finalizeInodeRawAfterWrite
  rw [patchInodeSizeAndBlocks_eq hparses.base, Result.ok_bind]
  exact ⟨_, rfl⟩

theorem within_stagePayload (m : Mount) (data : Bytes) {buf : BlockBuffer} {first n limit : Nat}
    (h : buf.Within limit) (hfits : first + n ≤ limit) :
      (m.stagePayload data buf first n).Within limit := by
  induction n with
  | zero => exact h
  | succ n ih => exact (ih (by omega)).put (by omega)

theorem length_wideFile : wideFile.length = 256 := by decide +kernel

theorem wide_extra : u16leAt wideFile 0x80 = 32 := by decide

theorem wide_parses : Inode.Parses wideFile :=
  ⟨by rw [length_wideFile]; decide, fun _ => by rw [wide_extra, length_wideFile]; decide⟩

theorem wide_inode : wideGroup.readInodeVerified linuxCrc32c wideDisk 12 =
    .ok (Inode.fields wideFile, wideFile) := by
  have hstored : slice (wideDisk.img.block 8192 4) 2816 256 = wideFile := by
    have hfile := length_wideFile
    have hdata : (List.replicate 2816 (0 : UInt8) ++ wideFile).length = 3072 := by
      rw [List.length_append, List.length_replicate, hfile]
    have hwritten := Image.read_write_self (Image.writeBlocks (fun _ => 0) 8192
      [(1, wideGroup.fs.groups.flatMap rawDescriptor), (2, [0x1F]), (3, [0xFF, 0x0F])]) (4 * 8192)
      (List.replicate 2816 0 ++ wideFile)
    rw [hdata] at hwritten
    have himg : wideDisk.img = Image.write (Image.writeBlocks (fun _ => 0) 8192
        [(1, wideGroup.fs.groups.flatMap rawDescriptor), (2, [0x1F]), (3, [0xFF, 0x0F])]) (4 * 8192)
        (List.replicate 2816 0 ++ wideFile) := by
      unfold wideDisk Image.writeBlocks atOffsets
      simp only [List.map_cons, List.map_nil, Image.writeAll_cons, Image.writeAll_nil]
    rw [Image.block, Image.slice_read _ _ _ _ _ (by decide),
      ← Image.slice_read wideDisk.img (4 * 8192) 3072 2816 256 (by decide), himg, hwritten,
      slice_append_right _ _ _ _ (Nat.le_of_eq List.length_replicate), List.length_replicate]
    exact slice_zero_of_length_le _ _ (Nat.le_of_eq hfile)
  have hlen : (wideDisk.img.block 8192 4).length = 8192 := Image.length_read _ _ _
  have hlocated : Result.Ends (fun at_ => at_ = (4, 2816))
      (locateInode wideGroup.fs.sb wideGroup.fs.groups 12) := by
    decide
  obtain ⟨at_, hloc, rfl⟩ := hlocated.exists_ok
  exact readInodeVerified_of_at
    ⟨hloc, by rw [show wideGroup.fs.sb.blockSize = 8192 from rfl, hlen]; decide,
    hstored, Inode.parse_eq_ok.mpr ⟨wide_parses, rfl⟩, fun h => nomatch h⟩ (by decide)
    (by decide) (fun hno => absurd hno (by decide))

theorem wide_stageContent {data raw : Bytes} (now : Int) (hparses : Inode.Parses raw)
    (hpos : 0 < divCeil data.length 8192) (hfits : divCeil data.length 8192 ≤ 65531) :
    ∃ buf, wideGroup.stageContent linuxCrc32c now 12 data wideDisk (Inode.fields wideFile) raw 0
      BlockBuffer.new = .ok buf ∧ buf.Within 65536 := by
  have hneeded : divCeil data.length wideGroup.fs.sb.blockSize % 2 ^ 32 =
      divCeil data.length 8192 :=
    Nat.mod_eq_of_lt (Nat.lt_of_le_of_lt hfits (by decide))
  obtain ⟨plan, hp⟩ := wide_plan ((12 - 1) / 16) hpos hfits
  have hplan := wide_consistent.coherent.plannedRun hp
  have hvolume : plan.firstBlock + divCeil data.length 8192 ≤ 65536 := hplan.inVolume
  have hgroup : (wideGroup.blockSlot plan.firstBlock).group = 0 := by
    have hlt : (wideGroup.blockSlot plan.firstBlock).group < 1 := hplan.inGroups
    omega
  have hslot := hplan.group
  rw [hgroup] at hslot
  obtain ⟨buf₁, hmark, hw₁⟩ : ∃ buf₁, wideGroup.bufferMarkBlockRunUsed linuxCrc32c
      (wideGroup.fs.reader wideDisk) BlockBuffer.new plan.firstBlock
        (divCeil data.length 8192) = .ok buf₁ ∧
        buf₁.Within 65536 := by
    obtain ⟨buf₁, hmark, hw⟩ := @exists_markBlockRunUsed linuxCrc32c wideGroup
      (wideGroup.fs.reader wideDisk)
      BlockBuffer.new plan.firstBlock (divCeil data.length 8192) ⟨2, 3, 4, 65531, 5, 1, 0⟩
        (by rw [hgroup]; rfl)
      (wide_reader (by rw [hgroup]; decide)) (wide_reader (by decide))
    exact ⟨buf₁, hmark, hw _ (BlockBuffer.within_new _) (by rw [hgroup]; decide) (by decide)⟩
  obtain ⟨buf₂, hpatch, hw₂⟩ : ∃ buf₂, wideGroup.bufferPatchBgdCounters linuxCrc32c
      (wideGroup.fs.reader wideDisk) buf₁ plan.bgd.groupIdx plan.bgd.freeBlocksDelta
        plan.bgd.freeInodesDelta plan.bgd.usedDirsDelta = .ok buf₂ ∧ buf₂.Within 65536 := by
    obtain ⟨buf₂, hpatch, hw⟩ := @exists_patchBgdCounters linuxCrc32c wideGroup
      (wideGroup.fs.reader wideDisk)
      plan.bgd.groupIdx buf₁ (wide_reader (by rw [hslot]; decide)) plan.bgd.freeBlocksDelta
      plan.bgd.freeInodesDelta plan.bgd.usedDirsDelta
    exact ⟨buf₂, hpatch, hw _ hw₁ (by rw [hslot]; decide)⟩
  obtain ⟨buf₃, hsb, hw₃⟩ : ∃ buf₃, wideGroup.bufferPatchSbCounters linuxCrc32c
      (wideGroup.fs.reader wideDisk) buf₂ (((0 : Nat) : Int) - (divCeil data.length 8192 : Nat))
        0 = .ok buf₃ ∧
        buf₃.Within 65536 := by
    obtain ⟨buf₃, hsb, hw⟩ := @exists_patchSbCounters linuxCrc32c wideGroup
      (wideGroup.fs.reader wideDisk) buf₂
      (wide_reader (by decide)) (((0 : Nat) : Int) - (divCeil data.length 8192 : Nat)) 0
    exact ⟨buf₃, hsb, hw _ hw₂ (by decide)⟩
  have hroot : (buildNode 60 4 0 0
      [encodeExtent (contentExtent (divCeil data.length 8192) plan.firstBlock)]).length = 60 := by
    refine length_buildNode ?_ (by simp [nodeSize])
    intro b hb
    rw [List.mem_singleton.mp hb, length_encodeExtent]
  obtain ⟨raw₁, harea, hparses₁, -⟩ := exists_patchInodeBlockArea hparses hroot
  obtain ⟨raw₂, hfinal⟩ : ∃ raw₂, wideGroup.finalizeInodeRawAfterWrite linuxCrc32c now 12 raw₁
      (Inode.fields wideFile) data.length _ = .ok raw₂ :=
    exists_finalizeInodeRawAfterWrite hparses₁ now 12 _ _ (divCeil data.length 8192 *
      (wideGroup.fs.sb.blockSize / 512) + xattrBlockSectors (Inode.fields wideFile)
        wideGroup.fs.sb.blockSize)
  obtain ⟨buf₄, hwrite, hw₄⟩ := exists_edit (wideGroup.stagePayload data buf₃ plan.firstBlock
    (divCeil data.length 8192)) (wide_reader (show 4 < 65536 by decide))
      (fun table => copyAt table 2816 raw₂)
  refine ⟨buf₄, ?_, hw₄ _ (within_stagePayload wideGroup data hw₃ hvolume) (by decide)⟩
  unfold stageContent
  dsimp only
  rw [hneeded, show (UInt32.toNat 12 - 1) / wideGroup.fs.sb.inodesPerGroup.toNat =
    (12 - 1) / 16 from rfl, hp,
    Result.ok_bind, hmark, Result.ok_bind, hpatch, Result.ok_bind, hsb, Result.ok_bind,
    planInsertExtent_emptyRoot, Result.ok_bind]
  rw [contentExtent] at harea
  rw [harea, Result.ok_bind, hfinal, Result.ok_bind]
  exact hwrite

end Mount

namespace Mount

theorem wide_replace_succeeds {data : Bytes} (now : Int)
    (elsewhere : Inode → Bytes → Result Nat × Mount × Disk) (hpos : 0 < divCeil data.length 8192)
    (hfits : divCeil data.length 8192 ≤ 65531) :
    ∃ m' d', wideGroup.applyReplaceFileContent linuxCrc32c now 12 data wideDisk elsewhere =
      (.ok data.length, m', d') := by
  obtain ⟨raw₁, harea, hparses₁, -⟩ := exists_patchInodeBlockArea wide_parses
    (show emptyRoot.length = 60 by decide)
  obtain ⟨buf, hcontent, hwithin⟩ := wide_stageContent now hparses₁ hpos hfits
  have hruns : Result.Ends (fun runs => runs = [])
      (wideGroup.extentTreeRuns linuxCrc32c wideDisk 12 (Inode.fields wideFile)) := by
    decide
  obtain ⟨runs, hruns, rfl⟩ := hruns.exists_ok
  have hnonempty : data.isEmpty = false := by
    cases data with
    | nil => exact absurd hpos (by decide)
    | cons a rest => rfl
  have hstage : wideGroup.stageReplace linuxCrc32c now 12 data wideDisk
    (Inode.fields wideFile) wideFile = .ok buf := by
    unfold stageReplace
    rw [hruns, Result.ok_bind, bufferFreeRuns, Result.ok_bind]
    dsimp only
    rw [harea, Result.ok_bind, hnonempty]
    exact hcontent
  obtain ⟨block, off, hold⟩ := readInodeVerified_ok wide_inode
  obtain ⟨hlen₁, -, -, hfields₁⟩ := patchInodeBlockArea_ok wide_parses harea
  have hlength : data.length < 2 ^ 64 := by
    unfold divCeil at hfits
    omega
  obtain ⟨plan, raw', taken, -, ho, -⟩ := stageContent_ok wide_consistent
    (wide_consistent.coherent.isOpen .new) hold hparses₁ hlen₁ hfields₁ hlength hcontent
  have hdevice : ∀ b, buf.Staged b → (b + 1) * wideGroup.fs.sb.blockSize ≤ wideDisk.size :=
    fun b hb => Nat.mul_le_mul_right 8192 (hwithin b hb)
  obtain ⟨m', d', hcommit, -⟩ : ∃ m' d',
      (wideGroup.commitBlockBuffer linuxCrc32c buf).exec wideDisk = (.ok (.ok (), m'), d') ∧ _ :=
    commitBlockBuffer_succeeds rfl ho.coherent.whole hdevice
  refine ⟨m', d', ?_⟩
  have hfile : (Inode.fields wideFile).isFile = true := by decide
  have hhere : ((Inode.fields wideFile).hasInlineData || !(Inode.fields wideFile).hasExtents) =
      false := by
    decide
  unfold applyReplaceFileContent
  rw [wide_inode]
  dsimp only
  rw [hfile, hhere, hstage]
  unfold commitStaged
  dsimp only
  rw [hcommit]
  rfl

def wideContent : Bytes := (List.range 20000).map UInt8.ofNat

/-- A payload that ends inside its third block is mapped as the first three blocks of the file. -/
theorem replace_content_three_blocks :
    divCeil wideContent.length 8192 = 3 ∧
      ∃ m' d', wideGroup.applyReplaceFileContent linuxCrc32c 0 12 wideContent wideDisk
          (fun _ _ => (.error .io, wideGroup, wideDisk)) = (.ok 20000, m', d') ∧
        ReplacesContent linuxCrc32c wideGroup m' wideDisk d' 12 (Inode.fields wideFile)
          wideContent := by
  have hlen : wideContent.length = 20000 := by rw [wideContent, List.length_map, List.length_range]
  have hceil : divCeil wideContent.length 8192 = 3 := by
    rw [hlen]
    decide
  obtain ⟨m', d', hok⟩ := wide_replace_succeeds 0 (fun _ _ => (.error .io, wideGroup, wideDisk))
    (show 0 < divCeil wideContent.length 8192 by rw [hceil]; decide) (by rw [hceil]; decide)
  have hle : divCeil wideContent.length wideGroup.fs.sb.blockSize ≤ 32768 := by
    rw [show wideGroup.fs.sb.blockSize = 8192 from rfl, hceil]
    decide
  have hreplaced := (replace_content_iff wide_consistent (by rw [hlen]; decide)
    wide_inode (by decide) (by decide) hok).mpr hle
  rw [hlen] at hok
  exact ⟨hceil, m', d', hok, hreplaced⟩

theorem wide_replace_turned {data : Bytes} (hlen : data.length = 32769 * 8192) :
    ∃ m' d', wideGroup.applyReplaceFileContent linuxCrc32c 0 12 data wideDisk
        (fun _ _ => (.error .io, wideGroup, wideDisk)) = (.ok (32769 * 8192), m', d') ∧
      ¬ ReplacesContent linuxCrc32c wideGroup m' wideDisk d' 12 (Inode.fields wideFile) data := by
  have hceil : divCeil data.length 8192 = 32769 := by
    rw [hlen]
    decide
  obtain ⟨m', d', hok⟩ := wide_replace_succeeds 0 (fun _ _ => (.error .io, wideGroup, wideDisk))
    (show 0 < divCeil data.length 8192 by rw [hceil]; decide) (by rw [hceil]; decide)
  rw [hlen] at hok
  refine ⟨m', d', hok, ?_⟩
  intro hrep
  rcases applyReplaceFileContent_ok wide_consistent (by rw [hlen]; decide) wide_inode (by decide)
    (by decide) hok with ⟨rfl, -⟩ | ⟨first, hrun⟩
  · exact absurd hlen (by decide)
  · have hle := hrun.le_of_replaces hrep
    rw [show wideGroup.fs.sb.blockSize = 8192 from rfl, hceil] at hle
    exact absurd hle (by decide)

/-- 32769 blocks of 8 KiB are written, and the extent that maps them reads as one preallocated
block. -/
theorem replace_content_turned :
    Consistent linuxCrc32c wideGroup wideDisk ∧
    wideGroup.readInodeVerified linuxCrc32c wideDisk 12 = .ok (Inode.fields wideFile, wideFile) ∧
    (Inode.fields wideFile).hasExtents = true ∧
    ∃ m' d', wideGroup.applyReplaceFileContent linuxCrc32c 0 12
      (List.replicate (32769 * 8192) 7) wideDisk
        (fun _ _ => (.error .io, wideGroup, wideDisk)) = (.ok (32769 * 8192), m', d') ∧
      ¬ ReplacesContent linuxCrc32c wideGroup m' wideDisk d' 12 (Inode.fields wideFile)
        (List.replicate (32769 * 8192) 7) :=
  ⟨wide_consistent, wide_inode, by decide, wide_replace_turned List.length_replicate⟩

end Mount

end FsExt4
