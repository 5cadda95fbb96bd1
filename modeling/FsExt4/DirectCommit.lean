import FsExt4.BufferView

namespace FsExt4

open Lib Jbd2 Alloc

namespace Superblock

variable {sb : Superblock}

theorem groupHeadMetadataBlocks_zero_pos (sb : Superblock) : 0 < sb.groupHeadMetadataBlocks 0 := by
  have hsuper : sb.groupHasSuper 0 = true := rfl
  unfold groupHeadMetadataBlocks
  rw [hsuper]
  dsimp only
  split
  · simp
  · simp

theorem Bounds.descriptor_ne_superblock (h : sb.Bounds) (g : Nat) :
    (sb.descriptorLocation g).1 ≠ superblockOffset / sb.blockSize := by
  cases hm : sb.metaGroupHolding g with
  | none =>
    have hblock : (sb.descriptorLocation g).1 =
        superblockOffset / sb.blockSize + 1 + g / sb.descsPerBlock := by
      unfold descriptorLocation
      rw [hm]
      rfl
    rw [hblock, Nat.add_assoc]
    exact Nat.ne_of_gt (Nat.lt_add_of_pos_right (Nat.add_pos_left Nat.one_pos _))
  | some mg =>
    by_cases hhead : mg * sb.descsPerBlock = 0
    · have hblock : (sb.descriptorLocation g).1 = superblockOffset / sb.blockSize + 1 := by
        unfold descriptorLocation
        rw [hm]
        exact if_pos hhead
      omega
    · have hblock : (sb.descriptorLocation g).1 =
          sb.firstDataBlock.toNat + mg * sb.descsPerBlock * sb.blocksPerGroup.toNat +
            (sb.groupHasSuper (mg * sb.descsPerBlock)).toNat := by
        unfold descriptorLocation
        rw [hm]
        exact if_neg hhead
      have hpos : 0 < mg * sb.descsPerBlock * sb.blocksPerGroup.toNat :=
        Nat.mul_pos (Nat.pos_of_ne_zero hhead) h.blocksPerGroup
      by_cases hlog : sb.logBlockSize = 0
      · have hfirst : sb.firstDataBlock.toNat ≠ 0 := fun h0 => h.bootBlock h0 hlog
        have hone : superblockOffset / sb.blockSize = 1 := by
          unfold blockSize
          rw [hlog]
          rfl
        omega
      · have hzero : superblockOffset / sb.blockSize = 0 := by
          apply Nat.div_eq_of_lt
          unfold blockSize superblockOffset
          rw [Nat.shiftLeft_eq]
          have hpow := Nat.one_lt_two_pow hlog
          omega
        omega

theorem lt_divCeil {n k g : Nat} (hk : 0 < k) (hg : g < n) : g / k < divCeil n k := by
  unfold divCeil
  rw [Nat.div_lt_iff_lt_mul hk]
  have hlt := Nat.lt_div_mul_add hk (a := n + k - 1)
  omega

end Superblock

theorem checkPointersWithin_ok {sb : Superblock} {g : Nat} {bgd : BlockGroupDescriptor} {t : Nat}
    (h : checkPointersWithin sb g bgd t = .ok ()) (kind : Mount.BitmapKind) :
    superblockOffset / sb.blockSize + sb.groupHeadMetadataBlocks 0 ≤ kind.bitmapBlock bgd := by
  unfold checkPointersWithin at h
  dsimp only at h
  split at h
  · cases h
  · rename_i hlow
    cases kind with
    | block =>
      change _ ≤ bgd.blockBitmap
      omega
    | inode =>
      change _ ≤ bgd.inodeBitmap
      omega

namespace Mount

structure Accepted (m : Mount) : Prop where
  bounds : m.fs.sb.Bounds
  count : m.fs.groups.length = m.fs.sb.blockGroupCount
  pointers : ∀ g bgd, m.fs.groups[g]? = some bgd →
    checkPointersWithin m.fs.sb g bgd m.fs.sb.inodeTableBlocks = .ok ()

section Layout

variable {m : Mount}

theorem Accepted.bitmap_ne_superblock (h : m.Accepted) (kind : BitmapKind) {g : Nat}
    {bgd : BlockGroupDescriptor} (hbgd : m.fs.groups[g]? = some bgd) :
    kind.bitmapBlock bgd ≠ superblockOffset / m.fs.sb.blockSize := by
  have hlow := checkPointersWithin_ok (h.pointers g bgd hbgd) kind
  have hpos := m.fs.sb.groupHeadMetadataBlocks_zero_pos
  omega

theorem Accepted.apart (h : m.Accepted) (hmeta : m.fs.sb.hasMetaBg = true → m.Apart) : m.Apart := by
  cases hm : m.fs.sb.hasMetaBg with
  | true => exact hmeta hm
  | false =>
    have hnone : ∀ g, m.fs.sb.metaGroupHolding g = none := by
      intro g
      unfold Superblock.metaGroupHolding
      rw [hm]
      rfl
    have hloc : ∀ g, m.descAt g = (m.fs.sb.primarySuperblockBlock + 1 + g / m.fs.sb.descsPerBlock,
        g % m.fs.sb.descsPerBlock * m.fs.sb.descSize) := by
      intro g
      unfold descAt Superblock.descriptorLocation
      rw [hnone g]
    have hper := h.bounds.descsPerBlock_pos
    have hds := h.bounds.descSize
    constructor
    · intro g g' _ _ heq
      rw [hloc, hloc] at heq
      obtain ⟨hblock, hoff⟩ := Prod.mk.inj heq
      have hmod := Nat.eq_of_mul_eq_mul_right (by omega) hoff
      have hdiv : g / m.fs.sb.descsPerBlock = g' / m.fs.sb.descsPerBlock := by omega
      rw [← Nat.div_add_mod g m.fs.sb.descsPerBlock, hdiv, hmod, Nat.div_add_mod]
    · intro kind g bgd hbgd g' hg'
      have hlow := checkPointersWithin_ok (h.pointers g bgd hbgd) kind
      have hhead : m.fs.sb.groupHeadMetadataBlocks 0 =
          1 + divCeil m.fs.sb.blockGroupCount
            m.fs.sb.descsPerBlock + m.fs.sb.reservedGdtBlocks := by
        unfold Superblock.groupHeadMetadataBlocks Superblock.sharedDescriptorRun
        rw [hnone 0, hm]
        rfl
      rw [h.count] at hg'
      have hlt := Superblock.lt_divCeil hper hg'
      rw [hloc]
      dsimp only
      unfold Superblock.primarySuperblockBlock
      omega

end Layout

end Mount

namespace Mount

/-- A buffer built over a disk by the staging operations, and by blocks of any kind staged off the
descriptor table. -/
inductive Built (crc : Crc) (m : Mount) (d : Disk) : BlockBuffer → Prop where
  | new : Built crc m d BlockBuffer.new
  | markBlocks {buf buf' : BlockBuffer} (start len : Nat) (hb : Built crc m d buf)
      (h : m.bufferMarkBlockRunUsed crc (m.fs.reader d) buf start len = .ok buf') :
      Built crc m d buf'
  | freeBlocks {buf buf' : BlockBuffer} (start len : Nat) (hb : Built crc m d buf)
      (h : m.bufferFreeBlockRunAndBgd crc (m.fs.reader d) buf start len = .ok buf') :
      Built crc m d buf'
  | markInode {buf buf' : BlockBuffer} (ino : Nat) (hb : Built crc m d buf)
      (h : m.bufferMarkInodeUsed crc (m.fs.reader d) buf ino = .ok buf') : Built crc m d buf'
  | freeInode {buf buf' : BlockBuffer} (ino : Nat) (hb : Built crc m d buf)
      (h : m.bufferFreeInodeSlot crc (m.fs.reader d) buf ino = .ok buf') : Built crc m d buf'
  | patchCounters {buf buf' : BlockBuffer} (gi : Nat) (x y z : Int)
      (hgi : gi < m.fs.groups.length) (hb : Built crc m d buf)
      (h : m.bufferPatchBgdCounters crc (m.fs.reader d) buf gi x y z = .ok buf') :
      Built crc m d buf'
  | put {buf : BlockBuffer} (block : Nat) (bytes : Bytes)
      (hlen : bytes.length = m.fs.sb.blockSize)
      (hdesc : ∀ g, g < m.fs.groups.length → block ≠ (m.descAt g).1) (hb : Built crc m d buf) :
      Built crc m d (buf.put block bytes)
  | edit {buf buf' : BlockBuffer} (block : Nat) (f : Bytes → Bytes)
      (hf : ∀ b, (f b).length = b.length)
      (hdesc : ∀ g, g < m.fs.groups.length → block ≠ (m.descAt g).1) (hb : Built crc m d buf)
      (h : buf.edit (m.fs.reader d) block f = .ok buf') : Built crc m d buf'

/-- Every uninit flag the buffer clears is remembered, and the bitmap it vouches for is staged. -/
structure FlagsVouched (m : Mount) (img : Image) (buf : BlockBuffer) : Prop where
  whole : m.WholeBlocks img buf
  flags : ∀ (kind : BitmapKind) (g : Nat) (bgd : BlockGroupDescriptor),
    m.fs.groups[g]? = some bgd →
    m.flagsIn (buf.view img m.fs.sb.blockSize) g &&& kind.flag =
        m.flagsIn (img.block m.fs.sb.blockSize) g &&& kind.flag ∨
      ((buf.uninitCleared.get? g).isSome ∧ buf.Staged (kind.bitmapBlock bgd))
  cleared : ∀ g, (buf.uninitCleared.get? g).isSome → g < m.fs.groups.length

section Vouched

variable {crc : Crc} {m : Mount} {img : Image} {d : Disk} {buf buf' : BlockBuffer} {gi : Nat}

theorem flagsVouched_new (m : Mount) (img : Image) : m.FlagsVouched img BlockBuffer.new where
  whole := fun _ => Image.length_read _ _ _
  flags := fun _ _ _ _ => Or.inl rfl
  cleared := fun _ h => Bool.noConfusion h

theorem FlagsVouched.of_kept (h : m.FlagsVouched img buf) (hw : m.WholeBlocks img buf')
    (hflags : ∀ g, g < m.fs.groups.length →
      m.flagsIn (buf'.view img m.fs.sb.blockSize) g = m.flagsIn (buf.view img m.fs.sb.blockSize) g)
    (hcleared : buf'.uninitCleared = buf.uninitCleared)
    (hstaged : ∀ b, buf.Staged b → buf'.Staged b) : m.FlagsVouched img buf' where
  whole := hw
  flags := by
    intro kind g bgd hbgd
    rw [hflags g (lt_of_getElem?_eq_some hbgd), hcleared]
    obtain hl | ⟨hr, hs⟩ := h.flags kind g bgd hbgd
    · exact Or.inl hl
    · exact Or.inr ⟨hr, hstaged _ hs⟩
  cleared := by
    rw [hcleared]
    exact h.cleared

theorem flags_fixedRange (ds : Nat) : FixedRange ds 0x12 2 := Or.inr (Or.inl ⟨by decide, by decide⟩)

theorem FlagsVouched.groupEdit {kind : BitmapKind} {bgd : BlockGroupDescriptor} {f : Bytes → Bytes}
    (hbnd : m.fs.sb.Bounds) (hapart : m.Apart) (hbgd : m.fs.groups[gi]? = some bgd)
    (hf : ∀ b, (f b).length = b.length) (he : GroupEdit m img kind gi bgd f buf buf')
    (h : m.FlagsVouched img buf) : m.FlagsVouched img buf' := by
  refine h.of_kept (he.wholeBlocks hf h.whole) ?_ he.cleared he.staged
  intro g hg
  have hds := hbnd.descSize
  rw [flagsIn_eq, flagsIn_eq,
    he.descBytes_eq hbnd hapart h.whole hbgd hg (by omega) (flags_fixedRange _)]

theorem FlagsVouched.descEdit (hbnd : m.fs.sb.Bounds) (hapart : m.Apart)
    (hgi : gi < m.fs.groups.length) (he : DescEdit m img gi buf buf')
    (h : m.FlagsVouched img buf) : m.FlagsVouched img buf' := by
  refine h.of_kept (he.wholeBlocks h.whole) ?_ he.cleared he.staged
  intro g hg
  have hds := hbnd.descSize
  rw [flagsIn_eq, flagsIn_eq,
    he.descBytes_eq hbnd hapart h.whole hgi hg (by omega) (flags_fixedRange _)]

theorem BitmapKind.flag_disjoint {k k' : BitmapKind} (h : k ≠ k') : k.flag &&& k'.flag = 0 := by
  cases k <;> cases k' <;> first | rfl | exact absurd rfl h

theorem FlagsVouched.markEdit {kind : BitmapKind} {bgd : BlockGroupDescriptor}
    {f : Bool → Bytes → Bytes} {was : Bool} {buf₁ : BlockBuffer} (hbnd : m.fs.sb.Bounds)
    (hapart : m.Apart) (hbgd : m.fs.groups[gi]? = some bgd)
    (hf : ∀ w b, (f w b).length = b.length)
    (he : MarkEdit m img kind gi bgd f was buf buf₁ buf') (h : m.FlagsVouched img buf) :
    m.FlagsVouched img buf' := by
  have hds := hbnd.descSize
  have hgi := lt_of_getElem?_eq_some hbgd
  have hw₁ := he.clear.wholeBlocks hbnd h.whole
  have hw' := he.edit.wholeBlocks (hf was) hw₁
  -- after the clear, the later edit keeps every flag
  have hlast : ∀ g, g < m.fs.groups.length → m.flagsIn (buf'.view img m.fs.sb.blockSize) g =
      m.flagsIn (buf₁.view img m.fs.sb.blockSize) g := by
    intro g hg
    rw [flagsIn_eq, flagsIn_eq,
      he.edit.descBytes_eq hbnd hapart hw₁ hbgd hg (by omega) (flags_fixedRange _)]
  have hother : ∀ g, g ≠ gi → buf₁.uninitCleared.get? g = buf.uninitCleared.get? g := by
    intro g hgg
    rw [he.clear.cleared]
    split
    · rw [SortedMap.get?_insert, if_neg hgg]
    · rfl
  refine ⟨hw', ?_, ?_⟩
  rotate_left
  · intro g hs
    rw [he.edit.cleared] at hs
    by_cases hgg : g = gi
    · rw [hgg]
      exact hgi
    · rw [hother g hgg] at hs
      exact h.cleared g hs
  intro k g b hb
  have hg := lt_of_getElem?_eq_some hb
  rw [hlast g hg, he.edit.cleared]
  by_cases hgg : g = gi
  · subst hgg
    have hbb : b = bgd := Option.some.inj (hb.symm.trans hbgd)
    subst hbb
    rw [he.clear.flagsIn_self hbnd h.whole]
    cases hwas : was with
    | false =>
      have hz : m.flagsIn (buf.view img m.fs.sb.blockSize) g &&& kind.flag = 0 := by
        have hw := he.clear.was_eq
        rw [hwas] at hw
        simpa using hw.symm
      have hcleared := he.clear.cleared
      rw [hwas, if_neg (by decide)] at hcleared
      rw [and_not_eq_self hz, hcleared]
      obtain hl | ⟨hr, hs⟩ := h.flags k g b hb
      · exact Or.inl hl
      · exact Or.inr ⟨hr, he.edit.staged _ (he.clear.staged _ hs)⟩
    | true =>
      have hcleared := he.clear.cleared
      rw [hwas, if_pos rfl] at hcleared
      have hsome : (buf₁.uninitCleared.get? g).isSome := by
        rw [hcleared, SortedMap.get?_insert, if_pos rfl]
        rfl
      by_cases hk : k = kind
      · subst hk
        exact Or.inr ⟨hsome, he.edit.stagedBitmap⟩
      · rw [and_not_and_of_disjoint _ (BitmapKind.flag_disjoint (Ne.symm hk))]
        obtain hl | ⟨-, hs⟩ := h.flags k g b hb
        · exact Or.inl hl
        · exact Or.inr ⟨hsome, he.edit.staged _ (he.clear.staged _ hs)⟩
  · have hflags : m.flagsIn (buf₁.view img m.fs.sb.blockSize) g =
        m.flagsIn (buf.view img m.fs.sb.blockSize) g := by
      rw [flagsIn_eq, flagsIn_eq, he.clear.descBytes_eq hbnd hapart h.whole hgi hg (by omega)
        (Or.inl hgg)]
    rw [hflags, hother g hgg]
    obtain hl | ⟨hr, hs⟩ := h.flags k g b hb
    · exact Or.inl hl
    · exact Or.inr ⟨hr, he.edit.staged _ (he.clear.staged _ hs)⟩

theorem FlagsVouched.put {block : Nat} {bytes : Bytes} (hlen : bytes.length = m.fs.sb.blockSize)
    (hdesc : ∀ g, g < m.fs.groups.length → block ≠ (m.descAt g).1) (h : m.FlagsVouched img buf) :
    m.FlagsVouched img (buf.put block bytes) := by
  refine h.of_kept ?_ ?_ rfl (fun b hb => (BlockBuffer.staged_put _ _ _ _).mpr (Or.inr hb))
  · intro b
    rw [BlockBuffer.view_put]
    by_cases hb : b = block
    · rw [hb, Function.update_self, hlen]
    · rw [Function.update_of_ne hb]
      exact h.whole b
  · intro g hg
    unfold flagsIn
    rw [BlockBuffer.view_put, Function.update_of_ne (hdesc g hg).symm]

theorem FlagsVouched.edit {block : Nat} {f : Bytes → Bytes} (hf : ∀ b, (f b).length = b.length)
    (hdesc : ∀ g, g < m.fs.groups.length → block ≠ (m.descAt g).1) (h : m.FlagsVouched d.img buf)
    (he : buf.edit (m.fs.reader d) block f = .ok buf') : m.FlagsVouched d.img buf' := by
  obtain ⟨hview, hcleared, hstaged⟩ := BlockBuffer.edit_ok he
  refine h.of_kept (edit_wholeBlocks hf he h.whole) ?_ hcleared
    (fun b hb => (hstaged b).mpr (Or.inr hb))
  intro g hg
  unfold flagsIn
  rw [hview, Function.update_of_ne (hdesc g hg).symm]

theorem FlagsVouched.freeChunks (hbnd : m.fs.sb.Bounds) (hapart : m.Apart)
    (chunks : List (Nat × Nat × Nat)) (h : m.FlagsVouched d.img buf)
    (hf : m.bufferFreeChunks crc (m.fs.reader d) buf chunks = .ok buf') :
    m.FlagsVouched d.img buf' := by
  induction chunks generalizing buf with
  | nil =>
    have hb : buf = buf' := Except.ok.inj hf
    rw [← hb]
    exact h
  | cons c rest ih =>
    obtain ⟨g, bitStart, len⟩ := c
    obtain ⟨buf₁, hc, hf⟩ := Result.bind_eq_ok hf
    obtain ⟨bgd, hbgd, he⟩ := bufferFreeChunk_ok hbnd h.whole
      (fun g b hb => hapart.bitmaps .block g b hb g (lt_of_getElem?_eq_some hb)) hc
    exact ih (h.groupEdit hbnd hapart hbgd (fun b => length_clearBits b _ _) he) hf

theorem Built.flagsVouched (hbnd : m.fs.sb.Bounds) (hapart : m.Apart) (h : Built crc m d buf) :
    m.FlagsVouched d.img buf := by
  have hne : ∀ (kind : BitmapKind) (g : Nat) (b : BlockGroupDescriptor),
      m.fs.groups[g]? = some b → kind.bitmapBlock b ≠ (m.descAt g).1 :=
    fun kind g b hb => hapart.bitmaps kind g b hb g (lt_of_getElem?_eq_some hb)
  induction h with
  | new => exact flagsVouched_new m d.img
  | markBlocks start len hb h ih =>
    obtain ⟨g, bgd, was, buf₁, -, hbgd, he⟩ := bufferMarkBlockRunUsed_ok hbnd ih.whole
      (hne .block) h
    exact ih.markEdit hbnd hapart hbgd (fun w b => m.length_markedBlockBitmap _ _ _ w b) he
  | freeBlocks start len hb h ih =>
    obtain ⟨chunks, -, h⟩ := Result.bind_eq_ok h
    exact ih.freeChunks hbnd hapart chunks h
  | markInode ino hb h ih =>
    obtain ⟨g, bgd, was, buf₁, -, hbgd, he⟩ := bufferMarkInodeUsed_ok hbnd ih.whole (hne .inode) h
    exact ih.markEdit hbnd hapart hbgd (fun w b => m.length_markedInodeBitmap _ w b) he
  | freeInode ino hb h ih =>
    obtain ⟨g, bgd, -, hbgd, he⟩ := bufferFreeInodeSlot_ok hbnd ih.whole (hne .inode) h
    exact ih.groupEdit hbnd hapart hbgd (fun b => length_clearBit b _) he
  | patchCounters g x y z hgi hb h ih =>
    exact ih.descEdit hbnd hapart hgi (bufferPatchBgdCounters_ok hbnd ih.whole h)
  | put block bytes hlen hdesc hb ih => exact ih.put hlen hdesc
  | edit block f hf hdesc hb h ih => exact ih.edit hf hdesc h

end Vouched

end Mount

namespace Mount

variable {crc : Crc} {m : Mount} {d : Disk} {buf : BlockBuffer}

theorem writeEach_trace (bs : Nat) (stage : List (Nat × Bytes)) (d : Disk) :
    (writeEach bs stage).trace d <+: writeEvs (atOffsets bs stage) ∧
      ∀ a d', (writeEach bs stage).exec d = (.ok a, d') →
        (writeEach bs stage).trace d = writeEvs (atOffsets bs stage) := by
  induction stage generalizing d with
  | nil => exact ⟨List.prefix_refl _, fun _ _ _ => rfl⟩
  | cons e rest ih =>
    rw [writeEach]
    by_cases hfit : e.1 * bs + e.2.length ≤ d.size
    · have hx := exec_writeAt d (e.1 * bs) e.2 hfit
      obtain ⟨hp, hok⟩ := ih { d with img := d.img.write (e.1 * bs) e.2 }
      rw [Io.trace_bind_ok _ _ _ _ _ hx, Io.exec_bind_ok _ _ _ _ _ hx, trace_writeAt d _ _ hfit]
      have hcons : writeEvs (atOffsets bs (e :: rest)) =
          .write (e.1 * bs) e.2 :: writeEvs (atOffsets bs rest) := rfl
      rw [hcons]
      refine ⟨(List.prefix_cons_inj _).mpr hp, ?_⟩
      intro a d' ha
      rw [hok a d' ha]
      rfl
    · have hx := exec_writeAt_past d (e.1 * bs) e.2 hfit
      rw [Io.trace_bind_error _ _ _ _ _ hx, Io.exec_bind_error _ _ _ _ _ hx,
        trace_writeAt_past d _ _ hfit]
      refine ⟨List.nil_prefix, ?_⟩
      intro a d' ha
      cases ha

/-- A direct commit makes its stages' writes in order, each stage flushed before the next, up to
the first call that fails. -/
theorem writeStages_trace (bs : Nat) (stages : List (List (Nat × Bytes))) (d : Disk) :
    (writeStages bs stages).trace d <+: stageEvs (stages.map (atOffsets bs)) := by
  induction stages generalizing d with
  | nil => exact List.prefix_refl _
  | cons s rest ih =>
    have hempty : (atOffsets bs s).isEmpty = s.isEmpty := by cases s <;> rfl
    rw [writeStages, List.map_cons, stageEvs, hempty]
    by_cases hs : s.isEmpty = true
    · rw [if_pos hs, if_pos hs]
      exact ih d
    · rw [if_neg hs, if_neg hs]
      obtain ⟨hp, hok⟩ := writeEach_trace bs s d
      rcases hr : (writeEach bs s).exec d with ⟨r, d'⟩
      cases r with
      | ok a =>
        rw [Io.trace_bind_ok _ _ _ _ _ hr, hok a d' hr,
          Io.trace_bind_ok _ _ _ _ _ (exec_flush d'), trace_flush, List.append_assoc]
        exact (List.prefix_append_right_inj _).mpr ((List.prefix_append_right_inj _).mpr (ih d'))
      | error e =>
        rw [Io.trace_bind_error _ _ _ _ _ hr]
        exact hp.trans ((List.prefix_append _ _).trans (List.prefix_append _ _))

theorem commitBlockBuffer_trace (hj : m.journal = none) :
    (m.commitBlockBuffer crc buf).trace d <+:
      stageEvs ((m.directStages buf.dirty (m.clearedDescriptors buf)).map
        (atOffsets m.fs.sb.blockSize)) := by
  unfold commitBlockBuffer
  split
  · exact List.nil_prefix
  · rw [hj]
    dsimp only
    rw [Io.trace_bind, Io.exec_attempt, Io.trace_attempt]
    have hpure : ∀ (x : Result Unit × Mount) (d : Disk),
        (pure x : DevIo (Result Unit × Mount)).trace d = [] := fun _ _ => rfl
    dsimp only
    rw [hpure, List.append_nil]
    exact writeStages_trace _ _ d

end Mount

namespace Mount

section Crash

variable {crc : Crc} {m : Mount} {d : Disk} {buf : BlockBuffer} {img : Image}

/-- The writes of a direct commit that a crash left on the device: whole stages, then some of the
next one. -/
structure Survived (m : Mount) (d : Disk) (buf : BlockBuffer) (img : Image)
    (applied : List (Nat × Bytes)) : Prop where
  image : img = d.img.writeBlocks m.fs.sb.blockSize applied
  stages : ∃ done rest kept, m.directStages buf.dirty (m.clearedDescriptors buf) = done ++ rest ∧
    kept.Sublist (rest.headD []) ∧ applied = done.flatten ++ kept

theorem survived_of_crash (hj : m.journal = none)
    (h : CrashImage d.img [] ((m.commitBlockBuffer crc buf).trace d) img) :
    ∃ applied, Survived m d buf img applied := by
  obtain ⟨done', rest', kept', hstages, hkept, himg⟩ :=
    (h.of_isPrefix (commitBlockBuffer_trace hj)).stage_cases
  obtain ⟨done, rest, hsplit, rfl, rfl⟩ := List.map_eq_append_iff.mp hstages
  have hhead : (rest.map (atOffsets m.fs.sb.blockSize)).headD [] =
      atOffsets m.fs.sb.blockSize (rest.headD []) := by
    cases rest <;> rfl
  rw [hhead] at hkept
  obtain ⟨kept, hk, rfl⟩ := List.sublist_map_iff.mp hkept
  refine ⟨done.flatten ++ kept, ?_, done, rest, kept, hsplit, hk, rfl⟩
  rw [himg]
  unfold Image.writeBlocks
  congr 1
  unfold atOffsets
  rw [List.map_append, List.map_flatten]

theorem Survived.cases {applied : List (Nat × Bytes)} (h : Survived m d buf img applied) :
    ∃ early late super kept,
      m.directStages buf.dirty (m.clearedDescriptors buf) = [early, late, super] ∧
      ((kept.Sublist early ∧ applied = kept) ∨ (kept.Sublist late ∧ applied = early ++ kept) ∨
        (kept.Sublist super ∧ applied = early ++ late ++ kept)) := by
  obtain ⟨done, rest, kept, hsplit, hkept, rfl⟩ := h.stages
  obtain ⟨kept', hcases⟩ := three_stages hsplit hkept
  exact ⟨_, _, _, kept', rfl, hcases⟩

theorem mem_directStages {early late super : List (Nat × Bytes)}
    (h : m.directStages buf.dirty (m.clearedDescriptors buf) = [early, late, super])
    (w : Nat × Bytes) :
    (w ∈ early ↔ w ∈ buf.dirty.entries ∧ w.1 ≠ superblockOffset / m.fs.sb.blockSize ∧
        w.1 ∉ m.clearedDescriptors buf) ∧
      (w ∈ late ↔ w ∈ buf.dirty.entries ∧ w.1 ≠ superblockOffset / m.fs.sb.blockSize ∧
        w.1 ∈ m.clearedDescriptors buf) ∧
      (w ∈ super ↔ w ∈ buf.dirty.entries ∧ w.1 = superblockOffset / m.fs.sb.blockSize) := by
  obtain ⟨rfl, h1⟩ := List.cons.inj h
  obtain ⟨rfl, h2⟩ := List.cons.inj h1
  obtain ⟨rfl, -⟩ := List.cons.inj h2
  simp only [List.mem_filter, decide_eq_true_eq, and_true]

theorem Survived.mem_dirty {applied : List (Nat × Bytes)} (h : Survived m d buf img applied)
    {w : Nat × Bytes} (hw : w ∈ applied) : w ∈ buf.dirty.entries := by
  obtain ⟨early, late, super, kept, hst, hcases⟩ := h.cases
  obtain ⟨he, hl, hs⟩ := mem_directStages hst w
  obtain ⟨hk, rfl⟩ | ⟨hk, rfl⟩ | ⟨hk, rfl⟩ := hcases
  · exact (he.mp (hk.subset hw)).1
  · obtain hw | hw := List.mem_append.mp hw
    · exact (he.mp hw).1
    · exact (hl.mp (hk.subset hw)).1
  · obtain hw | hw := List.mem_append.mp hw
    · obtain hw | hw := List.mem_append.mp hw
      · exact (he.mp hw).1
      · exact (hl.mp hw).1
    · exact (hs.mp (hk.subset hw)).1

theorem Survived.block_cases {applied : List (Nat × Bytes)} (h : Survived m d buf img applied)
    (hw : m.WholeBlocks d.img buf) (b : Nat) :
    (∃ bytes, (b, bytes) ∈ applied ∧ buf.dirty.get? b = some bytes ∧
        img.block m.fs.sb.blockSize b = bytes) ∨
      ((∀ w ∈ applied, w.1 ≠ b) ∧
        img.block m.fs.sb.blockSize b = d.img.block m.fs.sb.blockSize b) := by
  have hlen : ∀ w ∈ applied, w.2.length = m.fs.sb.blockSize := by
    intro w hmem
    have hget := (buf.dirty.mem_entries_iff w.1 w.2).mp (h.mem_dirty hmem)
    have hview := hw w.1
    rwa [BlockBuffer.view, hget, Option.getD_some] at hview
  have hblock := Image.block_writeBlocks d.img m.fs.sb.blockSize applied hlen b
  rw [← h.image] at hblock
  cases hl : lastWrite applied b with
  | some bytes =>
    rw [hl, Option.getD_some] at hblock
    have hmem := lastWrite_mem hl
    exact Or.inl ⟨bytes, hmem, (buf.dirty.mem_entries_iff b bytes).mp (h.mem_dirty hmem), hblock⟩
  | none =>
    rw [hl, Option.getD_none] at hblock
    refine Or.inr ⟨?_, hblock⟩
    rintro w hmem rfl
    obtain ⟨data, hdata⟩ := lastWrite_isSome_of_mem hmem
    rw [hdata] at hl
    cases hl

theorem Survived.first_stage {applied : List (Nat × Bytes)} (h : Survived m d buf img applied)
    {w v : Nat × Bytes} (hw : w ∈ applied)
    (hlate : w.1 ∈ m.clearedDescriptors buf ∨ w.1 = superblockOffset / m.fs.sb.blockSize)
    (hv : v ∈ buf.dirty.entries) (hv1 : v.1 ≠ superblockOffset / m.fs.sb.blockSize)
    (hv2 : v.1 ∉ m.clearedDescriptors buf) : v ∈ applied := by
  obtain ⟨early, late, super, kept, hst, hcases⟩ := h.cases
  have hve : v ∈ early := (mem_directStages hst v).1.mpr ⟨hv, hv1, hv2⟩
  obtain ⟨hk, rfl⟩ | ⟨hk, rfl⟩ | ⟨hk, rfl⟩ := hcases
  · obtain ⟨-, h1, h2⟩ := (mem_directStages hst w).1.mp (hk.subset hw)
    obtain hl | hl := hlate
    · exact absurd hl h2
    · exact absurd hl h1
  · exact List.mem_append_left _ hve
  · exact List.mem_append_left _ (List.mem_append_left _ hve)

theorem Survived.all_but_superblock {applied : List (Nat × Bytes)}
    (h : Survived m d buf img applied) {w v : Nat × Bytes} (hw : w ∈ applied)
    (hsuper : w.1 = superblockOffset / m.fs.sb.blockSize) (hv : v ∈ buf.dirty.entries)
    (hv1 : v.1 ≠ superblockOffset / m.fs.sb.blockSize) : v ∈ applied := by
  obtain ⟨early, late, super, kept, hst, hcases⟩ := h.cases
  obtain ⟨hwe, hwl, -⟩ := mem_directStages hst w
  have hnot : w ∉ early ∧ w ∉ late :=
    ⟨fun hm => (hwe.mp hm).2.1 hsuper, fun hm => (hwl.mp hm).2.1 hsuper⟩
  obtain ⟨hk, rfl⟩ | ⟨hk, rfl⟩ | ⟨hk, rfl⟩ := hcases
  · exact absurd (hk.subset hw) hnot.1
  · obtain hw | hw := List.mem_append.mp hw
    · exact absurd hw hnot.1
    · exact absurd (hk.subset hw) hnot.2
  · apply List.mem_append_left
    obtain ⟨hve, hvl, -⟩ := mem_directStages hst v
    by_cases hv2 : v.1 ∈ m.clearedDescriptors buf
    · exact List.mem_append_right _ (hvl.mpr ⟨hv, hv1, hv2⟩)
    · exact List.mem_append_left _ (hve.mpr ⟨hv, hv1, hv2⟩)

/-- The order a crash may not break: a group whose uninit flag reads as cleared has its staged
bitmap, unless the flag was clear before and the bitmap is the one it then had; and the superblock
is the old one, or every other staged block is in place. -/
def CommitOrdered (m : Mount) (d : Disk) (buf : BlockBuffer) (img : Image) : Prop :=
  (∀ (kind : BitmapKind) (g : Nat) (bgd : BlockGroupDescriptor), m.fs.groups[g]? = some bgd →
    m.flagsIn (img.block m.fs.sb.blockSize) g &&& kind.flag = 0 →
    buf.dirty.get? (kind.bitmapBlock bgd) =
        some (img.block m.fs.sb.blockSize (kind.bitmapBlock bgd)) ∨
      (m.flagsIn (d.img.block m.fs.sb.blockSize) g &&& kind.flag = 0 ∧
        img.block m.fs.sb.blockSize (kind.bitmapBlock bgd) =
          d.img.block m.fs.sb.blockSize (kind.bitmapBlock bgd))) ∧
  (img.block m.fs.sb.blockSize (superblockOffset / m.fs.sb.blockSize) =
      d.img.block m.fs.sb.blockSize (superblockOffset / m.fs.sb.blockSize) ∨
    ∀ b bytes, b ≠ superblockOffset / m.fs.sb.blockSize → buf.dirty.get? b = some bytes →
      img.block m.fs.sb.blockSize b = bytes)

theorem Survived.commitOrdered {applied : List (Nat × Bytes)} (hacc : m.Accepted)
    (hapart : m.Apart) (hv : m.FlagsVouched d.img buf) (h : Survived m d buf img applied) :
    CommitOrdered m d buf img := by
  constructor
  · intro kind g bgd hbgd hclear
    have hg := lt_of_getElem?_eq_some hbgd
    -- a staged bitmap block that survived, or one not written yet
    have hbitmap : ∀ hold : m.flagsIn (d.img.block m.fs.sb.blockSize) g &&& kind.flag = 0,
        buf.dirty.get? (kind.bitmapBlock bgd) =
            some (img.block m.fs.sb.blockSize (kind.bitmapBlock bgd)) ∨
          (m.flagsIn (d.img.block m.fs.sb.blockSize) g &&& kind.flag = 0 ∧
            img.block m.fs.sb.blockSize (kind.bitmapBlock bgd) =
              d.img.block m.fs.sb.blockSize (kind.bitmapBlock bgd)) := by
      intro hold
      obtain ⟨bytes, -, hget, himg⟩ | ⟨-, himg⟩ := h.block_cases hv.whole (kind.bitmapBlock bgd)
      · exact Or.inl (by rw [hget, himg])
      · exact Or.inr ⟨hold, himg⟩
    obtain ⟨bytes, hmem, hget, himg⟩ | ⟨-, himg⟩ := h.block_cases hv.whole (m.descAt g).1
    · have hflags : m.flagsIn (img.block m.fs.sb.blockSize) g =
          m.flagsIn (buf.view d.img m.fs.sb.blockSize) g := by
        unfold flagsIn BlockBuffer.view
        rw [himg, hget, Option.getD_some]
      rw [hflags] at hclear
      obtain hsame | ⟨hsome, hstaged⟩ := hv.flags kind g bgd hbgd
      · exact hbitmap (hsame ▸ hclear)
      · -- the descriptor goes out after the bitmap it vouches for
        obtain ⟨f, hf⟩ := Option.isSome_iff_exists.mp hsome
        have hdesc : (m.descAt g).1 ∈ m.clearedDescriptors buf :=
          List.mem_map.mpr ⟨(g, f), (buf.uninitCleared.mem_entries_iff g f).mpr hf, rfl⟩
        obtain ⟨bm, hbm⟩ := Option.isSome_iff_exists.mp hstaged
        have hearly : (kind.bitmapBlock bgd, bm) ∈ applied := by
          apply h.first_stage hmem (Or.inl hdesc) ((buf.dirty.mem_entries_iff _ bm).mpr hbm)
          · exact hacc.bitmap_ne_superblock kind hbgd
          · intro hin
            obtain ⟨e, he, heq⟩ := List.mem_map.mp hin
            have hlt : e.1 < m.fs.groups.length := by
              apply hv.cleared
              rw [(buf.uninitCleared.mem_entries_iff e.1 e.2).mp he]
              rfl
            exact hapart.bitmaps kind g bgd hbgd e.1 hlt heq.symm
        rcases h.block_cases hv.whole (kind.bitmapBlock bgd) with ⟨bytes', -, hget',
          himg'⟩ | ⟨hno, -⟩
        · exact Or.inl (by rw [hget', himg'])
        · exact absurd rfl (hno _ hearly)
    · have hflags : m.flagsIn (img.block m.fs.sb.blockSize) g =
          m.flagsIn (d.img.block m.fs.sb.blockSize) g := by
        unfold flagsIn
        rw [himg]
      exact hbitmap (hflags ▸ hclear)
  · rcases h.block_cases hv.whole (superblockOffset / m.fs.sb.blockSize) with
      ⟨bytes, hmem, -, -⟩ | ⟨-, himg⟩
    · right
      intro b bytes' hb hget
      have hin := h.all_but_superblock hmem rfl ((buf.dirty.mem_entries_iff b bytes').mpr hget) hb
      obtain ⟨bytes'', -, hget'', himg⟩ | ⟨hno, -⟩ := h.block_cases hv.whole b
      · rw [himg]
        exact Option.some.inj (hget''.symm.trans hget)
      · exact absurd rfl (hno _ hin)
    · exact Or.inl himg

end Crash

end Mount

namespace Mount

/-- After a crash anywhere in a commit without a journal, no uninit flag reads as cleared over a
bitmap the buffer did not put there, and the superblock is the last to change. -/
theorem commitOrdered_of_crash {crc : Crc} {m : Mount} {d : Disk} {buf : BlockBuffer} {img : Image}
    (hacc : m.Accepted) (hmeta : m.fs.sb.hasMetaBg = true → m.Apart) (hj : m.journal = none)
    (hb : Built crc m d buf)
    (h : CrashImage d.img [] ((m.commitBlockBuffer crc buf).trace d) img) :
    CommitOrdered m d buf img := by
  have hapart := hacc.apart hmeta
  obtain ⟨applied, hs⟩ := survived_of_crash hj h
  exact hs.commitOrdered hacc hapart (hb.flagsVouched hacc.bounds hapart)

/-- Three groups with META_BG and one descriptor a block: block 16385 holds the descriptor of
group 2. -/
def threeGroupsSb : Superblock where
  inodesCount := 48
  blocksCount := 24577
  firstDataBlock := 1
  logBlockSize := 0
  blocksPerGroup := 8192
  inodesPerGroup := 16
  inodeSize := 128
  featureIncompat := 0x290
  descSize := 1024
  reservedGdtBlocks := 0
  journalInode := 0
  featureCompat := 0
  featureRoCompat := 0x1
  firstInode := 11
  metaBgField := 0
  backupBgs := [0, 0]
  uuid := List.replicate 16 0

def threeGroups (bitmap : Nat) : Mount where
  fs := {
    sb := threeGroupsSb
    groups := [
      ⟨20, 21, 22, 100, 5, 1, 0⟩,
      ⟨bitmap, 31, 32, 8000, 16, 0, 0x3⟩,
      ⟨40, 41, 42, 8000, 16, 0, 0x3⟩]
    sizeBytes := 24577 * 1024
    isWritable := true }
  csum := ⟨0, false⟩
  cleared := SortedMap.empty
  journal := none
  directCommitFailed := false

/-- The start of a descriptor, with the low half of its pointers and its flags. -/
def descriptorHead (blockBitmap inodeBitmap inodeTable : UInt32) (flags : UInt16) : Bytes :=
  u32le blockBitmap ++ u32le inodeBitmap ++ u32le inodeTable ++ List.replicate 6 0 ++ u16le flags

def threeGroupsDisk (bitmap : Nat) : Disk where
  img := Image.writeBlocks (fun _ => 0) 1024 [
    (2, descriptorHead 20 21 22 0),
    (8194, descriptorHead (UInt32.ofNat bitmap) 31 32 0x3),
    (16385, descriptorHead 40 41 42 0x3)]
  size := 24577 * 1024

def threeGroupsStaged (bitmap : Nat) : Result BlockBuffer := do
  let m := threeGroups bitmap
  let read := m.fs.reader (threeGroupsDisk bitmap)
  let buf ← m.bufferMarkBlockRunUsed linuxCrc32c read BlockBuffer.new 17000 1
  m.bufferMarkBlockRunUsed linuxCrc32c read buf 9000 1

theorem built_of_threeGroupsStaged {bitmap : Nat} {buf : BlockBuffer}
    (h : threeGroupsStaged bitmap = .ok buf) :
    Built linuxCrc32c (threeGroups bitmap) (threeGroupsDisk bitmap) buf := by
  obtain ⟨buf₁, h1, h2⟩ := Result.bind_eq_ok h
  exact .markBlocks 9000 1 (.markBlocks 17000 1 .new h1) h2

/-- The writes of the first stage, and of the second the descriptor of group 1. -/
def threeGroupsKept (bitmap : Nat) (buf : BlockBuffer) : List (Nat × Bytes) :=
  let descriptors := (threeGroups bitmap).clearedDescriptors buf
  buf.dirty.entries.filter (fun e => e.1 ≠ 1 ∧ e.1 ∉ descriptors) ++
    (buf.dirty.entries.filter (fun e => e.1 ≠ 1 ∧ e.1 ∈ descriptors)).filter (fun e => e.1 = 8194)

theorem threeGroupsKept_crash {bitmap : Nat} {buf : BlockBuffer} {evs : List Ev}
    (h : evs = stageEvs (((threeGroups bitmap).directStages buf.dirty
      ((threeGroups bitmap).clearedDescriptors buf)).map (atOffsets 1024))) :
    CrashImage (threeGroupsDisk bitmap).img [] evs
      ((threeGroupsDisk bitmap).img.writeBlocks 1024 (threeGroupsKept bitmap buf)) := by
  subst h
  have hkept : ((buf.dirty.entries.filter (fun e => e.1 ≠ 1 ∧
      e.1 ∈ (threeGroups bitmap).clearedDescriptors buf)).filter (fun e => e.1 = 8194)).Sublist
      (buf.dirty.entries.filter (fun e => e.1 ≠ 1 ∧
        e.1 ∈ (threeGroups bitmap).clearedDescriptors buf)) := List.filter_sublist
  have hcrash := CrashImage.of_stages (threeGroupsDisk bitmap).img
    [atOffsets 1024 (buf.dirty.entries.filter (fun e => e.1 ≠ 1 ∧
      e.1 ∉ (threeGroups bitmap).clearedDescriptors buf))] _
    [atOffsets 1024 (buf.dirty.entries.filter (fun e => e.1 = 1))]
      (hkept.map (fun w => (w.1 * 1024, w.2)))
  rw [List.flatten_singleton] at hcrash
  have hone : superblockOffset / threeGroupsSb.blockSize = 1 := by decide
  have hsb : (threeGroups bitmap).fs.sb = threeGroupsSb := rfl
  unfold Image.writeBlocks threeGroupsKept directStages
  rw [hsb, hone]
  dsimp only
  rw [atOffsets, List.map_append]
  exact hcrash

theorem threeGroups_parsed : threeGroupsSb.Parsed :=
  ⟨⟨0, 0, by decide⟩, by decide, by decide⟩

theorem threeGroups_accepted {bitmap : Nat} (h : bitmap = 30 ∨ bitmap = 16385) :
    (threeGroups bitmap).Accepted where
  bounds := threeGroups_parsed.bounds (by decide)
  count := by
    have hcount : threeGroupsSb.blockGroupCount = 3 := by decide
    exact hcount.symm
  pointers := by
    intro g bgd hbgd
    have hg := lt_of_getElem?_eq_some hbgd
    have hall : ∀ bitmap ∈ [30, 16385], ∀ g, g < 3 → ∀ bgd ∈ (threeGroups bitmap).fs.groups[g]?,
        checkPointersWithin threeGroupsSb g bgd threeGroupsSb.inodeTableBlocks = .ok () := by
      decide
    exact hall bitmap (by simpa using h) g hg bgd hbgd

theorem threeGroups_trace {bitmap : Nat} (h : bitmap = 30 ∨ bitmap = 16385) :
    ∃ buf, threeGroupsStaged bitmap = .ok buf ∧
      ((threeGroups bitmap).commitBlockBuffer linuxCrc32c buf).trace (threeGroupsDisk bitmap) =
        stageEvs (((threeGroups bitmap).directStages buf.dirty
          ((threeGroups bitmap).clearedDescriptors buf)).map (atOffsets 1024)) := by
  have hall : ∀ bitmap ∈ [30, 16385], Result.Ends (fun buf =>
      ((threeGroups bitmap).commitBlockBuffer linuxCrc32c buf).trace (threeGroupsDisk bitmap) =
        stageEvs (((threeGroups bitmap).directStages buf.dirty
          ((threeGroups bitmap).clearedDescriptors buf)).map (atOffsets 1024)))
      (threeGroupsStaged bitmap) := by
    decide +kernel
  exact (hall bitmap (by simpa using h)).exists_ok

/-- Where a bitmap lies on a descriptor block, both go out in the second stage, and a crash between
them leaves the flag of group 1 cleared over the old descriptor of group 2. -/
theorem crash_trusts_unstaged_bitmap :
    ∃ buf img, threeGroupsStaged 16385 = .ok buf ∧
      CrashImage (threeGroupsDisk 16385).img []
        (((threeGroups 16385).commitBlockBuffer linuxCrc32c buf).trace (threeGroupsDisk 16385))
          img ∧
      (threeGroups 16385).Accepted ∧
      (threeGroups 16385).flagsIn ((threeGroupsDisk 16385).img.block 1024) 1 &&& blockUninit ≠ 0 ∧
      (threeGroups 16385).flagsIn (img.block 1024) 1 &&& blockUninit = 0 ∧
      buf.dirty.get? 16385 ≠ some (img.block 1024 16385) ∧
      img.block 1024 16385 = (threeGroupsDisk 16385).img.block 1024 16385 := by
  obtain ⟨buf, hs, ht⟩ := threeGroups_trace (Or.inr rfl)
  have hends : Result.Ends (fun buf =>
      (threeGroups 16385).flagsIn (((threeGroupsDisk 16385).img.writeBlocks 1024
        (threeGroupsKept 16385 buf)).block 1024) 1 &&& blockUninit = 0 ∧
      buf.dirty.get? 16385 ≠ some (((threeGroupsDisk 16385).img.writeBlocks 1024
        (threeGroupsKept 16385 buf)).block 1024 16385) ∧
      ((threeGroupsDisk 16385).img.writeBlocks 1024 (threeGroupsKept 16385 buf)).block 1024 16385 =
        (threeGroupsDisk 16385).img.block 1024 16385) (threeGroupsStaged 16385) := by
    decide +kernel
  have hold : (threeGroups 16385).flagsIn ((threeGroupsDisk 16385).img.block 1024) 1 &&&
      blockUninit ≠ 0 := by
    decide +kernel
  obtain ⟨buf', hs', hfacts⟩ := hends.exists_ok
  obtain rfl : buf' = buf := Except.ok.inj (hs'.symm.trans hs)
  exact ⟨buf', _, hs, threeGroupsKept_crash ht, threeGroups_accepted (Or.inr rfl), hold, hfacts⟩

theorem threeGroups_apart : (threeGroups 30).Apart where
  descriptors := by
    intro g g' hg hg'
    have hall : ∀ g < 3, ∀ g' < 3,
        threeGroupsSb.descriptorLocation g = threeGroupsSb.descriptorLocation g' → g = g' := by
      decide
    exact hall g hg g' hg'
  bitmaps := by
    intro kind g bgd hbgd g' hg'
    have hall : ∀ g < 3, ∀ bgd ∈ (threeGroups 30).fs.groups[g]?, ∀ g' < 3,
        bgd.blockBitmap ≠ (threeGroupsSb.descriptorLocation g').1 ∧
          bgd.inodeBitmap ≠ (threeGroupsSb.descriptorLocation g').1 := by
      decide
    have hb := hall g (lt_of_getElem?_eq_some hbgd) bgd hbgd g' hg'
    cases kind with
    | block => exact hb.1
    | inode => exact hb.2

/-- On the volume with its bitmaps in place, the crash in the second stage keeps the order. -/
theorem commitOrdered_of_crash_second_stage :
    ∃ buf img, threeGroupsStaged 30 = .ok buf ∧
      CrashImage (threeGroupsDisk 30).img []
        (((threeGroups 30).commitBlockBuffer linuxCrc32c buf).trace (threeGroupsDisk 30)) img ∧
      CommitOrdered (threeGroups 30) (threeGroupsDisk 30) buf img := by
  obtain ⟨buf, hs, ht⟩ := threeGroups_trace (Or.inl rfl)
  have hcrash := threeGroupsKept_crash ht
  exact ⟨buf, _, hs, hcrash, commitOrdered_of_crash (threeGroups_accepted (Or.inl rfl))
    (fun _ => threeGroups_apart) rfl (built_of_threeGroupsStaged hs) hcrash⟩

end Mount

end FsExt4
