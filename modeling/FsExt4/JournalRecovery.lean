import FsExt4.JournalRecoverable

namespace FsExt4

open Lib Jbd2 Journal JournalApply

/-- The two fields of the superblock that come and go with `needs_recovery`. -/
def RecoveryField (p : Nat) : Prop :=
  (superblockOffset + 0x60 ≤ p ∧ p < superblockOffset + 0x64) ∨
    (superblockOffset + 0x3FC ≤ p ∧ p < superblockOffset + 0x400)

theorem getD_setNeedsRecoveryIn (crc : Crc) (sb : Bytes) (hsb : sb.length = 1024)
    (on : Bool) (i : Nat)
    (hi : ¬ RecoveryField (superblockOffset + i)) : (setNeedsRecoveryIn crc sb on).getD i 0 =
      sb.getD i 0 := by
  obtain ⟨post, hpost, he⟩ := setNeedsRecoveryIn_eq crc sb on
  unfold RecoveryField at hi
  have hmem : ∀ q ∈ (0x60, u32le (withRecover on (u32leAt sb 0x60))) :: post,
      q.2.length = 4 ∧ (q.1 = 0x60 ∨ q.1 = 0x3FC) := by
    intro q hq
    obtain rfl | hq := List.mem_cons.mp hq
    · exact ⟨length_u32le _, Or.inl rfl⟩
    · exact ⟨(hpost q hq).2, Or.inr (hpost q hq).1⟩
  rw [he]
  apply getD_copyAll_outside
  · intro q hq
    obtain ⟨h4, h⟩ := hmem q hq
    omega
  · intro q hq
    obtain ⟨h4, h⟩ := hmem q hq
    omega

/-- The image with `needs_recovery` set or cleared in its superblock. -/
def withFlag (crc : Crc) (on : Bool) (img : Image) : Image :=
  img.write superblockOffset (setNeedsRecoveryIn crc (img.read superblockOffset 1024) on)

theorem withFlag_apply (crc : Crc) (on : Bool) (img : Image) (p : Nat) (hp : ¬ RecoveryField p) :
    withFlag crc on img p = img p := by
  unfold withFlag
  have hl := length_setNeedsRecoveryIn crc (img.read superblockOffset 1024) on
    (Image.length_read _ _ _)
  by_cases hin : superblockOffset ≤ p ∧ p < superblockOffset + 1024
  · rw [Image.write_of_mem _ _ _ _ hin.1 (by rw [hl]; exact hin.2)]
    rw [getD_setNeedsRecoveryIn crc _ (Image.length_read _ _ _) on _
      (by rwa [Nat.add_sub_cancel' hin.1]),
      Image.getD_read _ _ _ _ (by omega), Nat.add_sub_cancel' hin.1]
  · exact Image.write_of_not_mem _ _ _ _ (by rw [hl]; exact hin)

/-- The volume as a mount that finds other incompatible features has it. -/
def Filesystem.withIncompat (fs : Filesystem) (incompat : UInt32) : Filesystem :=
  { fs with sb := { fs.sb with featureIncompat := incompat } }

theorem after_replayEvs (bs : Nat) (tx : Transaction) (d : Disk) :
    d.after (replayEvs bs tx) = { d with img := d.img.writeBlocks bs tx.finalWrites } := by
  unfold replayEvs
  split
  · rename_i h
    rw [Transaction.finalWrites, h]
    rfl
  · exact Disk.after_epoch d _

theorem crash_replayEvs {bs : Nat} {tx : Transaction} {img img' : Image} {rest : List Ev}
    (h : CrashImage img [] (replayEvs bs tx ++ rest) img') :
    (∃ kept, kept.Sublist (atOffsets bs tx.finalWrites) ∧ img' = img.writeAll kept) ∨
      CrashImage (img.writeBlocks bs tx.finalWrites) [] rest img' := by
  unfold replayEvs at h
  split at h
  · rename_i hne
    right
    rw [Transaction.finalWrites, hne]
    exact h
  · rw [List.append_assoc] at h
    exact h.epoch_cases

theorem cleanJsb_restamped (crc : Crc) (jsb : JournalSuperblock) (sequence : UInt32) (buf : Bytes)
    (hbuf : 0x100 ≤ buf.length) : Restamped (cleanJsb crc jsb sequence buf) buf sequence 0 := by
  unfold cleanJsb
  dsimp only
  split
  · exact restamped_copyAll buf hbuf [] [(0xFC, [0, 0, 0, 0]), (0xFC, u32be _)] sequence 0 (by simp)
      (by simp)
  · exact restamped_copyAll buf hbuf [] [] sequence 0 (by simp) (by simp)

theorem Restamped.of_head {buf' buf : Bytes} {sequence start : UInt32}
    (hlen : buf'.length = buf.length)
    (h : Restamped (slice buf' 0 1024) (slice buf 0 1024) sequence start) : Restamped buf' buf
      sequence start := by
  have hagree : ∀ (b : Bytes) (lo hi : Nat), hi ≤ 1024 → AgreeOn b (slice b 0 1024) lo hi := by
    intro b lo hi hhi o n h1 h2
    rw [slice_slice b 0 1024 o n (by omega), Nat.zero_add]
  have htrans : ∀ lo hi, hi ≤ 1024 → AgreeOn (slice buf' 0 1024) (slice buf 0 1024) lo hi →
      AgreeOn buf' buf lo hi := by
    intro lo hi hhi hs
    apply (hagree buf' lo hi hhi).trans
    apply hs.trans
    intro o n h1 h2
    exact (hagree buf lo hi hhi o n h1 h2).symm
  refine ⟨hlen, htrans _ _ (by omega) h.head, htrans _ _ (by omega) h.geometry,
    htrans _ _ (by omega) h.features, ?_, ?_⟩
  · rw [(hagree buf' 0x18 0x1C (by omega)).u32beAt 0x18 (by omega) (by omega)]
    exact h.sequence
  · rw [(hagree buf' 0x1C 0x20 (by omega)).u32beAt 0x1C (by omega) (by omega)]
    exact h.start

section Recovery

variable {crc : Crc} {fs : Filesystem} {map : Nat → Nat} {jsb : JournalSuperblock} {jinode : Inode}
  {d : Disk} {n : Nat}

theorem markJournalClean_runs (plan : ReplayPlan) (h64 : fs.sizeBytes < 2 ^ 64)
    (hsize : d.size = fs.sizeBytes) (hn : 0 < n) (hm : Mapped fs (· < n) map jinode d)
    (hin : InVolume fs (map 0)) {jsb₀ : JournalSuperblock}
    (hparse : JournalSuperblock.parse (logOf fs map d 0) = .ok jsb₀) :
    (markJournalClean crc fs jsb plan).Runs d () (writeEvs [(map 0 * fs.sb.blockSize,
      cleanJsb crc jsb (plan.nextSequence.getD jsb.sequence + 1)
        (d.img.read (map 0 * fs.sb.blockSize) 1024))] ++ [.flush]) := by
  have hbs := blockSize_ge fs.sb
  have hin2 := hin.2
  have hslice : d.img.read (map 0 * fs.sb.blockSize) 1024 = slice (logOf fs map d 0) 0 1024 := by
    unfold logOf Image.block
    rw [Image.slice_read _ _ _ _ _ (by omega), Nat.add_zero]
  have hmagic : u32beAt (d.img.read (map 0 * fs.sb.blockSize) 1024) 0 = magicNumber := by
    have h := (JournalSuperblock.parse_ok _ _ hparse).2.1
    rw [hslice]
    unfold u32beAt at h ⊢
    rw [slice_slice _ _ _ _ _ (by omega), Nat.zero_add]
    exact h
  have hlen : (cleanJsb crc jsb (plan.nextSequence.getD jsb.sequence + 1)
      (d.img.read (map 0 * fs.sb.blockSize) 1024)).length = 1024 :=
    (cleanJsb_restamped crc jsb _ _ (by rw [Image.length_read]; omega)).length.trans
      (Image.length_read _ _ _)
  have hjinode : fs.journalInode.Runs d jinode [] := (journalInode_readsBlocks fs).runs hm.1
  have hphys : (fs.journalBlockToPhysical jinode 0).Runs d (some (map 0)) [] :=
    (mapLogicalAny_readsBlocks jinode.block jinode.flags fs.sb.blockSize 0).runs (hm.2 0 hn)
  unfold markJournalClean
  refine hjinode.bind_silent (hphys.bind_silent ?_)
  dsimp only
  rw [byteOffsetOf_ok fs h64 _ hin]
  refine (Io.Runs.liftM _ d).bind_silent ((readAt_runs d _ 1024 (by omega)).bind_silent ?_)
  rw [if_neg (by simp [hmagic])]
  exact (writeAt_runs d _ _ (by rw [hlen]; omega)).bind (flush_runs _)

def cleaned (crc : Crc) (fs : Filesystem) (map : Nat → Nat) (jsb : JournalSuperblock)
    (img : Image) : Nat × Bytes :=
  (map 0 * fs.sb.blockSize, cleanJsb crc jsb (jsb.sequence + 1 + 1)
    (img.read (map 0 * fs.sb.blockSize) 1024))

def withCleanJsb (crc : Crc) (fs : Filesystem) (map : Nat → Nat) (jsb : JournalSuperblock)
    (sequence : UInt32) (img : Image) : Image :=
  img.write (map 0 * fs.sb.blockSize)
    (cleanJsb crc jsb sequence (img.read (map 0 * fs.sb.blockSize) 1024))

/-- The superblock without `needs_recovery`. -/
def unflagged (crc : Crc) (img : Image) : Nat × Bytes :=
  (superblockOffset, setNeedsRecoveryIn crc (img.read superblockOffset 1024) false)

/-- What recovery of a dirty journal writes: the transaction, then the journal superblock, then the
superblock, each flushed. -/
def recoveryEvs (crc : Crc) (fs : Filesystem) (map : Nat → Nat) (jsb : JournalSuperblock)
    (tx : Transaction) (img : Image) : List Ev :=
  let replayed := img.writeBlocks fs.sb.blockSize tx.finalWrites
  let jsbWrite := cleaned crc fs map jsb replayed
  replayEvs fs.sb.blockSize tx ++ (writeEvs [jsbWrite] ++ [.flush] ++
    (writeEvs [unflagged crc (replayed.write jsbWrite.1 jsbWrite.2)] ++ [.flush]))

theorem unflag_runs (hsb : superblockOffset + 1024 ≤ d.size) :
    (writeNeedsRecovery crc false).Runs d () (writeEvs [unflagged crc d.img]) :=
  writeNeedsRecovery_runs crc false d hsb

theorem Dirtied.congr {tx : Transaction} {blocks : List Bytes} {d' : Disk}
    (h : Dirtied crc fs map jsb tx blocks d)
    (hsame : ∀ j, 1 ≤ j → j < jsb.maxLen.toNat → logOf fs map d' j = logOf fs map d j) :
    Dirtied crc fs map jsb tx blocks d' := by
  have hfit := h.fits
  refine ⟨⟨h.accepted, h.serialized, h.sequence, h.blockSize, h.first, h.start, h.nonempty,
    h.fits, ?_⟩, ?_⟩
  · intro i b hb
    have hi := (List.getElem?_eq_some_iff.mp hb).1
    rw [hsame (1 + i) (by omega) (by omega)]
    exact h.holds i b hb
  · intro hlt
    unfold NoHeader
    rw [hsame (1 + blocks.length) (by omega) (by omega)]
    exact h.ends hlt

theorem Dirtied.recovers {tx : Transaction} {blocks : List Bytes}
    (h : Dirtied crc fs map jsb tx blocks d)
    (hr : Replayable fs map jsb tx) (hwr : fs.isWritable = true) (hsize : d.size = fs.sizeBytes)
    (h64 : fs.sizeBytes < 2 ^ 64) (h0 : fs.sb.journalInode ≠ 0)
    (hincompat : writeBreakingIncompat fs.sb.featureIncompat = 0)
    (hvol : ∀ j, j < jsb.maxLen.toNat → InVolume fs (map j))
    (hlens : ∀ w ∈ tx.writes, w.bytes.length = fs.sb.blockSize)
      (hsb : superblockOffset + 1024 ≤ d.size)
    (hparse : JournalSuperblock.parse (logOf fs map d 0) = .ok jsb)
    (hm : Mapped fs (· < jsb.maxLen.toNat) map jinode d)
    (hm' : ∃ jinode, Mapped fs (· < jsb.maxLen.toNat) map jinode
      { d with img := d.img.writeBlocks fs.sb.blockSize tx.finalWrites }) :
    ∃ k, (replayIfDirty crc fs).Runs d k (recoveryEvs crc fs map jsb tx d.img) := by
  have hn : 0 < jsb.maxLen.toNat := Nat.zero_lt_of_lt h.walkable.geometry.start_lt
  have hdev : map 0 * fs.sb.blockSize + fs.sb.blockSize ≤ d.size := by
    rw [hsize]
    exact (hvol 0 hn).2
  have hread := JournalWriter.readSuperblock_runs fs map jinode d _ hn h0 hm hdev jsb hparse
  obtain ⟨plan, hwalk, hnext, happly⟩ := h.replays hr hwr hsize h64 hm (fun j _ hj => hvol j hj)
  have hjsb : logOf fs map { d with img := d.img.writeBlocks fs.sb.blockSize tx.finalWrites } 0 =
      logOf fs map d 0 := by
    apply logOf_writeBlocks
    · intro w hw
      obtain ⟨u, hu, rfl⟩ := List.mem_map.mp hw
      exact hlens u hu
    · intro w hw
      obtain ⟨u, hu, rfl⟩ := List.mem_map.mp hw
      exact hr.outside u hu 0 hn
  obtain ⟨jinode', hm'⟩ := hm'
  have hparse' : JournalSuperblock.parse (logOf fs map
      { d with img := d.img.writeBlocks fs.sb.blockSize tx.finalWrites } 0) = .ok jsb := by
    rw [hjsb]
    exact hparse
  have hmark := @markJournalClean_runs crc fs map jsb jinode'
    { d with img := d.img.writeBlocks fs.sb.blockSize tx.finalWrites } jsb.maxLen.toNat plan h64
      hsize hn hm' (hvol 0 hn)
    jsb hparse'
  rw [hnext, Option.getD_some] at hmark
  refine ⟨plan.writes.length, ?_⟩
  unfold replayIfDirty recoveryEvs
  rw [hwr]
  refine hread.bind_silent ?_
  have hdirty : jsb.isClean = false := by
    have hne := h.walkable.dirty
    simpa [JournalSuperblock.isClean] using hne
  dsimp only
  rw [hdirty, if_neg (by simp), hincompat, if_neg (by simp)]
  refine hwalk.bind_silent (happly.bind ?_)
  rw [after_replayEvs]
  refine hmark.bind ?_
  rw [Disk.after_epoch]
  refine Io.Runs.bind (@unflag_runs crc _ hsb) ?_
  exact (flush_runs _).bind (Io.Runs.pure _ _)

def restingEvs (crc : Crc) (fs : Filesystem) (img : Image) : List Ev :=
  if fs.sb.featureIncompat &&& incompatRecover ≠ 0 then writeEvs [unflagged crc img] ++
    [.flush] else []

theorem clean_recovers (hwr : fs.isWritable = true) (hsb : superblockOffset + 1024 ≤ d.size)
    (hread : fs.readSuperblock.Runs d (some jsb) []) (hclean : jsb.start = 0) :
    (replayIfDirty crc fs).Runs d 0 (restingEvs crc fs d.img) := by
  unfold replayIfDirty restingEvs
  rw [hwr]
  refine hread.bind_silent ?_
  have hc : jsb.isClean = true := by simp [JournalSuperblock.isClean, hclean]
  dsimp only
  rw [hc, if_pos rfl]
  by_cases hflag : fs.sb.featureIncompat &&& incompatRecover ≠ 0
  · rw [if_pos hflag, if_pos hflag]
    refine (unflag_runs hsb).bind ?_
    exact (flush_runs _).bind (Io.Runs.pure _ _)
  · rw [if_neg hflag, if_neg hflag]
    exact Io.Runs.pure 0 d

end Recovery

end FsExt4
