import FsExt4.JournalRecovery

namespace FsExt4

open Lib Jbd2 Journal JournalApply

/-- A volume, the writer its clean journal opened to, and the bytes that say where the journal
lies. -/
structure Journaled where
  fs : Filesystem
  writer : JournalWriter
  base : Disk
  steady : Nat → Prop
  opens : (JournalWriter.openWriter fs).exec base = (.ok (some writer), base)
  size : base.size = fs.sizeBytes
  sizeFits : fs.sizeBytes < 2 ^ 64
  descSize : 0 < fs.sb.descSize
  writable : fs.isWritable = true
  hasLog : 1 < writer.jsb.maxLen.toNat
  first : writer.jsb.first = 1
  clean : writer.jsb.start = 0
  distinct : writer.physicalMap.Nodup
  onDevice : ∀ b ∈ writer.physicalMap, b * fs.sb.blockSize + fs.sb.blockSize ≤ base.size
  apart : ∀ p, steady p → ¬ (superblockOffset ≤ p ∧ p < superblockOffset + 1024) ∧
    ∀ b ∈ writer.physicalMap,
    ¬ (b * fs.sb.blockSize ≤ p ∧ p < b * fs.sb.blockSize + fs.sb.blockSize)
  mapping : ∀ d : Disk, d.size = base.size → (∀ p, steady p → d.img p = base.img p) →
    ∃ jinode, Mapped fs (· < writer.jsb.maxLen.toNat) writer.journalBlock jinode d

namespace Journaled

variable (crc : Crc) (v : Journaled)

/-- The bytes a transaction is about: those outside the journal that do not follow
`needs_recovery`. -/
def Visible (p : Nat) : Prop :=
  ¬ RecoveryField p ∧ ∀ b ∈ v.writer.physicalMap,
    ¬ (b * v.fs.sb.blockSize ≤ p ∧ p < b * v.fs.sb.blockSize + v.fs.sb.blockSize)

def Shows (a b : Image) : Prop := ∀ p, v.Visible p → a p = b p

def Unused (sequence : UInt32) (m : Nat) (d : Disk) : Prop :=
  ∀ j, 1 ≤ j → j < v.writer.jsb.maxLen.toNat → ∀ hdr,
    tryParseHeader (logOf v.fs v.writer.journalBlock d j) = some hdr →
      ∀ k, 1 ≤ k → k ≤ m → hdr.sequence ≠ sequence + UInt32.ofNat k

/-- A transaction the volume takes: inside it, outside its journal, clear of its own revokes, and
leaving the bytes that say where the journal lies as they were. -/
structure Admits (tx : Transaction) : Prop where
  replayable : Replayable v.fs v.writer.journalBlock v.writer.jsb tx
  keeps : ∀ w ∈ tx.writes, ∀ i, i < v.fs.sb.blockSize →
    v.steady (w.fsBlock.toNat * v.fs.sb.blockSize + i) →
      w.bytes.getD i 0 = v.base.img (w.fsBlock.toNat * v.fs.sb.blockSize + i)

/-- The journal is clean and at the sequence, and the volume shows the image. -/
structure Resting (sequence : UInt32) (m : Nat) (img : Image) (d : Disk) : Prop where
  size : d.size = v.base.size
  steady : ∀ p, v.steady p → d.img p = v.base.img p
  shows : v.Shows d.img img
  journal : ∃ jsb, JournalSuperblock.parse (logOf v.fs v.writer.journalBlock d 0) = .ok jsb ∧
    jsb.fixed = v.writer.jsb.fixed ∧ jsb.sequence = sequence ∧ jsb.start = 0
  unused : v.Unused sequence m d

/-- The journal holds the transaction, and replaying it makes the volume show the image. -/
structure Awaiting (sequence : UInt32) (m : Nat) (tx : Transaction) (img : Image)
    (d : Disk) : Prop where
  size : d.size = v.base.size
  steady : ∀ p, v.steady p → d.img p = v.base.img p
  shows : v.Shows (d.img.writeBlocks v.fs.sb.blockSize tx.finalWrites) img
  journal : ∃ jsb blocks, JournalSuperblock.parse (logOf v.fs v.writer.journalBlock d 0) = .ok jsb ∧
    jsb.fixed = v.writer.jsb.fixed ∧ jsb.sequence = sequence ∧
      Dirtied crc v.fs v.writer.journalBlock jsb tx blocks d
  unused : v.Unused sequence m d
  admits : v.Admits tx
  lengths : ∀ w ∈ tx.writes, w.bytes.length = v.fs.sb.blockSize

variable {crc v}

theorem attached_base : v.writer.healthy = true ∧ JournalWriter.Attached v.fs v.writer v.base := by
  have hl := v.hasLog
  exact (JournalWriter.attached_of_open v.fs v.base v.base v.writer v.opens v.size (by omega)).2

theorem journalBlock_mem (j : Nat) (hj : j < v.writer.jsb.maxLen.toNat) :
    v.writer.journalBlock j ∈ v.writer.physicalMap :=
  JournalWriter.journalBlock_mem attached_base.2.mapLength j hj

theorem journalBlock_inj {i j : Nat} (hi : i < v.writer.jsb.maxLen.toNat)
    (hj : j < v.writer.jsb.maxLen.toNat) (h : v.writer.journalBlock i = v.writer.journalBlock j) :
      i = j := by
  have hl := (attached_base (v := v)).2.mapLength
  unfold JournalWriter.journalBlock at h
  rw [List.getD_eq_getElem?_getD, List.getD_eq_getElem?_getD, List.getElem?_eq_getElem (by omega),
    List.getElem?_eq_getElem (by omega), Option.getD_some, Option.getD_some] at h
  exact (List.Nodup.getElem_inj_iff v.distinct).mp h

theorem journal_clear (j : Nat) (hj : j < v.writer.jsb.maxLen.toNat) :
    2048 ≤ v.writer.journalBlock j * v.fs.sb.blockSize :=
  attached_base.2.clear v.descSize j hj

theorem journal_inVolume (j : Nat) (hj : j < v.writer.jsb.maxLen.toNat) :
    InVolume v.fs (v.writer.journalBlock j) := by
  have hmem := v.journalBlock_mem j hj
  refine ⟨(attached_base.2.placed _ hmem).2, ?_⟩
  rw [← v.size]
  exact v.onDevice _ hmem

theorem device_holds_superblock : superblockOffset + 1024 ≤ v.base.size := by
  have h0 : 0 < v.writer.jsb.maxLen.toNat := Nat.lt_of_succ_lt v.hasLog
  have h1 := v.journal_clear 0 h0
  have h2 := v.onDevice _ (v.journalBlock_mem 0 h0)
  unfold superblockOffset
  omega

theorem visible {p : Nat} (hp : v.steady p) : v.Visible p := by
  obtain ⟨h1, h2⟩ := v.apart p hp
  refine ⟨?_, h2⟩
  unfold RecoveryField
  omega

theorem Shows.refl (a : Image) : v.Shows a a := fun _ _ => rfl

theorem Shows.trans {a b c : Image} (h : v.Shows a b) (h' : v.Shows b c) : v.Shows a c :=
  fun p hp => (h p hp).trans (h' p hp)

theorem Shows.writeAll {a b : Image} (h : v.Shows a b) (ws : List (Nat × Bytes)) :
    v.Shows (a.writeAll ws) (b.writeAll ws) :=
  fun p hp => Image.writeAll_congr a b ws p (Or.inr (h p hp))

theorem Unused.mono {s : UInt32} {m m' : Nat} {d : Disk} (h : v.Unused s m d) (hm : m' ≤ m) :
    v.Unused s m' d :=
  fun j h1 h2 hdr hh k hk hkm => h j h1 h2 hdr hh k hk (Nat.le_trans hkm hm)

theorem Unused.congr {s : UInt32} {m : Nat} {d d' : Disk} (h : v.Unused s m d)
    (hsame : ∀ j, 1 ≤ j → j < v.writer.jsb.maxLen.toNat →
      logOf v.fs v.writer.journalBlock d' j = logOf v.fs v.writer.journalBlock d j) :
        v.Unused s m d' := by
  intro j h1 h2 hdr hh
  rw [hsame j h1 h2] at hh
  exact h j h1 h2 hdr hh

theorem Unused.succ {s : UInt32} {m : Nat} {d : Disk} (h : v.Unused s (m + 1) d) :
    v.Unused (s + 1) m d := by
  intro j h1 h2 hdr hh k hk hkm
  have hk' := h j h1 h2 hdr hh (k + 1) (by omega) (by omega)
  rw [UInt32.ofNat_add] at hk'
  intro he
  apply hk'
  rw [he, UInt32.add_assoc, UInt32.add_comm 1]
  rfl

theorem sequence_ne_add (s : UInt32) {k : Nat} (h1 : 1 ≤ k) (h2 : k < 2 ^ 32) : s ≠
    s + UInt32.ofNat k := by
  intro h
  have hn := congrArg UInt32.toNat h
  rw [UInt32.toNat_add, UInt32.toNat_ofNat', Nat.mod_eq_of_lt h2] at hn
  have hs := s.toNat_lt
  omega

theorem log_writeAll {d : Disk} {ws : List (Nat × Bytes)} {j : Nat}
    (h : ∀ w ∈ ws, v.writer.journalBlock j * v.fs.sb.blockSize + v.fs.sb.blockSize ≤ w.1 ∨
      w.1 + w.2.length ≤ v.writer.journalBlock j * v.fs.sb.blockSize) :
    logOf v.fs v.writer.journalBlock { d with img := d.img.writeAll ws } j =
      logOf v.fs v.writer.journalBlock d j :=
  Image.read_writeAll_disjoint _ _ _ _ h

theorem log_flag (crc : Crc) (on : Bool) (d : Disk) (j : Nat) (hj : j < v.writer.jsb.maxLen.toNat) :
    logOf v.fs v.writer.journalBlock { d with img := withFlag crc on d.img } j =
      logOf v.fs v.writer.journalBlock d j := by
  apply Image.read_write_disjoint
  right
  rw [length_setNeedsRecoveryIn crc _ on (Image.length_read _ _ _)]
  exact v.journal_clear j hj

theorem Resting.flag {s : UInt32} {m : Nat} {img : Image} {d : Disk} (h : v.Resting s m img d)
    (crc : Crc) (on : Bool) : v.Resting s m img { d with img := withFlag crc on d.img } := by
  have h0 : 0 < v.writer.jsb.maxLen.toNat := Nat.lt_of_succ_lt v.hasLog
  refine ⟨h.size, ?_, ?_, ?_, ?_⟩
  · intro p hp
    dsimp only
    rw [withFlag_apply crc on _ p (v.visible hp).1]
    exact h.steady p hp
  · intro p hp
    dsimp only
    rw [withFlag_apply crc on _ p hp.1]
    exact h.shows p hp
  · rw [log_flag crc on d 0 h0]
    exact h.journal
  · exact h.unused.congr fun j _ hj => log_flag crc on d j hj

theorem mapped {d : Disk} (hsize : d.size = v.base.size) (h : ∀ p, v.steady p →
    d.img p = v.base.img p) (incompat : UInt32) : ∃ jinode,
      Mapped (v.fs.withIncompat incompat) (· < v.writer.jsb.maxLen.toNat) v.writer.journalBlock
        jinode d := by
  obtain ⟨jinode, h1, h2⟩ := v.mapping d hsize h
  exact ⟨jinode, h1, h2⟩

theorem finalWrites_clear {tx : Transaction} (h : v.Admits tx)
    (hlens : ∀ w ∈ tx.writes, w.bytes.length = v.fs.sb.blockSize) (j : Nat)
    (hj : j < v.writer.jsb.maxLen.toNat) : ∀ w ∈ atOffsets v.fs.sb.blockSize tx.finalWrites,
      v.writer.journalBlock j * v.fs.sb.blockSize + v.fs.sb.blockSize ≤ w.1 ∨
        w.1 + w.2.length ≤ v.writer.journalBlock j * v.fs.sb.blockSize := by
  intro w hw
  obtain ⟨u, hu, rfl⟩ := List.mem_map.mp hw
  obtain ⟨x, hx, rfl⟩ := List.mem_map.mp hu
  dsimp only
  rw [hlens x hx]
  exact block_disjoint _ _ _ (h.replayable.outside x hx j hj)

theorem steady_writeAll {tx : Transaction} (h : v.Admits tx)
    (hlens : ∀ w ∈ tx.writes, w.bytes.length = v.fs.sb.blockSize) {ws : List (Nat × Bytes)}
    (hws : ws.Sublist (atOffsets v.fs.sb.blockSize tx.finalWrites)) {img : Image}
    (himg : ∀ p, v.steady p → img p = v.base.img p) (p : Nat) (hp : v.steady p) :
    img.writeAll ws p = v.base.img p := by
  apply Image.writeAll_value _ _ _ _ _ (himg p hp)
  intro w hw h1 h2
  obtain ⟨u, hu, rfl⟩ := List.mem_map.mp (hws.subset hw)
  obtain ⟨x, hx, rfl⟩ := List.mem_map.mp hu
  dsimp only at h1 h2 ⊢
  rw [hlens x hx] at h2
  have hk := h.keeps x hx (p - x.fsBlock.toNat * v.fs.sb.blockSize) (by omega)
  rw [Nat.add_sub_cancel' h1] at hk
  exact hk hp

theorem Awaiting.partly {s : UInt32} {m : Nat} {tx : Transaction} {img : Image} {d : Disk}
    (h : v.Awaiting crc s m tx img d) {ws : List (Nat × Bytes)}
    (hws : ws.Sublist (atOffsets v.fs.sb.blockSize tx.finalWrites)) :
    v.Awaiting crc s m tx img { d with img := d.img.writeAll ws } := by
  have hlog : ∀ j, j < v.writer.jsb.maxLen.toNat →
      logOf v.fs v.writer.journalBlock { d with img := d.img.writeAll ws } j =
        logOf v.fs v.writer.journalBlock d j := fun j hj =>
    log_writeAll fun w hw => v.finalWrites_clear h.admits h.lengths j hj w (hws.subset hw)
  refine ⟨h.size, v.steady_writeAll h.admits h.lengths hws h.steady, ?_, ?_, ?_,
    h.admits, h.lengths⟩
  · have hsame : (d.img.writeAll ws).writeBlocks v.fs.sb.blockSize tx.finalWrites =
        d.img.writeBlocks v.fs.sb.blockSize tx.finalWrites := Image.writeAll_sublist d.img hws
    dsimp only
    rw [hsame]
    exact h.shows
  · obtain ⟨jsb, blocks, hparse, hfixed, hseq, hdirty⟩ := h.journal
    have hmax : jsb.maxLen = v.writer.jsb.maxLen := congrArg (·.maxLen) hfixed
    refine ⟨jsb, blocks, ?_, hfixed, hseq, hdirty.congr fun j _ hj => hlog j (by rwa [← hmax])⟩
    rw [hlog 0 (Nat.lt_of_succ_lt v.hasLog)]
    exact hparse
  · exact h.unused.congr fun j _ hj => hlog j hj

theorem Awaiting.replayed {s : UInt32} {m : Nat} {tx : Transaction} {img : Image} {d : Disk}
    (h : v.Awaiting crc s m tx img d) :
    v.Awaiting crc s m tx img { d with img := d.img.writeBlocks v.fs.sb.blockSize tx.finalWrites } ∧
      v.Shows (d.img.writeBlocks v.fs.sb.blockSize tx.finalWrites) img :=
  ⟨h.partly (List.Sublist.refl _), h.shows⟩

theorem rests_of_restamped {s : UInt32} {m : Nat} {img : Image} {d : Disk}
    (hsize : d.size = v.base.size)
    (hsteady : ∀ p, v.steady p → d.img p = v.base.img p) (hshows : v.Shows d.img img)
    (hunused : v.Unused s m d) {jsb : JournalSuperblock}
    (hparse : JournalSuperblock.parse (logOf v.fs v.writer.journalBlock d 0) = .ok jsb)
    (hfixed : jsb.fixed = v.writer.jsb.fixed) {bytes : Bytes}
      (hlen : bytes.length ≤ v.fs.sb.blockSize)
    (hst : Restamped (logOf v.fs v.writer.journalBlock
      { d with img := d.img.write (v.writer.journalBlock 0 * v.fs.sb.blockSize) bytes } 0)
      (logOf v.fs v.writer.journalBlock d 0) s 0) :
    v.Resting s m img
      { d with img := d.img.write (v.writer.journalBlock 0 * v.fs.sb.blockSize) bytes } := by
  have h0 : 0 < v.writer.jsb.maxLen.toNat := Nat.lt_of_succ_lt v.hasLog
  have hsame : ∀ p, v.Visible p →
      d.img.write (v.writer.journalBlock 0 * v.fs.sb.blockSize) bytes p = d.img p := by
    intro p hp
    apply Image.write_of_not_mem
    have hout := hp.2 _ (v.journalBlock_mem 0 h0)
    omega
  refine ⟨hsize, ?_, ?_, ?_, ?_⟩
  · intro p hp
    exact (hsame p (v.visible hp)).trans (hsteady p hp)
  · intro p hp
    exact (hsame p hp).trans (hshows p hp)
  · obtain ⟨jsb', hp, hf, hs, ht⟩ := hst.parse hparse
    exact ⟨jsb', hp, hf.trans hfixed, hs, ht⟩
  · apply hunused.congr
    intro j hj1 hj2
    have hne : v.writer.journalBlock j ≠ v.writer.journalBlock 0 := by
      intro he
      have := v.journalBlock_inj hj2 h0 he
      omega
    have hd := block_disjoint v.fs.sb.blockSize _ _ hne
    apply Image.read_write_disjoint
    omega

theorem restamped_cleaned {jsb : JournalSuperblock} {d : Disk} (sequence : UInt32) :
    Restamped (logOf v.fs v.writer.journalBlock
        { d with img := withCleanJsb crc v.fs v.writer.journalBlock jsb sequence d.img } 0)
      (logOf v.fs v.writer.journalBlock d 0) sequence 0 := by
  have hbs := blockSize_ge v.fs.sb
  have hst := cleanJsb_restamped crc jsb sequence
    (d.img.read (v.writer.journalBlock 0 * v.fs.sb.blockSize) 1024)
      (by rw [Image.length_read]; omega)
  have hlen := hst.length.trans (Image.length_read _ _ _)
  have hself := Image.read_write_self d.img (v.writer.journalBlock 0 * v.fs.sb.blockSize)
    (cleanJsb crc jsb sequence (d.img.read (v.writer.journalBlock 0 * v.fs.sb.blockSize) 1024))
  rw [hlen] at hself
  apply Restamped.of_head
  · unfold logOf Image.block
    rw [Image.length_read, Image.length_read]
  · unfold logOf Image.block withCleanJsb
    rw [Image.slice_read _ _ _ _ _ (by omega), Image.slice_read _ _ _ _ _ (by omega),
      Nat.add_zero, hself]
    exact hst

/-- Recovery brings the volume to show the image, with `m` sequences to spare. -/
def Recoverable (crc : Crc) (v : Journaled) (m : Nat) (img : Image) (d : Disk) : Prop :=
  (∃ s, v.Resting s m img d) ∨ ∃ s tx, v.Awaiting crc s (m + 2) tx img d

/-- A recovery that runs to its end and may be cut off anywhere. -/
structure Recovers (crc : Crc) (v : Journaled) (incompat : UInt32) (m : Nat)
    (img : Image) (d : Disk) (evs : List Ev) : Prop where
  runs : ∃ n, (replayIfDirty crc (v.fs.withIncompat incompat)).Runs d n evs
  rests : ∃ s, v.Resting s m img (d.after evs)
  crash : ∀ img', CrashImage d.img [] evs img' → Recoverable crc v m img { d with img := img' }

theorem Awaiting.recovers {s : UInt32} {m : Nat} {tx : Transaction} {img : Image} {d : Disk}
    (h : v.Awaiting crc s (m + 2) tx img d) (incompat : UInt32)
      (hx : writeBreakingIncompat incompat = 0) :
    ∃ evs, Recovers crc v incompat m img d evs := by
  have h0 : 0 < v.writer.jsb.maxLen.toNat := Nat.lt_of_succ_lt v.hasLog
  obtain ⟨hrep, hshows⟩ := h.replayed
  obtain ⟨jsb, blocks, hparse, hfixed, hseq, hdirty⟩ := h.journal
  have hmax : jsb.maxLen = v.writer.jsb.maxLen := congrArg (·.maxLen) hfixed
  obtain ⟨jinode, hm⟩ := v.mapped h.size h.steady incompat
  obtain ⟨jinode', hm'⟩ := v.mapped hrep.size hrep.steady incompat
  have hdirty' : Dirtied crc (v.fs.withIncompat incompat) v.writer.journalBlock jsb tx blocks d :=
    ⟨⟨hdirty.accepted, hdirty.serialized, hdirty.sequence, hdirty.blockSize, hdirty.first,
      hdirty.start, hdirty.nonempty, hdirty.fits, hdirty.holds⟩, hdirty.ends⟩
  have hr := h.admits.replayable.congr hfixed
  have hr' : Replayable (v.fs.withIncompat incompat) v.writer.journalBlock jsb tx :=
    ⟨⟨hr.inVolume, hr.fits, hr.unrevoked⟩, hr.outside⟩
  have hsb : superblockOffset + 1024 ≤ d.size := by
    rw [h.size]
    exact v.device_holds_superblock
  obtain ⟨n, hrun⟩ := hdirty'.recovers hr' v.writable (h.size.trans v.size) v.sizeFits
    (attached_base (v := v)).2.hasJournal hx (fun j hj => v.journal_inVolume j (by rwa [← hmax]))
    h.lengths hsb hparse (by rw [hmax]; exact hm) ⟨jinode', by rw [hmax]; exact hm'⟩
  obtain ⟨jsb₁, -, hparse₁, hfixed₁, -, -⟩ := hrep.journal
  -- the journal superblock is marked clean, and then the flag goes
  have hclean : v.Resting (s + 1 + 1) m img { d with
      img := withCleanJsb crc v.fs v.writer.journalBlock jsb (s + 1 + 1)
        (d.img.writeBlocks v.fs.sb.blockSize tx.finalWrites) } := by
    have hbs := blockSize_ge v.fs.sb
    apply v.rests_of_restamped
      (d := { d with img := d.img.writeBlocks v.fs.sb.blockSize tx.finalWrites })
      hrep.size hrep.steady hshows hrep.unused.succ.succ hparse₁ hfixed₁
    · rw [(cleanJsb_restamped crc jsb (s + 1 + 1) _ (by rw [Image.length_read]; omega)).length,
        Image.length_read]
      omega
    · exact restamped_cleaned
        (d := { d with img := d.img.writeBlocks v.fs.sb.blockSize tx.finalWrites }) _
  subst hseq
  refine ⟨_, ⟨n, hrun⟩, ⟨jsb.sequence + 1 + 1, ?_⟩, ?_⟩
  · unfold recoveryEvs
    rw [Disk.after_append, after_replayEvs, Disk.after_append, Disk.after_epoch, Disk.after_epoch]
    exact hclean.flag crc false
  · intro img' hc
    unfold recoveryEvs at hc
    obtain ⟨kept, hkept, rfl⟩ | hc := crash_replayEvs hc
    · exact Or.inr ⟨_, tx, h.partly hkept⟩
    obtain ⟨kept, hkept, rfl⟩ | hc := hc.closed_cases
    · obtain rfl | rfl := List.sublist_singleton.mp hkept
      · exact Or.inr ⟨_, tx, hrep⟩
      · exact Or.inl ⟨_, hclean⟩
    · rw [← List.append_nil (writeEvs _ ++ [Ev.flush])] at hc
      obtain ⟨kept, hkept, rfl⟩ | hc := hc.closed_cases
      · obtain rfl | rfl := List.sublist_singleton.mp hkept
        · exact Or.inl ⟨_, hclean⟩
        · exact Or.inl ⟨_, hclean.flag crc false⟩
      · obtain ⟨kept, hkept, rfl⟩ := hc.nil_cases
        rw [List.sublist_nil.mp hkept]
        exact Or.inl ⟨_, hclean.flag crc false⟩

theorem Resting.recovers {s : UInt32} {m : Nat} {img : Image} {d : Disk} (h : v.Resting s m img d)
    (incompat : UInt32) : ∃ evs, Recovers crc v incompat m img d evs := by
  have h0 : 0 < v.writer.jsb.maxLen.toNat := Nat.lt_of_succ_lt v.hasLog
  obtain ⟨jsb, hparse, -, -, hstart⟩ := h.journal
  obtain ⟨jinode, hm⟩ := v.mapped h.size h.steady incompat
  have hdev : v.writer.journalBlock 0 * v.fs.sb.blockSize + v.fs.sb.blockSize ≤ d.size := by
    rw [h.size]
    exact v.onDevice _ (v.journalBlock_mem 0 h0)
  have hread := JournalWriter.readSuperblock_runs (v.fs.withIncompat incompat)
    v.writer.journalBlock jinode d _ h0 (attached_base (v := v)).2.hasJournal hm hdev jsb hparse
  have hsb : superblockOffset + 1024 ≤ d.size := by
    rw [h.size]
    exact v.device_holds_superblock
  have hrun := @clean_recovers crc (v.fs.withIncompat incompat) jsb d v.writable hsb hread hstart
  have hflag := h.flag crc false
  refine ⟨_, ⟨0, hrun⟩, ⟨s, ?_⟩, ?_⟩
  · unfold restingEvs
    split
    · rw [Disk.after_epoch]
      exact hflag
    · exact h
  · intro img' hc
    unfold restingEvs at hc
    split at hc
    · rw [← List.append_nil (writeEvs _ ++ [Ev.flush])] at hc
      obtain ⟨kept, hkept, rfl⟩ | hc := hc.closed_cases
      · obtain rfl | rfl := List.sublist_singleton.mp hkept
        · exact Or.inl ⟨s, h⟩
        · exact Or.inl ⟨s, hflag⟩
      · obtain ⟨kept, hkept, rfl⟩ := hc.nil_cases
        rw [List.sublist_nil.mp hkept]
        exact Or.inl ⟨s, hflag⟩
    · obtain ⟨kept, hkept, rfl⟩ := hc.nil_cases
      rw [List.sublist_nil.mp hkept]
      exact Or.inl ⟨s, h⟩

/-- Whatever a crash left, the next mount's recovery ends with the volume showing the image, and a
crash in it leaves that still to be had. -/
theorem Recoverable.recovers {m : Nat} {img : Image} {d : Disk} (h : Recoverable crc v m img d)
    (incompat : UInt32) (hx : writeBreakingIncompat incompat = 0) :
    ∃ evs, Recovers crc v incompat m img d evs := by
  obtain ⟨s, h⟩ | ⟨s, tx, h⟩ := h
  · exact h.recovers incompat
  · exact h.recovers incompat hx

theorem Awaiting.flag {s : UInt32} {m : Nat} {tx : Transaction} {img : Image} {d : Disk}
    (h : v.Awaiting crc s m tx img d) (on : Bool) :
    v.Awaiting crc s m tx img { d with img := withFlag crc on d.img } := by
  have h0 : 0 < v.writer.jsb.maxLen.toNat := Nat.lt_of_succ_lt v.hasLog
  refine ⟨h.size, ?_, ?_, ?_, ?_, h.admits, h.lengths⟩
  · intro p hp
    dsimp only
    rw [withFlag_apply crc on _ p (v.visible hp).1]
    exact h.steady p hp
  · intro p hp
    refine Eq.trans ?_ (h.shows p hp)
    exact Image.writeAll_congr _ _ _ p (Or.inr (withFlag_apply crc on _ p hp.1))
  · obtain ⟨jsb, blocks, hparse, hfixed, hseq, hdirty⟩ := h.journal
    have hmax : jsb.maxLen = v.writer.jsb.maxLen := congrArg (·.maxLen) hfixed
    refine ⟨jsb, blocks, ?_, hfixed, hseq, hdirty.congr fun j _ hj => log_flag crc on d j
      (by rwa [← hmax])⟩
    rw [log_flag crc on d 0 h0]
    exact hparse
  · exact h.unused.congr fun j _ hj => log_flag crc on d j hj

structure Held (v : Journaled) (s : UInt32) (w : JournalWriter) : Prop where
  healthy : w.healthy = true
  physicalMap : w.physicalMap = v.writer.physicalMap
  blockSize : w.blockSize = v.fs.sb.blockSize
  blocksCount : w.blocksCount = v.fs.sb.blocksCount
  fixed : w.jsb.fixed = v.writer.jsb.fixed
  sequence : w.jsb.sequence = s
  start : w.jsb.start = 0

theorem Held.journalBlock {s : UInt32} {w : JournalWriter} (h : v.Held s w) :
    w.journalBlock = v.writer.journalBlock := by
  funext j
  unfold JournalWriter.journalBlock
  rw [h.physicalMap]

theorem Held.maxLen {s : UInt32} {w : JournalWriter} (h : v.Held s w) : w.jsb.maxLen =
    v.writer.jsb.maxLen :=
  congrArg (·.maxLen) h.fixed

theorem Held.attached {s : UInt32} {w : JournalWriter} {m : Nat} {img : Image} {d : Disk}
    (h : v.Held s w) (hd : v.Resting s m img d) : JournalWriter.Attached v.fs w d := by
  have h0 : 0 < v.writer.jsb.maxLen.toNat := Nat.lt_of_succ_lt v.hasLog
  have hatt := (attached_base (v := v)).2
  obtain ⟨jinode, h1, h2⟩ := v.mapping d hd.size hd.steady
  obtain ⟨jsb, hparse, hfixed, hseq, hstart⟩ := hd.journal
  refine ⟨hd.size.trans v.size, h.blockSize, h.blocksCount, ?_, ?_, hatt.hasJournal,
    ⟨jinode, h1, ?_⟩, ?_, ?_⟩
  · rw [h.physicalMap, h.maxLen]
    exact hatt.mapLength
  · rw [h.physicalMap]
    exact hatt.placed
  · rw [h.maxLen, h.journalBlock]
    exact h2
  · rw [h.journalBlock, hd.size]
    exact v.onDevice _ (v.journalBlock_mem 0 h0)
  · refine ⟨jsb, ?_, hfixed.trans h.fixed.symm, hseq.trans h.sequence.symm,
      hstart.trans h.start.symm⟩
    rw [h.journalBlock]
    exact hparse

section Patched

variable {s : UInt32} {w : JournalWriter} (h : v.Held s w)

include h

theorem Held.sbOffset : w.sbBlock * v.fs.sb.blockSize + w.sbOffsetInBlock = superblockOffset := by
  unfold JournalWriter.sbBlock JournalWriter.sbOffsetInBlock
  rw [h.blockSize, Nat.mul_comm, Nat.div_add_mod]

theorem Held.sbFits : w.sbOffsetInBlock + 1024 ≤ w.blockSize := by
  unfold JournalWriter.sbOffsetInBlock
  rw [h.blockSize]
  exact superblock_in_block v.fs.sb

theorem Held.getD_kept (x : JournaledBlock) (hlen : x.bytes.length = w.blockSize) (i : Nat)
    (hi : ¬ RecoveryField (x.fsBlock.toNat * v.fs.sb.blockSize + i)) :
    (w.keepNeedsRecovery crc x).bytes.getD i 0 = x.bytes.getD i 0 := by
  unfold JournalWriter.keepNeedsRecovery
  split
  · rename_i hsb
    have hfit := h.sbFits
    have hs : (slice x.bytes w.sbOffsetInBlock 1024).length = 1024 := by
      rw [length_slice]
      omega
    dsimp only
    rw [getD_copyAt _ _ _ _ (by rw [length_setNeedsRecoveryIn crc _ true hs]; omega),
      length_setNeedsRecoveryIn crc _ true hs]
    split
    · rename_i hin
      have hoff := h.sbOffset
      rw [hsb] at hi
      rw [getD_setNeedsRecoveryIn crc _ hs true, getD_slice _ _ _ _ (by omega),
        Nat.add_sub_cancel' hin.1]
      rwa [← hoff, Nat.add_assoc, Nat.add_sub_cancel' hin.1]
    · rfl
  · rfl

variable {tx : Transaction} (hlens : ∀ x ∈ tx.writes, x.bytes.length = w.blockSize)

include hlens

theorem Held.shows_patched (a b : Image) (hab : v.Shows a b) :
    v.Shows (a.writeBlocks v.fs.sb.blockSize (w.patchSuperblock crc tx).finalWrites)
      (b.writeBlocks v.fs.sb.blockSize tx.finalWrites) := by
  intro p hp
  unfold Image.writeBlocks atOffsets Transaction.finalWrites JournalWriter.patchSuperblock
  rw [List.map_map, List.map_map, List.map_map]
  apply Image.writeAll_map_congr _ _ _ _ _ _ _ (hab p hp)
  intro x hx
  have hl := JournalWriter.keepNeedsRecovery_length crc w h.sbFits x (hlens x hx)
  have hb := JournalWriter.keepNeedsRecovery_fsBlock crc w x
  refine ⟨?_, ?_, ?_⟩
  · simp only [Function.comp_apply]
    rw [hb]
  · simp only [Function.comp_apply]
    rw [hl, hlens x hx]
  · simp only [Function.comp_apply]
    rw [hb]
    intro h1 _
    apply h.getD_kept x (hlens x hx)
    rw [Nat.add_sub_cancel' h1]
    exact hp.1

theorem Held.admits_patched (ha : v.Admits tx) : v.Admits (w.patchSuperblock crc tx) := by
  have hsame : ∀ y ∈ (w.patchSuperblock crc tx).writes, ∃ x ∈ tx.writes,
    y = w.keepNeedsRecovery crc x ∧
      y.fsBlock = x.fsBlock := by
    intro y hy
    obtain ⟨x, hx, rfl⟩ := List.mem_map.mp hy
    exact ⟨x, hx, rfl, JournalWriter.keepNeedsRecovery_fsBlock crc w x⟩
  refine ⟨⟨⟨?_, ?_, ?_⟩, ?_⟩, ?_⟩
  · intro y hy
    obtain ⟨x, hx, -, hb⟩ := hsame y hy
    rw [hb]
    exact ha.replayable.inVolume x hx
  · intro y hy
    obtain ⟨x, hx, -, hb⟩ := hsame y hy
    rw [hb]
    exact ha.replayable.fits x hx
  · intro y hy b hb'
    obtain ⟨x, hx, -, hb⟩ := hsame y hy
    rw [hb]
    exact ha.replayable.unrevoked x hx b hb'
  · intro y hy j hj
    obtain ⟨x, hx, -, hb⟩ := hsame y hy
    rw [hb]
    exact ha.replayable.outside x hx j hj
  · intro y hy i hi hp
    obtain ⟨x, hx, rfl, hb⟩ := hsame y hy
    rw [hb] at hp ⊢
    rw [h.getD_kept x (hlens x hx) i (v.visible hp).1]
    exact ha.keeps x hx i hi hp

end Patched

structure Commits (crc : Crc) (v : Journaled) (s : UInt32) (m : Nat) (img : Image)
    (w : JournalWriter) (tx : Transaction) (blocks : List Bytes) (d : Disk) : Prop where
  held : v.Held s w
  resting : v.Resting s (m + 2) img d
  window : m + 2 < 2 ^ 32
  prepared : JournalWriter.Prepared crc w tx blocks
  admits : v.Admits tx

section Commit

variable {s : UInt32} {m : Nat} {img : Image} {w : JournalWriter} {tx : Transaction}
  {blocks : List Bytes} {d : Disk} (h : Commits crc v s m img w tx blocks d)

include h

theorem Commits.journalBlock_inj {i j : Nat} (hi : i < v.writer.jsb.maxLen.toNat)
    (hj : j < v.writer.jsb.maxLen.toNat) (he : w.journalBlock i = w.journalBlock j) : i = j := by
  rw [h.held.journalBlock] at he
  exact v.journalBlock_inj hi hj he

theorem Commits.fits : blocks.length ≤ v.writer.jsb.maxLen.toNat - 1 := by
  rw [← h.held.maxLen]
  exact h.prepared.fits

theorem Commits.lengths : ∀ x ∈ tx.writes, x.bytes.length = v.fs.sb.blockSize := by
  intro x hx
  rw [h.prepared.lengths x hx, h.held.blockSize]

theorem Commits.onDevice {j : Nat} (hj : j < v.writer.jsb.maxLen.toNat) :
    OnDevice v.fs w.journalBlock d j := by
  unfold OnDevice
  rw [h.held.journalBlock, h.resting.size]
  exact v.onDevice _ (v.journalBlock_mem j hj)

theorem Commits.next (hlt : blocks.length < w.jsb.maxLen.toNat - 1) :
    OnDevice v.fs w.journalBlock d (1 + blocks.length) ∧
      (∀ i ≤ blocks.length, w.journalBlock i ≠ w.journalBlock (1 + blocks.length)) ∧
      NoHeader (logOf v.fs w.journalBlock d) (1 + blocks.length) (w.jsb.sequence + 1) := by
  rw [h.held.maxLen] at hlt
  refine ⟨h.onDevice (by omega), fun i hi he => ?_, fun hdr hh => ?_⟩
  · have := h.journalBlock_inj (by omega) (by omega) he
    omega
  · rw [h.held.journalBlock] at hh
    have hun := h.resting.unused (1 + blocks.length) (by omega) (by omega) hdr hh 1 (Nat.le_refl _)
      (by have := h.window; omega)
    rw [h.held.sequence]
    exact hun

theorem Commits.sound : JournalWriter.Sound crc v.fs w d tx blocks := by
  have hfit := h.fits
  have hmax := h.held.maxLen
  have hlog := v.hasLog
  have hfirst : w.jsb.first = 1 := (congrArg (·.first) h.held.fixed).trans v.first
  refine ⟨hfirst, fun j hj => h.onDevice (by omega), ?_, ?_, ?_, ?_, ?_⟩
  · intro i j hi hj hne he
    exact hne (h.journalBlock_inj (by omega) (by omega) he)
  · exact JournalWriter.quietBehind_of_noHeader tx hfirst h.next (by rw [hmax]; exact hlog)
  · exact h.admits.replayable.toAddressed.congr h.held.fixed
  · intro x hx j hj
    rw [h.held.journalBlock]
    exact h.admits.replayable.outside x hx j (by omega)
  · intro d' hsize hsame
    obtain ⟨jinode, h1, h2⟩ := v.mapping d' (hsize.trans h.resting.size) (by
      intro p hp
      obtain ⟨ha, hb⟩ := v.apart p hp
      rw [hsame p, h.resting.steady p hp]
      rintro (hc | ⟨j, hj, hc⟩)
      · exact ha hc
      · rw [h.held.journalBlock] at hc
        exact hb _ (v.journalBlock_mem j (by have := v.hasLog; omega)) hc)
    refine ⟨jinode, h1, ?_⟩
    rw [hmax, h.held.journalBlock]
    exact h2

theorem Commits.logged {kept : List (Nat × Bytes)}
    (hk : kept.Sublist (JournalWriter.loggingWrites crc v.fs w blocks d.img)) :
    v.Resting s (m + 2) img { d with img := d.img.writeAll kept } := by
  have hfit := h.fits
  have hbs := h.held.blockSize
  have h0 : 0 < v.writer.jsb.maxLen.toNat := Nat.lt_of_succ_lt v.hasLog
  unfold JournalWriter.loggingWrites at hk
  obtain ⟨k₁, k₂, rfl, hk₁, hk₂⟩ := List.sublist_append_iff.mp hk
  obtain ⟨kl, hkl, rfl⟩ := List.sublist_map_iff.mp hk₁
  have hmem : ∀ x ∈ kl, ∃ i, blocks[i]? = some x.2 ∧ i < blocks.length ∧ x.1 = v.writer.journalBlock
      (1 + i) := by
    intro x hx
    obtain ⟨i, hi, hj⟩ := JournalWriter.logWrites_mem w blocks 1 x (hkl.subset hx)
    rw [h.held.journalBlock] at hj
    exact ⟨i, hi, (List.getElem?_eq_some_iff.mp hi).1, hj⟩
  have hlen : ∀ x ∈ kl, x.2.length = v.fs.sb.blockSize := by
    intro x hx
    obtain ⟨i, hi, -, -⟩ := hmem x hx
    rw [← hbs]
    exact (h.prepared.stamped x.2 (List.mem_of_getElem? hi)).length
  have hsame : ∀ p, v.Visible p → d.img.writeBlocks v.fs.sb.blockSize kl p = d.img p := by
    intro p hp
    apply Image.writeBlocks_of_not_mem _ _ _ hlen
    intro x hx
    obtain ⟨i, -, hi, hj⟩ := hmem x hx
    rw [hj]
    exact hp.2 _ (v.journalBlock_mem _ (by omega))
  have hlog : ∀ j, logOf v.fs v.writer.journalBlock
    { d with img := d.img.writeBlocks v.fs.sb.blockSize kl } j =
      (lastWrite kl (v.writer.journalBlock j)).getD (logOf v.fs v.writer.journalBlock d j) :=
    fun j => Image.block_writeBlocks d.img _ kl hlen _
  have hpart : v.Resting s (m + 2) img
      { d with img := d.img.writeBlocks v.fs.sb.blockSize kl } := by
    refine ⟨h.resting.size, ?_, ?_, ?_, ?_⟩
    · intro p hp
      exact (hsame p (v.visible hp)).trans (h.resting.steady p hp)
    · intro p hp
      exact (hsame p hp).trans (h.resting.shows p hp)
    · rw [hlog 0, lastWrite_eq_none, Option.getD_none]
      · exact h.resting.journal
      · intro x hx he
        obtain ⟨i, -, hi, hj⟩ := hmem x hx
        have := v.journalBlock_inj (i := 1 + i) (j := 0) (by omega) h0 (hj.symm.trans he)
        omega
    · intro j h1 h2 hdr hh k hk1 hk2
      rw [hlog j] at hh
      cases hl : lastWrite kl (v.writer.journalBlock j) with
      | none =>
        rw [hl, Option.getD_none] at hh
        exact h.resting.unused j h1 h2 hdr hh k hk1 hk2
      | some b =>
        rw [hl, Option.getD_some] at hh
        obtain ⟨i, hi, -, -⟩ := hmem _ (lastWrite_mem hl)
        have hst := (h.prepared.stamped b (List.mem_of_getElem? hi)).sequence hdr hh
        rw [hst, h.held.sequence]
        have hw := h.window
        exact sequence_ne_add s hk1 (by omega)
  rw [Image.writeAll_append]
  obtain rfl | rfl := List.sublist_singleton.mp hk₂
  · exact hpart
  · have hread : (d.img.writeAll (atOffsets v.fs.sb.blockSize kl)).read superblockOffset 1024 =
        d.img.read superblockOffset 1024 := by
      apply Image.read_writeAll_disjoint
      intro x hx
      obtain ⟨y, hy, rfl⟩ := List.mem_map.mp hx
      obtain ⟨i, -, hi, hj⟩ := hmem y hy
      left
      dsimp only
      rw [hj]
      exact v.journal_clear _ (by omega)
    have hf := hpart.flag crc true
    unfold withFlag at hf
    rw [show ({ d with img := d.img.writeBlocks v.fs.sb.blockSize kl } : Disk).img =
      d.img.writeAll (atOffsets v.fs.sb.blockSize kl) from rfl, hread] at hf
    exact hf

theorem Commits.awaiting : v.Awaiting crc s (m + 2) tx
    (img.writeBlocks v.fs.sb.blockSize tx.finalWrites)
    (JournalWriter.dirtied crc v.fs w blocks d) := by
  have hfit := h.fits
  have h0 : 0 < v.writer.jsb.maxLen.toNat := Nat.lt_of_succ_lt v.hasLog
  have hsound := h.sound
  have hatt := h.held.attached h.resting
  have hlog := h.logged (List.Sublist.refl _)
  obtain ⟨jsb, hparse, hfixed, hlen, hdirty⟩ := JournalWriter.dirtied_of_steps hatt
    h.prepared v.descSize
    hsound.distinct hsound.first (fun hlt => (h.next hlt).2.1) (fun hlt => (h.next hlt).2.2)
  have himg : (JournalWriter.dirtied crc v.fs w blocks d).img =
      (d.img.writeAll (JournalWriter.loggingWrites crc v.fs w blocks d.img)).write
        (v.writer.journalBlock 0 * v.fs.sb.blockSize)
          (JournalWriter.dirtyBlock crc v.fs w d.img) := by
    rw [← h.held.journalBlock, JournalWriter.loggingWrites, Image.writeAll_append]
    rfl
  have hsame : ∀ p, v.Visible p → (JournalWriter.dirtied crc v.fs w blocks d).img p =
      d.img.writeAll (JournalWriter.loggingWrites crc v.fs w blocks d.img) p := by
    intro p hp
    rw [himg]
    apply Image.write_of_not_mem
    rw [hlen]
    exact hp.2 _ (v.journalBlock_mem 0 h0)
  rw [h.held.journalBlock] at hdirty
  refine ⟨h.resting.size, ?_, ?_, ⟨jsb, blocks, ?_, hfixed.trans h.held.fixed, ?_, hdirty⟩,
    ?_, h.admits, h.lengths⟩
  · intro p hp
    rw [hsame p (v.visible hp)]
    exact hlog.steady p hp
  · apply Shows.writeAll
    intro p hp
    rw [hsame p hp]
    exact hlog.shows p hp
  · have hb := @JournalWriter.block_jsb v.fs w blocks (JournalWriter.flagged crc d.img)
      (JournalWriter.dirtyBlock crc v.fs w d.img) d.img hlen
    rw [h.held.journalBlock] at hb
    unfold logOf
    rw [JournalWriter.dirtied, hb]
    exact hparse
  · rw [← hdirty.sequence, h.prepared.sequence, h.held.sequence]
  · apply hlog.unused.congr
    intro j hj1 hj2
    have hne : v.writer.journalBlock j ≠ v.writer.journalBlock 0 := by
      intro he
      have := v.journalBlock_inj hj2 h0 he
      omega
    unfold logOf
    rw [himg]
    apply Image.read_write_disjoint
    rw [hlen]
    exact block_disjoint _ _ _ hne

theorem Commits.cleaned {d₃ : Disk} {img' : Image}
    (ha : v.Awaiting crc s (m + 2) tx img' d₃) (hshows : v.Shows d₃.img img') :
    v.Resting (s + 1) m img' { d₃ with
      img := d₃.img.write (v.writer.journalBlock 0 * v.fs.sb.blockSize)
        (w.clean.patchJsb crc (d₃.img.block v.fs.sb.blockSize (v.writer.journalBlock 0))) } := by
  obtain ⟨jsb, blocks', hparse, hfixed, -, -⟩ := ha.journal
  have hl := (JournalSuperblock.parse_ok _ _ hparse).1
  have hst := patchJsb_restamped crc w.clean _ hl
  have hlen : (w.clean.patchJsb crc
    (d₃.img.block v.fs.sb.blockSize (v.writer.journalBlock 0))).length =
      v.fs.sb.blockSize := hst.length.trans (Image.length_read _ _ _)
  have hseq : w.clean.jsb.sequence = s + 1 := congrArg (· + 1) h.held.sequence
  apply v.rests_of_restamped ha.size ha.steady hshows (ha.unused.succ.mono (by omega)) hparse hfixed
    (Nat.le_of_eq hlen)
  have hself := Image.read_write_self d₃.img (v.writer.journalBlock 0 * v.fs.sb.blockSize)
    (w.clean.patchJsb crc (d₃.img.block v.fs.sb.blockSize (v.writer.journalBlock 0)))
  rw [hlen] at hself
  rw [← hseq]
  unfold logOf at hst ⊢
  unfold Image.block at hself hst ⊢
  dsimp only
  rw [hself]
  exact hst

theorem Commits.cleaning {d₃ : Disk} {img' : Image} (ha : v.Awaiting crc s (m + 2) tx img' d₃)
    (hshows : v.Shows d₃.img img') :
    v.Resting (s + 1) m img'
        { d₃ with img := d₃.img.writeAll (JournalWriter.cleanWrites crc v.fs w d₃.img) } ∧
      ∀ kept, kept.Sublist (JournalWriter.cleanWrites crc v.fs w d₃.img) →
        Recoverable crc v m img' { d₃ with img := d₃.img.writeAll kept } := by
  have h0 : 0 < v.writer.jsb.maxLen.toNat := Nat.lt_of_succ_lt v.hasLog
  have hclean := h.cleaned ha hshows
  have hflag := hclean.flag crc false
  unfold JournalWriter.cleanWrites
  rw [h.held.journalBlock]
  dsimp only
  split
  · refine ⟨hclean, ?_⟩
    intro kept hk
    obtain rfl | rfl := List.sublist_singleton.mp hk
    · exact Or.inr ⟨s, tx, ha⟩
    · exact Or.inl ⟨s + 1, hclean⟩
  · refine ⟨hflag, ?_⟩
    intro kept hkept
    obtain hk | ⟨r, rfl, hk⟩ := List.sublist_cons_iff.mp hkept
    · obtain rfl | rfl := List.sublist_singleton.mp hk
      · exact Or.inr ⟨s, tx, ha⟩
      · -- the flag went before the journal superblock did
        have hread : (d₃.img.write (v.writer.journalBlock 0 * v.fs.sb.blockSize)
          (w.clean.patchJsb crc (d₃.img.block v.fs.sb.blockSize (v.writer.journalBlock 0)))).read
              superblockOffset 1024 =
            d₃.img.read superblockOffset 1024 :=
          Image.read_write_disjoint _ _ _ _ _ (Or.inl (v.journal_clear 0 h0))
        rw [hread]
        exact Or.inr ⟨s, tx, ha.flag false⟩
    · obtain rfl | rfl := List.sublist_singleton.mp hk
      · exact Or.inl ⟨s + 1, hclean⟩
      · exact Or.inl ⟨s + 1, hflag⟩

end Commit

end Journaled

end FsExt4
