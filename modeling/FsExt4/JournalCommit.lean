import FsExt4.JournalWriter
import FsExt4.JournalReplay

namespace FsExt4

open Lib Jbd2 Journal JournalApply

/-- A block of the log of one transaction: no header in it names another sequence. -/
structure Stamped (bs : Nat) (sequence : UInt32) (b : Bytes) : Prop where
  length : b.length = bs
  sequence : ∀ hdr, tryParseHeader b = some hdr → hdr.sequence = sequence

namespace Transaction

theorem HasHeader.stamped {bs : Nat} {t sequence : UInt32} {blk : Bytes}
    (h : HasHeader bs t sequence blk) (hbs : 12 ≤ bs) : Stamped bs sequence blk := by
  refine ⟨h.length, ?_⟩
  intro hdr hh
  rw [h.tryParseHeader hbs] at hh
  rw [← Option.some.inj hh]

theorem tryParseHeader_loggedCopy (bytes : Bytes) : tryParseHeader (loggedCopy bytes) = none := by
  unfold tryParseHeader
  split
  · rfl
  rename_i hl
  rw [if_pos]
  unfold loggedCopy
  unfold loggedCopy at hl
  split
  · rename_i he
    rw [if_pos he] at hl
    have hs : slice bytes 0 4 = u32be magicNumber := by simpa [needsEscape] using he
    have h4 : 4 ≤ bytes.length := by
      have hlen := congrArg List.length hs
      simp only [length_slice, length_u32be] at hlen
      omega
    have hz := slice_copyAt_self bytes 0 [0, 0, 0, 0] (by simpa using h4)
    rw [u32beAt_of_slice _ 0 0 hz]
    decide
  · rename_i he
    rw [if_neg he] at hl
    intro hm
    apply he
    have h4 : (slice bytes 0 4).length = 4 := by
      rw [length_slice]
      omega
    have hlt : ofBe (slice bytes 0 4) < 2 ^ 32 := by
      have hl' := ofLe_lt (slice bytes 0 4).reverse
      rwa [List.length_reverse, h4] at hl'
    have hof : ofBe (slice bytes 0 4) = magicNumber.toNat := by
      have hn := congrArg UInt32.toNat hm
      unfold u32beAt at hn
      rwa [UInt32.toNat_ofNat', Nat.mod_eq_of_lt hlt] at hn
    have hback := toBe_ofBe (slice bytes 0 4)
    rw [h4, hof] at hback
    unfold needsEscape u32be
    rw [← hback]
    simp

theorem length_loggedCopy (bytes : Bytes) (h : 4 ≤ bytes.length) :
    (loggedCopy bytes).length = bytes.length := by
  unfold loggedCopy
  split
  · exact length_copyAt _ _ _ (by simpa using h)
  · rfl

theorem loggedCopy_stamped (bytes : Bytes) (bs : Nat) (hbs : 4 ≤ bs) (h : bytes.length = bs)
    (sequence : UInt32) : Stamped bs sequence (loggedCopy bytes) := by
  refine ⟨(length_loggedCopy bytes (by omega)).trans h, ?_⟩
  intro hdr hh
  rw [tryParseHeader_loggedCopy] at hh
  exact absurd hh (by simp)

section Serialize

variable (crc : Crc) (jsb : JournalSuperblock) (tx : Transaction)

theorem descriptorGroups_stamped (hbs : 24 ≤ tx.blockSize.toNat) (cs : List (List JournaledBlock))
    (hne : ∀ c ∈ cs, c ≠ []) (hlen : ∀ c ∈ cs, ∀ w ∈ c, w.bytes.length = tx.blockSize.toNat)
    (groups : List (List Bytes)) (h : cs.mapM (descriptorGroup crc tx (layoutFor crc jsb)) =
      .ok groups) :
    ∀ b ∈ groups.flatten, Stamped tx.blockSize.toNat tx.sequence b := by
  induction cs generalizing groups with
  | nil =>
    rw [List.mapM_nil] at h
    rw [← Except.ok.inj h]
    simp
  | cons c rest ih =>
    obtain ⟨g, gs, hg, hrest, rfl⟩ := mapM_cons_ok _ c rest groups h
    obtain ⟨d, hd, rfl⟩ := descriptorGroup_ok crc jsb tx c g hg
    have hh := (descriptor_decodes crc jsb tx c (hne c List.mem_cons_self) d hbs hd).1
    intro b hb
    rw [List.flatten_cons, List.mem_append, List.mem_cons, List.mem_map] at hb
    obtain (rfl | ⟨w, hw, rfl⟩) | hb := hb
    · exact HasHeader.stamped hh (by omega)
    · exact loggedCopy_stamped _ _ (by omega) (hlen c List.mem_cons_self w hw) _
    · exact ih (fun c' h' => hne c' (List.mem_cons_of_mem _ h'))
        (fun c' h' => hlen c' (List.mem_cons_of_mem _ h')) gs hrest b hb

theorem revokeBlocks_stamped (hbs : 24 ≤ tx.blockSize.toNat) (cs : List (List UInt64))
    (blocks : List Bytes) (h : cs.mapM (buildRevokeBlock crc tx (layoutFor crc jsb)) = .ok blocks) :
    ∀ b ∈ blocks, Stamped tx.blockSize.toNat tx.sequence b := by
  induction cs generalizing blocks with
  | nil =>
    rw [List.mapM_nil] at h
    rw [← Except.ok.inj h]
    simp
  | cons c rest ih =>
    obtain ⟨r, bs, hr, hrest, rfl⟩ := mapM_cons_ok _ c rest blocks h
    intro b hb
    obtain rfl | hb := List.mem_cons.mp hb
    · exact HasHeader.stamped (revoke_decodes crc jsb tx c b hbs hr).1 (by omega)
    · exact ih bs hrest b hb

theorem serialize_ne_nil (layout : Layout) (blocks : List Bytes)
    (h : tx.serialize crc layout = .ok blocks) : blocks ≠ [] := by
  unfold serialize at h
  cases hg : (chunks (tx.tagsPerDescriptor layout) tx.writes).mapM
    (descriptorGroup crc tx layout) with
  | error e =>
    rw [hg] at h
    exact absurd h (by simp [bind, Except.bind])
  | ok groups =>
    cases hv : (chunks (tx.revokesPerBlock layout) tx.revokes).mapM
        (buildRevokeBlock crc tx layout) with
    | error e =>
      rw [hg, hv] at h
      exact absurd h (by simp [bind, Except.bind])
    | ok rblocks =>
      rw [hg, hv] at h
      rw [← Except.ok.inj h]
      simp

theorem serialize_stamped (hbs : 24 ≤ tx.blockSize.toNat)
    (hlen : ∀ w ∈ tx.writes, w.bytes.length = tx.blockSize.toNat) (blocks : List Bytes)
    (h : tx.serialize crc (layoutFor crc jsb) = .ok blocks) :
    blocks ≠ [] ∧ ∀ b ∈ blocks, Stamped tx.blockSize.toNat tx.sequence b := by
  have hposT : 0 < tx.tagsPerDescriptor (layoutFor crc jsb) := by
    unfold tagsPerDescriptor
    omega
  unfold serialize at h
  cases hg : (chunks (tx.tagsPerDescriptor (layoutFor crc jsb)) tx.writes).mapM
      (descriptorGroup crc tx (layoutFor crc jsb)) with
  | error e =>
    rw [hg] at h
    exact absurd h (by simp [bind, Except.bind])
  | ok groups =>
    cases hv : (chunks (tx.revokesPerBlock (layoutFor crc jsb)) tx.revokes).mapM
        (buildRevokeBlock crc tx (layoutFor crc jsb)) with
    | error e =>
      rw [hg, hv] at h
      exact absurd h (by simp [bind, Except.bind])
    | ok rblocks =>
      rw [hg, hv] at h
      rw [← Except.ok.inj h]
      have hflat := flatten_chunks _ hposT tx.writes
      have h1 := descriptorGroups_stamped crc jsb tx hbs _
        (fun c hc => (mem_chunks _ hposT _ c hc).1) (fun c hc w hw => hlen w (by
          rw [← hflat]
          exact List.mem_flatten.mpr ⟨c, hc, hw⟩)) groups hg
      have h2 := revokeBlocks_stamped crc jsb tx hbs _ rblocks hv
      refine ⟨by simp, ?_⟩
      intro b hb
      rw [List.mem_append, List.mem_append, List.mem_singleton] at hb
      obtain (hb | hb) | rfl := hb
      · exact h1 b hb
      · exact h2 b hb
      · exact HasHeader.stamped (buildCommitBlock_hasHeader crc tx _ (by omega)) (by omega)

end Serialize

end Transaction

namespace Jbd2.JournalSuperblock

def fixed (jsb : JournalSuperblock) : JournalSuperblock :=
  { jsb with headerSequence := 0, sequence := 0, start := 0, checksum := 0 }

theorem parse_ok (raw : Bytes) (jsb : JournalSuperblock) (h : parse raw = .ok jsb) :
    0x100 ≤ raw.length ∧ u32beAt raw 0 = magicNumber ∧ jsb.blockType = u32beAt raw 4 ∧
      jsb.sequence = u32beAt raw 0x18 ∧ jsb.start = u32beAt raw 0x1C := by
  unfold parse at h
  by_cases hl : raw.length < 0x100
  · simp [hl, throw, throwThe, MonadExceptOf.throw, bind, Except.bind] at h
  by_cases hm : u32beAt raw 0 = magicNumber
  · by_cases ht : (u32beAt raw 4 != superblockV1 && u32beAt raw 4 != superblockV2) = true
    · simp [hl, hm, ht, throw, throwThe, MonadExceptOf.throw, bind, Except.bind] at h
    · by_cases hv : (u32beAt raw 4 == superblockV2) = true
      · simp only [hl, hm, ht, hv, if_true, if_false, bne_self_eq_false, bind, Except.bind, pure,
          Except.pure, Except.ok.injEq, Bool.false_eq_true] at h
        subst h
        exact ⟨by omega, hm, rfl, rfl, rfl⟩
      · simp only [hl, hm, ht, hv, if_false, bne_self_eq_false, bind, Except.bind, pure,
          Except.pure, Except.ok.injEq, Bool.false_eq_true] at h
        subst h
        exact ⟨by omega, hm, rfl, rfl, rfl⟩
  · simp [hl, hm, throw, throwThe, MonadExceptOf.throw, bind, Except.bind] at h

theorem parse_agree (a b : Bytes) (hl : a.length = b.length) (h1 : AgreeOn a b 0 0x08)
    (h2 : AgreeOn a b 0x0C 0x18) (h3 : AgreeOn a b 0x20 0xFC) :
    (parse a).map fixed = (parse b).map fixed := by
  have e0 := h1.u32beAt 0x00 (by omega) (by omega)
  have e4 := h1.u32beAt 0x04 (by omega) (by omega)
  have eC := h2.u32beAt 0x0C (by omega) (by omega)
  have e10 := h2.u32beAt 0x10 (by omega) (by omega)
  have e14 := h2.u32beAt 0x14 (by omega) (by omega)
  have e20 := h3.u32beAt 0x20 (by omega) (by omega)
  have e24 := h3.u32beAt 0x24 (by omega) (by omega)
  have e28 := h3.u32beAt 0x28 (by omega) (by omega)
  have e2C := h3.u32beAt 0x2C (by omega) (by omega)
  have e30 := h3 0x30 16 (by omega) (by omega)
  have e40 := h3.u32beAt 0x40 (by omega) (by omega)
  have e50 : a.getD 0x50 0 = b.getD 0x50 0 :=
    getD_eq_of_slice_eq a b 0x50 1 0x50 (h3 0x50 1 (by omega) (by omega)) (by omega) (by omega)
  have e54 := h3.u32beAt 0x54 (by omega) (by omega)
  unfold parse
  rw [hl, e0, e4]
  dsimp only
  split
  · rfl
  split
  · rfl
  split
  · rfl
  split
  · simp only [pure, Except.pure, Except.map, fixed, eC, e10, e14, e20, e24, e28, e2C, e30, e40,
      e50, e54]
  · simp only [pure, Except.pure, Except.map, fixed, eC, e10, e14, e20]

theorem parse_patched (a b : Bytes) (hl : a.length = b.length) (h1 : AgreeOn a b 0 0x08)
    (h2 : AgreeOn a b 0x0C 0x18) (h3 : AgreeOn a b 0x20 0xFC) (jsb : JournalSuperblock)
    (hb : parse b = .ok jsb) :
    ∃ jsb', parse a = .ok jsb' ∧ jsb'.fixed = jsb.fixed ∧ jsb'.sequence = u32beAt a 0x18 ∧
      jsb'.start = u32beAt a 0x1C := by
  have h := parse_agree a b hl h1 h2 h3
  rw [hb] at h
  cases ha : parse a with
  | error e =>
    rw [ha] at h
    exact absurd h (by simp [Except.map])
  | ok jsb' =>
    rw [ha] at h
    obtain ⟨-, -, -, hs, ht⟩ := parse_ok a jsb' ha
    exact ⟨jsb', rfl, Except.ok.inj h, hs, ht⟩

end Jbd2.JournalSuperblock

/-- A journal superblock block with another sequence and start in it. -/
structure Restamped (buf' buf : Bytes) (sequence start : UInt32) : Prop where
  length : buf'.length = buf.length
  head : AgreeOn buf' buf 0 0x08
  geometry : AgreeOn buf' buf 0x0C 0x18
  features : AgreeOn buf' buf 0x20 0xFC
  sequence : u32beAt buf' 0x18 = sequence
  start : u32beAt buf' 0x1C = start

theorem Restamped.parse {buf' buf : Bytes} {sequence start : UInt32} {jsb : JournalSuperblock}
    (h : Restamped buf' buf sequence start) (hb : JournalSuperblock.parse buf = .ok jsb) :
    ∃ jsb', JournalSuperblock.parse buf' = .ok jsb' ∧ jsb'.fixed = jsb.fixed ∧
      jsb'.sequence = sequence ∧ jsb'.start = start := by
  obtain ⟨jsb', h1, h2, h3, h4⟩ :=
    JournalSuperblock.parse_patched buf' buf h.length h.head h.geometry h.features jsb hb
  exact ⟨jsb', h1, h2, h3.trans h.sequence, h4.trans h.start⟩

theorem restamped_copyAll (buf : Bytes) (hbuf : 0x100 ≤ buf.length)
    (pre post : List (Nat × Bytes)) (sequence start : UInt32)
    (hpre : ∀ p ∈ pre, p.1 = 0x08 ∧ p.2.length = 4)
    (hpost : ∀ p ∈ post, p.1 = 0xFC ∧ p.2.length = 4) :
    Restamped (copyAll buf (pre ++ (0x18, u32be sequence) :: (0x1C, u32be start) :: post)) buf
      sequence start := by
  have hmem : ∀ p ∈ pre ++ (0x18, u32be sequence) :: (0x1C, u32be start) :: post,
      p.2.length = 4 ∧ (p.1 = 0x08 ∨ p.1 = 0x18 ∨ p.1 = 0x1C ∨ p.1 = 0xFC) := by
    intro p hp
    rw [List.mem_append, List.mem_cons, List.mem_cons] at hp
    obtain hp | rfl | rfl | hp := hp
    · exact ⟨(hpre p hp).2, Or.inl (hpre p hp).1⟩
    · exact ⟨length_u32be _, by simp⟩
    · exact ⟨length_u32be _, by simp⟩
    · exact ⟨(hpost p hp).2, by simp [(hpost p hp).1]⟩
  have hfit : ∀ p ∈ pre ++ (0x18, u32be sequence) :: (0x1C, u32be start) :: post,
      p.1 + p.2.length ≤ buf.length := by
    intro p hp
    obtain ⟨h4, h⟩ := hmem p hp
    omega
  refine ⟨length_copyAll buf _ hfit, ?_, ?_, ?_, ?_, ?_⟩
  · apply agreeOn_copyAll buf _ _ _ hfit
    intro p hp
    obtain ⟨h4, h⟩ := hmem p hp
    omega
  · apply agreeOn_copyAll buf _ _ _ hfit
    intro p hp
    obtain ⟨h4, h⟩ := hmem p hp
    omega
  · apply agreeOn_copyAll buf _ _ _ hfit
    intro p hp
    obtain ⟨h4, h⟩ := hmem p hp
    omega
  · apply u32beAt_copyAll buf _ pre _ 0x18 sequence hfit rfl
    intro p hp
    obtain rfl | hp := List.mem_cons.mp hp
    · left
      exact Nat.le_refl _
    · obtain ⟨h1, -⟩ := hpost p hp
      omega
  · apply u32beAt_copyAll buf _ (pre ++ [(0x18, u32be sequence)]) post 0x1C start hfit (by simp)
    intro p hp
    obtain ⟨h1, -⟩ := hpost p hp
    omega

theorem patchJsb_restamped (crc : Crc) (w : JournalWriter) (buf : Bytes)
    (hbuf : 0x100 ≤ buf.length) :
    Restamped (w.patchJsb crc buf) buf w.jsb.sequence w.jsb.start := by
  unfold JournalWriter.patchJsb
  dsimp only
  split
  · exact restamped_copyAll buf hbuf [(0x08, u32be w.jsb.sequence)]
      [(0xFC, u32be 0), (0xFC, u32be _)] w.jsb.sequence w.jsb.start (by simp) (by simp)
  · exact restamped_copyAll buf hbuf [(0x08, u32be w.jsb.sequence)] [] w.jsb.sequence w.jsb.start
      (by simp) (by simp)

namespace JournalWriter

def journalBlock (self : JournalWriter) (j : Nat) : Nat := self.physicalMap.getD j 0

/-- The writer's copy of the journal superblock and its map are those of the device. -/
structure Attached (fs : Filesystem) (w : JournalWriter) (d : Disk) : Prop where
  size : d.size = fs.sizeBytes
  blockSize : w.blockSize = fs.sb.blockSize
  blocksCount : w.blocksCount = fs.sb.blocksCount
  mapLength : w.physicalMap.length = w.jsb.maxLen.toNat
  placed : ∀ b ∈ w.physicalMap, group0MetadataEnd fs.sb ≤ b ∧ b < fs.sb.blocksCount
  hasJournal : fs.sb.journalInode ≠ 0
  mapped : ∃ jinode, Mapped fs (· < w.jsb.maxLen.toNat) w.journalBlock jinode d
  onDevice : w.journalBlock 0 * fs.sb.blockSize + fs.sb.blockSize ≤ d.size
  superblock : ∃ jsb, JournalSuperblock.parse (d.img.block fs.sb.blockSize (w.journalBlock 0)) =
    .ok jsb ∧
    jsb.fixed = w.jsb.fixed ∧ jsb.sequence = w.jsb.sequence ∧ jsb.start = w.jsb.start

theorem mapJournal_exec (fs : Filesystem) (jinode : Inode) (d d' : Disk) (ls pm : List Nat)
    (h : (mapJournal fs jinode ls).exec d = (.ok pm, d')) :
    d' = d ∧ List.Forall₂ (fun l p => (fs.journalBlockToPhysical jinode l).exec d =
      (.ok (some p), d) ∧ group0MetadataEnd fs.sb ≤ p ∧ p < fs.sb.blocksCount) ls pm := by
  induction ls generalizing pm d' with
  | nil =>
    obtain ⟨h1, h2⟩ := Prod.mk.inj h
    rw [← Except.ok.inj h1]
    exact ⟨h2.symm, List.Forall₂.nil⟩
  | cons l rest ih =>
    rw [mapJournal] at h
    obtain ⟨o, d₁, hx, h⟩ := Io.exec_bind_eq_ok _ _ _ _ _ h
    have hd₁ : d₁ = d := by
      have hs := (mapLogicalAny_readsBlocks jinode.block jinode.flags fs.sb.blockSize l).exec_snd d
      unfold Filesystem.journalBlockToPhysical at hx
      rwa [hx] at hs
    subst hd₁
    cases o with
    | none => exact absurd (Prod.mk.inj h).1 (by simp)
    | some phys =>
      dsimp only at h
      split at h
      · exact absurd (Prod.mk.inj h).1 (by simp)
      rename_i hin
      obtain ⟨pm', d₂, hrest, hlast⟩ := Io.exec_bind_eq_ok _ _ _ _ _ h
      obtain ⟨rfl, hall⟩ := ih d₂ pm' hrest
      obtain ⟨h1, h2⟩ := Prod.mk.inj hlast
      rw [← Except.ok.inj h1]
      exact ⟨h2.symm, List.Forall₂.cons ⟨hx, by omega, by omega⟩ hall⟩

theorem readSuperblock_some (fs : Filesystem) (d d' : Disk) (jsb : JournalSuperblock)
    (h : fs.readSuperblock.exec d = (.ok (some jsb), d')) :
    d' = d ∧ fs.sb.journalInode ≠ 0 ∧ ∃ jinode phys, fs.journalInode.exec d = (.ok jinode, d) ∧
      (fs.journalBlockToPhysical jinode 0).exec d = (.ok (some phys), d) ∧
      phys * fs.sb.blockSize + fs.sb.blockSize ≤ d.size ∧
      JournalSuperblock.parse (d.img.block fs.sb.blockSize phys) = .ok jsb := by
  have hsnd := (readSuperblock_readsBlocks fs).exec_snd d
  rw [h] at hsnd
  subst hsnd
  unfold Filesystem.readSuperblock at h
  split at h
  · exact absurd (Prod.mk.inj h).1 (by simp)
  rename_i h0
  obtain ⟨jinode, d₁, hj, hj'⟩ := Io.exec_bind_eq_ok _ _ _ _ _ h
  have hd₁ := (journalInode_readsBlocks fs).exec_snd d'
  rw [hj] at hd₁
  subst hd₁
  obtain ⟨o, d₂, hp, hp'⟩ := Io.exec_bind_eq_ok _ _ _ _ _ hj'
  have hd₂ := (mapLogicalAny_readsBlocks jinode.block jinode.flags fs.sb.blockSize 0).exec_snd d₁
  unfold Filesystem.journalBlockToPhysical at hp
  rw [hp] at hd₂
  subst hd₂
  cases o with
  | none => exact absurd (Prod.mk.inj hp').1 (by simp)
  | some phys =>
    refine ⟨rfl, h0, jinode, phys, hj, hp, ?_⟩
    obtain ⟨buf, d₃, hr, hr'⟩ := Io.exec_bind_eq_ok _ _ _ _ _ hp'
    by_cases hin : phys * fs.sb.blockSize + fs.sb.blockSize ≤ d₂.size
    · rw [exec_readAt d₂ _ _ hin] at hr
      obtain ⟨hbuf, rfl⟩ := Prod.mk.inj hr
      obtain ⟨jsb', d₄, hl, hl'⟩ := Io.exec_bind_eq_ok _ _ _ _ _ hr'
      rw [Io.exec_liftM] at hl
      refine ⟨hin, ?_⟩
      have hjsb := Option.some.inj (Except.ok.inj (Prod.mk.inj hl').1)
      rw [← Except.ok.inj hbuf, hjsb] at hl
      exact (Prod.mk.inj hl).1
    · rw [exec_readAt_past d₂ _ _ hin] at hr
      exact absurd (Prod.mk.inj hr).1 (by simp)

theorem attached_of_open (fs : Filesystem) (d d' : Disk) (w : JournalWriter)
    (h : (openWriter fs).exec d = (.ok (some w), d')) (hsize : d.size = fs.sizeBytes)
    (hpos : 0 < w.jsb.maxLen.toNat) : d' = d ∧ w.healthy = true ∧ Attached fs w d := by
  unfold openWriter at h
  obtain ⟨o, d₁, hs, hs'⟩ := Io.exec_bind_eq_ok _ _ _ _ _ h
  cases o with
  | none => exact absurd (Prod.mk.inj hs').1 (by simp)
  | some jsb =>
    obtain ⟨hd₁, h0, jinode, phys, hj, hp, hin, hparse⟩ := readSuperblock_some fs d d₁ jsb hs
    subst d₁
    dsimp only at hs'
    rw [Io.exec_bind_ok _ _ _ _ _ hj] at hs'
    split at hs'
    · exact absurd (Prod.mk.inj hs').1 (by simp)
    obtain ⟨_, d₂, hl, hl'⟩ := Io.exec_bind_eq_ok _ _ _ _ _ hs'
    rw [Io.exec_liftM] at hl
    have hd₂ := (Prod.mk.inj hl).2
    subst d₂
    obtain ⟨pm, d₃, hmap, hlast⟩ := Io.exec_bind_eq_ok _ _ _ _ _ hl'
    obtain ⟨hd₃, hall⟩ := mapJournal_exec fs jinode d d₃ _ pm hmap
    subst d₃
    obtain ⟨hw, hd'⟩ := Prod.mk.inj hlast
    have hw := Option.some.inj (Except.ok.inj hw)
    subst hw
    have hlen : pm.length = jsb.maxLen.toNat := by rw [← hall.length_eq, List.length_range]
    have hget : ∀ j, j < jsb.maxLen.toNat → (fs.journalBlockToPhysical jinode j).exec d =
        (.ok (some (pm.getD j 0)), d) := by
      intro j hj
      have hr := (List.forall₂_iff_get.mp hall).2 j (by simpa using hj) (by omega)
      simp only [List.get_eq_getElem, List.getElem_range] at hr
      rw [hr.1, List.getD_eq_getElem?_getD, List.getElem?_eq_getElem (by omega), Option.getD_some]
    have hzero : pm.getD 0 0 = phys := by
      have h1 := hget 0 hpos
      rw [hp] at h1
      exact (Option.some.inj (Except.ok.inj (Prod.mk.inj h1).1)).symm
    refine ⟨hd'.symm, rfl, hsize, rfl, rfl, hlen, ?_, h0, ⟨jinode, hj, hget⟩, ?_,
      ⟨jsb, ?_, rfl, rfl, rfl⟩⟩
    · intro b hb
      obtain ⟨l, -, hR⟩ := mem_of_forall₂ hall.flip b hb
      exact hR.2
    · change pm.getD 0 0 * fs.sb.blockSize + fs.sb.blockSize ≤ d.size
      rwa [hzero]
    · change JournalSuperblock.parse (d.img.block fs.sb.blockSize (pm.getD 0 0)) = .ok jsb
      rwa [hzero]

end JournalWriter

def Transaction.finalWrites (tx : Transaction) : List (Nat × Bytes) :=
  tx.writes.map (fun w => (w.fsBlock.toNat, w.bytes))

/-- The feature word with `needs_recovery` set or cleared. -/
def withRecover (on : Bool) (incompat : UInt32) : UInt32 :=
  if on then incompat ||| incompatRecover else incompat &&& ~~~incompatRecover

theorem setNeedsRecoveryIn_eq (crc : Crc) (sb : Bytes) (on : Bool) :
    ∃ post : List (Nat × Bytes), (∀ p ∈ post, p.1 = 0x3FC ∧ p.2.length = 4) ∧
      setNeedsRecoveryIn crc sb on =
        copyAll sb ((0x60, u32le (withRecover on (u32leAt sb 0x60))) :: post) := by
  unfold setNeedsRecoveryIn
  change ∃ post : List (Nat × Bytes), _ ∧
    (if u32leAt (copyAt sb 0x60 (u32le (withRecover on (u32leAt sb 0x60)))) 0x64 &&&
      roCompatMetadataCsum != 0 then _ else _) = _
  split
  · exact ⟨[(0x3FC, u32le _)], by simp, rfl⟩
  · exact ⟨[], by simp, rfl⟩

theorem length_setNeedsRecoveryIn (crc : Crc) (sb : Bytes) (on : Bool) (h : sb.length = 1024) :
    (setNeedsRecoveryIn crc sb on).length = 1024 := by
  obtain ⟨post, hpost, he⟩ := setNeedsRecoveryIn_eq crc sb on
  rw [he, length_copyAll, h]
  intro p hp
  obtain rfl | hp := List.mem_cons.mp hp
  · rw [length_u32le, h]
    exact Nat.le_of_ble_eq_true rfl
  · obtain ⟨h1, h2⟩ := hpost p hp
    omega

theorem writeNeedsRecovery_runs (crc : Crc) (on : Bool) (d : Disk) (hd : 2048 ≤ d.size) :
    (writeNeedsRecovery crc on).Runs d ()
      (writeEvs [(superblockOffset, setNeedsRecoveryIn crc
        (d.img.read superblockOffset 1024) on)]) := by
  have hlen := length_setNeedsRecoveryIn crc (d.img.read 1024 1024) on (Image.length_read _ _ _)
  refine (readAt_runs d 1024 1024 (by omega)).bind_silent ?_
  exact writeAt_runs d 1024 _ (by rw [hlen]; omega)

namespace JournalWriter

def logWrites (self : JournalWriter) : List Bytes → Nat → List (Nat × Bytes)
  | [], _ => []
  | block :: rest, j => (self.journalBlock j, block) :: logWrites self rest (j + 1)

section Steps

variable {fs : Filesystem} {w : JournalWriter} {d : Disk} (crc : Crc)

theorem writeBlockAt_runs (hbs : w.blockSize = fs.sb.blockSize)
    (hbc : w.blocksCount = fs.sb.blocksCount) (hsize : d.size = fs.sizeBytes)
    (h64 : fs.sizeBytes < 2 ^ 64) (phys : Nat) (bytes : Bytes) (hin : InVolume fs phys)
    (hlen : bytes.length = fs.sb.blockSize) :
    (w.writeBlockAt fs.sizeBytes phys bytes).Runs d ()
      (writeEvs [(phys * fs.sb.blockSize, bytes)]) := by
  have hoff : byteOffsetIn phys w.blocksCount w.blockSize fs.sizeBytes =
      .ok (phys * fs.sb.blockSize) := by
    rw [hbs, hbc]
    exact byteOffsetOf_ok fs h64 phys hin
  have h2 := hin.2
  unfold writeBlockAt
  rw [hoff]
  exact (Io.Runs.liftM _ d).bind_silent (writeAt_runs d _ bytes (by rw [hlen, hsize]; exact h2))

variable (hbs : w.blockSize = fs.sb.blockSize) (hbc : w.blocksCount = fs.sb.blocksCount)
  (hsize : d.size = fs.sizeBytes) (h64 : fs.sizeBytes < 2 ^ 64)

include hbs hbc hsize h64

theorem writeLog_runs (blocks : List Bytes) (j : Nat)
    (hin : ∀ v ∈ w.logWrites blocks j, InVolume fs v.1 ∧ v.2.length = fs.sb.blockSize) :
    (w.writeLog fs.sizeBytes blocks j).Runs d ()
      (writeEvs (atOffsets fs.sb.blockSize (w.logWrites blocks j))) := by
  induction blocks generalizing j d with
  | nil => exact Io.Runs.pure () d
  | cons b rest ih =>
    obtain ⟨h1, h2⟩ := hin (w.journalBlock j, b) List.mem_cons_self
    exact (writeBlockAt_runs hbs hbc hsize h64 _ b h1 h2).bind
      (ih (by rw [Disk.size_after]; exact hsize) (j + 1)
        (fun v hv => hin v (List.mem_cons_of_mem _ hv)))

theorem writeFinal_runs (ws : List JournaledBlock)
    (hin : ∀ v ∈ ws, InVolume fs v.fsBlock.toNat ∧ v.bytes.length = fs.sb.blockSize) :
    (w.writeFinal fs.sizeBytes ws).Runs d () (writeEvs (atOffsets fs.sb.blockSize
      (ws.map (fun v => (v.fsBlock.toNat, v.bytes))))) := by
  induction ws generalizing d with
  | nil => exact Io.Runs.pure () d
  | cons v rest ih =>
    obtain ⟨h1, h2⟩ := hin v List.mem_cons_self
    exact (writeBlockAt_runs hbs hbc hsize h64 _ v.bytes h1 h2).bind
      (ih (by rw [Disk.size_after]; exact hsize) (fun v hv => hin v (List.mem_cons_of_mem _ hv)))

theorem logStep_runs (hd : 2048 ≤ d.size) (blocks : List Bytes)
    (hin : ∀ v ∈ w.logWrites blocks 1, InVolume fs v.1 ∧ v.2.length = fs.sb.blockSize) :
    (w.logStep crc fs.sizeBytes blocks).Runs d ()
      (writeEvs (atOffsets fs.sb.blockSize (w.logWrites blocks 1) ++
        [(superblockOffset, setNeedsRecoveryIn crc ((d.img.writeBlocks fs.sb.blockSize
          (w.logWrites blocks 1)).read superblockOffset 1024) true)]) ++ [.flush]) := by
  have hlog := writeLog_runs hbs hbc hsize h64 blocks 1 hin
  have hon := writeNeedsRecovery_runs crc true
    (d.after (writeEvs (atOffsets fs.sb.blockSize (w.logWrites blocks 1))))
    (by rw [Disk.size_after]; exact hd)
  have himg : (d.after (writeEvs (atOffsets fs.sb.blockSize (w.logWrites blocks 1)))).img =
      d.img.writeBlocks fs.sb.blockSize (w.logWrites blocks 1) := by
    rw [Disk.after_writeEvs]
    rfl
  rw [himg] at hon
  have h : (w.logStep crc fs.sizeBytes blocks).Runs d () _ := hlog.bind (hon.bind (flush_runs _))
  rw [← List.append_assoc] at h
  rw [writeEvs, List.map_append]
  exact h

theorem finalStep_runs (tx : Transaction)
    (hin : ∀ v ∈ tx.writes, InVolume fs v.fsBlock.toNat ∧ v.bytes.length = fs.sb.blockSize) :
    (w.finalStep fs.sizeBytes tx).Runs d ()
      (writeEvs (atOffsets fs.sb.blockSize tx.finalWrites) ++ [.flush]) :=
  (writeFinal_runs hbs hbc hsize h64 tx.writes hin).bind (flush_runs _)

omit hbc hsize h64

theorem writeJsb_runs (buf : Bytes) (hbuf : d.img.block fs.sb.blockSize (w.journalBlock 0) = buf)
    (hdev : w.journalBlock 0 * fs.sb.blockSize + fs.sb.blockSize ≤ d.size) (jsb : JournalSuperblock)
    (hparse : JournalSuperblock.parse buf = .ok jsb) (htype : jsb.fixed = w.jsb.fixed) :
    (w.writeJsb crc).Runs d ()
      (writeEvs [(w.journalBlock 0 * fs.sb.blockSize, w.patchJsb crc buf)]) := by
  obtain ⟨hlen, hmagic, hbt, -, -⟩ := JournalSuperblock.parse_ok buf jsb hparse
  have hbl : buf.length = fs.sb.blockSize := by
    rw [← hbuf]
    exact Image.length_read _ _ _
  have hpl := (patchJsb_restamped crc w buf hlen).length
  have htype' : jsb.blockType = w.jsb.blockType := congrArg (·.blockType) htype
  unfold writeJsb
  rw [hbs]
  refine (readAt_runs d _ _ hdev).bind_silent ?_
  change Io.Runs (if u32beAt (d.img.block fs.sb.blockSize (w.journalBlock 0)) 0x00 ≠ _ then _ else
    _) _ _ _
  rw [hbuf, if_neg (by simp [hmagic])]
  change Io.Runs (if u32beAt (d.img.block fs.sb.blockSize (w.journalBlock 0)) 0x04 ≠ _ then _ else
    writeAt _ (w.patchJsb crc (d.img.block fs.sb.blockSize (w.journalBlock 0)))) _ _ _
  rw [hbuf, if_neg (by rw [← hbt, htype']; simp)]
  exact writeAt_runs d _ _ (by rw [hpl, hbl]; exact hdev)

theorem dirtyStep_runs (buf : Bytes) (hbuf : d.img.block fs.sb.blockSize (w.journalBlock 0) = buf)
    (hdev : w.journalBlock 0 * fs.sb.blockSize + fs.sb.blockSize ≤ d.size) (jsb : JournalSuperblock)
    (hparse : JournalSuperblock.parse buf = .ok jsb) (htype : jsb.fixed = w.jsb.fixed) :
    (w.dirtyStep crc).Runs d ()
      (writeEvs [(w.journalBlock 0 * fs.sb.blockSize, w.dirty.patchJsb crc buf)] ++ [.flush]) := by
  have hrun := @writeJsb_runs fs w.dirty d crc hbs buf hbuf hdev jsb hparse htype
  exact hrun.bind (flush_runs _)

def cleanWrites (fs : Filesystem) (w : JournalWriter) (img : Image) : List (Nat × Bytes) :=
  let jsb := (w.journalBlock 0 * fs.sb.blockSize,
    w.clean.patchJsb crc (img.block fs.sb.blockSize (w.journalBlock 0)))
  if w.holdNeedsRecovery then [jsb]
  else [jsb, (superblockOffset,
    setNeedsRecoveryIn crc ((img.write jsb.1 jsb.2).read superblockOffset 1024) false)]

theorem cleanStep_runs (hd : 2048 ≤ d.size)
    (hdev : w.journalBlock 0 * fs.sb.blockSize + fs.sb.blockSize ≤ d.size) (jsb : JournalSuperblock)
    (hparse : JournalSuperblock.parse (d.img.block fs.sb.blockSize (w.journalBlock 0)) = .ok jsb)
    (htype : jsb.fixed = w.jsb.fixed) :
    (w.cleanStep crc).Runs d () (writeEvs (cleanWrites crc fs w d.img) ++ [.flush]) := by
  have hrun := @writeJsb_runs fs w.clean d crc hbs _ rfl hdev jsb hparse htype
  unfold cleanWrites
  dsimp only
  by_cases hh : w.holdNeedsRecovery = true
  · rw [if_pos hh]
    have h : (w.cleanStep crc).Runs d () _ := hrun.bind (by
      rw [if_pos hh]
      exact flush_runs _)
    exact h
  · have hoff := writeNeedsRecovery_runs crc false (d.after (writeEvs [(w.journalBlock 0 *
      fs.sb.blockSize, w.clean.patchJsb crc (d.img.block fs.sb.blockSize (w.journalBlock 0)))]))
      (by rw [Disk.size_after]; exact hd)
    rw [if_neg hh]
    have h : (w.cleanStep crc).Runs d () _ := hrun.bind (by
      rw [if_neg hh]
      exact hoff.bind (flush_runs _))
    exact h

end Steps

theorem publish_cons (w w' : JournalWriter) (step : DevIo Unit)
    (rest : List (JournalWriter × DevIo Unit)) (d : Disk) (r : Result Unit × JournalWriter)
    (e e' : List Ev) (hs : step.Runs d () e) (hr : (publish rest w').Runs (d.after e) r e') :
    (publish ((w', step) :: rest) w).Runs d r (e ++ e') := hs.attempt.bind hr

theorem publish_runs (crc : Crc) (w : JournalWriter) (sizeBytes : Nat) (tx : Transaction)
    (blocks : List Bytes) (d : Disk) (e₁ e₂ e₃ e₄ : List Ev)
    (h₁ : (w.logStep crc sizeBytes blocks).Runs d () e₁)
    (h₂ : (w.dirtyStep crc).Runs (d.after e₁) () e₂)
    (h₃ : (w.finalStep sizeBytes tx).Runs ((d.after e₁).after e₂) () e₃)
    (h₄ : (w.cleanStep crc).Runs (((d.after e₁).after e₂).after e₃) () e₄) :
    (publish (w.steps crc sizeBytes tx blocks) w).Runs d
      (.ok (), { w.clean with healthy := true }) (e₁ ++ (e₂ ++ (e₃ ++ e₄))) := by
  apply publish_cons _ _ _ _ _ _ _ _ h₁
  apply publish_cons _ _ _ _ _ _ _ _ h₂
  apply publish_cons _ _ _ _ _ _ _ _ h₃
  rw [← List.append_nil e₄]
  apply publish_cons _ _ _ _ _ _ _ _ h₄
  exact Io.Runs.pure _ _

theorem commit_eq (crc : Crc) (w : JournalWriter) (sizeBytes : Nat) (isWritable : Bool)
    (tx tx' : Transaction) (blocks : List Bytes) (hh : w.healthy = true)
    (hp : w.prepare crc isWritable tx = .ok (tx', blocks)) (hne : blocks ≠ []) :
    w.commit crc sizeBytes isWritable tx = publish (w.steps crc sizeBytes tx' blocks) w := by
  have hne' : blocks.isEmpty = false := by
    rw [Bool.eq_false_iff, ne_eq, List.isEmpty_iff]
    exact hne
  unfold commit
  simp [hh, hp, hne']

end JournalWriter

theorem blockSize_eq (sb : Superblock) :
    sb.blockSize = 1024 ∨ 2048 ≤ sb.blockSize := by
  unfold Superblock.blockSize
  rw [Nat.shiftLeft_eq]
  cases h : sb.logBlockSize with
  | zero => left; rfl
  | succ n =>
    right
    have h1 := Nat.one_le_two_pow (n := n)
    rw [Nat.pow_succ]
    omega

theorem superblock_in_block (sb : Superblock) :
    superblockOffset % sb.blockSize + 1024 ≤ sb.blockSize := by
  obtain h | h := blockSize_eq sb
  · rw [h]
    decide
  · rw [Nat.mod_eq_of_lt (by unfold superblockOffset; omega)]
    unfold superblockOffset
    omega

theorem superblock_below (sb : Superblock) (hdesc : 0 < sb.descSize) (b : Nat)
    (h1 : JournalWriter.group0MetadataEnd sb ≤ b) (h2 : b < sb.blocksCount) :
    2048 ≤ b * sb.blockSize := by
  unfold JournalWriter.group0MetadataEnd at h1
  obtain hbs | hbs := blockSize_eq sb
  · have hgroups : 1 ≤ sb.blockGroupCount := by
      unfold Superblock.blockGroupCount divCeil
      rw [Nat.le_div_iff_mul_le (by omega)]
      omega
    have hdescs : 1 ≤ divCeil (sb.blockGroupCount * sb.descSize) sb.blockSize := by
      have hmul : 1 ≤ sb.blockGroupCount * sb.descSize := Nat.mul_pos hgroups hdesc
      unfold divCeil
      rw [Nat.le_div_iff_mul_le (by omega)]
      omega
    rw [hbs] at hdescs h1 ⊢
    omega
  · have hb : 1 ≤ b := by omega
    calc 2048 ≤ 1 * sb.blockSize := by omega
      _ ≤ b * sb.blockSize := Nat.mul_le_mul_right _ hb

namespace JournalWriter

theorem keepNeedsRecovery_length (crc : Crc) (w : JournalWriter)
    (hoff : w.sbOffsetInBlock + 1024 ≤ w.blockSize) (v : JournaledBlock)
    (h : v.bytes.length = w.blockSize) :
    (w.keepNeedsRecovery crc v).bytes.length = w.blockSize := by
  unfold keepNeedsRecovery
  split
  · have hs : (slice v.bytes w.sbOffsetInBlock 1024).length = 1024 := by
      rw [length_slice]
      omega
    dsimp only
    rw [length_copyAt, h]
    rw [length_setNeedsRecoveryIn crc _ true hs, h]
    exact hoff
  · exact h

theorem keepNeedsRecovery_fsBlock (crc : Crc) (w : JournalWriter) (v : JournaledBlock) :
    (w.keepNeedsRecovery crc v).fsBlock = v.fsBlock := by
  unfold keepNeedsRecovery
  split <;> rfl

/-- A transaction that passed every check, as it will be logged. -/
structure Prepared (crc : Crc) (w : JournalWriter) (tx : Transaction) (blocks : List Bytes) :
    Prop where
  accepted : tx.Accepted w.jsb
  serialized : tx.serialize crc (Transaction.layoutFor crc w.jsb) = .ok blocks
  sequence : tx.sequence = w.jsb.sequence
  blockSize : tx.blockSize.toNat = w.blockSize
  lengths : ∀ v ∈ tx.writes, v.bytes.length = w.blockSize
  nonempty : blocks ≠ []
  fits : blocks.length ≤ w.jsb.maxLen.toNat - 1
  stamped : ∀ b ∈ blocks, Stamped w.blockSize w.jsb.sequence b

theorem prepared_of_prepare (crc : Crc) (fs : Filesystem) (w : JournalWriter)
    (hbs : w.blockSize = fs.sb.blockSize) (isWritable : Bool) (tx tx' : Transaction)
    (blocks : List Bytes) (h : w.prepare crc isWritable tx = .ok (tx', blocks)) :
    isWritable = true ∧ tx' = w.patchSuperblock crc tx ∧ Prepared crc w tx' blocks := by
  have hoff : w.sbOffsetInBlock + 1024 ≤ w.blockSize := by
    unfold sbOffsetInBlock
    rw [hbs]
    exact superblock_in_block fs.sb
  have hbs' := blockSize_ge fs.sb
  unfold prepare at h
  split at h
  · exact absurd h (by simp)
  rename_i hwr
  split at h
  · exact absurd h (by simp)
  rename_i hseq
  split at h
  · exact absurd h (by simp)
  rename_i hsz
  split at h
  · exact absurd h (by simp)
  rename_i hlen
  dsimp only at h
  split at h
  · exact absurd h (by simp)
  rename_i bs hc
  split at h
  · exact absurd h (by simp)
  rename_i hfit
  obtain ⟨rfl, rfl⟩ := Prod.mk.inj (Except.ok.inj h)
  have hacc := Transaction.accepted_of_commitFor crc w.jsb _ _ hc
  have hser := (Transaction.commitFor_accepted crc w.jsb _ hacc).symm.trans hc
  have hlens : ∀ v ∈ (w.patchSuperblock crc tx).writes, v.bytes.length = w.blockSize := by
    intro v hv
    obtain ⟨u, hu, rfl⟩ := List.mem_map.mp hv
    apply keepNeedsRecovery_length crc w hoff
    by_contra hne
    apply hlen
    rw [List.any_eq_true]
    exact ⟨u, hu, by simpa using hne⟩
  have hsz' : (w.patchSuperblock crc tx).blockSize.toNat = w.blockSize := not_not.mp hsz
  have hseq' : (w.patchSuperblock crc tx).sequence = w.jsb.sequence := not_not.mp hseq
  obtain ⟨hne, hst⟩ := Transaction.serialize_stamped crc w.jsb (w.patchSuperblock crc tx)
    (by rw [hsz', hbs]; omega) (by rw [hsz']; exact hlens) bs hser
  rw [hsz', hseq'] at hst
  refine ⟨by simpa using hwr, rfl, hacc, hser, hseq', hsz', hlens, hne, ?_, hst⟩
  exact Nat.le_of_not_lt hfit

end JournalWriter

end FsExt4
