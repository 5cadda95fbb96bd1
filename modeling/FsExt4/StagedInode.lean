import FsExt4.BufferView
import FsExt4.DirEntry

namespace FsExt4

open Lib Jbd2

def Inode.isDir (inode : Inode) : Bool := inode.mode &&& 0xF000 == 0x4000

/-- Checksum an inode and store the sum, both halves where it has room for them. -/
def Checksummer.patchInodeChecksum (crc : Crc) (csum : Checksummer) (ino generation : UInt32)
    (inodeRaw : Bytes) : Bytes :=
  match csum.computeInodeChecksum crc ino generation inodeRaw with
  | some (lo, hi) =>
    let inodeRaw := copyAt inodeRaw 0x7C (u16le lo)
    if Checksummer.checksumHiFits inodeRaw then copyAt inodeRaw 0x82 (u16le hi) else inodeRaw
  | none => inodeRaw

namespace Mount

section Model

variable (crc : Crc) (m : Mount) (d : Disk)

def byteCeiling : Result Nat :=
  let bytes := m.fs.sb.blocksCount * m.fs.sb.blockSize
  if 2 ^ 64 ≤ bytes then .error (.corrupt "superblock: blocks_count * block_size overflows")
  else .ok (min bytes m.fs.sizeBytes)

def verifiedInode (ino : UInt32) (raw : Bytes) : Result (Inode × Bytes) := do
  let inode ← Inode.parse raw
  if m.csum.enabled && !m.csum.verifyInode crc ino inode.generation raw then
    throw (.badChecksum "inode")
  return (inode, raw)

def readInodeVerified (ino : UInt32) : Result (Inode × Bytes) := do
  let raw ← ((m.fs.readInodeRaw ino).exec d).1
  let (inode, raw) ← m.verifiedInode crc ino raw
  if inode.isDir then
    let ceiling ← m.byteCeiling
    if ceiling < inode.size then
      throw (.corrupt "directory inode declares more bytes than the filesystem holds")
  return (inode, raw)

/-- The inode as the open transaction has it, when it has staged the block that holds it. -/
def bufferedInodeVerified (buf : BlockBuffer) (ino : UInt32) : Result (Inode × Bytes) := do
  let (block, off) ← locateInode m.fs.sb m.fs.groups ino
  match buf.dirty.get? block with
  | none => m.readInodeVerified crc d ino
  | some staged =>
    if staged.length < off + m.fs.sb.inodeSize
      then throw (.corrupt "inode slice exceeds block data")
    m.verifiedInode crc ino (slice staged off m.fs.sb.inodeSize)

def bufferWriteInode (buf : BlockBuffer) (ino : UInt32) (inodeRaw : Bytes) :
    Result BlockBuffer := do
  let (block, off) ← locateInode m.fs.sb m.fs.groups ino
  buf.edit (m.fs.reader d) block (fun table => copyAt table off inodeRaw)

def bufferWriteDirInode (buf : BlockBuffer) (ino generation : UInt32) (raw : Bytes) :
    Result BlockBuffer :=
  m.bufferWriteInode d buf ino
    (if m.csum.enabled then m.csum.patchInodeChecksum crc ino generation raw else raw)

end Model

end Mount

namespace Inode

def fields (raw : Bytes) : Inode where
  mode := u16leAt raw 0x00
  size := join32 (u32leAt raw 0x6C).toNat (u32leAt raw 0x04).toNat
  linksCount := u16leAt raw 0x1A
  blocks := join32 (u16leAt raw 0x74).toNat (u32leAt raw 0x1C).toNat
  flags := u32leAt raw 0x20
  block := slice raw 0x28 60
  generation := u32leAt raw 0x64
  fileAcl := join32 (u16leAt raw 0x76).toNat (u32leAt raw 0x68).toNat

structure Parses (raw : Bytes) : Prop where
  base : inodeBaseSize ≤ raw.length
  extra : inodeExtraOffset + 4 ≤ raw.length →
    inodeExtraOffset + (u16leAt raw 0x80).toNat ≤ raw.length

theorem parse_eq_ok {raw : Bytes} {inode : Inode} :
    parse raw = .ok inode ↔ Parses raw ∧ inode = fields raw := by
  unfold parse
  simp only [throw, throwThe, MonadExceptOf.throw, bind, Except.bind, pure, Except.pure]
  constructor
  · intro h
    split at h
    · cases h
    split at h
    · cases h
    · rename_i hbase hextra
      refine ⟨⟨Nat.le_of_not_lt hbase, fun hlen => Nat.le_of_not_lt fun hlt => hextra ⟨hlen, hlt⟩⟩,
        ?_⟩
      exact (Except.ok.inj h).symm
  · rintro ⟨h, rfl⟩
    rw [if_neg (Nat.not_lt.mpr h.base),
      if_neg (fun hboth => absurd (h.extra hboth.1) (Nat.not_le.mpr hboth.2))]
    rfl

theorem Parses.of_agree {raw raw' : Bytes} (h : Parses raw) (hlen : raw'.length = raw.length)
    (hextra : AgreeOn raw' raw 0x80 0x82) : Parses raw' := by
  refine ⟨hlen ▸ h.base, ?_⟩
  rw [hlen, hextra.u16leAt 0x80 (Nat.le_refl _) (Nat.le_refl _)]
  exact h.extra

end Inode

namespace Checksummer

variable (crc : Crc) (csum : Checksummer) (ino generation : UInt32) (raw : Bytes)

theorem checksumHiFits_copyAt (src : Bytes) (hsrc : src.length = 2)
    (hlen : inodeBaseSize ≤ raw.length) :
    checksumHiFits (copyAt raw 0x7C src) = checksumHiFits raw := by
  unfold inodeBaseSize at hlen
  have hsame := length_copyAt raw 0x7C src (by omega)
  have hagree := agreeOn_copyAt raw 0x7C src 0x80 0x82 (by omega) (by omega)
  rw [checksumHiFits, checksumHiFits, hsame, hagree.u16leAt 0x80 (Nat.le_refl _) (Nat.le_refl _)]

end Checksummer

namespace Checksummer

section Inode

variable (crc : Crc) (csum : Checksummer) (ino generation : UInt32) (raw : Bytes)

def unsummed : Bytes :=
  let tmp := copyAt raw 0x7C [0, 0]
  if checksumHiFits raw then copyAt tmp 0x82 [0, 0] else tmp

def inodeSum : UInt32 := crc (crc (crc csum.seed (u32le ino)) (u32le generation)) (unsummed raw)

theorem computeInodeChecksum_eq (henabled : csum.enabled = true)
    (hlen : inodeBaseSize ≤ raw.length) :
    csum.computeInodeChecksum crc ino generation raw =
      some ((csum.inodeSum crc ino generation raw).toUInt16,
        if checksumHiFits raw then (csum.inodeSum crc ino generation raw >>>
            16).toUInt16 else 0) := by
  unfold computeInodeChecksum inodeSum unsummed
  rw [if_neg (by rw [henabled]; simp only [Bool.not_true, Bool.false_eq_true, false_or]; omega)]

def summed (lo hi : UInt16) : Bytes :=
  if checksumHiFits raw then copyAt (copyAt raw 0x7C (u16le lo)) 0x82 (u16le hi)
  else copyAt raw 0x7C (u16le lo)

theorem patchInodeChecksum_eq (henabled : csum.enabled = true) (hlen : inodeBaseSize ≤ raw.length) :
    ∃ lo hi, csum.computeInodeChecksum crc ino generation raw = some (lo, hi) ∧
      csum.patchInodeChecksum crc ino generation raw = summed raw lo hi := by
  refine ⟨_, _, csum.computeInodeChecksum_eq crc ino generation raw henabled hlen, ?_⟩
  unfold patchInodeChecksum summed
  rw [csum.computeInodeChecksum_eq crc ino generation raw henabled hlen]
  dsimp only
  rw [checksumHiFits_copyAt raw _ (length_u16le _) hlen]

variable (lo hi : UInt16)

theorem hi_fits (h : checksumHiFits raw = true) : 0x84 ≤ raw.length := by
  unfold checksumHiFits at h
  exact (of_decide_eq_true h).1

theorem length_summed (hlen : inodeBaseSize ≤ raw.length) : (summed raw lo hi).length =
    raw.length := by
  unfold inodeBaseSize at hlen
  have hlow := length_copyAt raw 0x7C (u16le lo) (by rw [length_u16le]; omega)
  unfold summed
  split
  · rename_i hfits
    have hroom := hi_fits raw hfits
    rw [length_copyAt _ _ _ (by rw [length_u16le, hlow]; omega), hlow]
  · exact hlow

theorem agreeOn_summed (hlen : inodeBaseSize ≤ raw.length) {start stop : Nat}
    (hlow : stop ≤ 0x7C ∨ 0x7E ≤ start) (hhigh : stop ≤ 0x82 ∨ 0x84 ≤ start) :
    AgreeOn (summed raw lo hi) raw start stop := by
  unfold inodeBaseSize at hlen
  have hfirst := agreeOn_copyAt raw 0x7C (u16le lo) start stop (by omega)
    (by rw [length_u16le]; omega)
  have hsame := length_copyAt raw 0x7C (u16le lo) (by rw [length_u16le]; omega)
  unfold summed
  split
  · rename_i hfits
    have hroom := hi_fits raw hfits
    exact (agreeOn_copyAt _ 0x82 (u16le hi) start stop (by omega)
      (by rw [length_u16le]; omega)).trans hfirst
  · exact hfirst

theorem checksumHiFits_summed (hlen : inodeBaseSize ≤ raw.length) :
    checksumHiFits (summed raw lo hi) = checksumHiFits raw := by
  have hagree := agreeOn_summed raw lo hi hlen (show 0x82 ≤ 0x7C ∨ 0x7E ≤ 0x80 by decide)
    (show 0x82 ≤ 0x82 ∨ 0x84 ≤ 0x80 by decide)
  rw [checksumHiFits, checksumHiFits, length_summed raw lo hi hlen,
    hagree.u16leAt 0x80 (Nat.le_refl _) (Nat.le_refl _)]

theorem u16leAt_summed_lo (hlen : inodeBaseSize ≤ raw.length) :
    u16leAt (summed raw lo hi) 0x7C = lo := by
  unfold inodeBaseSize at hlen
  have hsame := length_copyAt raw 0x7C (u16le lo) (by rw [length_u16le]; omega)
  have hself := u16leAt_copyAt raw 0x7C lo (by omega)
  unfold summed
  split
  · rename_i hfits
    have hroom := hi_fits raw hfits
    have hagree := agreeOn_copyAt (copyAt raw 0x7C (u16le lo)) 0x82 (u16le hi) 0x7C 0x7E (by omega)
      (.inl (by decide))
    rw [hagree.u16leAt 0x7C (Nat.le_refl _) (Nat.le_refl _), hself]
  · exact hself

theorem u16leAt_summed_hi (hfits : checksumHiFits raw = true) :
    u16leAt (summed raw lo hi) 0x82 = hi := by
  have hroom := hi_fits raw hfits
  have hsame := length_copyAt raw 0x7C (u16le lo) (by rw [length_u16le]; omega)
  rw [summed, if_pos hfits, u16leAt_copyAt _ _ _ (by omega)]

theorem unsummed_summed (hlen : inodeBaseSize ≤ raw.length) :
    unsummed (summed raw lo hi) = unsummed raw := by
  have hbase : 0x80 ≤ raw.length := hlen
  unfold unsummed
  dsimp only
  rw [checksumHiFits_summed raw lo hi hlen]
  by_cases hfits : checksumHiFits raw = true
  · have hroom := hi_fits raw hfits
    have hsame := length_copyAt raw 0x7C (u16le lo) (by rw [length_u16le]; omega)
    rw [if_pos hfits, if_pos hfits, summed, if_pos hfits,
      copyAt_comm _ 0x82 0x7C (u16le hi) [0, 0] (by rw [length_u16le]; omega)
        (by rw [hsame]; exact Nat.le_trans (show 0x7C + 2 ≤ 0x80 by decide) hbase)
          (.inr (by decide)),
      copyAt_copyAt raw 0x7C (u16le lo) [0, 0] (length_u16le lo) (by rw [length_u16le]; omega),
      copyAt_copyAt _ 0x82 (u16le hi) [0, 0] (length_u16le hi) (by
        rw [length_u16le, length_copyAt raw 0x7C [0, 0]
          (Nat.le_trans (show 0x7C + 2 ≤ 0x80 by decide) hbase)]
        exact hroom)]
  · rw [if_neg hfits, if_neg hfits, summed, if_neg hfits,
      copyAt_copyAt raw 0x7C (u16le lo) [0, 0] (length_u16le lo) (by rw [length_u16le]; omega)]

theorem verify_patchInodeChecksum (henabled : csum.enabled = true)
    (hlen : inodeBaseSize ≤ raw.length) :
    csum.verifyInode crc ino generation (csum.patchInodeChecksum crc ino generation raw) =
      true := by
  have hsums := csum.computeInodeChecksum_eq crc ino generation raw henabled hlen
  obtain ⟨lo, hi, hcompute, hpatch⟩ := csum.patchInodeChecksum_eq crc ino generation raw
    henabled hlen
  have hlen' : inodeBaseSize ≤ (summed raw lo hi).length := by rwa [length_summed raw lo hi hlen]
  have hagain : csum.computeInodeChecksum crc ino generation (summed raw lo hi) =
      some (lo, hi) := by
    rw [← hcompute, hsums, csum.computeInodeChecksum_eq crc ino generation _ henabled hlen',
      checksumHiFits_summed raw lo hi hlen, inodeSum, inodeSum, unsummed_summed raw lo hi hlen]
  have hhigh : checksumHiFits raw = false → hi = 0 := by
    intro hno
    rw [hcompute, hno] at hsums
    exact (Prod.mk.inj (Option.some.inj hsums)).2
  rw [hpatch]
  unfold verifyInode
  rw [henabled, Bool.not_true, if_neg Bool.false_ne_true]
  dsimp only
  rw [if_neg (Nat.not_lt.mpr hlen'), hagain, checksumHiFits_summed raw lo hi hlen]
  dsimp only
  rw [u16leAt_summed_lo raw lo hi hlen, beq_self_eq_true, Bool.true_and]
  cases hfits : checksumHiFits raw with
  | true => rw [if_pos rfl, u16leAt_summed_hi raw lo hi hfits, beq_self_eq_true]
  | false => rw [hhigh hfits, if_neg Bool.false_ne_true, beq_self_eq_true]

end Inode

end Checksummer

namespace Inode

theorem fields_of_agree {raw raw' : Bytes} (h : AgreeOn raw' raw 0 0x78) : fields raw' =
    fields raw := by
  unfold fields
  rw [h.u16leAt 0 (by decide) (by decide), h.u32leAt 0x6C (by decide) (by decide),
    h.u32leAt 0x04 (by decide) (by decide), h.u16leAt 0x1A (by decide) (by decide),
    h.u16leAt 0x74 (by decide) (by decide), h.u32leAt 0x1C (by decide) (by decide),
    h.u32leAt 0x20 (by decide) (by decide), h 0x28 60 (by decide) (by decide),
    h.u32leAt 0x64 (by decide) (by decide), h.u16leAt 0x76 (by decide) (by decide),
    h.u32leAt 0x68 (by decide) (by decide)]

end Inode

theorem Checksummer.dirInode_ok (crc : Crc) (csum : Checksummer) (ino generation : UInt32)
    {new : Bytes} (h : Inode.Parses new) :
    (if csum.enabled then csum.patchInodeChecksum crc ino generation new else new).length =
      new.length ∧
      (Inode.Parses (if csum.enabled then csum.patchInodeChecksum crc ino generation new else new) ∧
        Inode.fields new =
          Inode.fields (if csum.enabled then csum.patchInodeChecksum crc ino generation
            new else new)) ∧
      (csum.enabled = true → csum.verifyInode crc ino generation
        (if csum.enabled then csum.patchInodeChecksum crc ino generation new else new) = true) := by
  cases henabled : csum.enabled with
  | false => exact ⟨rfl, ⟨h, rfl⟩, fun hno => nomatch hno⟩
  | true =>
    obtain ⟨lo, hi, -, hpatch⟩ := csum.patchInodeChecksum_eq crc ino generation new henabled h.base
    have hverify := csum.verify_patchInodeChecksum crc ino generation new henabled h.base
    have hlen := length_summed new lo hi h.base
    have hextra := agreeOn_summed new lo hi h.base (show 0x82 ≤ 0x7C ∨ 0x7E ≤ 0x80 by decide)
      (show 0x82 ≤ 0x82 ∨ 0x84 ≤ 0x80 by decide)
    have hfront := agreeOn_summed new lo hi h.base (show 0x78 ≤ 0x7C ∨ 0x7E ≤ 0 by decide)
      (show 0x78 ≤ 0x82 ∨ 0x84 ≤ 0 by decide)
    rw [if_pos rfl]
    refine ⟨by rw [hpatch, hlen], ?_, fun _ => hverify⟩
    rw [hpatch]
    exact ⟨h.of_agree hlen hextra, (Inode.fields_of_agree hfront).symm⟩

namespace Mount

section Staged

variable {crc : Crc} {m : Mount} {d : Disk} {buf buf' : BlockBuffer} {ino : UInt32} {inode : Inode}
  {raw : Bytes}

structure InodeAt (crc : Crc) (m : Mount) (view : Nat → Bytes) (ino : UInt32) (block off : Nat)
    (inode : Inode) (raw : Bytes) : Prop where
  located : locateInode m.fs.sb m.fs.groups ino = .ok (block, off)
  fits : off + m.fs.sb.inodeSize ≤ (view block).length
  stored : slice (view block) off m.fs.sb.inodeSize = raw
  parsed : Inode.parse raw = .ok inode
  checked : m.csum.enabled = true → m.csum.verifyInode crc ino inode.generation raw = true

theorem InodeAt.length {view : Nat → Bytes} {block off : Nat}
    (h : InodeAt crc m view ino block off inode raw) : raw.length = m.fs.sb.inodeSize := by
  rw [← h.stored, length_slice_of_le _ _ _ h.fits]

theorem verifiedInode_eq_ok {raw' : Bytes} : m.verifiedInode crc ino raw = .ok (inode, raw') ↔
    raw' = raw ∧ Inode.parse raw = .ok inode ∧
      (m.csum.enabled = true → m.csum.verifyInode crc ino inode.generation raw = true) := by
  unfold verifiedInode
  constructor
  · intro h
    obtain ⟨found, hparse, h⟩ := Result.bind_eq_ok h
    simp only [throw, throwThe, MonadExceptOf.throw, bind, Except.bind, pure, Except.pure] at h
    split at h
    · cases h
    · rename_i hsum
      obtain ⟨rfl, rfl⟩ := Prod.mk.inj (Except.ok.inj h)
      exact ⟨rfl, hparse, fun henabled => by simpa [henabled] using hsum⟩
  · rintro ⟨rfl, hparse, hsum⟩
    rw [hparse]
    cases henabled : m.csum.enabled with
    | false => rfl
    | true =>
      simp only [bind, Except.bind, hsum henabled]
      rfl

theorem readInodeRaw_eq_ok (h : ((m.fs.readInodeRaw ino).exec d).1 = .ok raw) :
    ∃ block off, locateInode m.fs.sb m.fs.groups ino = .ok (block, off) ∧
      off + m.fs.sb.inodeSize ≤ (d.img.block m.fs.sb.blockSize block).length ∧
      slice (d.img.block m.fs.sb.blockSize block) off m.fs.sb.inodeSize = raw := by
  obtain ⟨d', hexec⟩ : ∃ d', (m.fs.readInodeRaw ino).exec d = (.ok raw, d') := ⟨_, Prod.ext h rfl⟩
  obtain ⟨⟨block, off⟩, d₁, hlift, hexec⟩ := Io.exec_bind_eq_ok _ _ _ _ _ hexec
  rw [Io.exec_liftM] at hlift
  obtain ⟨hlocate, rfl⟩ := Prod.mk.inj hlift
  obtain ⟨data, d₂, hread, hexec⟩ := Io.exec_bind_eq_ok _ _ _ _ _ hexec
  have hdata : data = d.img.block m.fs.sb.blockSize block := by
    refine Filesystem.reader_ok ?_
    rw [Filesystem.reader, hread]
  subst hdata
  refine ⟨block, off, hlocate, ?_⟩
  split at hexec
  · cases (Prod.mk.inj hexec).1
  · rename_i hfit
    exact ⟨Nat.le_of_not_lt hfit, Except.ok.inj (Prod.mk.inj hexec).1⟩

theorem readInodeVerified_ok (h : m.readInodeVerified crc d ino = .ok (inode, raw)) :
    ∃ block off, InodeAt crc m (d.img.block m.fs.sb.blockSize) ino block off inode raw := by
  unfold readInodeVerified at h
  obtain ⟨raw', hread, h⟩ := Result.bind_eq_ok h
  obtain ⟨⟨inode', raw''⟩, hverified, hrest⟩ := Result.bind_eq_ok h
  have hsame : (inode', raw'') = (inode, raw) := by
    dsimp only at hrest
    split at hrest
    · obtain ⟨ceiling, -, hbound⟩ := Result.bind_eq_ok hrest
      split at hbound
      · cases hbound
      · exact Except.ok.inj hbound
    · exact Except.ok.inj hrest
  obtain ⟨rfl, hparsed, hchecked⟩ := verifiedInode_eq_ok.mp hverified
  obtain ⟨rfl, rfl⟩ := Prod.mk.inj hsame
  obtain ⟨block, off, hlocate, hfits, hstored⟩ := readInodeRaw_eq_ok hread
  exact ⟨block, off, hlocate, hfits, hstored, hparsed, hchecked⟩

theorem bufferedInodeVerified_ok (h : m.bufferedInodeVerified crc d buf ino = .ok (inode, raw)) :
    ∃ block off, InodeAt crc m (buf.view d.img m.fs.sb.blockSize) ino block off inode raw := by
  unfold bufferedInodeVerified at h
  obtain ⟨⟨block, off⟩, hlocate, h⟩ := Result.bind_eq_ok h
  dsimp only at h
  cases hstaged : buf.dirty.get? block with
  | none =>
    rw [hstaged] at h
    obtain ⟨block', off', hat⟩ := readInodeVerified_ok h
    obtain ⟨rfl, rfl⟩ := Prod.mk.inj (Except.ok.inj (hlocate.symm.trans hat.located))
    have hview : buf.view d.img m.fs.sb.blockSize block = d.img.block m.fs.sb.blockSize block := by
      rw [BlockBuffer.view, hstaged, Option.getD_none]
    exact ⟨block, off, hlocate, by rw [hview]; exact hat.fits, by rw [hview]; exact hat.stored,
      hat.parsed, hat.checked⟩
  | some staged =>
    rw [hstaged] at h
    dsimp only at h
    split at h
    · cases h
    · rename_i hfit
      obtain ⟨rfl, hparsed, hchecked⟩ := verifiedInode_eq_ok.mp h
      have hview : buf.view d.img m.fs.sb.blockSize block = staged := by
        rw [BlockBuffer.view, hstaged, Option.getD_some]
      exact ⟨block, off, hlocate, by rw [hview]; exact Nat.le_of_not_lt hfit, by rw [hview],
        hparsed, hchecked⟩

theorem bufferedInodeVerified_of_staged {block off : Nat}
    (h : InodeAt crc m (buf.view d.img m.fs.sb.blockSize) ino block off inode raw)
    (hstaged : buf.Staged block) : m.bufferedInodeVerified crc d buf ino = .ok (inode, raw) := by
  obtain ⟨staged, hget⟩ := Option.isSome_iff_exists.mp hstaged
  have hview : buf.view d.img m.fs.sb.blockSize block = staged := by
    rw [BlockBuffer.view, hget, Option.getD_some]
  have hfits := h.fits
  have hstored := h.stored
  rw [hview] at hfits hstored
  unfold bufferedInodeVerified
  rw [h.located]
  dsimp only [bind, Except.bind]
  rw [hget]
  dsimp only
  rw [if_neg (Nat.not_lt.mpr hfits), hstored]
  exact verifiedInode_eq_ok.mpr ⟨rfl, h.parsed, h.checked⟩

theorem bufferWriteInode_ok (h : m.bufferWriteInode d buf ino raw = .ok buf') :
    ∃ block off, locateInode m.fs.sb m.fs.groups ino = .ok (block, off) ∧
      buf'.view d.img m.fs.sb.blockSize = Function.update (buf.view d.img m.fs.sb.blockSize) block
        (copyAt (buf.view d.img m.fs.sb.blockSize block) off raw) ∧
      ∀ b, buf'.Staged b ↔ b = block ∨ buf.Staged b := by
  unfold bufferWriteInode at h
  obtain ⟨⟨block, off⟩, hlocate, h⟩ := Result.bind_eq_ok h
  obtain ⟨hview, -, hstaged⟩ := BlockBuffer.edit_ok h
  exact ⟨block, off, hlocate, hview, hstaged⟩

theorem bufferWriteInode_at {block off : Nat}
    (hloc : locateInode m.fs.sb m.fs.groups ino = .ok (block, off))
    (hfits : off + m.fs.sb.inodeSize ≤ (buf.view d.img m.fs.sb.blockSize block).length)
    (hlen : raw.length = m.fs.sb.inodeSize) (hparsed : Inode.parse raw = .ok inode)
    (hchecked : m.csum.enabled = true → m.csum.verifyInode crc ino inode.generation raw = true)
    (h : m.bufferWriteInode d buf ino raw = .ok buf') :
    InodeAt crc m (buf'.view d.img m.fs.sb.blockSize) ino block off inode raw := by
  obtain ⟨block', off', hloc', hview, -⟩ := bufferWriteInode_ok h
  obtain ⟨rfl, rfl⟩ := Prod.mk.inj (Except.ok.inj (hloc.symm.trans hloc'))
  rw [← hlen] at hfits
  have hself := slice_copyAt_self (buf.view d.img m.fs.sb.blockSize block) off raw hfits
  rw [hlen] at hself
  refine ⟨hloc, ?_, ?_, hparsed, hchecked⟩
  · rw [hview, Function.update_self, length_copyAt _ _ _ hfits, ← hlen]
    exact hfits
  · rw [hview, Function.update_self]
    exact hself

theorem bufferWriteDirInode_ok {generation : UInt32} {new : Bytes} {block off : Nat}
    (hold : InodeAt crc m (buf.view d.img m.fs.sb.blockSize) ino block off inode raw)
    (hlen : new.length = raw.length) (hparse : Inode.Parses new)
    (hgeneration : (Inode.fields new).generation = generation)
    (h : m.bufferWriteDirInode crc d buf ino generation new = .ok buf') :
    ∃ written, m.bufferedInodeVerified crc d buf' ino = .ok (Inode.fields new, written) ∧
      buf'.view d.img m.fs.sb.blockSize = Function.update (buf.view d.img m.fs.sb.blockSize) block
        (copyAt (buf.view d.img m.fs.sb.blockSize block) off written) ∧
      ∀ b, buf'.Staged b ↔ b = block ∨ buf.Staged b := by
  obtain ⟨block', off', hlocate, hview, hstaged⟩ := bufferWriteInode_ok h
  obtain ⟨rfl, rfl⟩ := Prod.mk.inj (Except.ok.inj (hold.located.symm.trans hlocate))
  obtain ⟨hwritten, hfields, hchecked⟩ := m.csum.dirInode_ok crc ino generation hparse
  have hat := bufferWriteInode_at hlocate hold.fits (by rw [hwritten, hlen, hold.length])
    (Inode.parse_eq_ok.mpr hfields) (by rw [hgeneration]; exact hchecked) h
  exact ⟨_, bufferedInodeVerified_of_staged hat ((hstaged block).mpr (.inl rfl)), hview, hstaged⟩

end Staged

end Mount

end FsExt4
