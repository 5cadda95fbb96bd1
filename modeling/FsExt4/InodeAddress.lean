import FsExt4.AllocationSafety
import FsExt4.DirListing
import FsExt4.IndirectPlan

namespace FsExt4

open Lib Jbd2 FsExt4.Path Indirect

namespace Superblock

def filesystemBytes (sb : Superblock) : Option Nat :=
  if sb.blocksCount * sb.blockSize < 2 ^ 64 then some (sb.blocksCount * sb.blockSize) else none

def checkFitsDevice (sb : Superblock) (deviceBytes : Nat) : Result Unit :=
  match sb.filesystemBytes with
  | some bytes =>
    if bytes ≤ deviceBytes then .ok ()
    else .error (.corrupt "superblock: blocks_count makes the filesystem larger than the device")
  | none => .error (.corrupt "superblock: blocks_count makes the filesystem larger than the device")

theorem bytes_of_checkFitsDevice {sb : Superblock} {deviceBytes : Nat}
    (h : sb.checkFitsDevice deviceBytes = .ok ()) : sb.blocksCount * sb.blockSize < 2 ^ 64 := by
  unfold checkFitsDevice filesystemBytes at h
  by_contra hbig
  rw [if_neg hbig] at h
  cases h

theorem Parsed.inodesPerGroup_ne {sb : Superblock} (h : sb.Parsed) : sb.inodesPerGroup ≠ 0 := by
  intro hzero
  have hpos := h.sizes.inodesPerGroup
  rw [hzero] at hpos
  exact Nat.lt_irrefl 0 hpos

end Superblock

section Slots

variable {bs size per i j n : Nat}

/-- The place of slot `i`, of `per` to a block, is that in one run of slots when the blocks have no
slack or the slot is in the first block. -/
theorem slot_linear (h : per * size = bs ∨ i < per) : i / per * bs + i % per * size = i * size := by
  obtain rfl | hlt := h
  · rw [← Nat.mul_assoc, ← Nat.add_mul, Nat.mul_comm (i / per), Nat.div_add_mod]
  · rw [Nat.div_eq_of_lt hlt, Nat.mod_eq_of_lt hlt, Nat.zero_mul, Nat.zero_add]

theorem slot_fits (hsize : 0 < size) (hfit : size ≤ bs) (i : Nat) :
    i % (bs / size) * size + size ≤ bs := by
  have hper : 0 < bs / size := Nat.div_pos hfit hsize
  have hmul : (i % (bs / size) + 1) * size ≤ bs / size * size := Nat.mul_le_mul_right _
    (Nat.mod_lt _ hper)
  rw [Nat.succ_mul] at hmul
  exact Nat.le_trans hmul (Nat.div_mul_le_self bs size)

theorem slots_apart (hne : i ≠ j) : i * size + size ≤ j * size ∨ j * size + size ≤ i * size :=
  block_disjoint size i j hne

theorem slot_block_lt (hbs : 0 < bs) (hi : i < n) (hsize : 0 < size)
    (hlinear : i / per * bs + i % per * size = i * size) : i / per < divCeil (n * size) bs := by
  have hup := @le_divCeil_mul (n * size) bs hbs
  have hlt : i * size < n * size := Nat.mul_lt_mul_of_pos_right hi hsize
  refine Nat.lt_of_mul_lt_mul_right (a := bs) ?_
  omega

end Slots

section Address

variable (v : Volume) (groups : List BlockGroupDescriptor) (d : Disk)

/-- The bytes at `off` of `block` are those of the inode: in one block of its group's table, no
other inode's of the group, and where a lookup reads it. -/
structure InodeAddress (ino : UInt32) (block off : Nat) : Prop where
  inBlock : off + v.sb.inodeSize ≤ v.sb.blockSize
  inTable : ∃ bgd, groups[v.groupOf ino]? = some bgd ∧ bgd.inodeTable ≤ block ∧
    block < bgd.inodeTable + v.sb.inodeTableBlocks
  apart : ∀ ino' block' off', ino' ≠ ino → v.groupOf ino' = v.groupOf ino →
    locateInode v.sb groups ino' = .ok (block', off') →
    block * v.sb.blockSize + off + v.sb.inodeSize ≤ block' * v.sb.blockSize + off' ∨
      block' * v.sb.blockSize + off' + v.sb.inodeSize ≤ block * v.sb.blockSize + off
  read : (rawInodeOffset v ino).exec d = (.ok (block * v.sb.blockSize + off), d)

/-- No inode that there is lies behind its table's first block, or the blocks have no slack. -/
def SlotsAligned (sb : Superblock) : Prop :=
  sb.blockSize < sb.inodeSize ∨ sb.blockSize % sb.inodeSize = 0 ∨
    min sb.inodesPerGroup.toNat sb.inodesCount.toNat ≤ sb.blockSize / sb.inodeSize

variable {v groups d} {crc : Crc} {sizeBytes : Nat}

theorem table_inside {d' : Disk} (hread : (readAll crc v.sb v.csum sizeBytes).exec d =
    (.ok groups, d')) {g : Nat} {bgd : BlockGroupDescriptor} (hbgd : groups[g]? = some bgd) :
    bgd.inodeTable + v.sb.inodeTableBlocks ≤ v.sb.blocksCount := by
  obtain ⟨-, -, -, -, hreads⟩ := readAll_ok hread
  exact (acceptDescriptor_iff.mp (hreads g bgd hbgd).2).2.2.2.2.1

theorem exec_rawInodeOffset {d' : Disk} (hparsed : v.sb.Parsed)
    (hfits : v.sb.blocksCount * v.sb.blockSize < 2 ^ 64)
    (hread : (readAll crc v.sb v.csum sizeBytes).exec d = (.ok groups, d')) {ino : UInt32}
    (hno : ino ≠ 0 ∧ ino ≤ v.sb.inodesCount) {bgd : BlockGroupDescriptor}
    (hbgd : groups[v.groupOf ino]? = some bgd) :
    (rawInodeOffset v ino).exec d = (.ok (v.inodeOffset bgd.inodeTable ino), d) := by
  have hbnd := hparsed.sizes
  have hipg := hbnd.inodesPerGroup
  have hbs := blockSize_ge v.sb
  obtain ⟨-, -, -, hlen, hreads⟩ := readAll_ok hread
  obtain ⟨htable, haccept⟩ := hreads _ _ hbgd
  have hgroup := (List.getElem?_eq_some_iff.mp hbgd).1
  have hinside := table_inside hread hbgd
  have hdesc := hbnd.descriptor_fits (v.groupOf ino)
  have hparse := (acceptDescriptor_iff.mp haccept).2.1
  have hslot : (ino.toNat - 1) % v.sb.inodesPerGroup.toNat * v.sb.inodeSize <
      v.sb.inodesPerGroup.toNat * v.sb.inodeSize :=
    Nat.mul_lt_mul_of_pos_right (Nat.mod_lt _ hipg) hparsed.sizes.inodeSize
  have hrun := @le_divCeil_mul (v.sb.inodesPerGroup.toNat * v.sb.inodeSize)
    v.sb.blockSize (by omega)
  have hbytes := Nat.mul_le_mul_right v.sb.blockSize hinside
  rw [Nat.add_mul] at hbytes
  rw [descriptorOn] at hparse
  have hoffset := htable.offset
  have hdevice := htable.device
  rw [Nat.succ_mul] at hoffset
  simp only [Volume.groupOf] at hbgd hgroup hdesc hparse hoffset hdevice
  simp only [Superblock.inodeTableBlocks] at hbytes
  have hzero : ¬ (ino = 0 ∨ v.sb.inodesCount < ino ∨ v.sb.inodesPerGroup = 0) := by
    rintro (h0 | h0 | h0)
    · exact hno.1 h0
    · exact absurd hno.2 (UInt32.not_le.2 h0)
    · rw [h0] at hipg
      exact Nat.lt_irrefl 0 hipg
  rw [rawInodeOffset, if_neg hzero]
  dsimp only
  rw [if_neg (by omega), Volume.blockSize, if_neg (by omega),
    Io.exec_bind_ok _ _ _ _ _ (exec_readAt d _ _ hdevice), Image.length_read, if_neg (by omega),
    Io.exec_bind_ok _ _ _ _ _ (by rw [Io.exec_liftM]; exact congrArg (·, d) hparse),
    if_neg (by omega)]
  rfl

end Address

section Aligned

variable {v : Volume} {groups : List BlockGroupDescriptor} {d d' : Disk} {crc : Crc}
  {sizeBytes : Nat}

theorem SlotsAligned.linear {sb : Superblock} (h : SlotsAligned sb) (hbnd : sb.Sizes)
    (hfit : sb.inodeSize ≤ sb.blockSize) {ino : UInt32} (hne : ino ≠ 0)
    (hcount : ino ≤ sb.inodesCount) :
    (ino.toNat - 1) % sb.inodesPerGroup.toNat / (sb.blockSize / sb.inodeSize) * sb.blockSize +
        (ino.toNat - 1) % sb.inodesPerGroup.toNat % (sb.blockSize / sb.inodeSize) * sb.inodeSize =
      (ino.toNat - 1) % sb.inodesPerGroup.toNat * sb.inodeSize := by
  apply slot_linear
  obtain hbig | hslack | hfew := h
  · omega
  · exact .inl (Nat.div_mul_cancel (Nat.dvd_of_mod_eq_zero hslack))
  · have hpos : 0 < ino.toNat := Nat.pos_of_ne_zero (fun h0 => hne (UInt32.toNat_inj.mp h0))
    have hle := UInt32.le_iff_toNat_le.mp hcount
    have hmod := Nat.mod_lt (ino.toNat - 1) hbnd.inodesPerGroup
    have hself := Nat.mod_le (ino.toNat - 1) sb.inodesPerGroup.toNat
    exact .inr (by omega)

theorem SlotsAligned.address (h : SlotsAligned v.sb) (hparsed : v.sb.Parsed)
    (hfits : v.sb.checkFitsDevice sizeBytes = .ok ())
    (hread : (readAll crc v.sb v.csum sizeBytes).exec d = (.ok groups, d')) {ino : UInt32}
      {block off : Nat}
    (hloc : locateInode v.sb groups ino = .ok (block, off)) : InodeAddress v groups d ino
      block off := by
  have hbnd := hparsed.sizes
  obtain ⟨hno, ⟨-, hsize⟩, hfit, -, bgd, hbgd, hblock, hoff⟩ := locateInode_eq_ok.mp hloc
  have hlinear := h.linear hbnd hfit hno.1 hno.2
  have hplace : block * v.sb.blockSize + off = v.inodeOffset bgd.inodeTable ino := by
    rw [hblock, hoff, Nat.add_mul, Nat.add_assoc, hlinear]
    rfl
  constructor
  case inBlock =>
    rw [hoff]
    exact slot_fits hsize hfit _
  case inTable =>
    rw [hblock]
    refine ⟨bgd, hbgd, Nat.le_add_right _ _, ?_⟩
    exact Nat.add_lt_add_left (slot_block_lt (Nat.lt_of_lt_of_le hsize hfit)
      (Nat.mod_lt _ hbnd.inodesPerGroup) hsize hlinear) _
  case apart =>
    intro ino' block' off' hne hgroup hloc'
    obtain ⟨hno', -, -, -, bgd', hbgd', hblock', hoff'⟩ := locateInode_eq_ok.mp hloc'
    have hsame : groups[v.groupOf ino']? = groups[v.groupOf ino]? := by rw [hgroup]
    obtain rfl : bgd' = bgd := Option.some.inj (hbgd'.symm.trans (hsame.trans hbgd))
    have hlinear' := h.linear hbnd hfit hno'.1 hno'.2
    have hplace' : block' * v.sb.blockSize + off' = v.inodeOffset bgd'.inodeTable ino' := by
      rw [hblock', hoff', Nat.add_mul, Nat.add_assoc, hlinear']
      rfl
    have hslot : (ino.toNat - 1) % v.sb.inodesPerGroup.toNat ≠ (ino'.toNat - 1) %
        v.sb.inodesPerGroup.toNat := by
      intro heq
      have hpos : ∀ i : UInt32, i ≠ 0 → 0 < i.toNat :=
        fun i hi => Nat.pos_of_ne_zero (fun h0 => hi (UInt32.toNat_inj.mp h0))
      have h1 := Nat.div_add_mod (ino.toNat - 1) v.sb.inodesPerGroup.toNat
      have h2 := Nat.div_add_mod (ino'.toNat - 1) v.sb.inodesPerGroup.toNat
      simp only [Volume.groupOf] at hgroup
      rw [hgroup, ← heq] at h2
      have hp := hpos ino hno.1
      have hp' := hpos ino' hno'.1
      exact hne (UInt32.toNat_inj.mp (by omega))
    have hapart := @slots_apart v.sb.inodeSize _ _ hslot
    rw [hplace, hplace', Volume.inodeOffset, Volume.inodeOffset]
    omega
  case read =>
    rw [hplace]
    exact exec_rawInodeOffset hparsed (Superblock.bytes_of_checkFitsDevice hfits) hread hno hbgd

theorem misaligned_inode (hparsed : v.sb.Parsed) (hfits : v.sb.checkFitsDevice sizeBytes = .ok ())
    (hread : (readAll crc v.sb v.csum sizeBytes).exec d = (.ok groups, d'))
      (h : ¬ SlotsAligned v.sb) :
    ∃ ino block off, locateInode v.sb groups ino = .ok (block, off) ∧
      ¬ InodeAddress v groups d ino block off := by
  have hbnd := hparsed.sizes
  have hsize := hparsed.sizes.inodeSize
  have hbs := blockSize_ge v.sb
  have hbytes := Superblock.bytes_of_checkFitsDevice hfits
  obtain ⟨hfit, hrest⟩ := not_or.mp h
  obtain ⟨hslack, hmany⟩ := not_or.mp hrest
  obtain ⟨-, -, -, hlen, -⟩ := readAll_ok hread
  generalize hper : v.sb.blockSize / v.sb.inodeSize = per at hmany
  have hperpos : 0 < per := by
    rw [← hper]
    exact Nat.div_pos (Nat.le_of_not_lt hfit) hsize
  have hcount : 0 < v.sb.blockGroupCount := by
    have hlt := hbnd.firstDataBlock
    have hpos := hbnd.blocksPerGroup
    have hup := @le_divCeil_mul (v.sb.blocksCount - v.sb.firstDataBlock.toNat)
      (max v.sb.blocksPerGroup.toNat 1) (by omega)
    apply Nat.pos_of_ne_zero
    intro hzero
    rw [Superblock.blockGroupCount] at hzero
    rw [hzero, Nat.zero_mul] at hup
    omega
  obtain ⟨bgd, hbgd⟩ : ∃ bgd, groups[0]? = some bgd := by
    rw [List.getElem?_eq_getElem (by omega)]
    exact ⟨_, rfl⟩
  have hinside := table_inside hread hbgd
  have hblocks : v.sb.blocksCount < 2 ^ 64 :=
    Nat.lt_of_le_of_lt (Nat.le_mul_of_pos_right _ (by omega)) hbytes
  have hino : (UInt32.ofNat (per + 1)).toNat = per + 1 := by
    have hlt := v.sb.inodesCount.toNat_lt
    rw [UInt32.toNat_ofNat', Nat.mod_eq_of_lt (by omega)]
  have hgroup : (per + 1 - 1) / v.sb.inodesPerGroup.toNat = 0 := Nat.div_eq_of_lt (by omega)
  have hslot : (per + 1 - 1) % v.sb.inodesPerGroup.toNat = per := Nat.mod_eq_of_lt (by omega)
  have hno : UInt32.ofNat (per + 1) ≠ 0 ∧ UInt32.ofNat (per + 1) ≤ v.sb.inodesCount := by
    constructor
    · intro h0
      rw [h0] at hino
      exact absurd hino (Nat.succ_ne_zero per).symm
    · rw [UInt32.le_iff_toNat_le, hino]
      omega
  have htable : 0 < v.sb.inodeTableBlocks := by
    have hup := @le_divCeil_mul (v.sb.inodesPerGroup.toNat * v.sb.inodeSize)
      v.sb.blockSize (by omega)
    have hpos := Nat.mul_pos hbnd.inodesPerGroup hsize
    apply Nat.pos_of_ne_zero
    intro hzero
    rw [Superblock.inodeTableBlocks] at hzero
    rw [hzero, Nat.zero_mul] at hup
    omega
  have hloc : locateInode v.sb groups (UInt32.ofNat (per + 1)) = .ok (bgd.inodeTable + 1, 0) := by
    rw [locateInode_eq_ok, hino, hgroup, hslot, hper, Nat.div_self hperpos, Nat.mod_self,
      Nat.zero_mul]
    exact ⟨hno, ⟨hparsed.inodesPerGroup_ne, hsize⟩, Nat.le_of_not_lt hfit, by omega, bgd,
      hbgd, rfl, rfl⟩
  refine ⟨_, _, _, hloc, fun haddress => ?_⟩
  have hgroup' : v.groupOf (UInt32.ofNat (per + 1)) = 0 := by rw [Volume.groupOf, hino, hgroup]
  have hbgd' : groups[v.groupOf (UInt32.ofNat (per + 1))]? = some bgd := by rw [hgroup']; exact hbgd
  have hoffset := exec_rawInodeOffset hparsed hbytes hread hno hbgd'
  have heq := Except.ok.inj (Prod.mk.inj (hoffset.symm.trans haddress.read)).1
  rw [Volume.inodeOffset, hino, hslot, Volume.blockSize, Nat.succ_mul, Nat.add_zero] at heq
  have hdiv : per * v.sb.inodeSize = v.sb.blockSize := by omega
  apply hslack
  rw [← hdiv]
  exact Nat.mul_mod_left _ _

/-- An inode is written where its table is and where it is looked up, whatever its number, exactly
when the slots are aligned. -/
theorem inode_addresses_iff (crc : Crc) (v : Volume) (sizeBytes : Nat) (d d' : Disk)
    (groups : List BlockGroupDescriptor) (hparsed : v.sb.Parsed)
    (hfits : v.sb.checkFitsDevice sizeBytes = .ok ())
    (hread : (readAll crc v.sb v.csum sizeBytes).exec d = (.ok groups, d')) :
    (∀ ino block off, locateInode v.sb groups ino = .ok (block, off) →
      InodeAddress v groups d ino block off) ↔ SlotsAligned v.sb := by
  constructor
  · intro hall
    by_contra h
    obtain ⟨ino, block, off, hloc, hbad⟩ := misaligned_inode hparsed hfits hread h
    exact hbad (hall ino block off hloc)
  · intro h ino block off hloc
    exact h.address hparsed hfits hread hloc

end Aligned

def volumeOf (sb : Superblock) : Volume := ⟨sb, ⟨[0, 0, 0, 0], false⟩, ⟨0, false⟩⟩

theorem inode_addresses_two_groups : SlotsAligned Mount.twoGroupsSb ∧ ∀ ino block off,
    locateInode Mount.twoGroupsSb Mount.twoGroups.fs.groups ino = .ok (block, off) →
      InodeAddress (volumeOf Mount.twoGroupsSb) Mount.twoGroups.fs.groups Mount.twoGroupsDisk ino
        block off := by
  have haligned : SlotsAligned Mount.twoGroupsSb := .inr (.inl (by decide))
  exact ⟨haligned, (inode_addresses_iff linuxCrc32c (volumeOf Mount.twoGroupsSb) (65 * 1024)
    Mount.twoGroupsDisk Mount.twoGroupsDisk Mount.twoGroups.fs.groups Mount.twoGroups_mounted.parsed
    (by decide) Mount.twoGroups_mounted.groups).mpr haligned⟩

def slackSb : Superblock := { Mount.twoGroupsSb with inodeSize := 192 }

/-- Mount accepts the volume, whose inode tables have three blocks each; inode 16 is located in a
fourth. -/
theorem slack_inode_astray :
    slackSb.Parsed ∧ slackSb.checkFitsDevice (65 * 1024) = .ok () ∧
      (readAll linuxCrc32c slackSb ⟨0, false⟩ (65 * 1024)).exec Mount.twoGroupsDisk =
        (.ok Mount.twoGroups.fs.groups, Mount.twoGroupsDisk) ∧
      locateInode slackSb Mount.twoGroups.fs.groups 16 = .ok (8, 0) ∧
      ¬ InodeAddress (volumeOf slackSb) Mount.twoGroups.fs.groups Mount.twoGroupsDisk 16 8 0 := by
  refine ⟨⟨⟨0, 0, by decide⟩, by decide, by decide⟩, by decide, ?_, by decide, ?_⟩
  · have hends : Result.Ends (fun groups => groups = Mount.twoGroups.fs.groups)
        ((readAll linuxCrc32c slackSb ⟨0, false⟩ (65 * 1024)).exec Mount.twoGroupsDisk).1 := by
      decide +kernel
    obtain ⟨groups, hgroups, rfl⟩ := hends.exists_ok
    exact readAll_eq_of_fst hgroups
  · intro h
    obtain ⟨bgd, hbgd, -, hlt⟩ := h.inTable
    obtain rfl : bgd = ⟨3, 4, 5, 22, 6, 1, 0⟩ := Option.some.inj
      (hbgd.symm.trans (show Mount.twoGroups.fs.groups[(volumeOf slackSb).groupOf 16]? =
        _ by decide))
    exact absurd hlt (by decide)

end FsExt4
