import FsExt4.Lib.Seal
import FsExt4.HtreeDrop
import FsExt4.WritePaths

namespace FsExt4.Checksummer

open Lib Jbd2 Dir

def Chains (crc : Crc) : Prop := ∀ s a b, crc (crc s a) b = crc s (a ++ b)

section Model

variable (crc : Crc) (csum : Checksummer)

def crcWithPrefix (pre : UInt32) (data : Bytes) : UInt32 := crc (crc csum.seed (u32le pre)) data

/-- Whether a descriptor of `descSize` bytes has the checksum that it should. -/
def verifyBgd (groupNo : UInt32) (bgdRaw : Bytes) (descSize : Nat) : Bool :=
  if !csum.enabled then true
  else if bgdRaw.length < descSize ∨ descSize < 0x20 then false
  else
    let stored := u16leAt bgdRaw 0x1E
    let tmp := copyAt (bgdRaw.take descSize) 0x1E [0, 0]
    (csum.crcWithPrefix crc groupNo tmp).toUInt16 == stored

def patchExtentTail (ino generation : UInt32) (block : Bytes) : Bytes :=
  if !csum.enabled ∨ block.length < 4 then block
  else copyAt block (block.length - 4) (u32le (csum.extentTailSum crc ino generation block))

def computeXattrBlockCsum (blockNr : UInt64) (block : Bytes) : UInt32 :=
  let c := crc csum.seed (u64le blockNr)
  let c := crc c (slice block 0 0x10)
  let c := crc c (u32le 0)
  crc c (block.drop 0x14)

def verifyXattrBlock (blockNr : UInt64) (block : Bytes) : Bool :=
  if !csum.enabled then true
  else if block.length < 0x20 then false
  else u32leAt block 0x10 == csum.computeXattrBlockCsum crc blockNr block

def patchXattrBlock (blockNr : UInt64) (block : Bytes) : Bytes :=
  if !csum.enabled ∨ block.length < 0x20 then block
  else copyAt block 0x10 (u32le (csum.computeXattrBlockCsum crc blockNr block))

end Model

section Blocks

variable (crc : Crc) (csum : Checksummer) (ino generation : UInt32)

theorem length_tailed {b : Bytes} (h : 12 ≤ b.length) (c : UInt32) :
    (copyAll b (tailPatches b.length c)).length = b.length :=
  length_copyAll b _ (fun p hp => (tailPatches_within h c p hp).2)

theorem sum_tailed {b : Bytes} (h : 12 ≤ b.length) (c : UInt32) :
    csum.dirEntryTailSum crc ino generation (copyAll b (tailPatches b.length c)) =
      csum.dirEntryTailSum crc ino generation b := by
  have hfront := take_copyAll_of_tail b _ (tailPatches_within h c)
  rw [dirEntryTailSum, dirEntryTailSum, length_tailed h]
  exact congrArg _ hfront

theorem get_tailed {b : Bytes} (h : 12 ≤ b.length) (c : UInt32) :
    u32leAt (copyAll b (tailPatches b.length c)) ((copyAll b (tailPatches b.length c)).length - 4) =
      c := by
  rw [length_tailed h, tailPatches, copyAll_append, copyAll_cons]
  have hplanted := length_copyAll b
    [(b.length - 12, u32le 0), (b.length - 8, u16le 12), (b.length - 6, [0, Dir.tailFileType])]
    (fun p hp => (tailPatches_within h 0 p (List.mem_append_left _ hp)).2)
  exact u32leAt_copyAt _ _ _ (by rw [hplanted]; omega)

theorem tailed_tailed {b : Bytes} (h : 12 ≤ b.length) (c : UInt32) :
    copyAll (copyAll b (tailPatches b.length c))
      (tailPatches (copyAll b (tailPatches b.length c)).length c) =
      copyAll b (tailPatches b.length c) := by
  have hcut : b.take (b.length - 12) ++ b.drop (b.length - 12) = b := List.take_append_drop _ _
  have hfront : (b.take (b.length - 12)).length = b.length - 12 := by rw [List.length_take]; omega
  have hback : (b.drop (b.length - 12)).length = 12 := by rw [List.length_drop]; omega
  have hone := copyAll_tailPatches (b.take (b.length - 12)) (b.drop (b.length - 12)) hback c
  have htwo := copyAll_tailPatches (b.take (b.length - 12)) (Record.tail c).bytes
    (by rw [Record.length_bytes, Record.recLen_tail]) c
  rw [hcut, hfront, Nat.sub_add_cancel h] at hone
  rw [hfront, Nat.sub_add_cancel h] at htwo
  rw [length_tailed h, hone, htwo]

theorem sameOutside_tailed {b : Bytes} (h : 12 ≤ b.length) (c : UInt32) :
    SameOutside (fun i => b.length - 12 ≤ i) b (copyAll b (tailPatches b.length c)) := by
  refine sameOutside_copyAll (fun p hp => (tailPatches_within h c p hp).2) ?_
  intro p hp i hi _
  exact Nat.le_trans (tailPatches_within h c p hp).1 hi

def dirEntrySeal : Seal UInt32 where
  room b := 12 ≤ b.length
  field b i := b.length - 12 ≤ i
  sum b := csum.dirEntryTailSum crc ino generation b
  get b := u32leAt b (b.length - 4)
  put b c := copyAll b (tailPatches b.length c)
  room_put _ c h := Nat.le_trans h (Nat.le_of_eq (length_tailed h c).symm)
  sum_put _ c h := csum.sum_tailed crc ino generation h c
  get_put _ h := get_tailed h _
  put_put _ c h := tailed_tailed h c
  sameOutside_put _ c h := sameOutside_tailed h c

theorem dirEntry_agree {block : Bytes} (hlen : csum.enabled = true → 12 ≤ block.length) :
    Agree (csum.verifyDirEntryTail crc ino generation) (csum.patchDirEntryTail crc ino generation)
      (fun i => block.length - 12 ≤ i) block := by
  refine (csum.dirEntrySeal crc ino generation).agree_of_enabled (fun _ => Iff.rfl) hlen ?_ ?_
    (fun _ => rfl) ?_
  · intro b hskip
    rw [patchDirEntryTail, if_pos hskip]
  · intro b henabled hb
    exact csum.patchDirEntryTail_eq crc ino generation b henabled hb
  · intro b _ _ hstored
    exact beq_iff_eq.mpr hstored.symm

def extentSeal : Seal UInt32 :=
  .ofCell 4 u32le u32leAt length_u32le u32leAt_copyAt (fun b => 4 ≤ b.length)
    (fun b => b.length - 4)
    (csum.extentTailSum crc ino generation) (fun b hb => by omega) (fun b b' hb h => by
      refine ⟨by rw [h.1]; exact hb, by rw [h.1], ?_⟩
      have hfront : slice b' 0 (b.length - 4) = slice b 0 (b.length - 4) :=
        h.slice_eq (fun i _ hi hin => by have := hin.1; omega)
      rw [extentTailSum, extentTailSum, h.1]
      exact congrArg _ hfront)

theorem extent_agree {block : Bytes} (hlen : csum.enabled = true → 4 ≤ block.length) :
    Agree (csum.verifyExtentTail crc ino generation) (csum.patchExtentTail crc ino generation)
      (Seal.cell (block.length - 4) 4) block := by
  refine (csum.extentSeal crc ino generation).agree_of_enabled (fun _ => Iff.rfl) hlen ?_ ?_
    (fun _ => rfl) ?_
  · intro b hskip
    rw [patchExtentTail, if_pos hskip]
  · intro b henabled hb
    rw [patchExtentTail, if_neg
      (by rw [henabled]; exact not_or.mpr ⟨Bool.false_ne_true, Nat.not_lt.mpr hb⟩)]
    rfl
  · intro b _ _ hstored
    exact beq_iff_eq.mpr hstored.symm

def xattrSeal (blockNr : UInt64) : Seal UInt32 :=
  .ofCell 4 u32le u32leAt length_u32le u32leAt_copyAt (fun b => 0x20 ≤ b.length) (fun _ => 0x10)
    (csum.computeXattrBlockCsum crc blockNr) (fun b hb => by omega) (fun b b' hb h => by
      refine ⟨by rw [h.1]; exact hb, rfl, ?_⟩
      have hfront : slice b' 0 0x10 = slice b 0 0x10 := h.slice_eq (fun i _ hi hin => by
        have := hin.1
        omega)
      have hback : b'.drop 0x14 = b.drop 0x14 := by
        apply List.ext_getElem?
        intro i
        rw [List.getElem?_drop, List.getElem?_drop]
        exact h.2 _ (fun hin => by have := hin.2; omega)
      simp only [computeXattrBlockCsum, hfront, hback])

theorem xattr_agree (blockNr : UInt64) {block : Bytes} (hlen : csum.enabled = true →
    0x20 ≤ block.length) :
    Agree (csum.verifyXattrBlock crc blockNr) (csum.patchXattrBlock crc blockNr)
      (Seal.cell 0x10 4) block := by
  refine (csum.xattrSeal crc blockNr).agree_of_enabled (fun _ => Iff.rfl) hlen ?_ ?_
    (fun _ => rfl) ?_
  · intro b hskip
    rw [patchXattrBlock, if_pos hskip]
  · intro b henabled hb
    rw [patchXattrBlock, if_neg
      (by rw [henabled]; exact not_or.mpr ⟨Bool.false_ne_true, Nat.not_lt.mpr hb⟩)]
    rfl
  · intro b _ _ hstored
    exact beq_iff_eq.mpr hstored

theorem get_summed {b : Bytes} (h : inodeBaseSize ≤ b.length) (lo hi : UInt16) :
    (u16leAt (summed b lo hi) 0x7C, if checksumHiFits (summed b lo hi) then u16leAt (summed b lo hi)
      0x82 else 0) = (lo, if checksumHiFits b then hi else 0) := by
  rw [checksumHiFits_summed b lo hi h, u16leAt_summed_lo b lo hi h]
  cases hfits : checksumHiFits b with
  | true => rw [if_pos rfl, u16leAt_summed_hi b lo hi hfits, if_pos rfl]
  | false => rw [if_neg Bool.false_ne_true, if_neg Bool.false_ne_true]

theorem summed_summed {b : Bytes} (h : inodeBaseSize ≤ b.length) (lo hi : UInt16) :
    summed (summed b lo hi) lo hi = summed b lo hi := by
  have hlo := u16leAt_summed_lo b lo hi h
  have hlen := length_summed b lo hi h
  have hbase : 0x80 ≤ b.length := h
  have hfirst : copyAt (summed b lo hi) 0x7C (u16le lo) = summed b lo hi := by
    refine copyAt_of_slice ?_
    rw [length_u16le, ← u16le_u16leAt (by rw [hlen]; omega), hlo]
  cases hfits : checksumHiFits b with
  | true =>
    have hsecond : copyAt (summed b lo hi) 0x82 (u16le hi) = summed b lo hi := by
      refine copyAt_of_slice ?_
      rw [length_u16le, ← u16le_u16leAt (by rw [hlen]; exact hi_fits b hfits),
        u16leAt_summed_hi b lo hi hfits]
    rw [summed, if_pos (by rw [checksumHiFits_summed b lo hi h]; exact hfits), hfirst, hsecond]
  | false =>
    rw [summed, if_neg (by rw [checksumHiFits_summed b lo hi h, hfits]; exact Bool.false_ne_true),
      hfirst]

theorem sameOutside_summed {b : Bytes} (h : inodeBaseSize ≤ b.length) (lo hi : UInt16) :
    SameOutside (fun i => Seal.cell 0x7C 2 i ∨ (checksumHiFits b = true ∧ Seal.cell 0x82 2 i)) b
      (summed b lo hi) := by
  have hbase : 0x80 ≤ b.length := h
  have hfirst : SameOutside (fun i => Seal.cell 0x7C 2 i ∨
    (checksumHiFits b = true ∧ Seal.cell 0x82 2 i)) b (copyAt b 0x7C (u16le lo)) := by
    refine sameOutside_copyAt (by rw [length_u16le]; omega) (fun i hi hi' => .inl ⟨hi, ?_⟩)
    rwa [length_u16le] at hi'
  rw [summed]
  split
  · rename_i hfits
    refine hfirst.trans (sameOutside_copyAt ?_ (fun i hi hi' => .inr ⟨hfits, hi, ?_⟩))
    · rw [hfirst.1, length_u16le]
      exact hi_fits b hfits
    · rwa [length_u16le] at hi'
  · exact hfirst

theorem sums_summed {b : Bytes} (h : inodeBaseSize ≤ b.length) (lo hi : UInt16) :
    ((csum.inodeSum crc ino generation (summed b lo hi)).toUInt16,
      if checksumHiFits (summed b lo hi) then
        (csum.inodeSum crc ino generation (summed b lo hi) >>> 16).toUInt16 else 0) =
      ((csum.inodeSum crc ino generation b).toUInt16,
        if checksumHiFits b then (csum.inodeSum crc ino generation b >>> 16).toUInt16 else 0) := by
  rw [checksumHiFits_summed b lo hi h, inodeSum, inodeSum, unsummed_summed b lo hi h]

theorem get_summed_sum {b : Bytes} (h : inodeBaseSize ≤ b.length) (sum : UInt32) :
    (u16leAt (summed b sum.toUInt16 (if checksumHiFits b then (sum >>> 16).toUInt16 else 0)) 0x7C,
      if checksumHiFits (summed b sum.toUInt16
        (if checksumHiFits b then (sum >>> 16).toUInt16 else 0)) then
        u16leAt (summed b sum.toUInt16 (if checksumHiFits b then (sum >>> 16).toUInt16 else 0))
          0x82 else 0) =
      (sum.toUInt16, if checksumHiFits b then (sum >>> 16).toUInt16 else 0) := by
  rw [get_summed h]
  split <;> rfl

def inodeSeal : Seal (UInt16 × UInt16) where
  room b := inodeBaseSize ≤ b.length
  field b i := Seal.cell 0x7C 2 i ∨ (checksumHiFits b = true ∧ Seal.cell 0x82 2 i)
  sum b := ((csum.inodeSum crc ino generation b).toUInt16,
    if checksumHiFits b then (csum.inodeSum crc ino generation b >>> 16).toUInt16 else 0)
  get b := (u16leAt b 0x7C, if checksumHiFits b then u16leAt b 0x82 else 0)
  put b c := summed b c.1 c.2
  room_put b c h := Nat.le_trans h (Nat.le_of_eq (length_summed b c.1 c.2 h).symm)
  sum_put _ c h := csum.sums_summed crc ino generation h c.1 c.2
  get_put _ h := get_summed_sum h _
  put_put _ c h := summed_summed h c.1 c.2
  sameOutside_put _ c h := sameOutside_summed h c.1 c.2

theorem inode_agree {raw : Bytes} (hlen : csum.enabled = true → inodeBaseSize ≤ raw.length) :
    Agree (csum.verifyInode crc ino generation) (csum.patchInodeChecksum crc ino generation)
      (fun i => Seal.cell 0x7C 2 i ∨ (checksumHiFits raw = true ∧ Seal.cell 0x82 2 i)) raw := by
  refine (csum.inodeSeal crc ino generation).agree_of_enabled (fun _ => Iff.rfl) hlen ?_ ?_
    (fun _ => rfl) ?_
  · intro b hskip
    rw [patchInodeChecksum, computeInodeChecksum, if_pos hskip]
  · intro b henabled hb
    obtain ⟨lo, hi, hcompute, hpatch⟩ := csum.patchInodeChecksum_eq crc ino generation b henabled hb
    rw [csum.computeInodeChecksum_eq crc ino generation b henabled hb] at hcompute
    obtain ⟨rfl, rfl⟩ := Prod.mk.inj (Option.some.inj hcompute)
    exact hpatch
  · intro b henabled hb hstored
    obtain ⟨hlo, hhi⟩ := Prod.mk.inj hstored
    rw [csum.computeInodeChecksum_eq crc ino generation b henabled hb]
    exact Bool.and_eq_true_iff.mpr ⟨beq_iff_eq.mpr hlo.symm, beq_iff_eq.mpr hhi.symm⟩

section Index

variable (countOffset : Nat)

def dxLimit (b : Bytes) : Nat := (u16leAt b countOffset).toNat

def dxCount (b : Bytes) : Nat := (u16leAt b (countOffset + 2)).toNat

/-- The count and limit leave room for a tail behind `limit` entries. -/
def DxRoom (b : Bytes) : Prop :=
  countOffset + 4 ≤ b.length ∧ dxCount countOffset b ≤ dxLimit countOffset b ∧
    countOffset + dxLimit countOffset b * 8 + 8 ≤ b.length

def dxTailSum (b : Bytes) : UInt32 :=
  let tail := countOffset + dxLimit countOffset b * 8
  let c := crc (crc csum.seed (u32le ino)) (u32le generation)
  let c := crc c (slice b 0 (countOffset + dxCount countOffset b * 8))
  crc (crc c (slice b tail 4)) [0, 0, 0, 0]

theorem patchDxTail_eq {b : Bytes} (henabled : csum.enabled = true) (h : DxRoom countOffset b) :
    csum.patchDxTail crc ino generation b countOffset =
      some (copyAt b (countOffset + dxLimit countOffset b * 8 + 4)
        (u32le (csum.dxTailSum crc ino generation countOffset b))) := by
  obtain ⟨hlen, hcount, htail⟩ := h
  have hskip : ¬ (!csum.enabled ∨ b.length < countOffset + 4) := by
    rw [henabled]
    exact not_or.mpr ⟨Bool.false_ne_true, Nat.not_lt.mpr hlen⟩
  rw [patchDxTail, if_neg hskip]
  exact if_neg (not_or.mpr ⟨Nat.not_lt.mpr hcount, Nat.not_lt.mpr htail⟩)

theorem patchDxTail_isSome_iff {b : Bytes} :
    (csum.patchDxTail crc ino generation b countOffset).isSome = true ↔
    csum.enabled = true ∧ DxRoom countOffset b := by
  constructor
  · intro h
    rw [patchDxTail] at h
    split at h
    · cases h
    · rename_i hskip
      dsimp only at h
      split at h
      · cases h
      · rename_i hroom
        obtain ⟨hon, hlen⟩ := not_or.mp hskip
        obtain ⟨hcount, htail⟩ := not_or.mp hroom
        exact ⟨by simpa using hon, Nat.le_of_not_lt hlen, Nat.le_of_not_lt hcount,
          Nat.le_of_not_lt htail⟩
  · rintro ⟨henabled, h⟩
    rw [csum.patchDxTail_eq crc ino generation countOffset henabled h]
    rfl

theorem dx_stable {b b' : Bytes} (hb : DxRoom countOffset b)
    (h : SameOutside (Seal.cell (countOffset + dxLimit countOffset b * 8 + 4) 4) b b') :
    DxRoom countOffset b' ∧
      countOffset + dxLimit countOffset b' * 8 + 4 = countOffset + dxLimit countOffset b * 8 + 4 ∧
      csum.dxTailSum crc ino generation countOffset b' = csum.dxTailSum crc ino generation
        countOffset b := by
  obtain ⟨hlen, hcount, htail⟩ := hb
  have hlimit : dxLimit countOffset b' = dxLimit countOffset b := by
    rw [dxLimit, dxLimit, u16leAt, u16leAt, h.slice_eq (fun i _ hi hin => by have := hin.1; omega)]
  have hused : dxCount countOffset b' = dxCount countOffset b := by
    rw [dxCount, dxCount, u16leAt, u16leAt, h.slice_eq (fun i _ hi hin => by have := hin.1; omega)]
  have hentries : slice b' 0 (countOffset + dxCount countOffset b * 8) =
      slice b 0 (countOffset + dxCount countOffset b * 8) :=
    h.slice_eq (fun i _ hi hin => by have := hin.1; omega)
  have hreserved : slice b' (countOffset + dxLimit countOffset b * 8) 4 =
      slice b (countOffset + dxLimit countOffset b * 8) 4 :=
    h.slice_eq (fun i _ hi hin => by have := hin.1; omega)
  refine ⟨⟨?_, ?_, ?_⟩, by rw [hlimit], ?_⟩
  · rw [h.1]
    exact hlen
  · rw [hused, hlimit]
    exact hcount
  · rw [h.1, hlimit]
    exact htail
  · rw [dxTailSum, dxTailSum, hlimit, hused, hentries, hreserved]

def dxSeal : Seal UInt32 :=
  .ofCell 4 u32le u32leAt length_u32le u32leAt_copyAt (DxRoom countOffset)
    (fun b => countOffset + dxLimit countOffset b * 8 + 4)
      (csum.dxTailSum crc ino generation countOffset)
    (fun _ hb => hb.2.2) (fun _ _ hb h => csum.dx_stable crc ino generation countOffset hb h)

theorem dx_agree {block patched : Bytes}
    (h : csum.patchDxTail crc ino generation block countOffset = some patched) :
    csum.verifyDxTail crc ino generation patched countOffset = some true ∧
      csum.patchDxTail crc ino generation patched countOffset = some patched ∧
      SameOutside (Seal.cell (countOffset + dxLimit countOffset block * 8 + 4) 4) block
        patched := by
  obtain ⟨henabled, hroom⟩ := (csum.patchDxTail_isSome_iff crc ino generation countOffset).mp
    (Option.isSome_iff_exists.mpr ⟨patched, h⟩)
  let s := csum.dxSeal crc ino generation countOffset
  have hpatch : ∀ b, DxRoom countOffset b →
      csum.patchDxTail crc ino generation b countOffset = some (s.patch b) :=
    fun b hb => csum.patchDxTail_eq crc ino generation countOffset henabled hb
  obtain rfl : s.patch block = patched := Option.some.inj ((hpatch block hroom).symm.trans h)
  have hagain : csum.patchDxTail crc ino generation (s.patch block) countOffset =
      some (s.patch block) := by
    have hput : DxRoom countOffset (s.patch block) := s.room_put block _ hroom
    rw [hpatch _ hput, s.patch_patch hroom]
  refine ⟨?_, hagain, s.sameOutside_patch hroom⟩
  rw [verifyDxTail, hagain]
  exact congrArg some (beq_self_eq_true _)

end Index

end Blocks

theorem crc32cFrom_cons (b : UInt8) (rest : Bytes) (c : Nat) :
    crc32cFrom (b :: rest) c = crc32cFrom rest (crc32cByte c b) := by
  cases c <;> rfl

theorem crc32cFrom_append (a b : Bytes) (c : Nat) :
    crc32cFrom (a ++ b) c = crc32cFrom b (crc32cFrom a c) := by
  induction a generalizing c with
  | nil => cases c <;> rfl
  | cons x rest ih => rw [List.cons_append, crc32cFrom_cons, crc32cFrom_cons, ih]

theorem crc32cBit_lt {c : Nat} (h : c < 2 ^ 32) : crc32cBit c < 2 ^ 32 := by
  have hhalf : c / 2 < 2 ^ 32 := Nat.lt_of_le_of_lt (Nat.div_le_self c 2) h
  unfold crc32cBit
  split
  · exact Nat.xor_lt_two_pow hhalf (by decide)
  · exact hhalf

theorem crc32cByte_lt {c : Nat} (h : c < 2 ^ 32) (b : UInt8) : crc32cByte c b < 2 ^ 32 := by
  have hbyte : b.toNat < 2 ^ 32 := Nat.lt_of_lt_of_le b.toNat_lt (by decide)
  have hstart : c ^^^ b.toNat < 2 ^ 32 := Nat.xor_lt_two_pow h hbyte
  have hrun : ∀ n x, x < 2 ^ 32 → Nat.iterate crc32cBit n x < 2 ^ 32 := by
    intro n
    induction n with
    | zero => exact fun _ hx => hx
    | succ n ih => exact fun x hx => ih _ (crc32cBit_lt hx)
  exact hrun 8 _ hstart

theorem crc32cFrom_lt (data : Bytes) {c : Nat} (h : c < 2 ^ 32) : crc32cFrom data c < 2 ^ 32 := by
  induction data generalizing c with
  | nil => cases c <;> exact h
  | cons b rest ih =>
    rw [crc32cFrom_cons]
    exact ih (crc32cByte_lt h b)

theorem linuxCrc32c_chains : Chains linuxCrc32c := by
  intro s a b
  have hlt := crc32cFrom_lt a s.toNat_lt
  rw [linuxCrc32c, linuxCrc32c, linuxCrc32c, UInt32.toNat_ofNat', Nat.mod_eq_of_lt hlt,
    crc32cFrom_append]

section Descriptors

variable (crc : Crc) (csum : Checksummer)

/-- The low half of the sum of a descriptor of `n` bytes, in the pieces that are summed. -/
def descriptorSum (group : UInt32) (n : Nat) (raw : Bytes) : UInt16 :=
  (crc (crc (crc (crc csum.seed (u32le group)) (slice raw 0 0x1E)) [0, 0])
    (slice raw 0x20 (n - 0x20))).toUInt16

def descriptorSeal (group : UInt32) (n : Nat) : Seal UInt16 :=
  .ofCell 2 u16le u16leAt length_u16le u16leAt_copyAt (fun b => 0x20 ≤ n ∧ n ≤ b.length)
    (fun _ => 0x1E) (csum.descriptorSum crc group n) (fun b hb => by omega) (fun b b' hb h => by
      have hfront : slice b' 0 0x1E = slice b 0 0x1E :=
        h.slice_eq (fun i _ hi hin => by have := hin.1; omega)
      have hback : slice b' 0x20 (n - 0x20) = slice b 0x20 (n - 0x20) :=
        h.slice_eq (fun i hi _ hin => by have := hin.2; omega)
      refine ⟨by rw [h.1]; exact hb, rfl, ?_⟩
      rw [descriptorSum, descriptorSum, hfront, hback])

theorem groupDescCsum_eq {sb : Superblock} (hon : sb.featureRoCompat &&& roCompatMetadataCsum ≠ 0)
    (group : UInt32) {raw : Bytes} (hroom : 0x20 ≤ sb.descSize ∧ sb.descSize ≤ raw.length) :
    groupDescCsum crc sb csum group.toNat raw =
      some (csum.descriptorSum crc group sb.descSize raw) := by
  rw [groupDescCsum, if_neg (by omega), if_pos hon, UInt32.ofNat_toNat]
  rfl

variable {crc}

theorem Chains.verifyBgd_eq (hchain : Chains crc) (henabled : csum.enabled = true)
    (group : UInt32) {n : Nat} {raw : Bytes} (hroom : 0x20 ≤ n ∧ n ≤ raw.length) :
    csum.verifyBgd crc group raw n = (csum.descriptorSum crc group n raw == u16leAt raw 0x1E) := by
  have hzeroed : copyAt (raw.take n) 0x1E [0, 0] = slice raw 0 0x1E ++ [0, 0] ++ slice raw 0x20
      (n - 0x20) := by
    have hfront : (raw.take n).take 0x1E = raw.take 0x1E := by
      rw [List.take_take, Nat.min_eq_left (by omega)]
    have hback : (raw.take n).drop 0x20 = (raw.drop 0x20).take (n - 0x20) := List.drop_take
    rw [copyAt, hfront]
    exact congrArg _ hback
  have hskip : ¬ (raw.length < n ∨ n < 0x20) := by omega
  rw [verifyBgd, henabled, Bool.not_true, if_neg Bool.false_ne_true, if_neg hskip]
  dsimp only
  rw [crcWithPrefix, hzeroed, ← hchain, ← hchain, descriptorSum]

theorem Chains.descriptor_agree (hchain : Chains crc) {sb : Superblock}
    (hon : sb.featureRoCompat &&& roCompatMetadataCsum ≠ 0) (group : UInt32) {raw : Bytes}
    (hroom : 0x20 ≤ sb.descSize ∧ sb.descSize ≤ raw.length) :
    ∃ c, groupDescCsum crc sb csum group.toNat raw = some c ∧
      csum.verifyBgd crc group (copyAt raw 0x1E (u16le c)) sb.descSize = true ∧
      groupDescCsum crc sb csum group.toNat (copyAt raw 0x1E (u16le c)) = some c ∧
      SameOutside (Seal.cell 0x1E 2) raw (copyAt raw 0x1E (u16le c)) := by
  let s := csum.descriptorSeal crc group sb.descSize
  have hput : s.room (s.patch raw) := s.room_put raw _ hroom
  have hsum : s.sum (s.patch raw) = s.sum raw := s.sum_put raw _ hroom
  refine ⟨s.sum raw, csum.groupDescCsum_eq crc hon group hroom, ?_, ?_, s.sameOutside_patch hroom⟩
  · cases henabled : csum.enabled with
    | false =>
      rw [verifyBgd, henabled]
      rfl
    | true =>
      have hstored : s.sum (s.patch raw) = s.get (s.patch raw) := (s.verifies_patch hroom).symm
      exact (hchain.verifyBgd_eq csum henabled group hput).trans (beq_iff_eq.mpr hstored)
  · exact (csum.groupDescCsum_eq crc hon group hput).trans (congrArg some hsum)

end Descriptors

/-- The writer and the checker of every checksum agree: of the blocks of a directory and its index,
of extent nodes, of attribute blocks, of inodes and of group descriptors. -/
theorem checksums_agree (crc : Crc) (hchain : Chains crc) (csum : Checksummer)
    (ino generation : UInt32) : (∀ block : Bytes, (csum.enabled = true → 12 ≤ block.length) →
      Agree (csum.verifyDirEntryTail crc ino generation) (csum.patchDirEntryTail crc ino generation)
        (fun i => block.length - 12 ≤ i) block) ∧
    (∀ (block : Bytes) (countOffset : Nat),
      ((csum.patchDxTail crc ino generation block countOffset).isSome = true ↔
        csum.enabled = true ∧ DxRoom countOffset block) ∧
      ∀ patched, csum.patchDxTail crc ino generation block countOffset = some patched →
        csum.verifyDxTail crc ino generation patched countOffset = some true ∧
          csum.patchDxTail crc ino generation patched countOffset = some patched ∧
          SameOutside (Seal.cell (countOffset + dxLimit countOffset block * 8 + 4) 4)
            block patched) ∧
    (∀ block : Bytes, (csum.enabled = true → 4 ≤ block.length) →
      Agree (csum.verifyExtentTail crc ino generation) (csum.patchExtentTail crc ino generation)
        (Seal.cell (block.length - 4) 4) block) ∧
    (∀ (blockNr : UInt64) (block : Bytes), (csum.enabled = true → 0x20 ≤ block.length) →
      Agree (csum.verifyXattrBlock crc blockNr) (csum.patchXattrBlock crc blockNr)
        (Seal.cell 0x10 4) block) ∧
    (∀ raw : Bytes, (csum.enabled = true → inodeBaseSize ≤ raw.length) →
      Agree (csum.verifyInode crc ino generation) (csum.patchInodeChecksum crc ino generation)
        (fun i => Seal.cell 0x7C 2 i ∨ (checksumHiFits raw = true ∧ Seal.cell 0x82 2 i)) raw) ∧
    (∀ (sb : Superblock) (group : UInt32) (raw : Bytes),
    sb.featureRoCompat &&& roCompatMetadataCsum ≠ 0 →
      0x20 ≤ sb.descSize ∧ sb.descSize ≤ raw.length →
      ∃ c, groupDescCsum crc sb csum group.toNat raw = some c ∧
        csum.verifyBgd crc group (copyAt raw 0x1E (u16le c)) sb.descSize = true ∧
        groupDescCsum crc sb csum group.toNat (copyAt raw 0x1E (u16le c)) = some c ∧
        SameOutside (Seal.cell 0x1E 2) raw (copyAt raw 0x1E (u16le c))) := by
  refine ⟨?_, ?_, ?_, ?_, ?_, ?_⟩
  · exact fun block hlen => csum.dirEntry_agree crc ino generation hlen
  · exact fun block countOffset => ⟨csum.patchDxTail_isSome_iff crc ino generation countOffset,
      fun patched h => csum.dx_agree crc ino generation countOffset h⟩
  · exact fun block hlen => csum.extent_agree crc ino generation hlen
  · exact fun blockNr block hlen => csum.xattr_agree crc blockNr hlen
  · exact fun raw hlen => csum.inode_agree crc ino generation hlen
  · exact fun sb group raw hon hroom => hchain.descriptor_agree csum hon group hroom

theorem checksums_agree_crc32c :
    (⟨0xFFFFFFFF, true⟩ : Checksummer).verifyDirEntryTail linuxCrc32c 2 0
        ((⟨0xFFFFFFFF, true⟩ : Checksummer).patchDirEntryTail linuxCrc32c 2 0
          (List.replicate 1024 0)) = true ∧
      (⟨0xFFFFFFFF, true⟩ : Checksummer).verifyInode linuxCrc32c 12 7
        ((⟨0xFFFFFFFF, true⟩ : Checksummer).patchInodeChecksum linuxCrc32c 12 7
          (List.replicate 128 0)) = true := by
  have h := checksums_agree linuxCrc32c linuxCrc32c_chains ⟨0xFFFFFFFF, true⟩ 2 0
  have hinode := checksums_agree linuxCrc32c linuxCrc32c_chains ⟨0xFFFFFFFF, true⟩ 12 7
  constructor
  · exact (h.1 _ (fun _ => by rw [List.length_replicate]; decide)).verifies
  · exact (hinode.2.2.2.2.1 _ (fun _ => by rw [List.length_replicate]; decide)).verifies

end FsExt4.Checksummer
