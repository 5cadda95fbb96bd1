import FsExt4.BlockBuffer
import Mathlib.Logic.Function.Basic

namespace FsExt4

open Lib Jbd2 Alloc

namespace BlockBuffer

def view (buf : BlockBuffer) (img : Image) (bs : Nat) (b : Nat) : Bytes :=
  (buf.dirty.get? b).getD (img.block bs b)

def Staged (buf : BlockBuffer) (b : Nat) : Prop := (buf.dirty.get? b).isSome

def Bounded (buf : BlockBuffer) : Prop := ∀ b, buf.Staged b → b < 2 ^ 64

@[simp] theorem view_new (img : Image) (bs : Nat) : new.view img bs = img.block bs := rfl

theorem view_put (buf : BlockBuffer) (img : Image) (bs block : Nat) (bytes : Bytes) :
    (buf.put block bytes).view img bs = Function.update (buf.view img bs) block bytes := by
  funext b
  simp only [view, put, SortedMap.get?_insert, Function.update_apply]
  split <;> rfl

theorem staged_put (buf : BlockBuffer) (block : Nat) (bytes : Bytes) (b : Nat) :
    (buf.put block bytes).Staged b ↔ b = block ∨ buf.Staged b := by
  simp only [Staged, put, SortedMap.get?_insert]
  split <;> simp [*]

@[simp] theorem uninitCleared_put (buf : BlockBuffer) (block : Nat) (bytes : Bytes) :
    (buf.put block bytes).uninitCleared = buf.uninitCleared := rfl

end BlockBuffer

theorem Filesystem.reader_ok {fs : Filesystem} {d : Disk} {block : Nat} {bytes : Bytes}
    (h : fs.reader d block = .ok bytes) : bytes = d.img.block fs.sb.blockSize block := by
  unfold Filesystem.reader Filesystem.readBlock at h
  split at h
  · cases h
  · by_cases hfit : block * fs.sb.blockSize + fs.sb.blockSize ≤ d.size
    · rw [exec_readAt d _ _ hfit] at h
      exact (Except.ok.inj h).symm
    · rw [exec_readAt_past d _ _ hfit] at h
      cases h

theorem Filesystem.reader_of_fits (fs : Filesystem) (d : Disk) (block : Nat)
    (hfit : (block + 1) * fs.sb.blockSize ≤ d.size) (h64 : d.size < 2 ^ 64) :
    fs.reader d block = .ok (d.img.block fs.sb.blockSize block) := by
  rw [Nat.succ_mul] at hfit
  have hpos := blockSize_ge fs.sb
  unfold Filesystem.reader Filesystem.readBlock
  rw [if_neg (by omega), exec_readAt d _ _ hfit]
  rfl

section Edits

variable {fs : Filesystem} {d : Disk} {buf buf' : BlockBuffer} {block : Nat} {bytes : Bytes}

theorem BlockBuffer.bufferedBlock_ok (h : buf.bufferedBlock (fs.reader d) block = .ok bytes) :
    bytes = buf.view d.img fs.sb.blockSize block := by
  unfold BlockBuffer.bufferedBlock at h
  unfold BlockBuffer.view
  cases hg : buf.dirty.get? block with
  | some staged =>
    rw [hg] at h
    exact (Except.ok.inj h).symm
  | none =>
    rw [hg] at h
    exact Filesystem.reader_ok h

theorem BlockBuffer.getMut_ok (h : buf.getMut (fs.reader d) block = .ok (bytes, buf')) :
    bytes = buf.view d.img fs.sb.blockSize block ∧
      buf'.view d.img fs.sb.blockSize = buf.view d.img fs.sb.blockSize ∧
      buf'.uninitCleared = buf.uninitCleared ∧ (∀ b, buf'.Staged b ↔ b = block ∨ buf.Staged b) := by
  unfold BlockBuffer.getMut at h
  cases hg : buf.dirty.get? block with
  | some bytes₀ =>
    rw [hg] at h
    obtain ⟨rfl, rfl⟩ := Prod.mk.inj (Except.ok.inj h)
    refine ⟨by simp [BlockBuffer.view, hg], rfl, rfl, ?_⟩
    intro b
    constructor
    · exact Or.inr
    · rintro (rfl | hb)
      · simp [BlockBuffer.Staged, hg]
      · exact hb
  | none =>
    rw [hg] at h
    cases hr : fs.reader d block with
    | error e =>
      rw [hr] at h
      cases h
    | ok bytes₀ =>
      rw [hr] at h
      obtain ⟨rfl, rfl⟩ := Prod.mk.inj (Except.ok.inj h)
      have hv : buf.view d.img fs.sb.blockSize block = bytes₀ := by
        rw [Filesystem.reader_ok hr]
        simp [BlockBuffer.view, hg]
      refine ⟨hv.symm, ?_, rfl, BlockBuffer.staged_put buf block bytes₀⟩
      rw [BlockBuffer.view_put, ← hv, Function.update_eq_self]

theorem Filesystem.lt_of_reader (h : fs.reader d block = .ok bytes) : block < 2 ^ 64 := by
  unfold Filesystem.reader Filesystem.readBlock at h
  split at h
  · cases h
  · rename_i hlt
    have hge := blockSize_ge fs.sb
    have hmul := Nat.mul_le_mul_left block hge
    omega

theorem BlockBuffer.getMut_bounded (h : buf.getMut (fs.reader d) block = .ok (bytes, buf'))
    (hb : buf.Bounded) : buf'.Bounded := by
  obtain ⟨-, -, -, hstaged⟩ := BlockBuffer.getMut_ok h
  intro b hs
  obtain rfl | hs := (hstaged b).mp hs
  · unfold BlockBuffer.getMut at h
    cases hg : buf.dirty.get? b with
    | some bytes₀ =>
      apply hb
      rw [BlockBuffer.Staged, hg]
      rfl
    | none =>
      rw [hg] at h
      obtain ⟨bytes₀, hr, -⟩ := Result.bind_eq_ok h
      exact Filesystem.lt_of_reader hr
  · exact hb b hs

theorem BlockBuffer.edit_bounded {f : Bytes → Bytes} (h : buf.edit (fs.reader d) block f = .ok buf')
    (hb : buf.Bounded) : buf'.Bounded := by
  obtain ⟨⟨bytes, buf₁⟩, hg, h1⟩ := Result.bind_eq_ok h
  obtain rfl := Except.ok.inj h1
  obtain ⟨-, -, -, hstaged⟩ := BlockBuffer.getMut_ok hg
  intro b hs
  obtain rfl | hs := (BlockBuffer.staged_put _ _ _ _).mp hs
  · exact BlockBuffer.getMut_bounded hg hb b ((hstaged b).mpr (Or.inl rfl))
  · exact BlockBuffer.getMut_bounded hg hb b hs

theorem BlockBuffer.edit_ok {f : Bytes → Bytes} (h : buf.edit (fs.reader d) block f = .ok buf') :
    buf'.view d.img fs.sb.blockSize =
        Function.update (buf.view d.img fs.sb.blockSize) block
          (f (buf.view d.img fs.sb.blockSize block)) ∧
      buf'.uninitCleared = buf.uninitCleared ∧ (∀ b, buf'.Staged b ↔ b = block ∨ buf.Staged b) := by
  unfold BlockBuffer.edit at h
  cases hg : buf.getMut (fs.reader d) block with
  | error e =>
    rw [hg] at h
    cases h
  | ok r =>
    obtain ⟨bytes, buf₁⟩ := r
    rw [hg] at h
    obtain ⟨hbytes, hview, hcleared, hstaged⟩ := BlockBuffer.getMut_ok hg
    have hbuf : buf₁.put block (f bytes) = buf' := Except.ok.inj h
    subst hbuf
    refine ⟨?_, hcleared, ?_⟩
    · rw [BlockBuffer.view_put, hview, ← hbytes]
    · intro b
      rw [BlockBuffer.staged_put, hstaged]
      constructor
      · rintro (h | h | h)
        · exact Or.inl h
        · exact Or.inl h
        · exact Or.inr h
      · rintro (h | h)
        · exact Or.inl h
        · exact Or.inr (Or.inr h)

end Edits

/-- A descriptor edit that leaves the group's pointers and flags and every other descriptor of the
block alone. -/
structure KeepsFixed (off ds : Nat) (b b' : Bytes) : Prop where
  length : b'.length = b.length
  before : AgreeOn b' b 0 (off + 0x0C)
  flags : AgreeOn b' b (off + 0x12) (off + 0x14)
  wide : 64 ≤ ds → AgreeOn b' b (off + 0x20) (off + 0x2C)
  after : AgreeOn b' b (off + ds) b.length

namespace KeepsFixed

variable {off ds : Nat} {b b' b'' : Bytes}

theorem refl (off ds : Nat) (b : Bytes) : KeepsFixed off ds b b :=
  ⟨rfl, AgreeOn.refl _ _ _, AgreeOn.refl _ _ _, fun _ => AgreeOn.refl _ _ _, AgreeOn.refl _ _ _⟩

theorem trans (h : KeepsFixed off ds b b') (h' : KeepsFixed off ds b' b'') :
    KeepsFixed off ds b b'' where
  length := h'.length.trans h.length
  before := h'.before.trans h.before
  flags := h'.flags.trans h.flags
  wide := fun hw => (h'.wide hw).trans (h.wide hw)
  after := by
    have ha := h'.after
    rw [h.length] at ha
    exact ha.trans h.after

theorem store (p : Nat) (v : UInt16) (hfit : off + ds ≤ b.length)
    (hp : p + 2 ≤ ds) (hlow : 0x0C ≤ p) (hflags : p + 2 ≤ 0x12 ∨ 0x14 ≤ p)
    (hwide : p + 2 ≤ 0x20 ∨ 0x2C ≤ p) : KeepsFixed off ds b (copyAt b (off + p) (u16le v)) where
  length := length_copyAt _ _ _ (by rw [length_u16le]; omega)
  before := agreeOn_copyAt _ _ _ _ _ (by omega) (Or.inl (by omega))
  flags := agreeOn_copyAt _ _ _ _ _ (by omega) (by rw [length_u16le]; omega)
  wide := fun _ => agreeOn_copyAt _ _ _ _ _ (by omega) (by rw [length_u16le]; omega)
  after := agreeOn_copyAt _ _ _ _ _ (by omega) (Or.inr (by rw [length_u16le]; omega))

theorem fits (h : KeepsFixed off ds b b') (hfit : off + ds ≤ b.length) : off + ds ≤ b'.length := by
  rw [h.length]
  exact hfit

end KeepsFixed

section DescriptorEdits

variable {off : Nat} {b : Bytes} (crc : Crc) (m : Mount)

theorem Mount.restamp_keepsFixed (gi : Nat) (hds : 32 ≤ m.fs.sb.descSize)
    (hfit : off + m.fs.sb.descSize ≤ b.length) :
    KeepsFixed off m.fs.sb.descSize b (m.restampGroupDescCsum crc b off gi) := by
  unfold Mount.restampGroupDescCsum
  split
  · exact KeepsFixed.store 0x1E _ hfit (by omega) (by omega) (by omega) (by omega)
  · exact KeepsFixed.refl _ _ _

theorem patchCounterU32_keepsFixed {ds : Nat} (lo hi : Nat) (delta : Int) (hds : 32 ≤ ds)
    (hfit : off + ds ≤ b.length) (hlo : lo = 0x0C ∨ lo = 0x0E ∨ lo = 0x10)
    (hhi : hi = 0x2C ∨ hi = 0x2E ∨ hi = 0x30) :
    KeepsFixed off ds b
      (patchCounterU32 b (off + lo) (if 64 ≤ ds then some (off + hi) else none) delta) := by
  unfold patchCounterU32
  by_cases hw : 64 ≤ ds
  · simp only [if_pos hw]
    have h1 : KeepsFixed off ds b (copyAt b (off + lo) (u16le
        (UInt16.ofNat ((max 0 (min ((((u16leAt b (off + hi)).toNat * 2 ^ 16 +
          (u16leAt b (off + lo)).toNat : Nat) : Int) + delta) (2 ^ 32 - 1))).toNat % 2 ^ 16)))) :=
      KeepsFixed.store lo _ hfit (by omega) (by omega) (by omega) (by omega)
    exact h1.trans (KeepsFixed.store hi _ (h1.fits hfit) (by omega) (by omega) (by omega)
      (by omega))
  · simp only [if_neg hw]
    exact KeepsFixed.store lo _ hfit (by omega) (by omega) (by omega) (by omega)

theorem patchBgdCounterFields_keepsFixed {ds : Nat} (x y z : Int) (hds : 32 ≤ ds)
    (hfit : off + ds ≤ b.length) : KeepsFixed off ds b (patchBgdCounterFields b off ds x y z) := by
  have h1 := patchCounterU32_keepsFixed 0x0C 0x2C x hds hfit (by decide) (by decide)
  have h2 := patchCounterU32_keepsFixed 0x0E 0x2E y hds (h1.fits hfit) (by decide)
    (by decide)
  have h3 := patchCounterU32_keepsFixed 0x10 0x30 z hds (h2.fits (h1.fits hfit))
    (by decide) (by decide)
  exact (h1.trans h2).trans h3

theorem Mount.patchBgdCounters_keepsFixed (gi : Nat) (x y z : Int) (hds : 32 ≤ m.fs.sb.descSize)
    (hfit : off + m.fs.sb.descSize ≤ b.length) :
    KeepsFixed off m.fs.sb.descSize b
      (m.restampGroupDescCsum crc (patchBgdCounterFields b off m.fs.sb.descSize x y z) off gi) := by
  have h := patchBgdCounterFields_keepsFixed x y z hds hfit
  exact h.trans (m.restamp_keepsFixed crc gi hds (h.fits hfit))

theorem Mount.stampBitmapCsum_keepsFixed (kind : Mount.BitmapKind) (gi : Nat) (c : UInt32)
    (hds : 32 ≤ m.fs.sb.descSize) (hfit : off + m.fs.sb.descSize ≤ b.length) :
    KeepsFixed off m.fs.sb.descSize b
      (m.stampBitmapCsum crc b off gi kind.csumLo kind.csumHi c) := by
  have h1 : KeepsFixed off m.fs.sb.descSize b
      (copyAt b (off + kind.csumLo) (u16le c.toUInt16)) := by
    cases kind
    · exact KeepsFixed.store 0x18 _ hfit (by omega) (by omega) (by omega) (by omega)
    · exact KeepsFixed.store 0x1A _ hfit (by omega) (by omega) (by omega) (by omega)
  unfold Mount.stampBitmapCsum
  dsimp only
  split
  · have h2 : KeepsFixed off m.fs.sb.descSize (copyAt b (off + kind.csumLo) (u16le c.toUInt16))
        (copyAt (copyAt b (off + kind.csumLo) (u16le c.toUInt16)) (off + kind.csumHi)
          (u16le (c >>> 16).toUInt16)) := by
      cases kind
      · exact KeepsFixed.store 0x38 _ (h1.fits hfit) (by omega) (by omega) (by omega) (by omega)
      · exact KeepsFixed.store 0x3A _ (h1.fits hfit) (by omega) (by omega) (by omega) (by omega)
    have h12 := h1.trans h2
    exact h12.trans (m.restamp_keepsFixed crc gi hds (h12.fits hfit))
  · exact h1.trans (m.restamp_keepsFixed crc gi hds (h1.fits hfit))

theorem Mount.lowerItableUnused_keepsFixed (gi unusedMax : Nat) (hds : 32 ≤ m.fs.sb.descSize)
    (hfit : off + m.fs.sb.descSize ≤ b.length) :
    KeepsFixed off m.fs.sb.descSize b (m.lowerItableUnused crc b off gi unusedMax) := by
  unfold Mount.lowerItableUnused
  dsimp only
  split
  · have h1 : KeepsFixed off m.fs.sb.descSize b
        (copyAt b (off + 0x1C) (u16le (UInt16.ofNat (unusedMax % 2 ^ 16)))) :=
      KeepsFixed.store 0x1C _ hfit (by omega) (by omega) (by omega) (by omega)
    split
    · rename_i hw
      have hw' : 0x40 ≤ m.fs.sb.descSize := of_decide_eq_true hw
      have h2 := h1.trans (KeepsFixed.store 0x32 (UInt16.ofNat (unusedMax / 2 ^ 16)) (h1.fits hfit)
        (by omega) (by omega) (by omega) (by omega))
      exact h2.trans (m.restamp_keepsFixed crc gi hds (h2.fits hfit))
    · exact h1.trans (m.restamp_keepsFixed crc gi hds (h1.fits hfit))
  · exact KeepsFixed.refl _ _ _

end DescriptorEdits

namespace Mount

abbrev descAt (m : Mount) (gi : Nat) : Nat × Nat := m.fs.sb.descriptorLocation gi

def WholeBlocks (m : Mount) (img : Image) (buf : BlockBuffer) : Prop :=
  ∀ b, (buf.view img m.fs.sb.blockSize b).length = m.fs.sb.blockSize

def flagsIn (m : Mount) (v : Nat → Bytes) (gi : Nat) : UInt16 :=
  u16leAt (v (m.descAt gi).1) ((m.descAt gi).2 + 0x12)

/-- Only the descriptor of `gi` was edited, and none of its pointers or flags. -/
structure DescEdit (m : Mount) (img : Image) (gi : Nat) (buf buf' : BlockBuffer) : Prop where
  desc : KeepsFixed (m.descAt gi).2 m.fs.sb.descSize
    (buf.view img m.fs.sb.blockSize (m.descAt gi).1)
    (buf'.view img m.fs.sb.blockSize (m.descAt gi).1)
  other : ∀ b, b ≠ (m.descAt gi).1 →
    buf'.view img m.fs.sb.blockSize b = buf.view img m.fs.sb.blockSize b
  cleared : buf'.uninitCleared = buf.uninitCleared
  staged : ∀ b, buf.Staged b → buf'.Staged b
  bounded : buf.Bounded → buf'.Bounded

namespace DescEdit

variable {m : Mount} {img : Image} {gi : Nat} {buf buf' buf'' : BlockBuffer}

theorem refl (m : Mount) (img : Image) (gi : Nat) (buf : BlockBuffer) : DescEdit m img gi buf buf :=
  ⟨KeepsFixed.refl _ _ _, fun _ _ => rfl, rfl, fun _ h => h, id⟩

theorem trans (h : DescEdit m img gi buf buf') (h' : DescEdit m img gi buf' buf'') :
    DescEdit m img gi buf buf'' where
  desc := h.desc.trans h'.desc
  other := fun b hb => (h'.other b hb).trans (h.other b hb)
  cleared := h'.cleared.trans h.cleared
  staged := fun b hb => h'.staged b (h.staged b hb)
  bounded := fun hb => h'.bounded (h.bounded hb)

theorem wholeBlocks (h : DescEdit m img gi buf buf') (hw : m.WholeBlocks img buf) :
    m.WholeBlocks img buf' := by
  intro b
  by_cases hb : b = (m.descAt gi).1
  · rw [hb, h.desc.length]
    exact hw _
  · rw [h.other b hb]
    exact hw b

end DescEdit

section Specs

variable {crc : Crc} {m : Mount} {d : Disk} {buf buf' : BlockBuffer} {gi : Nat}

theorem edit_descEdit {f : Bytes → Bytes}
    (h : buf.edit (m.fs.reader d) (m.descAt gi).1 f = .ok buf')
    (hf : KeepsFixed (m.descAt gi).2 m.fs.sb.descSize
      (buf.view d.img m.fs.sb.blockSize (m.descAt gi).1)
      (f (buf.view d.img m.fs.sb.blockSize (m.descAt gi).1))) : DescEdit m d.img gi buf buf' := by
  obtain ⟨hview, hcleared, hstaged⟩ := BlockBuffer.edit_ok h
  refine ⟨?_, ?_, hcleared, fun b hb => (hstaged b).mpr (Or.inr hb), BlockBuffer.edit_bounded h⟩
  · rw [hview, Function.update_self]
    exact hf
  · intro b hb
    rw [hview, Function.update_of_ne hb]

theorem bufferPatchBgdCounters_ok {x y z : Int} (hbnd : m.fs.sb.Bounds)
    (hw : m.WholeBlocks d.img buf)
    (h : m.bufferPatchBgdCounters crc (m.fs.reader d) buf gi x y z = .ok buf') :
    DescEdit m d.img gi buf buf' := by
  have hedit : buf.edit (m.fs.reader d) (m.descAt gi).1 (fun block =>
      m.restampGroupDescCsum crc
        (patchBgdCounterFields block (m.descAt gi).2 m.fs.sb.descSize x y z) (m.descAt gi).2 gi) =
      .ok buf' := h
  apply edit_descEdit hedit
  apply m.patchBgdCounters_keepsFixed crc gi x y z hbnd.descSize.1
  rw [hw]
  exact hbnd.descriptor_fits gi

theorem bufferRefreshBitmapCsum_ok {bgd : BlockGroupDescriptor} {kind : BitmapKind}
    (hbnd : m.fs.sb.Bounds) (hw : m.WholeBlocks d.img buf)
    (h : m.bufferRefreshBitmapCsum crc (m.fs.reader d) buf gi bgd kind = .ok buf') :
    DescEdit m d.img gi buf buf' := by
  unfold bufferRefreshBitmapCsum at h
  split at h
  · have hb : buf = buf' := Except.ok.inj h
    rw [hb]
    exact DescEdit.refl _ _ _ _
  · cases hg : buf.getMut (m.fs.reader d) (kind.bitmapBlock bgd) with
    | error e =>
      rw [hg] at h
      cases h
    | ok r =>
      obtain ⟨bm, buf₁⟩ := r
      rw [hg] at h
      obtain ⟨-, hview, hcleared, hstaged⟩ := BlockBuffer.getMut_ok hg
      have h1 : DescEdit m d.img gi buf buf₁ := by
        refine ⟨?_, ?_, hcleared, fun b hb => (hstaged b).mpr (Or.inr hb),
          BlockBuffer.getMut_bounded hg⟩
        · rw [hview]
          exact KeepsFixed.refl _ _ _
        · intro b _
          rw [hview]
      have hedit : buf₁.edit (m.fs.reader d) (m.descAt gi).1 (fun block =>
          m.stampBitmapCsum crc block (m.descAt gi).2 gi kind.csumLo kind.csumHi
            (crc m.csum.seed (bm.take (kind.coverage m.fs.sb)))) = .ok buf' := h
      refine h1.trans (edit_descEdit hedit ?_)
      apply m.stampBitmapCsum_keepsFixed crc kind gi _ hbnd.descSize.1
      rw [hview, hw]
      exact hbnd.descriptor_fits gi

/-- A bitmap block was edited by `f`, and beside it only the group's descriptor. -/
structure GroupEdit (m : Mount) (img : Image) (kind : BitmapKind) (gi : Nat)
    (bgd : BlockGroupDescriptor) (f : Bytes → Bytes) (buf buf' : BlockBuffer) : Prop where
  bitmap : buf'.view img m.fs.sb.blockSize (kind.bitmapBlock bgd) =
    f (buf.view img m.fs.sb.blockSize (kind.bitmapBlock bgd))
  desc : KeepsFixed (m.descAt gi).2 m.fs.sb.descSize
    (buf.view img m.fs.sb.blockSize (m.descAt gi).1)
    (buf'.view img m.fs.sb.blockSize (m.descAt gi).1)
  other : ∀ b, b ≠ (m.descAt gi).1 → b ≠ kind.bitmapBlock bgd →
    buf'.view img m.fs.sb.blockSize b = buf.view img m.fs.sb.blockSize b
  cleared : buf'.uninitCleared = buf.uninitCleared
  staged : ∀ b, buf.Staged b → buf'.Staged b
  stagedBitmap : buf'.Staged (kind.bitmapBlock bgd)
  bounded : buf.Bounded → buf'.Bounded

theorem GroupEdit.wholeBlocks {kind : BitmapKind} {bgd : BlockGroupDescriptor} {f : Bytes → Bytes}
    {img : Image} (h : GroupEdit m img kind gi bgd f buf buf') (hf : ∀ b, (f b).length = b.length)
    (hw : m.WholeBlocks img buf) : m.WholeBlocks img buf' := by
  intro b
  by_cases hd : b = (m.descAt gi).1
  · rw [hd, h.desc.length]
    exact hw _
  · by_cases hb : b = kind.bitmapBlock bgd
    · rw [hb, h.bitmap, hf]
      exact hw _
    · rw [h.other b hd hb]
      exact hw b

theorem GroupEdit.mk' (kind : BitmapKind) {bgd : BlockGroupDescriptor} {f : Bytes → Bytes}
    {buf₁ : BlockBuffer} (hne : kind.bitmapBlock bgd ≠ (m.descAt gi).1)
    (h : buf.edit (m.fs.reader d) (kind.bitmapBlock bgd) f = .ok buf₁)
    (hd : DescEdit m d.img gi buf₁ buf') : GroupEdit m d.img kind gi bgd f buf buf' := by
  obtain ⟨hview, hcleared, hstaged⟩ := BlockBuffer.edit_ok h
  refine ⟨?_, ?_, ?_, hd.cleared.trans hcleared, ?_, ?_,
    fun hb => hd.bounded (BlockBuffer.edit_bounded h hb)⟩
  · rw [hd.other _ hne, hview, Function.update_self]
  · have hdesc := hd.desc
    rwa [hview, Function.update_of_ne hne.symm] at hdesc
  · intro b h1 h2
    rw [hd.other b h1, hview, Function.update_of_ne h2]
  · intro b hb
    exact hd.staged b ((hstaged b).mpr (Or.inr hb))
  · exact hd.staged _ ((hstaged _).mpr (Or.inl rfl))

theorem edit_wholeBlocks {block : Nat} {f : Bytes → Bytes} (hf : ∀ b, (f b).length = b.length)
    (h : buf.edit (m.fs.reader d) block f = .ok buf') (hw : m.WholeBlocks d.img buf) :
    m.WholeBlocks d.img buf' := by
  obtain ⟨hview, -, -⟩ := BlockBuffer.edit_ok h
  intro b
  rw [hview]
  by_cases hb : b = block
  · rw [hb, Function.update_self, hf]
    exact hw _
  · rw [Function.update_of_ne hb]
    exact hw b

end Specs

end Mount

namespace Mount

def withoutFlag (m : Mount) (gi : Nat) (flag : UInt16) (block : Bytes) : Bytes :=
  copyAt block ((m.descAt gi).2 + 0x12)
    (u16le (u16leAt block ((m.descAt gi).2 + 0x12) &&& ~~~flag))

def clearedEntry (m : Mount) (v : Nat → Bytes) (cleared : SortedMap UInt16) (gi : Nat)
    (flag : UInt16) : UInt16 :=
  match cleared.get? gi with
  | some f => f &&& ~~~flag
  | none => m.flagsIn v gi &&& ~~~flag

/-- What clearing an uninit flag does: nothing if it is not set, else the flag goes from the
descriptor and the clear is remembered. -/
structure ClearEdit (m : Mount) (img : Image) (gi : Nat) (flag : UInt16) (was : Bool)
    (buf buf' : BlockBuffer) : Prop where
  was_eq : was = (m.flagsIn (buf.view img m.fs.sb.blockSize) gi &&& flag != 0)
  view : buf'.view img m.fs.sb.blockSize =
    if was then Function.update (buf.view img m.fs.sb.blockSize) (m.descAt gi).1
      (m.withoutFlag gi flag (buf.view img m.fs.sb.blockSize (m.descAt gi).1))
    else buf.view img m.fs.sb.blockSize
  cleared : buf'.uninitCleared =
    if was then buf.uninitCleared.insert gi
      (m.clearedEntry (buf.view img m.fs.sb.blockSize) buf.uninitCleared gi flag)
    else buf.uninitCleared
  staged : ∀ b, buf.Staged b → buf'.Staged b
  stagedDesc : was = true → buf'.Staged (m.descAt gi).1
  bounded : buf.Bounded → buf'.Bounded

theorem length_withoutFlag (m : Mount) (gi : Nat) (flag : UInt16) (block : Bytes)
    (hbnd : m.fs.sb.Bounds) (hlen : block.length = m.fs.sb.blockSize) :
    (m.withoutFlag gi flag block).length = block.length := by
  have hfit : (m.descAt gi).2 + m.fs.sb.descSize ≤ m.fs.sb.blockSize := hbnd.descriptor_fits gi
  have hds := hbnd.descSize
  apply length_copyAt
  rw [length_u16le, hlen]
  omega

section Specs

variable {crc : Crc} {m : Mount} {d : Disk} {buf buf' : BlockBuffer} {gi : Nat}

theorem clearBgdUninitFlagIfSet_ok {flag : UInt16} {was : Bool}
    (h : m.clearBgdUninitFlagIfSet (m.fs.reader d) buf gi flag = .ok (was, buf')) :
    ClearEdit m d.img gi flag was buf buf' := by
  unfold clearBgdUninitFlagIfSet at h
  cases hg : buf.getMut (m.fs.reader d) (m.descAt gi).1 with
  | error e =>
    dsimp only at h
    rw [hg] at h
    cases h
  | ok r =>
    obtain ⟨block, buf₁⟩ := r
    dsimp only at h
    rw [hg] at h
    obtain ⟨hblock, hview, hcleared, hstaged⟩ := BlockBuffer.getMut_ok hg
    have hflags : m.flagsIn (buf.view d.img m.fs.sb.blockSize) gi =
        u16leAt block ((m.descAt gi).2 + 0x12) := by
      rw [hblock]
      rfl
    by_cases hset : u16leAt block ((m.descAt gi).2 + 0x12) &&& flag = 0
    · have hr : (false, buf₁) = (was, buf') := by
        have h' : (if u16leAt block ((m.descAt gi).2 + 0x12) &&& flag = 0 then
            (Except.ok (false, buf₁) : Result (Bool × BlockBuffer)) else _) = .ok (was, buf') := h
        rw [if_pos hset] at h'
        exact Except.ok.inj h'
      obtain ⟨rfl, rfl⟩ := Prod.mk.inj hr
      refine ⟨?_, hview, hcleared, fun b hb => (hstaged b).mpr (Or.inr hb), nofun,
        BlockBuffer.getMut_bounded hg⟩
      rw [hflags, hset]
      rfl
    · have hr : (true, ({ buf₁.put (m.descAt gi).1 (m.withoutFlag gi flag block) with
          uninitCleared := buf₁.uninitCleared.insert gi
            (m.clearedEntry (buf.view d.img m.fs.sb.blockSize) buf₁.uninitCleared gi flag) } :
            BlockBuffer)) = (was, buf') := by
        have h' : (if u16leAt block ((m.descAt gi).2 + 0x12) &&& flag = 0 then
            (Except.ok (false, buf₁) : Result (Bool × BlockBuffer)) else _) = .ok (was, buf') := h
        rw [if_neg hset] at h'
        rw [clearedEntry, hflags]
        exact Except.ok.inj h'
      obtain ⟨rfl, rfl⟩ := Prod.mk.inj hr
      refine ⟨?_, ?_, ?_, ?_, ?_, ?_⟩
      · rw [hflags]
        exact (bne_iff_ne.mpr hset).symm
      · rw [if_pos rfl, ← hview, ← hblock.trans (congrFun hview _).symm]
        exact BlockBuffer.view_put buf₁ d.img m.fs.sb.blockSize _ _
      · rw [if_pos rfl, ← hcleared]
      · intro b hb
        exact (BlockBuffer.staged_put buf₁ _ _ b).mpr (Or.inr ((hstaged b).mpr (Or.inr hb)))
      · intro _
        exact (BlockBuffer.staged_put buf₁ _ _ _).mpr (Or.inl rfl)
      · intro hb b hs
        apply BlockBuffer.getMut_bounded hg hb
        obtain rfl | hs := (BlockBuffer.staged_put buf₁ _ _ b).mp hs
        · exact (hstaged _).mpr (Or.inl rfl)
        · exact hs

theorem ClearEdit.wholeBlocks {img : Image} {flag : UInt16} {was : Bool} (hbnd : m.fs.sb.Bounds)
    (h : ClearEdit m img gi flag was buf buf') (hw : m.WholeBlocks img buf) :
    m.WholeBlocks img buf' := by
  intro b
  rw [h.view]
  split
  · by_cases hb : b = (m.descAt gi).1
    · rw [hb, Function.update_self, m.length_withoutFlag gi flag _ hbnd (hw _)]
      exact hw _
    · rw [Function.update_of_ne hb]
      exact hw b
  · exact hw b

@[simp] theorem length_markedBlockBitmap (m : Mount) (gi bitStart len : Nat) (was : Bool)
    (bm : Bytes) : (m.markedBlockBitmap gi bitStart len was bm).length = bm.length := by
  unfold markedBlockBitmap
  dsimp only
  rw [length_setBits]
  split
  · apply length_copyAt
    rw [List.length_take]
    omega
  · rfl

@[simp] theorem length_markedInodeBitmap (m : Mount) (bitIdx : Nat) (was : Bool) (bm : Bytes) :
    (m.markedInodeBitmap bitIdx was bm).length = bm.length := by
  unfold markedInodeBitmap
  dsimp only
  rw [length_setBit]
  split
  · rw [length_setBits, List.length_replicate]
  · rfl

/-- Marking bits used in a group: its uninit flag, if set, is cleared, then the bitmap is edited
from what the flag stood for. -/
structure MarkEdit (m : Mount) (img : Image) (kind : BitmapKind) (gi : Nat)
    (bgd : BlockGroupDescriptor) (f : Bool → Bytes → Bytes) (was : Bool)
    (buf buf₁ buf' : BlockBuffer) : Prop where
  clear : ClearEdit m img gi kind.flag was buf buf₁
  edit : GroupEdit m img kind gi bgd (f was) buf₁ buf'

theorem bufferMarkBlockRunUsed_ok {start len : Nat} (hbnd : m.fs.sb.Bounds)
    (hw : m.WholeBlocks d.img buf)
    (hne : ∀ gi bgd, m.fs.groups[gi]? = some bgd → bgd.blockBitmap ≠ (m.descAt gi).1)
    (h : m.bufferMarkBlockRunUsed crc (m.fs.reader d) buf start len = .ok buf') :
    ∃ gi bgd was buf₁, gi = (start - m.fs.sb.firstDataBlock.toNat) / m.fs.sb.blocksPerGroup.toNat ∧
      m.fs.groups[gi]? = some bgd ∧
      MarkEdit m d.img .block gi bgd
        (m.markedBlockBitmap gi (start - m.fs.sb.firstBlockOfGroup gi) len) was buf buf₁ buf' := by
  unfold bufferMarkBlockRunUsed at h
  dsimp only at h
  split at h
  · cases h
  · rename_i bgd hbgd
    generalize hgi : (start - m.fs.sb.firstDataBlock.toNat) / m.fs.sb.blocksPerGroup.toNat =
      gi at h hbgd
    obtain ⟨⟨was, buf₁⟩, hc, h⟩ := Result.bind_eq_ok h
    have hclear := clearBgdUninitFlagIfSet_ok hc
    have hw₁ := hclear.wholeBlocks hbnd hw
    obtain ⟨buf₂, he, h⟩ := Result.bind_eq_ok h
    have hw₂ := edit_wholeBlocks (fun b => m.length_markedBlockBitmap gi _ len was b) he hw₁
    have hd := bufferRefreshBitmapCsum_ok hbnd hw₂ h
    exact ⟨gi, bgd, was, buf₁, rfl, hbgd, hclear,
      GroupEdit.mk' .block (hne gi bgd hbgd) he hd⟩

theorem bufferMarkInodeUsed_ok {ino : Nat} (hbnd : m.fs.sb.Bounds) (hw : m.WholeBlocks d.img buf)
    (hne : ∀ gi bgd, m.fs.groups[gi]? = some bgd → bgd.inodeBitmap ≠ (m.descAt gi).1)
    (h : m.bufferMarkInodeUsed crc (m.fs.reader d) buf ino = .ok buf') :
    ∃ gi bgd was buf₁, gi = (ino - 1) / m.fs.sb.inodesPerGroup.toNat ∧
      m.fs.groups[gi]? = some bgd ∧
      MarkEdit m d.img .inode gi bgd
        (m.markedInodeBitmap ((ino - 1) % m.fs.sb.inodesPerGroup.toNat)) was buf buf₁ buf' := by
  unfold bufferMarkInodeUsed at h
  dsimp only at h
  split at h
  · cases h
  · rename_i bgd hbgd
    generalize hgi : (ino - 1) / m.fs.sb.inodesPerGroup.toNat = gi at h hbgd
    obtain ⟨⟨was, buf₁⟩, hc, h⟩ := Result.bind_eq_ok h
    have hclear := clearBgdUninitFlagIfSet_ok hc
    have hw₁ := hclear.wholeBlocks hbnd hw
    obtain ⟨buf₂, he, h⟩ := Result.bind_eq_ok h
    have hw₂ := edit_wholeBlocks (fun b => m.length_markedInodeBitmap _ was b) he hw₁
    obtain ⟨buf₃, hr, h⟩ := Result.bind_eq_ok h
    have hd₁ := bufferRefreshBitmapCsum_ok hbnd hw₂ hr
    have hw₃ := hd₁.wholeBlocks hw₂
    have hedit : buf₃.edit (m.fs.reader d) (m.descAt gi).1 (fun block =>
        m.lowerItableUnused crc block (m.descAt gi).2 gi
          (m.fs.sb.inodesPerGroup.toNat - ((ino - 1) % m.fs.sb.inodesPerGroup.toNat + 1))) =
        .ok buf' := h
    have hd₂ : DescEdit m d.img gi buf₃ buf' := by
      apply edit_descEdit hedit
      apply m.lowerItableUnused_keepsFixed crc gi _ hbnd.descSize.1
      rw [hw₃]
      exact hbnd.descriptor_fits gi
    exact ⟨gi, bgd, was, buf₁, rfl, hbgd, hclear,
      GroupEdit.mk' .inode (hne gi bgd hbgd) he (hd₁.trans hd₂)⟩

theorem edit_refresh_patch (kind : BitmapKind) {bgd : BlockGroupDescriptor} {f : Bytes → Bytes}
    {x y z : Int} (hbnd : m.fs.sb.Bounds) (hw : m.WholeBlocks d.img buf)
    (hne : kind.bitmapBlock bgd ≠ (m.descAt gi).1) (hf : ∀ b, (f b).length = b.length)
    (h : (buf.edit (m.fs.reader d) (kind.bitmapBlock bgd) f >>= fun b =>
        m.bufferRefreshBitmapCsum crc (m.fs.reader d) b gi bgd kind >>= fun b =>
          m.bufferPatchBgdCounters crc (m.fs.reader d) b gi x y z) = .ok buf') :
    GroupEdit m d.img kind gi bgd f buf buf' := by
  obtain ⟨buf₁, he, h⟩ := Result.bind_eq_ok h
  have hw₁ := edit_wholeBlocks hf he hw
  obtain ⟨buf₂, hr, h⟩ := Result.bind_eq_ok h
  have hd₁ := bufferRefreshBitmapCsum_ok hbnd hw₁ hr
  have hd₂ := bufferPatchBgdCounters_ok hbnd (hd₁.wholeBlocks hw₁) h
  exact GroupEdit.mk' kind hne he (hd₁.trans hd₂)

theorem bufferFreeChunk_ok {bitStart len : Nat} (hbnd : m.fs.sb.Bounds)
    (hw : m.WholeBlocks d.img buf)
    (hne : ∀ gi bgd, m.fs.groups[gi]? = some bgd → bgd.blockBitmap ≠ (m.descAt gi).1)
    (h : m.bufferFreeChunk crc (m.fs.reader d) buf gi bitStart len = .ok buf') :
    ∃ bgd, m.fs.groups[gi]? = some bgd ∧
      GroupEdit m d.img .block gi bgd (fun bm => clearBits bm bitStart len) buf buf' := by
  unfold bufferFreeChunk at h
  split at h
  · cases h
  · rename_i bgd hbgd
    exact ⟨bgd, hbgd, edit_refresh_patch .block hbnd hw (hne gi bgd hbgd)
      (fun b => length_clearBits b bitStart len) h⟩

theorem bufferFreeInodeSlot_ok {ino : Nat} (hbnd : m.fs.sb.Bounds) (hw : m.WholeBlocks d.img buf)
    (hne : ∀ gi bgd, m.fs.groups[gi]? = some bgd → bgd.inodeBitmap ≠ (m.descAt gi).1)
    (h : m.bufferFreeInodeSlot crc (m.fs.reader d) buf ino = .ok buf') :
    ∃ gi bgd, gi = (ino - 1) / m.fs.sb.inodesPerGroup.toNat ∧ m.fs.groups[gi]? = some bgd ∧
      GroupEdit m d.img .inode gi bgd
        (fun bm => clearBit bm ((ino - 1) % m.fs.sb.inodesPerGroup.toNat)) buf buf' := by
  unfold bufferFreeInodeSlot at h
  dsimp only at h
  split at h
  · cases h
  · rename_i bgd hbgd
    exact ⟨_, bgd, rfl, hbgd, edit_refresh_patch .inode hbnd hw (hne _ bgd hbgd)
      (fun b => length_clearBit b _) h⟩

end Specs

end Mount

namespace Mount

/-- No two descriptors overlap and no bitmap lies on a descriptor block. -/
structure Apart (m : Mount) : Prop where
  descriptors : ∀ g g', g < m.fs.groups.length → g' < m.fs.groups.length →
    m.descAt g = m.descAt g' → g = g'
  bitmaps : ∀ (kind : BitmapKind) (g : Nat) (bgd : BlockGroupDescriptor),
    m.fs.groups[g]? = some bgd → ∀ g', g' < m.fs.groups.length →
    kind.bitmapBlock bgd ≠ (m.descAt g').1

def FixedRange (ds p n : Nat) : Prop :=
  p + n ≤ 0x0C ∨ (0x12 ≤ p ∧ p + n ≤ 0x14) ∨ (64 ≤ ds ∧ 0x20 ≤ p ∧ p + n ≤ 0x2C)

def descBytes (m : Mount) (v : Nat → Bytes) (gi p n : Nat) : Bytes :=
  slice (v (m.descAt gi).1) ((m.descAt gi).2 + p) n

theorem flagsIn_eq (m : Mount) (v : Nat → Bytes) (gi : Nat) :
    m.flagsIn v gi = UInt16.ofNat (ofLe (m.descBytes v gi 0x12 2)) := rfl

theorem lt_of_getElem?_eq_some {m : Mount} {gi : Nat} {bgd : BlockGroupDescriptor}
    (h : m.fs.groups[gi]? = some bgd) : gi < m.fs.groups.length :=
  (List.getElem?_eq_some_iff.mp h).1

section Fixed

variable {m : Mount} {img : Image} {buf buf₁ buf' : BlockBuffer} {gi g : Nat}
  {kind : BitmapKind} {bgd : BlockGroupDescriptor}

theorem keepsFixed_descBytes {v v' : Nat → Bytes} (hbnd : m.fs.sb.Bounds) (hapart : m.Apart)
    (hgi : gi < m.fs.groups.length) (hg : g < m.fs.groups.length)
    (hlen : (v (m.descAt gi).1).length = m.fs.sb.blockSize)
    (hk : KeepsFixed (m.descAt gi).2 m.fs.sb.descSize (v (m.descAt gi).1) (v' (m.descAt gi).1))
    (hblock : (m.descAt g).1 = (m.descAt gi).1) {p n : Nat}
    (hp : p + n ≤ m.fs.sb.descSize) (hr : FixedRange m.fs.sb.descSize p n) :
    m.descBytes v' g p n = m.descBytes v g p n := by
  unfold descBytes
  rw [hblock]
  by_cases hgg : g = gi
  · subst hgg
    obtain hr | ⟨h1, h2⟩ | ⟨h1, h2, h3⟩ := hr
    · exact hk.before _ _ (Nat.zero_le _) (by omega)
    · exact hk.flags _ _ (by omega) (by omega)
    · exact hk.wide h1 _ _ (by omega) (by omega)
  · have hne : m.descAt g ≠ m.descAt gi := fun he => hgg (hapart.descriptors g gi hg hgi he)
    have hfit : (m.descAt g).2 + m.fs.sb.descSize ≤ m.fs.sb.blockSize := hbnd.descriptor_fits g
    have hdisj : (m.descAt g).2 + m.fs.sb.descSize ≤ (m.descAt gi).2 ∨
        (m.descAt gi).2 + m.fs.sb.descSize ≤ (m.descAt g).2 :=
      Superblock.descriptor_disjoint hne hblock
    obtain h | h := hdisj
    · exact hk.before _ _ (Nat.zero_le _) (by omega)
    · exact hk.after _ _ (by omega) (by omega)

theorem GroupEdit.descBytes_eq {f : Bytes → Bytes} (hbnd : m.fs.sb.Bounds) (hapart : m.Apart)
    (hw : m.WholeBlocks img buf) (hbgd : m.fs.groups[gi]? = some bgd)
    (h : GroupEdit m img kind gi bgd f buf buf') (hg : g < m.fs.groups.length) {p n : Nat}
    (hp : p + n ≤ m.fs.sb.descSize) (hr : FixedRange m.fs.sb.descSize p n) :
    m.descBytes (buf'.view img m.fs.sb.blockSize) g p n =
      m.descBytes (buf.view img m.fs.sb.blockSize) g p n := by
  by_cases hblock : (m.descAt g).1 = (m.descAt gi).1
  · exact keepsFixed_descBytes hbnd hapart (lt_of_getElem?_eq_some hbgd) hg (hw _) h.desc
      hblock hp hr
  · unfold descBytes
    rw [h.other _ hblock (hapart.bitmaps kind gi bgd hbgd g hg).symm]

theorem DescEdit.descBytes_eq (hbnd : m.fs.sb.Bounds) (hapart : m.Apart)
    (hw : m.WholeBlocks img buf) (hgi : gi < m.fs.groups.length)
    (h : DescEdit m img gi buf buf') (hg : g < m.fs.groups.length) {p n : Nat}
    (hp : p + n ≤ m.fs.sb.descSize) (hr : FixedRange m.fs.sb.descSize p n) :
    m.descBytes (buf'.view img m.fs.sb.blockSize) g p n =
      m.descBytes (buf.view img m.fs.sb.blockSize) g p n := by
  by_cases hblock : (m.descAt g).1 = (m.descAt gi).1
  · exact keepsFixed_descBytes hbnd hapart hgi hg (hw _) h.desc hblock hp hr
  · unfold descBytes
    rw [h.other _ hblock]

theorem ClearEdit.descBytes_eq {flag : UInt16} {was : Bool} (hbnd : m.fs.sb.Bounds)
    (hapart : m.Apart) (hw : m.WholeBlocks img buf) (hgi : gi < m.fs.groups.length)
    (h : ClearEdit m img gi flag was buf buf') (hg : g < m.fs.groups.length) {p n : Nat}
    (hp : p + n ≤ m.fs.sb.descSize) (hr : g ≠ gi ∨ p + n ≤ 0x12 ∨ 0x14 ≤ p) :
    m.descBytes (buf'.view img m.fs.sb.blockSize) g p n =
      m.descBytes (buf.view img m.fs.sb.blockSize) g p n := by
  rw [h.view]
  split
  · unfold descBytes
    by_cases hblock : (m.descAt g).1 = (m.descAt gi).1
    · have hlen := hw (m.descAt gi).1
      have hfit : (m.descAt gi).2 + m.fs.sb.descSize ≤ m.fs.sb.blockSize := hbnd.descriptor_fits gi
      have hds := hbnd.descSize
      rw [hblock, Function.update_self]
      apply slice_copyAt_disjoint
      · omega
      · rw [length_u16le]
        by_cases hgg : g = gi
        · subst hgg
          obtain hr | hr | hr := hr
          · exact absurd rfl hr
          · exact Or.inl (by omega)
          · exact Or.inr (by omega)
        · have hne : m.descAt g ≠ m.descAt gi := fun he => hgg (hapart.descriptors g gi hg hgi he)
          have hdisj : (m.descAt g).2 + m.fs.sb.descSize ≤ (m.descAt gi).2 ∨
              (m.descAt gi).2 + m.fs.sb.descSize ≤ (m.descAt g).2 :=
            Superblock.descriptor_disjoint hne hblock
          omega
    · rw [Function.update_of_ne hblock]
  · rfl

theorem ClearEdit.flagsIn_self {flag : UInt16} {was : Bool} (hbnd : m.fs.sb.Bounds)
    (hw : m.WholeBlocks img buf) (h : ClearEdit m img gi flag was buf buf') :
    m.flagsIn (buf'.view img m.fs.sb.blockSize) gi =
      m.flagsIn (buf.view img m.fs.sb.blockSize) gi &&& ~~~flag := by
  rw [h.view]
  cases hwas : was with
  | false =>
    rw [h.was_eq] at hwas
    have hz : m.flagsIn (buf.view img m.fs.sb.blockSize) gi &&& flag = 0 := by simpa using hwas
    rw [if_neg (by decide)]
    exact (and_not_eq_self hz).symm
  | true =>
    rw [if_pos rfl]
    unfold flagsIn
    rw [Function.update_self]
    have hfit : (m.descAt gi).2 + m.fs.sb.descSize ≤ m.fs.sb.blockSize := hbnd.descriptor_fits gi
    have hds := hbnd.descSize
    have hlen := hw (m.descAt gi).1
    exact u16leAt_copyAt _ _ _ (by omega)

end Fixed

end Mount

end FsExt4
