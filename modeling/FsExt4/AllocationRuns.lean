import FsExt4.CommitEffect
import FsExt4.UsedSlots

namespace FsExt4

open Lib Jbd2 Alloc

namespace Mount

def BitmapKind.flagBit : BitmapKind → Nat
  | .inode => 0
  | .block => 1

theorem and_flag_ne_zero (f : UInt16) (kind : BitmapKind) :
    (f &&& kind.flag != 0) = f.toNat.testBit kind.flagBit := by
  have hflag : kind.flag.toNat = 2 ^ kind.flagBit := by cases kind <;> rfl
  have hbit : (f &&& kind.flag).toNat = if f.toNat.testBit kind.flagBit
      then 2 ^ kind.flagBit else 0 := by
    rw [UInt16.toNat_and, hflag]
    apply Nat.eq_of_testBit_eq
    intro i
    rw [Nat.testBit_and, Nat.testBit_two_pow]
    split
    · rename_i h
      rw [Nat.testBit_two_pow]
      by_cases hi : kind.flagBit = i
      · rw [← hi, h]
        simp
      · simp [hi]
    · rename_i h
      rw [Nat.zero_testBit]
      by_cases hi : kind.flagBit = i
      · rw [← hi]
        simpa using h
      · simp [hi]
  by_cases h : f.toNat.testBit kind.flagBit = true
  · rw [h]
    rw [if_pos h] at hbit
    rw [bne_iff_ne]
    intro h0
    rw [h0] at hbit
    have hpos := Nat.two_pow_pos kind.flagBit
    exact absurd hbit.symm (by simp)
  · rw [if_neg h] at hbit
    rw [Bool.eq_false_iff.mpr h]
    have h0 : f &&& kind.flag = 0 := UInt16.toNat_inj.mp hbit
    rw [h0]
    rfl

theorem and_and_flag_ne_zero (f f' : UInt16) (kind : BitmapKind) :
    (f &&& f' &&& kind.flag != 0) = ((f &&& kind.flag != 0) && (f' &&& kind.flag != 0)) := by
  rw [and_flag_ne_zero, and_flag_ne_zero, and_flag_ne_zero, UInt16.toNat_and, Nat.testBit_and]

theorem and_not_flag_ne_zero (f : UInt16) (kind k : BitmapKind) :
    (f &&& ~~~kind.flag &&& k.flag != 0) = ((f &&& k.flag != 0) && !decide (k = kind)) := by
  by_cases hk : k = kind
  · subst hk
    rw [and_not_and_self]
    simp
  · rw [and_not_and_of_disjoint _ (BitmapKind.flag_disjoint (Ne.symm hk))]
    simp [hk]

def PointerRange (ds p n : Nat) : Prop :=
  p + n ≤ 0x0C ∨ (64 ≤ ds ∧ 0x20 ≤ p ∧ p + n ≤ 0x2C)

/-- The remembered clears are those of the buffer's own descriptors, and no pointer moves. -/
structure BufferCoherent (m : Mount) (img : Image) (buf : BlockBuffer) : Prop where
  whole : m.WholeBlocks img buf
  bounded : buf.Bounded
  cleared : ∀ g f, buf.uninitCleared.get? g = some f → g < m.fs.groups.length ∧
    buf.Staged (m.descAt g).1 ∧
    ∀ kind : BitmapKind, (f &&& kind.flag != 0) = m.uninitIn (buf.view img m.fs.sb.blockSize) kind g
  untouched : ∀ g, g < m.fs.groups.length → buf.uninitCleared.get? g = none →
    ∀ kind, m.uninitIn (buf.view img m.fs.sb.blockSize) kind g =
      m.uninitIn (img.block m.fs.sb.blockSize) kind g
  onlyCleared : ∀ g, g < m.fs.groups.length → ∀ kind,
    m.uninitIn (buf.view img m.fs.sb.blockSize) kind g = true →
      m.uninitIn (img.block m.fs.sb.blockSize) kind g = true
  pointers : ∀ g, g < m.fs.groups.length → ∀ p n, p + n ≤ m.fs.sb.descSize →
    PointerRange m.fs.sb.descSize p n →
    m.descBytes (buf.view img m.fs.sb.blockSize) g p n =
      m.descBytes (img.block m.fs.sb.blockSize) g p n

section Coherent

variable {crc : Crc} {m : Mount} {img : Image} {d : Disk} {buf buf₁ buf' : BlockBuffer} {gi : Nat}

theorem bufferCoherent_new (m : Mount) (img : Image) : m.BufferCoherent img BlockBuffer.new where
  whole := fun _ => Image.length_read _ _ _
  bounded := fun _ h => Bool.noConfusion h
  cleared := fun _ _ h => by cases h
  untouched := fun _ _ _ _ => rfl
  onlyCleared := fun _ _ _ h => h
  pointers := fun _ _ _ _ _ _ => rfl

theorem BufferCoherent.of_kept (h : m.BufferCoherent img buf) (hw : m.WholeBlocks img buf')
    (hb : buf'.Bounded) (hcleared : buf'.uninitCleared = buf.uninitCleared)
    (hstaged : ∀ b, buf.Staged b → buf'.Staged b)
    (hflags : ∀ g, g < m.fs.groups.length → ∀ kind,
      m.uninitIn (buf'.view img m.fs.sb.blockSize) kind g =
        m.uninitIn (buf.view img m.fs.sb.blockSize) kind g)
    (hpointers : ∀ g, g < m.fs.groups.length → ∀ p n, p + n ≤ m.fs.sb.descSize →
      PointerRange m.fs.sb.descSize p n →
      m.descBytes (buf'.view img m.fs.sb.blockSize) g p n =
        m.descBytes (buf.view img m.fs.sb.blockSize) g p n) : m.BufferCoherent img buf' where
  whole := hw
  bounded := hb
  cleared := by
    intro g f hf
    rw [hcleared] at hf
    obtain ⟨h1, h2, h3⟩ := h.cleared g f hf
    refine ⟨h1, hstaged _ h2, ?_⟩
    intro kind
    rw [hflags g h1]
    exact h3 kind
  untouched := by
    intro g hg hn kind
    rw [hcleared] at hn
    rw [hflags g hg, h.untouched g hg hn]
  onlyCleared := by
    intro g hg kind hu
    rw [hflags g hg] at hu
    exact h.onlyCleared g hg kind hu
  pointers := by
    intro g hg p n hp hr
    rw [hpointers g hg p n hp hr, h.pointers g hg p n hp hr]

theorem PointerRange.fixed {ds p n : Nat} (h : PointerRange ds p n) : FixedRange ds p n := by
  obtain h | h := h
  · exact Or.inl h
  · exact Or.inr (Or.inr h)

variable (hbnd : m.fs.sb.Bounds) (hsep : m.Separate)

include hbnd hsep

theorem BufferCoherent.groupEdit {kind : BitmapKind} {bgd : BlockGroupDescriptor}
    {f : Bytes → Bytes} (hbgd : m.fs.groups[gi]? = some bgd) (hf : ∀ b, (f b).length = b.length)
    (he : GroupEdit m img kind gi bgd f buf buf') (h : m.BufferCoherent img buf) :
    m.BufferCoherent img buf' :=
  h.of_kept (he.wholeBlocks hf h.whole) (he.bounded h.bounded) he.cleared he.staged
    (fun _ hg k => he.uninitIn_eq hbnd hsep.apart h.whole hbgd hg k)
    (fun _ hg _ _ hp hr => he.descBytes_eq hbnd hsep.apart h.whole hbgd hg hp hr.fixed)

theorem BufferCoherent.descEdit (hgi : gi < m.fs.groups.length) (he : DescEdit m img gi buf buf')
    (h : m.BufferCoherent img buf) : m.BufferCoherent img buf' :=
  h.of_kept (he.wholeBlocks h.whole) (he.bounded h.bounded) he.cleared he.staged
    (fun _ hg k => he.uninitIn_eq hbnd hsep.apart h.whole hgi hg k)
    (fun _ hg _ _ hp hr => he.descBytes_eq hbnd hsep.apart h.whole hgi hg hp hr.fixed)

theorem BufferCoherent.clearEdit {kind : BitmapKind} {was : Bool} (hgi : gi < m.fs.groups.length)
    (he : ClearEdit m img gi kind.flag was buf buf') (h : m.BufferCoherent img buf) :
    m.BufferCoherent img buf' := by
  have hflag := fun g hg k => he.uninitIn_eq hbnd hsep.apart h.whole hgi hg k (g := g)
  have hother : ∀ g, g ≠ gi → buf'.uninitCleared.get? g = buf.uninitCleared.get? g := by
    intro g hg
    rw [he.cleared]
    split
    · rw [SortedMap.get?_insert, if_neg hg]
    · rfl
  refine ⟨he.wholeBlocks hbnd h.whole, he.bounded h.bounded, ?_, ?_, ?_, ?_⟩
  · intro g f hf
    by_cases hg : g = gi
    · subst hg
      cases hwas : was with
      | false =>
        have hsame := he.cleared
        rw [hwas, if_neg (by decide)] at hsame
        rw [hsame] at hf
        obtain ⟨-, h2, h3⟩ := h.cleared g f hf
        refine ⟨hgi, he.staged _ h2, ?_⟩
        intro k
        have hview := he.view
        rw [hwas, if_neg (by decide)] at hview
        rw [hview]
        exact h3 k
      | true =>
        have hins := he.cleared
        rw [hwas, if_pos rfl] at hins
        rw [hins, SortedMap.get?_insert, if_pos rfl] at hf
        refine ⟨hgi, he.stagedDesc hwas, ?_⟩
        intro k
        rw [hflag g hgi, ← Option.some.inj hf]
        unfold clearedEntry
        cases hc : buf.uninitCleared.get? g with
        | none =>
          dsimp only
          rw [and_not_flag_ne_zero]
          simp [uninitIn]
        | some f₀ =>
          dsimp only
          rw [and_not_flag_ne_zero, (h.cleared g f₀ hc).2.2 k]
          simp
    · rw [hother g hg] at hf
      obtain ⟨h1, h2, h3⟩ := h.cleared g f hf
      refine ⟨h1, he.staged _ h2, ?_⟩
      intro k
      rw [hflag g h1, h3 k]
      simp [hg]
  · intro g hg hn k
    by_cases hgg : g = gi
    · subst hgg
      cases hwas : was with
      | false =>
        have hsame := he.cleared
        have hview := he.view
        rw [hwas, if_neg (by decide)] at hsame hview
        rw [hsame] at hn
        rw [hview]
        exact h.untouched g hg hn k
      | true =>
        have hins := he.cleared
        rw [hwas, if_pos rfl] at hins
        rw [hins, SortedMap.get?_insert, if_pos rfl] at hn
        cases hn
    · rw [hother g hgg] at hn
      rw [hflag g hg, h.untouched g hg hn]
      simp [hgg]
  · intro g hg k hu
    rw [hflag g hg, Bool.and_eq_true] at hu
    exact h.onlyCleared g hg k hu.1
  · intro g hg p n hp hr
    rw [he.descBytes_eq hbnd hsep.apart h.whole hgi hg hp, h.pointers g hg p n hp hr]
    right
    obtain hr | ⟨-, hr, -⟩ := hr
    · exact Or.inl (by omega)
    · exact Or.inr (by omega)

theorem BufferCoherent.markEdit {kind : BitmapKind} {bgd : BlockGroupDescriptor}
    {f : Bool → Bytes → Bytes} {was : Bool} (hbgd : m.fs.groups[gi]? = some bgd)
    (hf : ∀ w b, (f w b).length = b.length)
    (he : MarkEdit m img kind gi bgd f was buf buf₁ buf') (h : m.BufferCoherent img buf) :
    m.BufferCoherent img buf' :=
  (h.clearEdit hbnd hsep (lt_of_getElem?_eq_some hbgd) he.clear).groupEdit hbnd hsep hbgd
    (hf was) he.edit

end Coherent

end Mount

theorem groupDescCsum_congr (crc : Crc) (sb : Superblock) (csum : Checksummer) (g : Nat)
    {raw raw' : Bytes} (hlen : raw'.length = raw.length) (h1 : slice raw' 0 0x1E = slice raw 0 0x1E)
    (h2 : slice raw' 0x20 (sb.descSize - 0x20) = slice raw 0x20 (sb.descSize - 0x20)) :
    groupDescCsum crc sb csum g raw' = groupDescCsum crc sb csum g raw := by
  unfold groupDescCsum
  dsimp only
  rw [hlen, h1, h2]

namespace Mount

def descRaw (m : Mount) (v : Nat → Bytes) (g : Nat) : Bytes := m.descBytes v g 0 m.fs.sb.descSize

def CsumOk (crc : Crc) (m : Mount) (v : Nat → Bytes) (g : Nat) : Prop :=
  (groupDescCsum crc m.fs.sb m.csum g (m.descRaw v g)).any
    (fun want => want != u16leAt (m.descRaw v g) 0x1E) = false

section Csum

variable {crc : Crc} {m : Mount} {img : Image} {d : Disk} {buf buf₁ buf' : BlockBuffer} {gi g : Nat}

theorem slice_descRaw (v : Nat → Bytes) {p n : Nat} (h : p + n ≤ m.fs.sb.descSize) :
    slice (m.descRaw v g) p n = m.descBytes v g p n := by
  unfold descRaw descBytes
  rw [slice_slice _ _ _ _ _ h, Nat.add_zero]

theorem csumOk_of_restamp {v : Nat → Bytes} {b : Bytes} (hds : 32 ≤ m.fs.sb.descSize)
    (hfit : (m.descAt gi).2 + m.fs.sb.descSize ≤ b.length)
    (hv : v (m.descAt gi).1 = m.restampGroupDescCsum crc b (m.descAt gi).2 gi) :
    CsumOk crc m v gi := by
  unfold CsumOk
  unfold restampGroupDescCsum at hv
  have hraw : m.descRaw v gi = slice (v (m.descAt gi).1) (m.descAt gi).2 m.fs.sb.descSize := rfl
  cases hc : groupDescCsum crc m.fs.sb m.csum gi (slice b (m.descAt gi).2 m.fs.sb.descSize) with
  | none =>
    rw [hc] at hv
    dsimp only at hv
    rw [hraw, hv, hc]
    rfl
  | some c =>
    rw [hc] at hv
    dsimp only at hv
    have hlen : (copyAt b ((m.descAt gi).2 + 0x1E) (u16le c)).length = b.length :=
      length_copyAt _ _ _ (by rw [length_u16le]; omega)
    have hsame : groupDescCsum crc m.fs.sb m.csum gi (m.descRaw v gi) = some c := by
      rw [← hc, hraw, hv]
      apply groupDescCsum_congr
      · rw [length_slice, length_slice, hlen]
      · rw [slice_slice _ _ _ _ _ (by omega), slice_slice _ _ _ _ _ (by omega)]
        exact slice_copyAt_disjoint _ _ _ _ _ (by omega) (Or.inl (by omega))
      · rw [slice_slice _ _ _ _ _ (by omega), slice_slice _ _ _ _ _ (by omega)]
        exact slice_copyAt_disjoint _ _ _ _ _ (by omega) (Or.inr (by rw [length_u16le]))
    have hstored : u16leAt (m.descRaw v gi) 0x1E = c := by
      apply u16leAt_of_slice
      rw [hraw, hv, slice_slice _ _ _ _ _ (by omega)]
      have hself := slice_copyAt_self b ((m.descAt gi).2 + 0x1E) (u16le c)
        (by rw [length_u16le]; omega)
      rwa [length_u16le] at hself
    rw [hsame, hstored]
    simp

theorem keepsFixed_descRaw {v v' : Nat → Bytes} (hbnd : m.fs.sb.Bounds) (hapart : m.Apart)
    (hgi : gi < m.fs.groups.length) (hg : g < m.fs.groups.length) (hne : g ≠ gi)
    (hlen : (v (m.descAt gi).1).length = m.fs.sb.blockSize)
    (hk : KeepsFixed (m.descAt gi).2 m.fs.sb.descSize (v (m.descAt gi).1) (v' (m.descAt gi).1))
    (hblock : (m.descAt g).1 = (m.descAt gi).1) : m.descRaw v' g = m.descRaw v g := by
  unfold descRaw descBytes
  rw [hblock]
  have hfit : (m.descAt g).2 + m.fs.sb.descSize ≤ m.fs.sb.blockSize := hbnd.descriptor_fits g
  have hdisj : (m.descAt g).2 + m.fs.sb.descSize ≤ (m.descAt gi).2 ∨
      (m.descAt gi).2 + m.fs.sb.descSize ≤ (m.descAt g).2 :=
    Superblock.descriptor_disjoint (fun he => hne (hapart.descriptors g gi hg hgi he)) hblock
  obtain h | h := hdisj
  · exact hk.before _ _ (Nat.zero_le _) (by omega)
  · exact hk.after _ _ (by omega) (by omega)

theorem DescEdit.descRaw_eq (hbnd : m.fs.sb.Bounds) (hapart : m.Apart)
    (hw : m.WholeBlocks img buf) (hgi : gi < m.fs.groups.length) (h : DescEdit m img gi buf buf')
    (hg : g < m.fs.groups.length) (hne : g ≠ gi) :
    m.descRaw (buf'.view img m.fs.sb.blockSize) g = m.descRaw
      (buf.view img m.fs.sb.blockSize) g := by
  by_cases hblock : (m.descAt g).1 = (m.descAt gi).1
  · exact keepsFixed_descRaw hbnd hapart hgi hg hne (hw _) h.desc hblock
  · unfold descRaw descBytes
    rw [h.other _ hblock]

theorem GroupEdit.descRaw_eq {kind : BitmapKind} {bgd : BlockGroupDescriptor} {f : Bytes → Bytes}
    (hbnd : m.fs.sb.Bounds) (hapart : m.Apart) (hw : m.WholeBlocks img buf)
    (hbgd : m.fs.groups[gi]? = some bgd) (h : GroupEdit m img kind gi bgd f buf buf')
    (hg : g < m.fs.groups.length) (hne : g ≠ gi) :
    m.descRaw (buf'.view img m.fs.sb.blockSize) g = m.descRaw
      (buf.view img m.fs.sb.blockSize) g := by
  by_cases hblock : (m.descAt g).1 = (m.descAt gi).1
  · exact keepsFixed_descRaw hbnd hapart (lt_of_getElem?_eq_some hbgd) hg hne (hw _) h.desc hblock
  · unfold descRaw descBytes
    rw [h.other _ hblock (hapart.bitmaps kind gi bgd hbgd g hg).symm]

theorem MarkEdit.descRaw_eq {kind : BitmapKind} {bgd : BlockGroupDescriptor}
    {f : Bool → Bytes → Bytes} {was : Bool} (hbnd : m.fs.sb.Bounds) (hapart : m.Apart)
    (hw : m.WholeBlocks img buf) (hbgd : m.fs.groups[gi]? = some bgd)
    (h : MarkEdit m img kind gi bgd f was buf buf₁ buf') (hg : g < m.fs.groups.length)
    (hne : g ≠ gi) :
    m.descRaw (buf'.view img m.fs.sb.blockSize) g = m.descRaw
      (buf.view img m.fs.sb.blockSize) g := by
  rw [h.edit.descRaw_eq hbnd hapart (h.clear.wholeBlocks hbnd hw) hbgd hg hne]
  exact h.clear.descBytes_eq hbnd hapart hw (lt_of_getElem?_eq_some hbgd) hg (by omega)
    (Or.inl hne)

theorem patchCounters_csumOk {x y z : Int} (hbnd : m.fs.sb.Bounds) (hw : m.WholeBlocks d.img buf)
    (h : m.bufferPatchBgdCounters crc (m.fs.reader d) buf gi x y z = .ok buf') :
    CsumOk crc m (buf'.view d.img m.fs.sb.blockSize) gi := by
  have hedit : buf.edit (m.fs.reader d) (m.descAt gi).1 (fun block =>
      m.restampGroupDescCsum crc
        (patchBgdCounterFields block (m.descAt gi).2 m.fs.sb.descSize x y z) (m.descAt gi).2 gi) =
      .ok buf' := h
  obtain ⟨hview, -, -⟩ := BlockBuffer.edit_ok hedit
  have hfit : (m.descAt gi).2 + m.fs.sb.descSize ≤
      (buf.view d.img m.fs.sb.blockSize (m.descAt gi).1).length := by
    rw [hw]
    exact hbnd.descriptor_fits gi
  have hkept := patchBgdCounterFields_keepsFixed x y z hbnd.descSize.1 hfit
  refine csumOk_of_restamp hbnd.descSize.1 (hkept.fits hfit) ?_
  rw [hview, Function.update_self]

theorem csumOk_congr {v v' : Nat → Bytes} (h : m.descRaw v' g = m.descRaw v g)
    (hc : CsumOk crc m v g) : CsumOk crc m v' g := by
  unfold CsumOk at hc ⊢
  rwa [h]

end Csum

end Mount

namespace Mount

/-- The blocks that hold a group's own structures: the head of the group, its bitmaps, its inode
table. -/
def IsMetadata (m : Mount) (b : Nat) : Prop :=
  m.fs.sb.firstDataBlock.toNat ≤ b ∧ ∃ g bgd, m.fs.groups[g]? = some bgd ∧
    ((m.fs.sb.firstBlockOfGroup g ≤ b ∧
        b < m.fs.sb.firstBlockOfGroup g +
          min (m.fs.sb.groupHeadMetadataBlocks g) (blocksInGroup m.fs.sb g)) ∨
      b = bgd.blockBitmap ∨ b = bgd.inodeBitmap ∨
      (bgd.inodeTable ≤ b ∧ b < bgd.inodeTable + m.fs.sb.inodeTableBlocks))

def OffTables (m : Mount) (block : Nat) : Prop :=
  (∀ g, g < m.fs.groups.length → block ≠ (m.descAt g).1) ∧
    ∀ (kind : BitmapKind) (g : Nat) (bgd : BlockGroupDescriptor), m.fs.groups[g]? = some bgd →
      block ≠ kind.bitmapBlock bgd

/-- An open transaction: its buffer, the slots it has taken and those it has given back. An
allocation is a mark followed by its group's counter patch; other blocks are staged off the
tables. -/
inductive Staging (crc : Crc) (m : Mount) (d : Disk) :
    BlockBuffer → Set Slot → Set Slot → Prop where
  | new : Staging crc m d BlockBuffer.new ∅ ∅
  | allocBlocks {buf buf₁ buf' : BlockBuffer} {taken freed : Set Slot} {start len : Nat}
      {x y z : Int} (h : Staging crc m d buf taken freed) (hrun : m.InGroup start len)
      (hmark : m.bufferMarkBlockRunUsed crc (m.fs.reader d) buf start len = .ok buf₁)
      (hpatch : m.bufferPatchBgdCounters crc (m.fs.reader d) buf₁ (m.blockSlot start).group x y z =
        .ok buf') : Staging crc m d buf' (taken ∪ m.blockSlots start len) freed
  | freeBlocks {buf buf' : BlockBuffer} {taken freed : Set Slot} {start len : Nat}
      (h : Staging crc m d buf taken freed)
      (hmeta : ∀ b, start ≤ b → b < start + len → ¬ m.IsMetadata b)
      (hfree : m.bufferFreeBlockRunAndBgd crc (m.fs.reader d) buf start len = .ok buf') :
      Staging crc m d buf' (taken \ m.blockSlots start len) (freed ∪ m.blockSlots start len)
  | allocInode {buf buf₁ buf' : BlockBuffer} {taken freed : Set Slot} {ino : Nat} {x y z : Int}
      (h : Staging crc m d buf taken freed) (hbit : (m.inodeSlot ino).bit < m.fs.sb.blockSize * 8)
      (hmark : m.bufferMarkInodeUsed crc (m.fs.reader d) buf ino = .ok buf₁)
      (hpatch : m.bufferPatchBgdCounters crc (m.fs.reader d) buf₁ (m.inodeSlot ino).group x y z =
        .ok buf') : Staging crc m d buf' (taken ∪ {m.inodeSlot ino}) freed
  | freeInode {buf buf' : BlockBuffer} {taken freed : Set Slot} {ino : Nat}
      (h : Staging crc m d buf taken freed)
      (hfree : m.bufferFreeInodeSlot crc (m.fs.reader d) buf ino = .ok buf') :
      Staging crc m d buf' (taken \ {m.inodeSlot ino}) (freed ∪ {m.inodeSlot ino})
  | patchCounters {buf buf' : BlockBuffer} {taken freed : Set Slot} {gi : Nat} {x y z : Int}
      (h : Staging crc m d buf taken freed) (hgi : gi < m.fs.groups.length)
      (hpatch : m.bufferPatchBgdCounters crc (m.fs.reader d) buf gi x y z = .ok buf') :
      Staging crc m d buf' taken freed
  | put {buf : BlockBuffer} {taken freed : Set Slot} {block : Nat} {bytes : Bytes}
      (h : Staging crc m d buf taken freed) (hoff : m.OffTables block)
      (hlen : bytes.length = m.fs.sb.blockSize) (h64 : block < 2 ^ 64) :
      Staging crc m d (buf.put block bytes) taken freed
  | edit {buf buf' : BlockBuffer} {taken freed : Set Slot} {block : Nat} {f : Bytes → Bytes}
      (h : Staging crc m d buf taken freed) (hoff : m.OffTables block)
      (hf : ∀ b, (f b).length = b.length)
      (hedit : buf.edit (m.fs.reader d) block f = .ok buf') : Staging crc m d buf' taken freed

/-- What holds of every open transaction: its clears are remembered, its descriptors carry their
checksums, and what was in use or taken is in use, unless given back. -/
structure Open (crc : Crc) (m : Mount) (d : Disk) (buf : BlockBuffer) (taken freed : Set Slot) :
    Prop where
  coherent : m.BufferCoherent d.img buf
  csums : ∀ g, g < m.fs.groups.length → CsumOk crc m (buf.view d.img m.fs.sb.blockSize) g
  kept : ∀ s, m.used (d.img.block m.fs.sb.blockSize) s = true → s ∉ freed →
    m.used (buf.view d.img m.fs.sb.blockSize) s = true
  taken : ∀ s ∈ taken, m.used (buf.view d.img m.fs.sb.blockSize) s = true

section Open

variable {crc : Crc} {m : Mount} {d : Disk} {buf buf₁ buf' : BlockBuffer} {taken freed : Set Slot}
  {gi : Nat}

theorem Open.of_grown (h : Open crc m d buf taken freed) {more : Set Slot}
    (hc : m.BufferCoherent d.img buf')
    (hcsum : ∀ g, g < m.fs.groups.length → CsumOk crc m (buf'.view d.img m.fs.sb.blockSize) g)
    (hused : ∀ s, m.used (buf.view d.img m.fs.sb.blockSize) s = true →
      m.used (buf'.view d.img m.fs.sb.blockSize) s = true)
    (hmore : ∀ s ∈ more, m.used (buf'.view d.img m.fs.sb.blockSize) s = true) :
    Open crc m d buf' (taken ∪ more) freed where
  coherent := hc
  csums := hcsum
  kept := fun s hs hf => hused s (h.kept s hs hf)
  taken := by
    rintro s (hs | hs)
    · exact hused s (h.taken s hs)
    · exact hmore s hs

theorem Open.of_shrunk (h : Open crc m d buf taken freed) {gone : Set Slot}
    (hc : m.BufferCoherent d.img buf')
    (hcsum : ∀ g, g < m.fs.groups.length → CsumOk crc m (buf'.view d.img m.fs.sb.blockSize) g)
    (hused : ∀ s, m.used (buf.view d.img m.fs.sb.blockSize) s = true →
      m.used (buf'.view d.img m.fs.sb.blockSize) s = true ∨ s ∈ gone) :
    Open crc m d buf' (taken \ gone) (freed ∪ gone) where
  coherent := hc
  csums := hcsum
  kept := by
    intro s hs hf
    have hnot : s ∉ freed ∧ s ∉ gone := ⟨fun h => hf (Or.inl h), fun h => hf (Or.inr h)⟩
    exact (hused s (h.kept s hs hnot.1)).resolve_right hnot.2
  taken := by
    rintro s ⟨hs, hn⟩
    exact (hused s (h.taken s hs)).resolve_right hn

variable (hbnd : m.fs.sb.Bounds) (hsep : m.Separate)

include hbnd hsep

theorem Open.alloc {kind : BitmapKind} {bgd : BlockGroupDescriptor} {f : Bool → Bytes → Bytes}
    {was : Bool} {buf₂ : BlockBuffer} {x y z : Int} {more : Set Slot}
    (h : Open crc m d buf taken freed) (hbgd : m.fs.groups[gi]? = some bgd)
    (hf : ∀ w b, (f w b).length = b.length)
    (he : MarkEdit m d.img kind gi bgd f was buf buf₂ buf₁)
    (hused : ∀ s, m.used (buf.view d.img m.fs.sb.blockSize) s = true →
      m.used (buf₁.view d.img m.fs.sb.blockSize) s = true)
    (hmore : ∀ s ∈ more, m.used (buf₁.view d.img m.fs.sb.blockSize) s = true)
    (hpatch : m.bufferPatchBgdCounters crc (m.fs.reader d) buf₁ gi x y z = .ok buf') :
    Open crc m d buf' (taken ∪ more) freed := by
  have hgi := lt_of_getElem?_eq_some hbgd
  have hc₁ := h.coherent.markEdit hbnd hsep hbgd hf he
  have hd := bufferPatchBgdCounters_ok hbnd hc₁.whole hpatch
  have hsame := hd.used_eq hbnd hsep.apart hc₁.whole hgi
  refine h.of_grown (hc₁.descEdit hbnd hsep hgi hd) ?_ ?_ ?_
  · intro g hg
    by_cases hgg : g = gi
    · rw [hgg]
      exact patchCounters_csumOk hbnd hc₁.whole hpatch
    · apply csumOk_congr _ (h.csums g hg)
      rw [hd.descRaw_eq hbnd hsep.apart hc₁.whole hgi hg hgg,
        he.descRaw_eq hbnd hsep.apart h.coherent.whole hbgd hg hgg]
  · intro s hs
    rw [hsame]
    exact hused s hs
  · intro s hs
    rw [hsame]
    exact hmore s hs

end Open

end Mount

namespace Mount

section Open

variable {crc : Crc} {m : Mount} {d : Disk} {buf buf₁ buf' : BlockBuffer} {taken freed : Set Slot}
  {gi : Nat}

theorem edit_refresh_patch_csumOk {kind : BitmapKind} {bgd : BlockGroupDescriptor}
    {f : Bytes → Bytes} {x y z : Int} (hbnd : m.fs.sb.Bounds) (hw : m.WholeBlocks d.img buf)
    (hf : ∀ b, (f b).length = b.length)
    (h : (buf.edit (m.fs.reader d) (kind.bitmapBlock bgd) f >>= fun b =>
        m.bufferRefreshBitmapCsum crc (m.fs.reader d) b gi bgd kind >>= fun b =>
          m.bufferPatchBgdCounters crc (m.fs.reader d) b gi x y z) = .ok buf') :
    CsumOk crc m (buf'.view d.img m.fs.sb.blockSize) gi := by
  obtain ⟨buf₂, he, h1⟩ := Result.bind_eq_ok h
  have hw₂ := edit_wholeBlocks hf he hw
  obtain ⟨buf₃, hr, h2⟩ := Result.bind_eq_ok h1
  have hd := bufferRefreshBitmapCsum_ok hbnd hw₂ hr
  exact patchCounters_csumOk hbnd (hd.wholeBlocks hw₂) h2

theorem Open.of_offTables {block : Nat} (hoff : m.OffTables block)
    (hview : ∀ b, b ≠ block →
      buf'.view d.img m.fs.sb.blockSize b = buf.view d.img m.fs.sb.blockSize b)
    (hw : m.WholeBlocks d.img buf') (hb : buf'.Bounded)
    (hcleared : buf'.uninitCleared = buf.uninitCleared)
    (hstaged : ∀ b, buf.Staged b → buf'.Staged b) (h : Open crc m d buf taken freed) :
    Open crc m d buf' taken freed := by
  have hdesc : ∀ g, g < m.fs.groups.length →
      buf'.view d.img m.fs.sb.blockSize (m.descAt g).1 =
        buf.view d.img m.fs.sb.blockSize (m.descAt g).1 :=
    fun g hg => hview _ (hoff.1 g hg).symm
  have hflags : ∀ g, g < m.fs.groups.length → ∀ kind,
      m.uninitIn (buf'.view d.img m.fs.sb.blockSize) kind g =
        m.uninitIn (buf.view d.img m.fs.sb.blockSize) kind g := by
    intro g hg kind
    unfold uninitIn flagsIn
    rw [hdesc g hg]
  have hused : ∀ s, m.used (buf'.view d.img m.fs.sb.blockSize) s =
      m.used (buf.view d.img m.fs.sb.blockSize) s := by
    intro s
    apply used_congr
    · exact fun hg => hflags s.group hg s.kind
    · exact fun bgd hbgd => hview _ (hoff.2 s.kind s.group bgd hbgd).symm
  refine ⟨h.coherent.of_kept hw hb hcleared hstaged hflags ?_, ?_, ?_, ?_⟩
  · intro g hg p n _ _
    unfold descBytes
    rw [hdesc g hg]
  · intro g hg
    apply csumOk_congr _ (h.csums g hg)
    unfold descRaw descBytes
    rw [hdesc g hg]
  · intro s hs hf
    rw [hused]
    exact h.kept s hs hf
  · intro s hs
    rw [hused]
    exact h.taken s hs

variable (hbnd : m.fs.sb.Bounds) (hsep : m.Separate)

include hbnd hsep

theorem Open.clear {kind : BitmapKind} {bgd : BlockGroupDescriptor} {f : Bytes → Bytes}
    {gone : Set Slot} (h : Open crc m d buf taken freed) (hbgd : m.fs.groups[gi]? = some bgd)
    (hf : ∀ b, (f b).length = b.length) (he : GroupEdit m d.img kind gi bgd f buf buf')
    (hcsum : CsumOk crc m (buf'.view d.img m.fs.sb.blockSize) gi)
    (hused : ∀ s, m.used (buf.view d.img m.fs.sb.blockSize) s = true →
      m.used (buf'.view d.img m.fs.sb.blockSize) s = true ∨ s ∈ gone) :
    Open crc m d buf' (taken \ gone) (freed ∪ gone) := by
  refine h.of_shrunk (h.coherent.groupEdit hbnd hsep hbgd hf he) ?_ hused
  intro g hg
  by_cases hgg : g = gi
  · rw [hgg]
    exact hcsum
  · exact csumOk_congr (he.descRaw_eq hbnd hsep.apart h.coherent.whole hbgd hg hgg) (h.csums g hg)

theorem Open.freeChunks (chunks : List (Nat × Nat × Nat)) (h : Open crc m d buf taken freed)
    (hf : m.bufferFreeChunks crc (m.fs.reader d) buf chunks = .ok buf') :
    m.BufferCoherent d.img buf' ∧
      ∀ g, g < m.fs.groups.length → CsumOk crc m (buf'.view d.img m.fs.sb.blockSize) g := by
  induction chunks generalizing buf taken freed with
  | nil =>
    obtain rfl := Except.ok.inj hf
    exact ⟨h.coherent, h.csums⟩
  | cons c rest ih =>
    obtain ⟨g, bitStart, len⟩ := c
    obtain ⟨buf₁, hc, hr⟩ := Result.bind_eq_ok hf
    obtain ⟨bgd, hbgd, he⟩ := bufferFreeChunk_ok hbnd h.coherent.whole (hsep.ne_desc .block) hc
    have hcsum : CsumOk crc m (buf₁.view d.img m.fs.sb.blockSize) g := by
      unfold bufferFreeChunk at hc
      rw [hbgd] at hc
      exact @edit_refresh_patch_csumOk crc m d buf buf₁ g .block bgd _ _ _ _ hbnd
        h.coherent.whole (fun b => length_clearBits b bitStart len) hc
    have hopen : Open crc m d buf₁ (taken \ Set.univ) (freed ∪ Set.univ) :=
      h.clear hbnd hsep hbgd (fun b => length_clearBits b bitStart len) he hcsum
        (fun s _ => Or.inr (Set.mem_univ s))
    exact ih hopen hr

theorem Open.allocBlocks {start len : Nat} {x y z : Int} (h : Open crc m d buf taken freed)
    (hrun : m.InGroup start len)
    (hmark : m.bufferMarkBlockRunUsed crc (m.fs.reader d) buf start len = .ok buf₁)
    (hpatch : m.bufferPatchBgdCounters crc (m.fs.reader d) buf₁ (m.blockSlot start).group x y z =
      .ok buf') : Open crc m d buf' (taken ∪ m.blockSlots start len) freed := by
  obtain ⟨hused, hmore⟩ := markBlocks_used hbnd hsep h.coherent.whole hrun hmark
  obtain ⟨g, bgd, was, buf₂, hg, hbgd, he⟩ :=
    bufferMarkBlockRunUsed_ok hbnd h.coherent.whole (hsep.ne_desc .block) hmark
  subst hg
  exact h.alloc hbnd hsep hbgd (fun w b => m.length_markedBlockBitmap _ _ _ w b) he hused
    hmore hpatch

theorem Open.freeBlocks {start len : Nat} (h : Open crc m d buf taken freed)
    (hfree : m.bufferFreeBlockRunAndBgd crc (m.fs.reader d) buf start len = .ok buf') :
    Open crc m d buf' (taken \ m.blockSlots start len) (freed ∪ m.blockSlots start len) := by
  obtain ⟨chunks, -, hf⟩ := Result.bind_eq_ok hfree
  obtain ⟨hc, hcs⟩ := h.freeChunks hbnd hsep chunks hf
  exact h.of_shrunk hc hcs (fun s hs => freeBlocks_used hbnd hsep h.coherent.whole hfree hs)

theorem Open.patchCounters {x y z : Int} (h : Open crc m d buf taken freed)
    (hgi : gi < m.fs.groups.length)
    (hpatch : m.bufferPatchBgdCounters crc (m.fs.reader d) buf gi x y z = .ok buf') :
    Open crc m d buf' taken freed := by
  have hd := bufferPatchBgdCounters_ok hbnd h.coherent.whole hpatch
  have hsame := hd.used_eq hbnd hsep.apart h.coherent.whole hgi
  refine ⟨h.coherent.descEdit hbnd hsep hgi hd, ?_, ?_, ?_⟩
  · intro g hg
    by_cases hgg : g = gi
    · rw [hgg]
      exact patchCounters_csumOk hbnd h.coherent.whole hpatch
    · exact csumOk_congr (hd.descRaw_eq hbnd hsep.apart h.coherent.whole hgi hg hgg) (h.csums g hg)
  · intro s hs hf
    rw [hsame]
    exact h.kept s hs hf
  · intro s hs
    rw [hsame]
    exact h.taken s hs

omit hbnd hsep in
theorem Open.put {block : Nat} {bytes : Bytes} (h : Open crc m d buf taken freed)
    (hoff : m.OffTables block) (hlen : bytes.length = m.fs.sb.blockSize) (h64 : block < 2 ^ 64) :
    Open crc m d (buf.put block bytes) taken freed := by
  have hview : ∀ b, b ≠ block → (buf.put block bytes).view d.img m.fs.sb.blockSize b =
      buf.view d.img m.fs.sb.blockSize b := by
    intro b hb
    rw [BlockBuffer.view_put, Function.update_of_ne hb]
  refine Open.of_offTables hoff hview ?_ ?_ rfl
    (fun b hb => (BlockBuffer.staged_put _ _ _ _).mpr (Or.inr hb)) h
  · intro b
    by_cases hb : b = block
    · rw [hb, BlockBuffer.view_put, Function.update_self, hlen]
    · rw [hview b hb]
      exact h.coherent.whole b
  · intro b hs
    obtain rfl | hs := (BlockBuffer.staged_put _ _ _ _).mp hs
    · exact h64
    · exact h.coherent.bounded b hs

omit hbnd hsep in
theorem Open.edit {block : Nat} {f : Bytes → Bytes} (h : Open crc m d buf taken freed)
    (hoff : m.OffTables block) (hf : ∀ b : Bytes, b.length = m.fs.sb.blockSize →
    (f b).length = b.length)
    (hedit : buf.edit (m.fs.reader d) block f = .ok buf') : Open crc m d buf' taken freed := by
  obtain ⟨hview, hcleared, hstaged⟩ := BlockBuffer.edit_ok hedit
  have hother : ∀ b, b ≠ block →
      buf'.view d.img m.fs.sb.blockSize b = buf.view d.img m.fs.sb.blockSize b := by
    intro b hb
    rw [hview, Function.update_of_ne hb]
  refine Open.of_offTables hoff hother ?_ (BlockBuffer.edit_bounded hedit h.coherent.bounded)
    hcleared (fun b hb => (hstaged b).mpr (Or.inr hb)) h
  intro b
  by_cases hb : b = block
  · rw [hb, hview, Function.update_self, hf _ (h.coherent.whole block)]
    exact h.coherent.whole block
  · rw [hother b hb]
    exact h.coherent.whole b

theorem Staging.isOpen (h : Staging crc m d buf taken freed)
    (hcsum : ∀ g, g < m.fs.groups.length → CsumOk crc m (d.img.block m.fs.sb.blockSize) g) :
    Open crc m d buf taken freed := by
  induction h with
  | new =>
    exact ⟨bufferCoherent_new m d.img, hcsum, fun s hs _ => hs, fun s hs =>
      absurd hs (Set.notMem_empty s)⟩
  | allocBlocks _ hrun hmark hpatch ih => exact ih.allocBlocks hbnd hsep hrun hmark hpatch
  | freeBlocks _ _ hfree ih => exact ih.freeBlocks hbnd hsep hfree
  | allocInode h hbit hmark hpatch ih =>
    obtain ⟨hused, hmore⟩ := markInode_used hbnd hsep ih.coherent.whole hmark
    obtain ⟨g, bgd, was, buf₂, hg, hbgd, he⟩ :=
      bufferMarkInodeUsed_ok hbnd ih.coherent.whole (hsep.ne_desc .inode) hmark
    subst hg
    refine ih.alloc hbnd hsep hbgd (fun w b => m.length_markedInodeBitmap _ w b) he hused ?_ hpatch
    rintro s rfl
    exact hmore hbit
  | freeInode h hfree ih =>
    obtain ⟨g, bgd, hg, hbgd, he⟩ :=
      bufferFreeInodeSlot_ok hbnd ih.coherent.whole (hsep.ne_desc .inode) hfree
    subst hg
    refine ih.clear hbnd hsep hbgd (fun b => length_clearBit b _) he ?_
      (fun s hs => freeInode_used hbnd hsep ih.coherent.whole hfree hs)
    unfold bufferFreeInodeSlot at hfree
    dsimp only at hfree
    rw [hbgd] at hfree
    exact @edit_refresh_patch_csumOk crc m d _ _ _ .inode bgd _ _ _ _ hbnd ih.coherent.whole
      (fun b => length_clearBit b _) hfree
  | patchCounters _ hgi hpatch ih => exact ih.patchCounters hbnd hsep hgi hpatch
  | put _ hoff hlen h64 ih => exact ih.put hoff hlen h64
  | edit _ hoff hf hedit ih => exact ih.edit hoff (fun b _ => hf b) hedit

end Open

end Mount

end FsExt4
