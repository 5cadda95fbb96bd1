import FsExt4.AllocScan
import FsExt4.DirectCommit

namespace FsExt4

open Lib Jbd2 Alloc

namespace Mount

structure Slot where
  kind : BitmapKind
  group : Nat
  bit : Nat
  deriving DecidableEq

def blockSlot (m : Mount) (b : Nat) : Slot :=
  ⟨.block, (b - m.fs.sb.firstDataBlock.toNat) / m.fs.sb.blocksPerGroup.toNat,
    (b - m.fs.sb.firstDataBlock.toNat) % m.fs.sb.blocksPerGroup.toNat⟩

def inodeSlot (m : Mount) (ino : Nat) : Slot :=
  ⟨.inode, (ino - 1) / m.fs.sb.inodesPerGroup.toNat, (ino - 1) % m.fs.sb.inodesPerGroup.toNat⟩

def uninitIn (m : Mount) (v : Nat → Bytes) (kind : BitmapKind) (g : Nat) : Bool :=
  m.flagsIn v g &&& kind.flag != 0

def impliedBitmap (m : Mount) (g : Nat) : BitmapKind → Bytes
  | .block => uninitBlockBitmap m.fs.sb m.fs.groups g
  | .inode => List.replicate m.fs.sb.blockSize 0

def bitmapIn (m : Mount) (v : Nat → Bytes) (kind : BitmapKind) (g : Nat)
    (bgd : BlockGroupDescriptor) : Bytes :=
  if m.uninitIn v kind g then m.impliedBitmap g kind else v (kind.bitmapBlock bgd)

def used (m : Mount) (v : Nat → Bytes) (s : Slot) : Bool :=
  match m.fs.groups[s.group]? with
  | some bgd => Lib.bit (m.bitmapIn v s.kind s.group bgd) s.bit
  | none => false

structure Separate (m : Mount) : Prop where
  apart : m.Apart
  bitmaps : ∀ (k k' : BitmapKind) (g g' : Nat) (b b' : BlockGroupDescriptor),
    m.fs.groups[g]? = some b → m.fs.groups[g']? = some b' →
    k.bitmapBlock b = k'.bitmapBlock b' → k = k' ∧ g = g'

section Used

variable {m : Mount} {v v' : Nat → Bytes} {s : Slot}

theorem used_of_some {bgd : BlockGroupDescriptor} (h : m.fs.groups[s.group]? = some bgd) :
    m.used v s = Lib.bit (m.bitmapIn v s.kind s.group bgd) s.bit := by
  unfold used
  rw [h]

theorem used_congr (hflag : s.group < m.fs.groups.length →
      m.uninitIn v' s.kind s.group = m.uninitIn v s.kind s.group)
    (hblock : ∀ bgd, m.fs.groups[s.group]? = some bgd →
      v' (s.kind.bitmapBlock bgd) = v (s.kind.bitmapBlock bgd)) : m.used v' s = m.used v s := by
  unfold used
  cases h : m.fs.groups[s.group]? with
  | none => rfl
  | some bgd =>
    dsimp only
    unfold bitmapIn
    rw [hflag (lt_of_getElem?_eq_some h), hblock bgd h]

end Used

section Edits

variable {m : Mount} {img : Image} {buf buf₁ buf' : BlockBuffer} {gi g : Nat}
  {kind : BitmapKind} {bgd : BlockGroupDescriptor}

theorem DescEdit.uninitIn_eq (hbnd : m.fs.sb.Bounds) (hapart : m.Apart)
    (hw : m.WholeBlocks img buf) (hgi : gi < m.fs.groups.length) (h : DescEdit m img gi buf buf')
    (hg : g < m.fs.groups.length) (k : BitmapKind) :
    m.uninitIn (buf'.view img m.fs.sb.blockSize) k g = m.uninitIn
      (buf.view img m.fs.sb.blockSize) k g := by
  have hds := hbnd.descSize
  unfold uninitIn
  rw [flagsIn_eq, flagsIn_eq, h.descBytes_eq hbnd hapart hw hgi hg (by omega) (flags_fixedRange _)]

theorem GroupEdit.uninitIn_eq {f : Bytes → Bytes} (hbnd : m.fs.sb.Bounds) (hapart : m.Apart)
    (hw : m.WholeBlocks img buf) (hbgd : m.fs.groups[gi]? = some bgd)
    (h : GroupEdit m img kind gi bgd f buf buf') (hg : g < m.fs.groups.length) (k : BitmapKind) :
    m.uninitIn (buf'.view img m.fs.sb.blockSize) k g = m.uninitIn
      (buf.view img m.fs.sb.blockSize) k g := by
  have hds := hbnd.descSize
  unfold uninitIn
  rw [flagsIn_eq, flagsIn_eq, h.descBytes_eq hbnd hapart hw hbgd hg (by omega) (flags_fixedRange _)]

theorem ClearEdit.uninitIn_eq {was : Bool} (hbnd : m.fs.sb.Bounds) (hapart : m.Apart)
    (hw : m.WholeBlocks img buf) (hgi : gi < m.fs.groups.length)
    (h : ClearEdit m img gi kind.flag was buf buf') (hg : g < m.fs.groups.length) (k : BitmapKind) :
    m.uninitIn (buf'.view img m.fs.sb.blockSize) k g =
      (m.uninitIn (buf.view img m.fs.sb.blockSize) k g && !decide (k = kind ∧ g = gi)) := by
  have hds := hbnd.descSize
  unfold uninitIn
  by_cases hgg : g = gi
  · subst hgg
    rw [h.flagsIn_self hbnd hw]
    by_cases hk : k = kind
    · subst hk
      rw [and_not_and_self]
      simp
    · rw [and_not_and_of_disjoint _ (BitmapKind.flag_disjoint (Ne.symm hk))]
      simp [hk]
  · rw [flagsIn_eq, flagsIn_eq, h.descBytes_eq hbnd hapart hw hgi hg (by omega) (Or.inl hgg)]
    simp [hgg]

theorem DescEdit.used_eq (hbnd : m.fs.sb.Bounds) (hapart : m.Apart) (hw : m.WholeBlocks img buf)
    (hgi : gi < m.fs.groups.length) (h : DescEdit m img gi buf buf') (s : Slot) :
    m.used (buf'.view img m.fs.sb.blockSize) s = m.used (buf.view img m.fs.sb.blockSize) s := by
  apply used_congr
  · intro hg
    exact h.uninitIn_eq hbnd hapart hw hgi hg s.kind
  · intro b hb
    exact h.other _ (hapart.bitmaps s.kind s.group b hb gi hgi)

theorem GroupEdit.used_of_ne {f : Bytes → Bytes} (hbnd : m.fs.sb.Bounds) (hsep : m.Separate)
    (hw : m.WholeBlocks img buf) (hbgd : m.fs.groups[gi]? = some bgd)
    (h : GroupEdit m img kind gi bgd f buf buf') {s : Slot}
    (hs : ¬ (s.kind = kind ∧ s.group = gi)) :
    m.used (buf'.view img m.fs.sb.blockSize) s = m.used (buf.view img m.fs.sb.blockSize) s := by
  apply used_congr
  · intro hg
    exact h.uninitIn_eq hbnd hsep.apart hw hbgd hg s.kind
  · intro b hb
    apply h.other _ (hsep.apart.bitmaps s.kind s.group b hb gi (lt_of_getElem?_eq_some hbgd))
    exact fun he => hs (hsep.bitmaps _ _ _ _ _ _ hb hbgd he)

theorem GroupEdit.used_self {f : Bytes → Bytes} (hbnd : m.fs.sb.Bounds) (hapart : m.Apart)
    (hw : m.WholeBlocks img buf) (hbgd : m.fs.groups[gi]? = some bgd)
    (h : GroupEdit m img kind gi bgd f buf buf') (j : Nat) :
    m.used (buf'.view img m.fs.sb.blockSize) ⟨kind, gi, j⟩ =
      if m.uninitIn (buf.view img m.fs.sb.blockSize) kind gi then Lib.bit
        (m.impliedBitmap gi kind) j
      else Lib.bit (f (buf.view img m.fs.sb.blockSize (kind.bitmapBlock bgd))) j := by
  have hflag := h.uninitIn_eq hbnd hapart hw hbgd (lt_of_getElem?_eq_some hbgd) kind
  rw [used_of_some hbgd]
  dsimp only
  unfold bitmapIn
  rw [hflag]
  split
  · rfl
  · exact congrArg (fun b => Lib.bit b j) h.bitmap

theorem MarkEdit.bitmap_view {f : Bool → Bytes → Bytes} {was : Bool} (hsep : m.Separate)
    (hbgd : m.fs.groups[gi]? = some bgd) (h : MarkEdit m img kind gi bgd f was buf buf₁ buf')
    (k : BitmapKind) {b : BlockGroupDescriptor} (hb : m.fs.groups[g]? = some b) :
    buf₁.view img m.fs.sb.blockSize (k.bitmapBlock b) =
      buf.view img m.fs.sb.blockSize (k.bitmapBlock b) := by
  rw [h.clear.view]
  split
  · exact Function.update_of_ne
      (hsep.apart.bitmaps k g b hb gi (lt_of_getElem?_eq_some hbgd)) _ _
  · rfl

theorem MarkEdit.used_of_ne {f : Bool → Bytes → Bytes} {was : Bool} (hbnd : m.fs.sb.Bounds)
    (hsep : m.Separate) (hw : m.WholeBlocks img buf) (hbgd : m.fs.groups[gi]? = some bgd)
    (h : MarkEdit m img kind gi bgd f was buf buf₁ buf') {s : Slot}
    (hs : ¬ (s.kind = kind ∧ s.group = gi)) :
    m.used (buf'.view img m.fs.sb.blockSize) s = m.used (buf.view img m.fs.sb.blockSize) s := by
  rw [h.edit.used_of_ne hbnd hsep (h.clear.wholeBlocks hbnd hw) hbgd hs]
  apply used_congr
  · intro hg
    have hflag := h.clear.uninitIn_eq hbnd hsep.apart hw (lt_of_getElem?_eq_some hbgd) hg s.kind
    rw [decide_eq_false hs, Bool.not_false, Bool.and_true] at hflag
    exact hflag
  · intro b hb
    exact h.bitmap_view hsep hbgd s.kind hb

theorem MarkEdit.used_self {f : Bool → Bytes → Bytes} {was : Bool} (hbnd : m.fs.sb.Bounds)
    (hsep : m.Separate) (hw : m.WholeBlocks img buf) (hbgd : m.fs.groups[gi]? = some bgd)
    (h : MarkEdit m img kind gi bgd f was buf buf₁ buf') :
    ∃ bm : Bytes, bm.length = m.fs.sb.blockSize ∧ ∀ j,
      m.used (buf.view img m.fs.sb.blockSize) ⟨kind, gi, j⟩ =
          Lib.bit (if was then m.impliedBitmap gi kind else bm) j ∧
        m.used (buf'.view img m.fs.sb.blockSize) ⟨kind, gi, j⟩ = Lib.bit (f was bm) j := by
  have hgi := lt_of_getElem?_eq_some hbgd
  refine ⟨buf.view img m.fs.sb.blockSize (kind.bitmapBlock bgd), hw _, ?_⟩
  intro j
  constructor
  · rw [used_of_some hbgd, h.clear.was_eq]
    rfl
  · have hflag := h.clear.uninitIn_eq hbnd hsep.apart hw hgi hgi kind
    rw [decide_eq_true ⟨rfl, rfl⟩, Bool.not_true, Bool.and_false] at hflag
    rw [h.edit.used_self hbnd hsep.apart (h.clear.wholeBlocks hbnd hw) hbgd, hflag,
      if_neg (by decide), h.bitmap_view hsep hbgd kind hbgd]

end Edits

end Mount

namespace Mount

def blockSlots (m : Mount) (start len : Nat) : Set Slot :=
  {s | ∃ b, start ≤ b ∧ b < start + len ∧ s = m.blockSlot b}

/-- A run that starts past the boot block and does not leave its group. -/
structure InGroup (m : Mount) (start len : Nat) : Prop where
  first : m.fs.sb.firstDataBlock.toNat ≤ start
  fits : (m.blockSlot start).bit + len ≤ m.fs.sb.blocksPerGroup.toNat

section Runs

variable {m : Mount} {start len : Nat}

theorem blockSlot_add (h : m.InGroup start len) {i : Nat} (hi : i < len) :
    m.blockSlot (start + i) = ⟨.block, (m.blockSlot start).group, (m.blockSlot start).bit + i⟩ := by
  have hfirst := h.first
  have hfits := h.fits
  unfold blockSlot at hfits ⊢
  dsimp only at hfits ⊢
  generalize m.fs.sb.blocksPerGroup.toNat = bpg at hfits ⊢
  have hsub : start + i - m.fs.sb.firstDataBlock.toNat =
      (start - m.fs.sb.firstDataBlock.toNat) + i := by omega
  rw [hsub]
  generalize start - m.fs.sb.firstDataBlock.toNat = x at hfits ⊢
  have hlt : x % bpg + i < bpg := by omega
  have hsplit : x + i = x % bpg + i + bpg * (x / bpg) := by
    have hx := Nat.mod_add_div x bpg
    omega
  have hdiv : (x + i) / bpg = x / bpg := by
    rw [hsplit, Nat.add_mul_div_left _ _ (by omega), Nat.div_eq_of_lt hlt, Nat.zero_add]
  have hmod : (x + i) % bpg = x % bpg + i := by
    rw [hsplit, Nat.add_mul_mod_self_left, Nat.mod_eq_of_lt hlt]
  rw [hdiv, hmod]

theorem mem_blockSlots (h : m.InGroup start len) {s : Slot} (hs : s ∈ m.blockSlots start len) :
    s.kind = .block ∧ s.group = (m.blockSlot start).group ∧
      (m.blockSlot start).bit ≤ s.bit ∧ s.bit < (m.blockSlot start).bit + len := by
  obtain ⟨b, h1, h2, rfl⟩ := hs
  obtain ⟨i, rfl⟩ := Nat.exists_eq_add_of_le h1
  rw [blockSlot_add h (by omega)]
  exact ⟨rfl, rfl, Nat.le_add_right _ _, Nat.add_lt_add_left (by omega) _⟩

theorem sub_firstBlockOfGroup (hfirst : m.fs.sb.firstDataBlock.toNat ≤ start) :
    start - m.fs.sb.firstBlockOfGroup (m.blockSlot start).group = (m.blockSlot start).bit := by
  unfold Superblock.firstBlockOfGroup blockSlot
  dsimp only
  have hx := Nat.mod_add_div (start - m.fs.sb.firstDataBlock.toNat) m.fs.sb.blocksPerGroup.toNat
  rw [Nat.mul_comm] at hx
  omega

theorem blockSlot_firstBlockOfGroup {g j : Nat} (hj : j < m.fs.sb.blocksPerGroup.toNat) :
    m.blockSlot (m.fs.sb.firstBlockOfGroup g + j) = ⟨.block, g, j⟩ := by
  unfold Superblock.firstBlockOfGroup blockSlot
  have hx : m.fs.sb.firstDataBlock.toNat + g * m.fs.sb.blocksPerGroup.toNat + j -
      m.fs.sb.firstDataBlock.toNat = j + m.fs.sb.blocksPerGroup.toNat * g := by
    rw [Nat.mul_comm g]
    omega
  rw [hx, Nat.add_mul_div_left _ _ (by omega), Nat.div_eq_of_lt hj, Nat.zero_add,
    Nat.add_mul_mod_self_left, Nat.mod_eq_of_lt hj]

theorem blocksInGroup_le (hbnd : m.fs.sb.Bounds) (g : Nat) :
    blocksInGroup m.fs.sb g ≤ m.fs.sb.blocksPerGroup.toNat :=
  blocksInGroup_le_of_bounds hbnd g

end Runs

section Marks

variable {m : Mount}

theorem length_impliedBitmap (m : Mount) (g : Nat) (kind : BitmapKind) :
    (m.impliedBitmap g kind).length = m.fs.sb.blockSize := by
  cases kind with
  | block => exact length_uninitBlockBitmap _ _ _
  | inode => exact List.length_replicate

theorem bit_markedBlockBitmap (gi start len j : Nat) (was : Bool) (bm : Bytes)
    (hbm : bm.length = m.fs.sb.blockSize) :
    Lib.bit (m.markedBlockBitmap gi start len was bm) j =
      (Lib.bit (if was then m.impliedBitmap gi .block else bm) j ||
        decide (start ≤ j ∧ j < start + len ∧ j / 8 < m.fs.sb.blockSize)) := by
  have himp := m.length_impliedBitmap gi .block
  have hcopy : copyAt bm 0 ((m.impliedBitmap gi .block).take
      (min (m.impliedBitmap gi .block).length bm.length)) = m.impliedBitmap gi .block := by
    rw [himp, hbm, Nat.min_self, ← himp, List.take_length]
    unfold copyAt
    rw [List.take_zero, List.nil_append, Nat.zero_add, himp, ← hbm, List.drop_length,
      List.append_nil]
  unfold markedBlockBitmap
  dsimp only
  rw [bit_setBits]
  cases was with
  | false => simp [hbm]
  | true =>
    have hcopy' : copyAt bm 0 ((uninitBlockBitmap m.fs.sb m.fs.groups gi).take
        (min (uninitBlockBitmap m.fs.sb m.fs.groups gi).length bm.length)) =
        m.impliedBitmap gi .block := hcopy
    rw [if_pos rfl, if_pos rfl, hcopy', himp]

theorem bit_markedInodeBitmap (gi idx j : Nat) (was : Bool) (bm : Bytes)
    (hbm : bm.length = m.fs.sb.blockSize)
    (h : Lib.bit (if was then m.impliedBitmap gi .inode else bm) j = true ∨
      (idx = j ∧ idx / 8 < m.fs.sb.blockSize)) :
    Lib.bit (m.markedInodeBitmap idx was bm) j = true := by
  unfold markedInodeBitmap
  dsimp only
  rw [bit_setBit, Bool.or_eq_true, decide_eq_true_iff]
  obtain h | h := h
  · left
    cases was with
    | false => exact h
    | true =>
      rw [if_pos rfl, impliedBitmap, bit_replicate_zero] at h
      cases h
  · right
    cases was with
    | false => simpa [hbm] using h
    | true => simpa [hbm] using h

end Marks

end Mount

namespace Mount

theorem Separate.ne_desc {m : Mount} (hsep : m.Separate) (kind : BitmapKind) (g : Nat)
    (b : BlockGroupDescriptor) (hb : m.fs.groups[g]? = some b) :
    kind.bitmapBlock b ≠ (m.descAt g).1 :=
  hsep.apart.bitmaps kind g b hb g (lt_of_getElem?_eq_some hb)

section Operations

variable {crc : Crc} {m : Mount} {d : Disk} {buf buf' : BlockBuffer} (hbnd : m.fs.sb.Bounds)
  (hsep : m.Separate) (hw : m.WholeBlocks d.img buf)

include hbnd hsep hw

theorem markBlocks_used {start len : Nat} (hrun : m.InGroup start len)
    (h : m.bufferMarkBlockRunUsed crc (m.fs.reader d) buf start len = .ok buf') :
    (∀ s, m.used (buf.view d.img m.fs.sb.blockSize) s = true →
        m.used (buf'.view d.img m.fs.sb.blockSize) s = true) ∧
      ∀ s ∈ m.blockSlots start len, m.used (buf'.view d.img m.fs.sb.blockSize) s = true := by
  obtain ⟨gi, bgd, was, buf₁, hgi, hbgd, he⟩ :=
    bufferMarkBlockRunUsed_ok hbnd hw (hsep.ne_desc .block) h
  obtain ⟨bm, hbm, hself⟩ := he.used_self hbnd hsep hw hbgd
  have hbit : start - m.fs.sb.firstBlockOfGroup gi = (m.blockSlot start).bit := by
    rw [hgi]
    exact sub_firstBlockOfGroup hrun.first
  rw [hbit] at hself
  constructor
  · intro s hs
    by_cases hin : s.kind = .block ∧ s.group = gi
    · obtain ⟨k, g, j⟩ := s
      obtain ⟨rfl, rfl⟩ := hin
      rw [(hself j).2, bit_markedBlockBitmap _ _ _ _ _ _ hbm, ← (hself j).1, hs, Bool.true_or]
    · rwa [he.used_of_ne hbnd hsep hw hbgd hin]
  · intro s hs
    obtain ⟨h1, h2, h3, h4⟩ := mem_blockSlots hrun hs
    have hfits := hrun.fits
    have hbits := hbnd.bitmap
    obtain ⟨k, g, j⟩ := s
    dsimp only at h1 h2 h3 h4
    obtain rfl : g = gi := h2.trans hgi.symm
    subst h1
    rw [(hself j).2, bit_markedBlockBitmap _ _ _ _ _ _ hbm,
      decide_eq_true ⟨h3, h4, by omega⟩, Bool.or_true]

theorem markInode_used {ino : Nat}
    (h : m.bufferMarkInodeUsed crc (m.fs.reader d) buf ino = .ok buf') :
    (∀ s, m.used (buf.view d.img m.fs.sb.blockSize) s = true →
        m.used (buf'.view d.img m.fs.sb.blockSize) s = true) ∧
      ((m.inodeSlot ino).bit < m.fs.sb.blockSize * 8 →
        m.used (buf'.view d.img m.fs.sb.blockSize) (m.inodeSlot ino) = true) := by
  obtain ⟨gi, bgd, was, buf₁, hgi, hbgd, he⟩ :=
    bufferMarkInodeUsed_ok hbnd hw (hsep.ne_desc .inode) h
  obtain ⟨bm, hbm, hself⟩ := he.used_self hbnd hsep hw hbgd
  constructor
  · intro s hs
    by_cases hin : s.kind = .inode ∧ s.group = gi
    · obtain ⟨k, g, j⟩ := s
      obtain ⟨rfl, rfl⟩ := hin
      rw [(hself j).2]
      apply bit_markedInodeBitmap _ _ _ _ _ hbm
      exact Or.inl ((hself j).1.symm.trans hs)
    · rwa [he.used_of_ne hbnd hsep hw hbgd hin]
  · intro hbit
    have hslot : m.inodeSlot ino = ⟨.inode, gi, (ino - 1) % m.fs.sb.inodesPerGroup.toNat⟩ := by
      rw [hgi]
      rfl
    rw [hslot] at hbit ⊢
    dsimp only at hbit
    rw [(hself _).2]
    apply bit_markedInodeBitmap gi _ _ _ _ hbm
    exact Or.inr ⟨rfl, by omega⟩

end Operations

end Mount

namespace Mount

section Frees

variable {crc : Crc} {m : Mount} {d : Disk} {buf buf' : BlockBuffer}

theorem groupChunksFrom_mem (hbnd : m.fs.sb.Bounds) {stop n at_ : Nat}
    {chunks : List (Nat × Nat × Nat)} (hfirst : m.fs.sb.firstDataBlock.toNat ≤ at_)
    (h : m.groupChunksFrom stop n at_ = .ok chunks) :
    ∀ c ∈ chunks, ∀ j, c.2.1 ≤ j → j < c.2.1 + c.2.2 →
      ∃ b, at_ ≤ b ∧ b < stop ∧ (⟨.block, c.1, j⟩ : Slot) = m.blockSlot b := by
  induction n generalizing at_ chunks with
  | zero =>
    rw [groupChunksFrom] at h
    split at h
    · cases h
    · obtain rfl := Except.ok.inj h
      intro c hc
      exact absurd hc List.not_mem_nil
  | succ n ih =>
    rw [groupChunksFrom] at h
    split at h
    · dsimp only at h
      split at h
      · cases h
      · split at h
        · cases h
        · rename_i hlt _ rest hrest
          obtain rfl := Except.ok.inj h
          have hpos := hbnd.blocksPerGroup
          generalize hgi : (at_ - m.fs.sb.firstDataBlock.toNat) / m.fs.sb.blocksPerGroup.toNat = gi
            at hrest
          have hgs : m.fs.sb.firstDataBlock.toNat + gi * m.fs.sb.blocksPerGroup.toNat ≤ at_ ∧
              at_ < m.fs.sb.firstDataBlock.toNat + gi * m.fs.sb.blocksPerGroup.toNat +
                m.fs.sb.blocksPerGroup.toNat := by
            have h1 := Nat.div_mul_le_self (at_ - m.fs.sb.firstDataBlock.toNat)
              m.fs.sb.blocksPerGroup.toNat
            have h2 := Nat.lt_div_mul_add hpos (a := at_ - m.fs.sb.firstDataBlock.toNat)
            rw [hgi] at h1 h2
            omega
          intro c hc j h1 h2
          obtain rfl | hc := List.mem_cons.mp hc
          · dsimp only at h1 h2 ⊢
            refine ⟨m.fs.sb.firstBlockOfGroup gi + j, ?_, ?_, ?_⟩
            · unfold Superblock.firstBlockOfGroup
              omega
            · unfold Superblock.firstBlockOfGroup
              omega
            · rw [blockSlot_firstBlockOfGroup (by omega)]
          · obtain ⟨b, hb1, hb2, hb3⟩ := ih (by omega) hrest c hc j h1 h2
            exact ⟨b, by omega, hb2, hb3⟩
    · obtain rfl := Except.ok.inj h
      intro c hc
      exact absurd hc List.not_mem_nil

variable (hbnd : m.fs.sb.Bounds) (hsep : m.Separate)

include hbnd hsep

theorem GroupEdit.used_of_clear {kind : BitmapKind} {gi : Nat} {bgd : BlockGroupDescriptor}
    {f : Bytes → Bytes} {cleared : Nat → Prop} (hw : m.WholeBlocks d.img buf)
    (hbgd : m.fs.groups[gi]? = some bgd)
    (h : GroupEdit m d.img kind gi bgd f buf buf')
    (hf : ∀ b j, Lib.bit b j = true → ¬ cleared j → Lib.bit (f b) j = true) {s : Slot}
    (hs : m.used (buf.view d.img m.fs.sb.blockSize) s = true) :
    m.used (buf'.view d.img m.fs.sb.blockSize) s = true ∨
      (s.kind = kind ∧ s.group = gi ∧ cleared s.bit) := by
  by_cases hin : s.kind = kind ∧ s.group = gi
  · obtain ⟨k, g, j⟩ := s
    obtain ⟨rfl, rfl⟩ := hin
    by_cases hc : cleared j
    · exact Or.inr ⟨rfl, rfl, hc⟩
    · left
      rw [used_of_some hbgd] at hs
      rw [h.used_self hbnd hsep.apart hw hbgd]
      unfold bitmapIn at hs
      dsimp only at hs ⊢
      split at hs
      · rename_i hu
        rwa [if_pos hu]
      · rename_i hu
        rw [if_neg hu]
        exact hf _ j hs hc
  · left
    rwa [h.used_of_ne hbnd hsep hw hbgd hin]

theorem freeChunks_used (chunks : List (Nat × Nat × Nat)) (hw : m.WholeBlocks d.img buf)
    (h : m.bufferFreeChunks crc (m.fs.reader d) buf chunks = .ok buf') {s : Slot}
    (hs : m.used (buf.view d.img m.fs.sb.blockSize) s = true) :
    m.used (buf'.view d.img m.fs.sb.blockSize) s = true ∨
      ∃ c ∈ chunks, s.kind = .block ∧ s.group = c.1 ∧ c.2.1 ≤ s.bit ∧ s.bit < c.2.1 + c.2.2 := by
  induction chunks generalizing buf with
  | nil =>
    obtain rfl := Except.ok.inj h
    exact Or.inl hs
  | cons c rest ih =>
    obtain ⟨g, bitStart, len⟩ := c
    obtain ⟨buf₁, hc, hr⟩ := Result.bind_eq_ok h
    obtain ⟨bgd, hbgd, he⟩ := bufferFreeChunk_ok hbnd hw (hsep.ne_desc .block) hc
    have hw₁ := he.wholeBlocks (fun b => length_clearBits b _ _) hw
    have hclear : ∀ b j, Lib.bit b j = true → ¬ (bitStart ≤ j ∧ j < bitStart + len) →
        Lib.bit (clearBits b bitStart len) j = true := by
      intro b j hb hj
      rw [bit_clearBits, hb, decide_eq_false hj]
      rfl
    obtain h1 | ⟨h1, h2, h3⟩ := he.used_of_clear hbnd hsep hw hbgd hclear hs
    · obtain h4 | ⟨c, hc, h4⟩ := ih hw₁ hr h1
      · exact Or.inl h4
      · exact Or.inr ⟨c, List.mem_cons_of_mem _ hc, h4⟩
    · exact Or.inr ⟨_, List.mem_cons_self, h1, h2, h3⟩

theorem freeBlocks_used {start len : Nat} (hw : m.WholeBlocks d.img buf)
    (h : m.bufferFreeBlockRunAndBgd crc (m.fs.reader d) buf start len = .ok buf') {s : Slot}
    (hs : m.used (buf.view d.img m.fs.sb.blockSize) s = true) :
    m.used (buf'.view d.img m.fs.sb.blockSize) s = true ∨ s ∈ m.blockSlots start len := by
  obtain ⟨chunks, hc, hf⟩ := Result.bind_eq_ok h
  obtain h1 | ⟨c, hmem, h1, h2, h3, h4⟩ := freeChunks_used hbnd hsep chunks hw hf hs
  · exact Or.inl h1
  · right
    unfold groupChunks at hc
    split at hc
    · cases hc
    split at hc
    · cases hc
    rename_i hlow
    split at hc
    · cases hc
    obtain ⟨b, hb1, hb2, hb3⟩ :=
      groupChunksFrom_mem hbnd (by omega) hc c hmem s.bit h3 h4
    refine ⟨b, hb1, hb2, ?_⟩
    rw [← hb3, ← h1, ← h2]

theorem freeInode_used {ino : Nat} (hw : m.WholeBlocks d.img buf)
    (h : m.bufferFreeInodeSlot crc (m.fs.reader d) buf ino = .ok buf') {s : Slot}
    (hs : m.used (buf.view d.img m.fs.sb.blockSize) s = true) :
    m.used (buf'.view d.img m.fs.sb.blockSize) s = true ∨ s = m.inodeSlot ino := by
  obtain ⟨gi, bgd, hgi, hbgd, he⟩ := bufferFreeInodeSlot_ok hbnd hw (hsep.ne_desc .inode) h
  have hclear : ∀ b j, Lib.bit b j = true → ¬ ((ino - 1) % m.fs.sb.inodesPerGroup.toNat = j) →
      Lib.bit (clearBit b ((ino - 1) % m.fs.sb.inodesPerGroup.toNat)) j = true := by
    intro b j hb hj
    rw [bit_clearBit, hb, decide_eq_false hj]
    rfl
  obtain h1 | ⟨h1, h2, h3⟩ := he.used_of_clear hbnd hsep hw hbgd hclear hs
  · exact Or.inl h1
  · right
    unfold inodeSlot
    rw [h3, ← hgi, ← h1, ← h2]

end Frees

end Mount

end FsExt4
