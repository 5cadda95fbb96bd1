import FsExt4.StagedInode

namespace FsExt4

open Lib Jbd2

/-- Store a size and a count of 512-byte sectors, of which there is room for 48 bits. -/
def patchInodeSizeAndBlocks (raw : Bytes) (newSize newBlockCount : Nat) : Result Bytes :=
  if raw.length < inodeBaseSize then .error (.corrupt "patch_inode: buffer too small")
  else
    let raw := copyAt raw 0x04 (u32le (UInt32.ofNat (newSize % 2 ^ 32)))
    let raw := copyAt raw 0x6C (u32le (UInt32.ofNat (newSize / 2 ^ 32)))
    let raw := copyAt raw 0x1C (u32le (UInt32.ofNat (newBlockCount % 2 ^ 32)))
    .ok (copyAt raw 0x74 (u16le (UInt16.ofNat (newBlockCount / 2 ^ 32 % 2 ^ 16))))

def patchInodeBlockArea (raw newRoot : Bytes) : Result Bytes :=
  if raw.length < inodeBaseSize then .error (.corrupt "patch_inode_block_area: buffer too small")
  else if newRoot.length ≠ 60 then .error (.corrupt "patch_inode_block_area: new_root != 60 bytes")
  else .ok (copyAt raw 0x28 newRoot)

inductive InodeTime where
  | atime
  | ctime
  | mtime
  | crtime
  deriving DecidableEq

namespace InodeTime

def baseOffset : InodeTime → Nat
  | atime => 0x08
  | ctime => 0x0C
  | mtime => 0x10
  | crtime => 0x90

def extraOffset : InodeTime → Nat
  | ctime => 0x84
  | mtime => 0x88
  | atime => 0x8C
  | crtime => 0x94

end InodeTime

/-- The four bytes at an offset lie in the part of the inode that `i_extra_isize` declares. -/
def extraFieldFits (raw : Bytes) (offset : Nat) : Bool :=
  decide (0x82 ≤ raw.length ∧ offset + 4 ≤ raw.length ∧
    offset + 4 ≤ inodeExtraOffset + (u16leAt raw 0x80).toNat)

def minEncodableTime : Int := -2 ^ 31

def maxEncodableTime : Int := 2 ^ 31 - 1 + 3 * 2 ^ 32

def lowWord (secs : Int) : UInt32 := UInt32.ofNat (secs % 2 ^ 32).toNat

def packSeconds (secs : Int) : UInt32 × UInt32 :=
  let halfWindows := secs / 2 ^ 31
  (lowWord secs, lowWord ((halfWindows + 1) / 2) &&& 3)

def clampTime (low high secs : Int) : Int := max low (min secs high)

def setInodeTime (raw : Bytes) (field : InodeTime) (secs : Int) : Bytes :=
  if extraFieldFits raw field.extraOffset then
    let (base, era) := packSeconds (clampTime minEncodableTime maxEncodableTime secs)
    copyAt (copyAt raw field.baseOffset (u32le base)) field.extraOffset (u32le era)
  else if field ≠ .crtime ∨ extraFieldFits raw field.baseOffset then
    copyAt raw field.baseOffset (u32le (lowWord (clampTime (-2 ^ 31) (2 ^ 31 - 1) secs)))
  else raw

/-- The sectors of the block that holds an inode's extended attributes. -/
def xattrBlockSectors (inode : Inode) (blockSize : Nat) : Nat :=
  if inode.fileAcl ≠ 0 then blockSize / 512 else 0

/-- Size, sectors, both times and the checksum of an inode that was written to. -/
def Mount.finalizeInodeRawAfterWrite (crc : Crc) (m : Mount) (now : Int) (ino : UInt32)
    (raw : Bytes) (orig : Inode) (newSize newSectors : Nat) : Result Bytes := do
  let raw ← patchInodeSizeAndBlocks raw newSize newSectors
  let raw := setInodeTime raw .ctime now
  let raw := setInodeTime raw .mtime now
  return if m.csum.enabled then m.csum.patchInodeChecksum crc ino orig.generation raw else raw

structure SameFields (raw' raw : Bytes) : Prop where
  length : raw'.length = raw.length
  front : AgreeOn raw' raw 0 0x08
  body : AgreeOn raw' raw 0x1A 0x78
  extra : AgreeOn raw' raw 0x80 0x82

namespace SameFields

variable {raw raw' raw'' : Bytes}

theorem refl (raw : Bytes) : SameFields raw raw :=
  ⟨rfl, AgreeOn.refl _ _ _, AgreeOn.refl _ _ _, AgreeOn.refl _ _ _⟩

theorem trans (h : SameFields raw'' raw') (h' : SameFields raw' raw) : SameFields raw'' raw :=
  ⟨h.length.trans h'.length, h.front.trans h'.front, h.body.trans h'.body, h.extra.trans h'.extra⟩

theorem parses (h : SameFields raw' raw) (hparses : Inode.Parses raw) : Inode.Parses raw' :=
  hparses.of_agree h.length h.extra

theorem fields (h : SameFields raw' raw) : Inode.fields raw' = Inode.fields raw := by
  unfold Inode.fields
  rw [h.front.u16leAt 0 (by decide) (by decide), h.body.u32leAt 0x6C (by decide) (by decide),
    h.front.u32leAt 0x04 (by decide) (by decide), h.body.u16leAt 0x1A (by decide) (by decide),
    h.body.u16leAt 0x74 (by decide) (by decide), h.body.u32leAt 0x1C (by decide) (by decide),
    h.body.u32leAt 0x20 (by decide) (by decide), h.body 0x28 60 (by decide) (by decide),
    h.body.u32leAt 0x64 (by decide) (by decide), h.body.u16leAt 0x76 (by decide) (by decide),
    h.body.u32leAt 0x68 (by decide) (by decide)]

theorem copyAt (off : Nat) (v : UInt32) (hfit : off + 4 ≤ raw.length)
    (hoff : 0x08 ≤ off ∧ off + 4 ≤ 0x1A ∨ 0x82 ≤ off) : SameFields
      (copyAt raw off (u32le v)) raw := by
  refine ⟨length_copyAt raw off _ (by rw [length_u32le]; exact hfit), ?_, ?_, ?_⟩ <;>
    exact agreeOn_copyAt raw off _ _ _ (by omega) (by rw [length_u32le]; omega)

end SameFields

theorem sameFields_setInodeTime (raw : Bytes) (field : InodeTime) (secs : Int)
    (hlen : inodeBaseSize ≤ raw.length) : SameFields (setInodeTime raw field secs) raw := by
  have h128 : 128 ≤ raw.length := hlen
  have hbase : ∀ v : UInt32, field ≠ .crtime ∨ extraFieldFits raw field.baseOffset = true →
      SameFields (copyAt raw field.baseOffset (u32le v)) raw := by
    intro v hwhere
    refine .copyAt _ v ?_ (by cases field <;> simp [InodeTime.baseOffset])
    obtain hne | hfits := hwhere
    · cases field <;> first | exact absurd rfl hne | (simp only [InodeTime.baseOffset]; omega)
    · unfold extraFieldFits at hfits
      exact (of_decide_eq_true hfits).2.1
  unfold setInodeTime
  split
  · rename_i hfits
    unfold extraFieldFits at hfits
    obtain ⟨h82, hroom, hdeclared⟩ := of_decide_eq_true hfits
    have hfirst := hbase (packSeconds (clampTime minEncodableTime maxEncodableTime secs)).1 (by
      by_cases hcrtime : field = .crtime
      · right
        unfold extraFieldFits
        subst hcrtime
        simp only [InodeTime.extraOffset] at hroom hdeclared
        simp only [InodeTime.baseOffset]
        exact decide_eq_true ⟨h82, by omega, by omega⟩
      · exact Or.inl hcrtime)
    refine SameFields.trans (.copyAt _ _ ?_ ?_) hfirst
    · exact Nat.le_trans hroom (Nat.le_of_eq hfirst.length.symm)
    · cases field <;> simp [InodeTime.extraOffset]
  · split
    · rename_i hwhere
      exact hbase _ hwhere
    · exact .refl raw

section Patches

variable {raw raw' : Bytes}

theorem patchInodeBlockArea_ok {newRoot : Bytes} (hparses : Inode.Parses raw)
    (h : patchInodeBlockArea raw newRoot = .ok raw') :
    raw'.length = raw.length ∧ Inode.Parses raw' ∧ newRoot.length = 60 ∧
      Inode.fields raw' = { Inode.fields raw with block := newRoot } := by
  have h128 : 128 ≤ raw.length := hparses.base
  unfold patchInodeBlockArea at h
  split at h
  · cases h
  split at h
  · cases h
  rename_i hroot
  rw [not_not] at hroot
  obtain rfl := Except.ok.inj h
  have hlen := length_copyAt raw 0x28 newRoot (by omega)
  have hfront := agreeOn_copyAt raw 0x28 newRoot 0 0x28 (by omega) (.inl (Nat.le_refl _))
  have hrest := agreeOn_copyAt raw 0x28 newRoot 0x64 0x82 (by omega) (.inr (by omega))
  have hself := slice_copyAt_self raw 0x28 newRoot (by omega)
  rw [hroot] at hself
  refine ⟨hlen, hparses.of_agree hlen (hrest.mono (by decide) (by decide)), hroot, ?_⟩
  unfold Inode.fields
  rw [hfront.u16leAt 0 (by decide) (by decide), hrest.u32leAt 0x6C (by decide) (by decide),
    hfront.u32leAt 0x04 (by decide) (by decide), hfront.u16leAt 0x1A (by decide) (by decide),
    hrest.u16leAt 0x74 (by decide) (by decide), hfront.u32leAt 0x1C (by decide) (by decide),
    hfront.u32leAt 0x20 (by decide) (by decide), hself, hrest.u32leAt 0x64 (by decide) (by decide),
    hrest.u16leAt 0x76 (by decide) (by decide), hrest.u32leAt 0x68 (by decide) (by decide)]

def sizePatches (newSize newBlockCount : Nat) : List (Nat × Bytes) :=
  [(0x04, u32le (UInt32.ofNat (newSize % 2 ^ 32))), (0x6C, u32le (UInt32.ofNat (newSize / 2 ^ 32))),
    (0x1C, u32le (UInt32.ofNat (newBlockCount % 2 ^ 32))),
    (0x74, u16le (UInt16.ofNat (newBlockCount / 2 ^ 32 % 2 ^ 16)))]

variable {newSize newSectors : Nat}

theorem patchInodeSizeAndBlocks_eq (hlen : inodeBaseSize ≤ raw.length) :
    patchInodeSizeAndBlocks raw newSize newSectors =
      .ok (copyAll raw (sizePatches newSize newSectors)) := by
  unfold patchInodeSizeAndBlocks
  rw [if_neg (Nat.not_lt.mpr hlen)]
  rfl

theorem sizePatches_fit (hlen : inodeBaseSize ≤ raw.length) :
    ∀ p ∈ sizePatches newSize newSectors, p.1 + p.2.length ≤ raw.length := by
  have h128 : 128 ≤ raw.length := hlen
  intro p hp
  simp only [sizePatches, List.mem_cons, List.not_mem_nil, or_false] at hp
  obtain rfl | rfl | rfl | rfl := hp <;> simp <;> omega

theorem agreeOn_sizePatches (hlen : inodeBaseSize ≤ raw.length) {start stop : Nat}
    (h1 : stop ≤ 0x04 ∨ 0x08 ≤ start) (h2 : stop ≤ 0x6C ∨ 0x70 ≤ start)
    (h3 : stop ≤ 0x1C ∨ 0x20 ≤ start) (h4 : stop ≤ 0x74 ∨ 0x76 ≤ start) :
    AgreeOn (copyAll raw (sizePatches newSize newSectors)) raw start stop := by
  apply agreeOn_copyAll raw _ start stop (sizePatches_fit hlen)
  intro p hp
  simp only [sizePatches, List.mem_cons, List.not_mem_nil, or_false] at hp
  obtain rfl | rfl | rfl | rfl := hp <;> simp <;> omega

theorem join32_ofNat {n : Nat} (h : n < 2 ^ 64) :
    join32 (UInt32.ofNat (n / 2 ^ 32)).toNat (UInt32.ofNat (n % 2 ^ 32)).toNat = n := by
  unfold join32
  rw [UInt32.toNat_ofNat', UInt32.toNat_ofNat']
  omega

theorem join32_ofNat16 {n : Nat} (h : n < 2 ^ 48) :
    join32 (UInt16.ofNat (n / 2 ^ 32 % 2 ^ 16)).toNat (UInt32.ofNat (n % 2 ^ 32)).toNat = n := by
  unfold join32
  rw [UInt16.toNat_ofNat', UInt32.toNat_ofNat']
  omega

theorem patchInodeSizeAndBlocks_ok (hparses : Inode.Parses raw) (hsize : newSize < 2 ^ 64)
    (hsectors : newSectors < 2 ^ 48)
      (h : patchInodeSizeAndBlocks raw newSize newSectors = .ok raw') :
    raw'.length = raw.length ∧ Inode.Parses raw' ∧
      Inode.fields raw' = { Inode.fields raw with size := newSize, blocks := newSectors } := by
  have hbase := hparses.base
  have hfit : ∀ p ∈ sizePatches newSize newSectors, p.1 + p.2.length ≤ raw.length :=
    sizePatches_fit hbase
  rw [patchInodeSizeAndBlocks_eq hbase] at h
  obtain rfl := Except.ok.inj h
  have hlen := length_copyAll raw _ hfit
  have hkeep : ∀ {start stop : Nat}, _ → _ → _ → _ →
      AgreeOn (copyAll raw (sizePatches newSize newSectors)) raw start stop :=
    fun h1 h2 h3 h4 => agreeOn_sizePatches hbase h1 h2 h3 h4
  have hlo := u32leAt_copyAll raw (sizePatches newSize newSectors) [] _ 0x04 _ hfit rfl (by simp)
  have hhi := u32leAt_copyAll raw (sizePatches newSize newSectors)
    ((sizePatches newSize newSectors).take 1) _ 0x6C _ hfit rfl (by simp)
  have hblo := u32leAt_copyAll raw (sizePatches newSize newSectors)
    ((sizePatches newSize newSectors).take 2) _ 0x1C _ hfit rfl (by simp)
  have hbhi : u16leAt (copyAll raw (sizePatches newSize newSectors)) 0x74 = _ :=
    u16leAt_copyAt (copyAll raw ((sizePatches newSize newSectors).take 3)) 0x74 _ (by
      rw [length_copyAll raw _ (fun p hp => hfit p (List.mem_of_mem_take hp))]
      exact Nat.le_trans (by decide) hbase)
  have hextra : AgreeOn (copyAll raw (sizePatches newSize newSectors)) raw 0x80 0x82 :=
    hkeep (.inr (by decide)) (.inr (by decide)) (.inr (by decide)) (.inr (by decide))
  have hmode : AgreeOn (copyAll raw (sizePatches newSize newSectors)) raw 0 0x04 :=
    hkeep (.inl (by decide)) (.inl (by decide)) (.inl (by decide)) (.inl (by decide))
  have hlinks : AgreeOn (copyAll raw (sizePatches newSize newSectors)) raw 0x08 0x1C :=
    hkeep (.inr (by decide)) (.inl (by decide)) (.inl (by decide)) (.inl (by decide))
  have hbody : AgreeOn (copyAll raw (sizePatches newSize newSectors)) raw 0x20 0x6C :=
    hkeep (.inr (by decide)) (.inl (by decide)) (.inr (by decide)) (.inl (by decide))
  have hacl : AgreeOn (copyAll raw (sizePatches newSize newSectors)) raw 0x76 0x78 :=
    hkeep (.inr (by decide)) (.inr (by decide)) (.inr (by decide)) (.inr (by decide))
  refine ⟨hlen, hparses.of_agree hlen hextra, ?_⟩
  unfold Inode.fields
  rw [hmode.u16leAt 0 (by decide) (by decide), hhi, hlo, hlinks.u16leAt 0x1A (by decide)
    (by decide),
    hbhi, hblo, hbody.u32leAt 0x20 (by decide) (by decide), hbody 0x28 60 (by decide) (by decide),
    hbody.u32leAt 0x64 (by decide) (by decide), hacl.u16leAt 0x76 (by decide) (by decide),
    hbody.u32leAt 0x68 (by decide) (by decide), join32_ofNat hsize, join32_ofNat16 hsectors]

theorem Mount.finalizeInodeRawAfterWrite_ok {crc : Crc} {m : Mount} {now : Int} {ino : UInt32}
    {orig : Inode} (hparses : Inode.Parses raw) (hsize : newSize < 2 ^ 64)
    (hsectors : newSectors < 2 ^ 48)
    (h : m.finalizeInodeRawAfterWrite crc now ino raw orig newSize newSectors = .ok raw') :
    raw'.length = raw.length ∧
      Inode.parse raw' = .ok { Inode.fields raw with size := newSize, blocks := newSectors } ∧
      (m.csum.enabled = true → m.csum.verifyInode crc ino orig.generation raw' = true) := by
  unfold finalizeInodeRawAfterWrite at h
  obtain ⟨raw₁, hpatch, h⟩ := Result.bind_eq_ok h
  obtain rfl := Except.ok.inj h
  obtain ⟨hlen, hparses₁, hfields⟩ := patchInodeSizeAndBlocks_ok hparses hsize hsectors hpatch
  have hctime := sameFields_setInodeTime raw₁ .ctime now hparses₁.base
  have hmtime := sameFields_setInodeTime (setInodeTime raw₁ .ctime now) .mtime now
    (hctime.parses hparses₁).base
  have hsame := hmtime.trans hctime
  obtain ⟨hwritten, ⟨hparses', hfields'⟩, hchecked⟩ :=
    m.csum.dirInode_ok crc ino orig.generation (hsame.parses hparses₁)
  refine ⟨by rw [hwritten, hsame.length, hlen], ?_, hchecked⟩
  rw [Inode.parse_eq_ok]
  refine ⟨hparses', ?_⟩
  rw [← hfields', hsame.fields, hfields]

end Patches

end FsExt4
