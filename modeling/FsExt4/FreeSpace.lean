import FsExt4.AllocationSafety

namespace FsExt4

open Lib Jbd2 Alloc

namespace Alloc

theorem firstAnswer_ok_iff {β : Type} {e : Error} {answer : Nat → Option (Result β)}
    {order : List Nat} :
    (∃ b, firstAnswer e answer order = .ok b) ↔
      ∃ pre g post b, order = pre ++ g :: post ∧ (∀ g' ∈ pre, answer g' = none) ∧
        answer g = some (.ok b) := by
  induction order with
  | nil =>
    constructor
    · rintro ⟨b, hb⟩
      cases hb
    · rintro ⟨pre, g, post, b, hnil, -⟩
      exact absurd hnil.symm (by simp)
  | cons g₀ rest ih =>
    rw [firstAnswer]
    cases ha : answer g₀ with
    | none =>
      dsimp only
      rw [ih]
      constructor
      · rintro ⟨pre, g, post, b, rfl, hpre, hg⟩
        refine ⟨g₀ :: pre, g, post, b, rfl, ?_, hg⟩
        intro g' hg'
        obtain rfl | hg' := List.mem_cons.mp hg'
        · exact ha
        · exact hpre g' hg'
      · rintro ⟨pre, g, post, b, heq, hpre, hg⟩
        cases pre with
        | nil =>
          obtain ⟨rfl, -⟩ := List.cons.inj heq
          rw [ha] at hg
          cases hg
        | cons p pre =>
          obtain ⟨rfl, rfl⟩ := List.cons.inj heq
          exact ⟨pre, g, post, b, rfl, fun g' hg' => hpre g' (List.mem_cons_of_mem _ hg'), hg⟩
    | some r =>
      dsimp only
      constructor
      · rintro ⟨b, rfl⟩
        exact ⟨[], g₀, rest, b, rfl, fun g' hg' => absurd hg' List.not_mem_nil, ha⟩
      · rintro ⟨pre, g, post, b, heq, hpre, hg⟩
        cases pre with
        | nil =>
          obtain ⟨rfl, -⟩ := List.cons.inj heq
          rw [ha] at hg
          exact ⟨b, Option.some.inj hg⟩
        | cons p pre =>
          obtain ⟨rfl, -⟩ := List.cons.inj heq
          rw [hpre g₀ List.mem_cons_self] at ha
          cases ha

end Alloc

namespace Mount

/-- A run of `n` free blocks inside a group, by the bitmap of a view. -/
def FreeRunOn (m : Mount) (v : Nat → Bytes) (n g : Nat) : Prop :=
  g < m.fs.groups.length ∧ ∃ r, r + n ≤ blocksInGroup m.fs.sb g ∧
    ∀ k, k < n → m.used v ⟨.block, g, r + k⟩ = false

def FreeRunIn (m : Mount) (d : Disk) (n g : Nat) : Prop :=
  g < m.fs.groups.length ∧ ∃ r, r + n ≤ blocksInGroup m.fs.sb g ∧
    ∀ k, k < n → m.used (d.img.block m.fs.sb.blockSize) ⟨.block, g, r + k⟩ = false

def BlocksAtMount (m : Mount) (n g : Nat) : Prop :=
  ∃ bgd : BlockGroupDescriptor, m.fs.groups[g]? = some bgd ∧ n ≤ bgd.freeBlocksCount

def InodesAtMount (m : Mount) (g : Nat) : Prop :=
  ∃ bgd : BlockGroupDescriptor, m.fs.groups[g]? = some bgd ∧ 0 < bgd.freeInodesCount

/-- A free inode of a group that is not reserved, by the bitmap on disk. -/
def FreeInodeBit (m : Mount) (d : Disk) (g j : Nat) : Prop :=
  g < m.fs.groups.length ∧ reservedFloor m.fs.sb g ≤ j ∧
    j < min m.fs.sb.inodesPerGroup.toNat (m.fs.sb.blockSize * 8) ∧
    m.used (d.img.block m.fs.sb.blockSize) ⟨.inode, g, j⟩ = false

def FreeInodeOnDisk (m : Mount) (d : Disk) : Prop :=
  ∃ g j, FreeInodeBit m d g j ∧ inodeNumber m.fs.sb g j ≤ m.fs.sb.inodesCount.toNat

/-- The first group in order that had a free inode at mount and has one now, and the first it
has. -/
def FirstKnownInode (m : Mount) (d : Disk) (order : List Nat) (g j : Nat) : Prop :=
  (∃ pre post, order = pre ++ g :: post ∧
    ∀ g' ∈ pre, InodesAtMount m g' → ∀ j', ¬ FreeInodeBit m d g' j') ∧
  InodesAtMount m g ∧ FreeInodeBit m d g j ∧ ∀ j', j' < j → ¬ FreeInodeBit m d g j'

theorem overrideFlags_counts {groups : List BlockGroupDescriptor} {flags : SortedMap UInt16}
    {g : Nat} {bgd bgd₀ : BlockGroupDescriptor} (h : (overrideFlags groups flags)[g]? = some bgd)
    (h₀ : groups[g]? = some bgd₀) :
    bgd.freeBlocksCount = bgd₀.freeBlocksCount ∧ bgd.freeInodesCount = bgd₀.freeInodesCount := by
  rw [getElem?_overrideFlags, h₀] at h
  obtain rfl := Option.some.inj h
  cases flags.get? g with
  | none => exact ⟨rfl, rfl⟩
  | some f => exact ⟨rfl, rfl⟩

section Candidates

variable {m : Mount} {v : Nat → Bytes} {groups : List BlockGroupDescriptor}

/-- Over descriptors that mirror the view, a group is a candidate for `n` blocks when it has them
now and had them at mount. -/
theorem Mirrors.blockCandidate_iff (h : m.Mirrors v groups) (hbnd : m.fs.sb.Bounds)
    (hwhole : ∀ b, (v b).length = m.fs.sb.blockSize) {read : Nat → Result Bytes}
    (hread : ∀ b bytes, read b = .ok bytes → bytes = v b)
    (hcounts : ∀ {g : Nat} {bgd bgd₀ : BlockGroupDescriptor}, groups[g]? = some bgd →
      m.fs.groups[g]? = some bgd₀ → bgd.freeBlocksCount = bgd₀.freeBlocksCount)
    (hbitmaps : ∀ g bgd, groups[g]? = some bgd →
      ∃ bitmap, blockBitmapOf m.fs.sb groups read g bgd = .ok bitmap) (n g : Nat) :
    (∃ bgd bitmap r, BlockCandidate m.fs.sb groups n [] read g bgd bitmap r) ↔
      FreeRunOn m v n g ∧ BlocksAtMount m n g := by
  have hcap : blocksInGroup m.fs.sb g ≤ m.fs.sb.blockSize * 8 :=
    Nat.le_trans (blocksInGroup_le hbnd g) hbnd.bitmap
  have hlen : ∀ bgd₀, (m.bitmapIn v .block g bgd₀).length = m.fs.sb.blockSize := by
    intro bgd₀
    unfold bitmapIn
    split
    · exact m.length_impliedBitmap g .block
    · exact hwhole _
  constructor
  · rintro ⟨bgd, bitmap, r, hc⟩
    obtain ⟨bgd₀, h0, -⟩ := h.pointers g bgd hc.desc
    have hbitmap := h.blockBitmapOf_eq hread hc.desc h0 hc.read
    obtain ⟨hfit, hfree⟩ := hc.run
    rw [clampBits, hbitmap, hlen, Nat.min_eq_left hcap] at hfit
    refine ⟨⟨lt_of_getElem?_eq_some h0, r, hfit, ?_⟩, bgd₀, h0, ?_⟩
    · intro k hk
      rw [used_of_some (s := ⟨.block, g, r + k⟩) h0, ← hbitmap]
      exact hfree k hk
    · rw [← hcounts hc.desc h0]
      exact hc.room
  · rintro ⟨⟨hg, r, hfit, hfree⟩, bgd₀, h0, hroom⟩
    have hdesc := List.getElem?_eq_getElem (show g < groups.length by rw [h.length]; exact hg)
    obtain ⟨bitmap, hbytes⟩ := hbitmaps _ _ hdesc
    have hbitmap := h.blockBitmapOf_eq hread hdesc h0 hbytes
    refine ⟨_, bitmap, r, hdesc, ?_, hbytes, ?_, ?_⟩
    · rw [hcounts hdesc h0]
      exact hroom
    · rw [clampBits, hbitmap, hlen, Nat.min_eq_left hcap]
      exact hfit
    · intro k hk
      have hk' := hfree k hk
      rw [used_of_some (s := ⟨.block, g, r + k⟩) h0, ← hbitmap] at hk'
      exact hk'

theorem Mirrors.planBlocks_iff (h : m.Mirrors v groups) (hbnd : m.fs.sb.Bounds)
    (hwhole : ∀ b, (v b).length = m.fs.sb.blockSize) {read : Nat → Result Bytes}
    (hread : ∀ b bytes, read b = .ok bytes → bytes = v b)
    (hcounts : ∀ {g : Nat} {bgd bgd₀ : BlockGroupDescriptor}, groups[g]? = some bgd →
      m.fs.groups[g]? = some bgd₀ → bgd.freeBlocksCount = bgd₀.freeBlocksCount)
    (hbitmaps : ∀ g bgd, groups[g]? = some bgd →
      ∃ bitmap, blockBitmapOf m.fs.sb groups read g bgd = .ok bitmap) {n hint : Nat} (hn : 0 < n) :
    (∃ plan, planBlockAllocationExcluding m.fs.sb groups n hint [] read = .ok plan) ↔
      ∃ g ∈ visited m.fs.groups hint, FreeRunOn m v n g ∧ BlocksAtMount m n g := by
  have hvisited : visited groups hint = visited m.fs.groups hint := by
    unfold visited
    rw [h.length]
  have hiff := @planBlockAllocationExcluding_iff m.fs.sb groups n hint [] read hn hbitmaps
  rw [hvisited] at hiff
  refine hiff.trans ?_
  constructor
  · rintro ⟨g, hg, hc⟩
    exact ⟨g, hg, (h.blockCandidate_iff hbnd hwhole hread hcounts hbitmaps n g).mp hc⟩
  · rintro ⟨g, hg, hc⟩
    exact ⟨g, hg, (h.blockCandidate_iff hbnd hwhole hread hcounts hbitmaps n g).mpr hc⟩

end Candidates

section Planning

variable {crc : Crc} {m : Mount} {d : Disk}

theorem reader_bitmap (hr : TableReadable m.fs d.size)
    (hdev : m.fs.sb.blocksCount * m.fs.sb.blockSize ≤ d.size) (h64 : d.size < 2 ^ 64)
    (kind : BitmapKind) {g : Nat} {bgd : BlockGroupDescriptor} (hbgd : m.fs.groups[g]? = some bgd) :
    m.fs.reader d (kind.bitmapBlock bgd) =
      .ok (d.img.block m.fs.sb.blockSize (kind.bitmapBlock bgd)) := by
  obtain ⟨h1, h2, -⟩ := hr.inside g bgd hbgd
  have hlt : kind.bitmapBlock bgd < m.fs.sb.blocksCount := by
    cases kind with
    | block => exact h1
    | inode => exact h2
  exact Filesystem.reader_of_fits m.fs d _ (Nat.le_trans (Nat.mul_le_mul_right _ hlt) hdev) h64

variable (h : Coherent crc m d) (hr : TableReadable m.fs d.size)
  (hdev : m.fs.sb.blocksCount * m.fs.sb.blockSize ≤ d.size) (h64 : d.size < 2 ^ 64)

include h hr hdev h64

theorem blockBitmap_read {g : Nat} {bgd : BlockGroupDescriptor}
    (hg : m.allocationGroups[g]? = some bgd) :
    ∃ bitmap, blockBitmapOf m.fs.sb m.allocationGroups (m.fs.reader d) g bgd = .ok bitmap := by
  unfold blockBitmapOf
  split
  · exact ⟨_, rfl⟩
  · obtain ⟨bgd₀, h0, hb, -⟩ := h.mirrors_disk.pointers g bgd hg
    rw [hb]
    exact ⟨_, reader_bitmap hr hdev h64 .block h0⟩

theorem inodeBitmap_read {g : Nat} {bgd : BlockGroupDescriptor}
    (hg : m.allocationGroups[g]? = some bgd) :
    ∃ bitmap, inodeBitmapOf m.fs.sb (m.fs.reader d) bgd = .ok bitmap := by
  unfold inodeBitmapOf
  split
  · exact ⟨_, rfl⟩
  · obtain ⟨bgd₀, h0, -, hi, -⟩ := h.mirrors_disk.pointers g bgd hg
    rw [hi]
    exact ⟨_, reader_bitmap hr hdev h64 .inode h0⟩

theorem planBlocks_iff {n hint : Nat} (hn : 0 < n) :
    (∃ plan, m.planBlocks (m.fs.reader d) n hint = .ok plan) ↔
      ∃ g ∈ visited m.fs.groups hint, FreeRunIn m d n g ∧ BlocksAtMount m n g :=
  h.mirrors_disk.planBlocks_iff h.accepted.bounds (fun _ => Image.length_read _ _ _)
    (fun _ _ hb => Filesystem.reader_ok hb) (fun hg h0 => (overrideFlags_counts hg h0).1)
    (fun _ _ hg => blockBitmap_read h hr hdev h64 hg) hn

theorem planBuffered_iff {buf : BlockBuffer} {taken freed : Set Slot}
    (ho : Open crc m d buf taken freed) {n hint : Nat} (hn : 0 < n) :
    (∃ plan, m.planBufferedBlockAllocation (m.fs.reader d) buf n hint = .ok plan) ↔
      ∃ g ∈ visited m.fs.groups hint, FreeRunOn m (buf.view d.img m.fs.sb.blockSize) n g ∧
        BlocksAtMount m n g := by
  have hmirrors := h.mirrors_buffer ho
  refine hmirrors.planBlocks_iff h.accepted.bounds ho.coherent.whole
    (fun _ _ hb => BlockBuffer.bufferedBlock_ok hb) (fun {g bgd bgd₀} hg h0 => ?_)
      (fun g bgd hg => ?_) hn
  · obtain ⟨bgd₁, h1, -⟩ := overrideFlags_some hg
    exact (overrideFlags_counts hg h1).1.trans (overrideFlags_counts h1 h0).1
  · unfold blockBitmapOf
    split
    · exact ⟨_, rfl⟩
    · obtain ⟨bgd₀, h0, hb, -⟩ := hmirrors.pointers g bgd hg
      rw [hb]
      unfold BlockBuffer.bufferedBlock
      cases buf.dirty.get? bgd₀.blockBitmap with
      | some bytes => exact ⟨bytes, rfl⟩
      | none => exact ⟨_, reader_bitmap hr hdev h64 .block h0⟩

end Planning

end Mount

namespace Mount

section PlanningInodes

variable {crc : Crc} {m : Mount} {d : Disk} (h : Coherent crc m d) (hr : TableReadable m.fs d.size)
  (hdev : m.fs.sb.blocksCount * m.fs.sb.blockSize ≤ d.size) (h64 : d.size < 2 ^ 64)

include h hr hdev h64

theorem inodeCandidate_iff (g j : Nat) :
    (∃ bgd bitmap, InodeCandidate m.fs.sb m.allocationGroups (m.fs.reader d) g bgd bitmap j) ↔
      InodesAtMount m g ∧ FreeInodeBit m d g j ∧ ∀ j', j' < j → ¬ FreeInodeBit m d g j' := by
  have hlen : ∀ bgd₀, (m.bitmapIn (d.img.block m.fs.sb.blockSize) .inode g bgd₀).length =
      m.fs.sb.blockSize := by
    intro bgd₀
    unfold bitmapIn
    split
    · exact m.length_impliedBitmap g .inode
    · exact Image.length_read _ _ _
  constructor
  · rintro ⟨bgd, bitmap, hc⟩
    obtain ⟨bgd₀, h0, -⟩ := h.mirrors_disk.pointers g bgd hc.desc
    have hbitmap := h.mirrors_disk.inodeBitmapOf_eq (fun _ _ hb => Filesystem.reader_ok hb)
      hc.desc h0 hc.read
    obtain ⟨hlo, hhi, hfree, hbefore⟩ := hc.first
    rw [clampBits, hbitmap, hlen] at hhi
    have hg := lt_of_getElem?_eq_some h0
    refine ⟨⟨bgd₀, h0, ?_⟩, ⟨hg, hlo, hhi, ?_⟩, ?_⟩
    · rw [← (overrideFlags_counts hc.desc h0).2]
      exact hc.room
    · rw [used_of_some (s := ⟨.inode, g, j⟩) h0, ← hbitmap]
      exact hfree
    · rintro j' hlt ⟨-, hlo', -, hfree'⟩
      rw [used_of_some (s := ⟨.inode, g, j'⟩) h0, ← hbitmap] at hfree'
      exact Bool.noConfusion (hfree'.symm.trans (hbefore j' hlo' hlt))
  · rintro ⟨⟨bgd₀, h0, hroom⟩, ⟨hg, hlo, hhi, hfree⟩, hbefore⟩
    have hg' : g < m.allocationGroups.length := by
      rw [h.mirrors_disk.length]
      exact hg
    have hdesc := List.getElem?_eq_getElem hg'
    obtain ⟨bitmap, hread⟩ := inodeBitmap_read h hr hdev h64 hdesc
    have hbitmap := h.mirrors_disk.inodeBitmapOf_eq (fun _ _ hb => Filesystem.reader_ok hb)
      hdesc h0 hread
    rw [used_of_some (s := ⟨.inode, g, j⟩) h0, ← hbitmap] at hfree
    refine ⟨_, bitmap, hdesc, ?_, hread, hlo, ?_, hfree, ?_⟩
    · rw [(overrideFlags_counts hdesc h0).2]
      exact hroom
    · rw [clampBits, hbitmap, hlen]
      exact hhi
    · intro j' hlo' hlt
      by_contra hclear
      refine hbefore j' hlt ⟨hg, hlo', Nat.lt_trans hlt hhi, ?_⟩
      rw [used_of_some (s := ⟨.inode, g, j'⟩) h0, ← hbitmap]
      exact Bool.eq_false_iff.mpr hclear

theorem tryInodeGroup_none_iff (isDir : Bool) {g : Nat} (hg : g < m.fs.groups.length) :
    tryInodeGroup m.fs.sb m.allocationGroups isDir (m.fs.reader d) g = none ↔
      (InodesAtMount m g → ∀ j, ¬ FreeInodeBit m d g j) := by
  have hg' : g < m.allocationGroups.length := by
    rw [h.mirrors_disk.length]
    exact hg
  constructor
  · intro hnone hat j hj
    classical
    have hex : ∃ j, FreeInodeBit m d g j := ⟨j, hj⟩
    obtain ⟨bgd, bitmap, hc⟩ := (inodeCandidate_iff h hr hdev h64 g (Nat.find hex)).mpr
      ⟨hat, Nat.find_spec hex, fun j' hlt => Nat.find_min hex hlt⟩
    exact tryInodeGroup_of_candidate hc hnone
  · intro hno
    cases ha : tryInodeGroup m.fs.sb m.allocationGroups isDir (m.fs.reader d) g with
    | none => rfl
    | some r =>
      obtain ⟨bgd, bitmap, j, hc, -⟩ := tryInodeGroup_some
        (fun bgd hbgd => inodeBitmap_read h hr hdev h64 hbgd) hg' ha
      obtain ⟨hat, hfree, -⟩ := (inodeCandidate_iff h hr hdev h64 g j).mp ⟨bgd, bitmap, hc⟩
      exact absurd hfree (hno hat j)

/-- Planning an inode over the device succeeds exactly when the first group that had one at mount
and has one now offers an inode the volume counts. -/
theorem planInode_iff {isDir : Bool} {hint : Nat} :
    (∃ plan, m.planInode (m.fs.reader d) isDir hint = .ok plan) ↔
      ∃ g j, FirstKnownInode m d (visitedForInode m.allocationGroups isDir hint) g j ∧
        inodeNumber m.fs.sb g j ≤ m.fs.sb.inodesCount.toNat := by
  have hlt : ∀ g ∈ visitedForInode m.allocationGroups isDir hint, g < m.fs.groups.length := by
    intro g hg
    have h1 := mem_groupOrder hg
    have h2 := Nat.mod_le m.allocationGroups.length (2 ^ 32)
    rw [← h.mirrors_disk.length]
    omega
  have hplan : (∃ plan, m.planInode (m.fs.reader d) isDir hint = .ok plan) ↔
      ∃ plan, firstAnswer (.corrupt "no group has a free inode")
        (tryInodeGroup m.fs.sb m.allocationGroups isDir (m.fs.reader d))
        (visitedForInode m.allocationGroups isDir hint) = .ok plan := by
    by_cases hn : m.allocationGroups.length % 2 ^ 32 = 0
    · have hempty : visitedForInode m.allocationGroups isDir hint = [] := by
        unfold visitedForInode groupOrder
        rw [hn]
        rfl
      rw [hempty]
      constructor
      · rintro ⟨plan, hp⟩
        obtain ⟨g, hg, -⟩ := planInodeAllocation_ok hp
        omega
      · rintro ⟨plan, hp⟩
        cases hp
    · unfold planInode
      rw [planInodeAllocation_eq hn]
  rw [hplan, firstAnswer_ok_iff]
  constructor
  · rintro ⟨pre, g, post, plan, heq, hpre, hg⟩
    obtain ⟨bgd, bitmap, j, hc, hle, -⟩ := tryInodeGroup_ok hg
    obtain ⟨hat, hfree, hmin⟩ := (inodeCandidate_iff h hr hdev h64 g j).mp ⟨bgd, bitmap, hc⟩
    refine ⟨g, j, ⟨⟨pre, post, heq, ?_⟩, hat, hfree, hmin⟩, hle⟩
    intro g' hg'
    have hlt' := hlt g' (by rw [heq]; exact List.mem_append_left _ hg')
    exact (tryInodeGroup_none_iff h hr hdev h64 isDir hlt').mp (hpre g' hg')
  · rintro ⟨g, j, ⟨⟨pre, post, heq, hpre⟩, hat, hfree, hmin⟩, hle⟩
    obtain ⟨bgd, bitmap, hc⟩ := (inodeCandidate_iff h hr hdev h64 g j).mpr ⟨hat, hfree, hmin⟩
    cases ha : tryInodeGroup m.fs.sb m.allocationGroups isDir (m.fs.reader d) g with
    | none => exact absurd ha (tryInodeGroup_of_candidate hc)
    | some r =>
      have hg' : g < m.allocationGroups.length := by
        rw [h.mirrors_disk.length]
        exact hfree.1
      obtain ⟨bgd', bitmap', j', hc', hr'⟩ := tryInodeGroup_some
        (fun bgd hbgd => inodeBitmap_read h hr hdev h64 hbgd) hg' ha
      -- both are the first free inode of the group
      obtain ⟨-, hfree', hmin'⟩ := (inodeCandidate_iff h hr hdev h64 g j').mp ⟨bgd', bitmap', hc'⟩
      have hj : j' = j := by
        by_contra hne
        obtain hlt' | hgt := Nat.lt_or_gt_of_ne hne
        · exact hmin j' hlt' hfree'
        · exact hmin' j hgt hfree
      rw [hj, if_pos hle] at hr'
      refine ⟨pre, g, post, inodePlan m.fs.sb isDir g bgd' j, heq, ?_, ?_⟩
      · intro g' hg''
        have hlt' := hlt g' (by rw [heq]; exact List.mem_append_left _ hg'')
        exact (tryInodeGroup_none_iff h hr hdev h64 isDir hlt').mpr (hpre g' hg'')
      · rw [ha, hr']

end PlanningInodes

section Runs

variable {crc : Crc} {m m₀ : Mount} {d d₀ : Disk}

theorem Reaches.fs_eq (h0 : Mounted crc m₀ d₀) (h : Reaches crc m₀ d₀ m d) (hlive : ¬ m.Halted) :
    m.fs = m₀.fs ∧ d.size = d₀.size := by
  induction h with
  | start => exact ⟨rfl, rfl⟩
  | commit hprev hl hs hc ih =>
    obtain ⟨hfs, hsize⟩ := ih hl
    have hcom := (hprev.coherent h0 hl).1.committed hs hc
    exact ⟨hcom.fs.trans hfs, hcom.size.trans hsize⟩
  | failed _ hl _ hc ih =>
    obtain hh | ⟨rfl, rfl⟩ := commitBlockBuffer_error hc
    · exact absurd hh hlive
    · exact ih hl

/-- In every state a mount reaches and can still commit from: planning finds the free space there is
exactly when the descriptors read at mount already showed it in a group tried. -/
theorem finds_free_space_iff (h0 : Mounted crc m₀ d₀)
    (hdev : m₀.fs.sb.blocksCount * m₀.fs.sb.blockSize ≤ d₀.size) (h64 : d₀.size < 2 ^ 64)
    (h : Reaches crc m₀ d₀ m d) (hlive : ¬ m.Halted) :
    (∀ n hint, 0 < n →
      (((∃ g, FreeRunIn m d n g) → ∃ plan, m.planBlocks (m.fs.reader d) n hint = .ok plan) ↔
        ((∃ g, FreeRunIn m d n g) →
          ∃ g ∈ visited m₀.fs.groups hint, FreeRunIn m d n g ∧ BlocksAtMount m₀ n g))) ∧
    ∀ isDir hint,
      ((FreeInodeOnDisk m d → ∃ plan, m.planInode (m.fs.reader d) isDir hint = .ok plan) ↔
        (FreeInodeOnDisk m d →
          ∃ g j, FirstKnownInode m d (visitedForInode m.allocationGroups isDir hint) g j ∧
            inodeNumber m.fs.sb g j ≤ m.fs.sb.inodesCount.toNat)) := by
  obtain ⟨hcoh, hr⟩ := h.coherent h0 hlive
  obtain ⟨hfs, hsize⟩ := h.fs_eq h0 hlive
  have hdev' : m.fs.sb.blocksCount * m.fs.sb.blockSize ≤ d.size := by
    rw [hfs, hsize]
    exact hdev
  have h64' : d.size < 2 ^ 64 := by
    rw [hsize]
    exact h64
  have hat : ∀ n g, BlocksAtMount m₀ n g ↔ BlocksAtMount m n g := by
    intro n g
    unfold BlocksAtMount
    rw [hfs]
  constructor
  · intro n hint hn
    rw [planBlocks_iff hcoh hr hdev' h64' hn, hfs]
    simp only [hat]
  · intro isDir hint
    rw [planInode_iff hcoh hr hdev' h64']

end Runs

end Mount

namespace Mount

/-- A block of group 1 is taken and blocks 7 to 10 of group 0 are given back. -/
def twoGroupsMoved : Result (BlockBuffer × BlockBuffer × BlockBuffer) := do
  let read := twoGroups.fs.reader twoGroupsDisk
  let buf₁ ← twoGroups.bufferMarkBlockRunUsed linuxCrc32c read BlockBuffer.new 39 1
  let buf₂ ← twoGroups.bufferPatchBgdCounters linuxCrc32c read buf₁
    (twoGroups.blockSlot 39).group (-1) 0 0
  let buf ← twoGroups.bufferFreeBlockRunAndBgd linuxCrc32c read buf₂ 7 4
  return (buf₁, buf₂, buf)

theorem staging_of_twoGroupsMoved {buf₁ buf₂ buf : BlockBuffer}
    (h : twoGroupsMoved = .ok (buf₁, buf₂, buf)) :
    Staging linuxCrc32c twoGroups twoGroupsDisk buf
      ((∅ ∪ twoGroups.blockSlots 39 1) \ twoGroups.blockSlots 7 4)
      (∅ ∪ twoGroups.blockSlots 7 4) := by
  obtain ⟨b₁, hmark, h1⟩ := Result.bind_eq_ok h
  obtain ⟨b₂, hpatch, h2⟩ := Result.bind_eq_ok h1
  obtain ⟨b₃, hfree, h3⟩ := Result.bind_eq_ok h2
  obtain ⟨rfl, h4⟩ := Prod.mk.inj (Except.ok.inj h3)
  obtain ⟨rfl, rfl⟩ := Prod.mk.inj h4
  refine .freeBlocks (.allocBlocks .new ⟨by decide, by decide⟩ hmark hpatch) ?_ hfree
  intro b hlo hhi
  have hall : ∀ b ∈ List.range 11, 7 ≤ b → ¬ twoGroups.IsMetadata b := by decide
  exact hall b (List.mem_range.mpr (by omega)) hlo

theorem reaches_twoGroupsMoved :
    ∃ m d, Reaches linuxCrc32c twoGroups twoGroupsDisk m d ∧ ¬ m.Halted ∧ m.fs = twoGroups.fs ∧
      (∀ k, k < 26 → m.used (d.img.block 1024) ⟨.block, 0, 6 + k⟩ = false) ∧
      m.used (d.img.block 1024) ⟨.block, 1, 6⟩ = true := by
  have hends : Result.Ends (fun bufs =>
      (∀ b ∈ bufs.2.2.dirty.entries.map Prod.fst, (b + 1) * 1024 ≤ 65 * 1024) ∧
        ∀ k ∈ List.range 26,
          twoGroups.used (bufs.2.2.view twoGroupsDisk.img 1024) ⟨.block, 0, 6 + k⟩ = false)
      twoGroupsMoved := by
    decide +kernel
  obtain ⟨⟨buf₁, buf₂, buf⟩, hbuf, hblocks, hfree⟩ := hends.exists_ok
  have hs := staging_of_twoGroupsMoved hbuf
  have hcoh := twoGroups_mounted.coherent.1
  obtain ⟨m, d, hc, hreach, hlive⟩ := reaches_of_commit twoGroups_mounted rfl rfl hs hblocks
  have hused := (hcoh.commit (hcoh.isOpen hs) (fun b hb => hs.not_freed hb) hc).2
  have hbs : m.fs.sb.blockSize = 1024 := by
    rw [hc.fs]
    rfl
  rw [hbs] at hused
  refine ⟨m, d, hreach, hlive, hc.fs, ?_, ?_⟩
  · intro k hk
    rw [hused]
    exact hfree k (List.mem_range.mpr hk)
  · rw [hused]
    apply (hcoh.isOpen hs).taken
    refine ⟨Or.inr ⟨39, by omega, by omega, by decide⟩, ?_⟩
    rintro ⟨b, hlo, hhi, heq⟩
    have hall : ∀ b ∈ List.range 11, (twoGroups.blockSlot b).group ≠ 1 := by decide
    exact hall b (List.mem_range.mpr (by omega)) (congrArg Slot.group heq).symm

/-- After the commit a run of 26 blocks is free in group 0, whose descriptor had 22 at mount:
planning one fails. -/
theorem freed_run_not_found :
    Mounted linuxCrc32c twoGroups twoGroupsDisk ∧
    ∃ m d, Reaches linuxCrc32c twoGroups twoGroupsDisk m d ∧ ¬ m.Halted ∧ FreeRunIn m d 26 0 ∧
      ¬ ∃ plan, m.planBlocks (m.fs.reader d) 26 0 = .ok plan := by
  obtain ⟨m, d, hreach, hlive, hfs, hfree, htaken⟩ := reaches_twoGroupsMoved
  obtain ⟨hcoh, hr⟩ := hreach.coherent twoGroups_mounted hlive
  have hsize := (hreach.fs_eq twoGroups_mounted hlive).2
  have hdev : m.fs.sb.blocksCount * m.fs.sb.blockSize ≤ d.size := by
    rw [hfs, hsize]
    decide
  have h64 : d.size < 2 ^ 64 := by
    rw [hsize]
    decide
  have hbs : m.fs.sb.blockSize = 1024 := by
    rw [hfs]
    rfl
  refine ⟨twoGroups_mounted, m, d, hreach, hlive, ⟨?_, 6, ?_, ?_⟩, ?_⟩
  · rw [hfs]
    decide
  · rw [hfs]
    decide
  · intro k hk
    rw [hbs]
    exact hfree k hk
  · rw [planBlocks_iff hcoh hr hdev h64 (by decide)]
    rintro ⟨g, hg, ⟨hlt, r, hfit, hrun⟩, bgd, hbgd, hroom⟩
    rw [hfs] at hlt hbgd hfit
    have hcases : g = 0 ∨ g = 1 := by
      have h2 : g < 2 := hlt
      omega
    obtain rfl | rfl := hcases
    · obtain rfl := Option.some.inj hbgd
      exact absurd hroom (by decide)
    · -- every run of 26 in group 1 would hold the block just taken
      have hle : blocksInGroup twoGroups.fs.sb 1 = 32 := by decide
      have hused := hrun (6 - r) (by omega)
      rw [hbs, Nat.add_sub_cancel' (by omega), htaken] at hused
      cases hused

/-- For a single block the descriptor of group 0 still has room, so one is found. -/
theorem finds_free_space_iff_two_groups :
    ∃ m d, Reaches linuxCrc32c twoGroups twoGroupsDisk m d ∧
      ∃ plan, m.planBlocks (m.fs.reader d) 1 0 = .ok plan := by
  obtain ⟨m, d, hreach, hlive, hfs, hfree, -⟩ := reaches_twoGroupsMoved
  have hbs : m.fs.sb.blockSize = 1024 := by
    rw [hfs]
    rfl
  have hrun : FreeRunIn m d 1 0 := by
    refine ⟨?_, 6, ?_, ?_⟩
    · rw [hfs]
      decide
    · rw [hfs]
      decide
    · intro k hk
      rw [hbs]
      exact hfree k (by omega)
  have hiff := (finds_free_space_iff twoGroups_mounted (by decide) (by decide) hreach hlive).1 1 0
    (by decide)
  refine ⟨m, d, hreach, hiff.mpr (fun _ => ⟨0, by decide, hrun, _, rfl, by decide⟩) ⟨0, hrun⟩⟩

end Mount

end FsExt4
