import FsExt4.BlockPlanner

namespace FsExt4.Alloc

open Lib

def InodeBitmapsRead (groups : List BlockGroupDescriptor) (bitmapReader : Nat → Result Bytes) :
    Prop :=
  ∀ (g : Nat) (bgd : BlockGroupDescriptor), groups[g]? = some bgd →
    ∃ bitmap, bitmapReader bgd.inodeBitmap = .ok bitmap

/-- A clear bit of a group that has free inodes, for an inode that is not reserved. -/
structure FreeInodeAt (sb : Superblock) (groups : List BlockGroupDescriptor)
    (bitmapReader : Nat → Result Bytes) (g : Nat) (bgd : BlockGroupDescriptor) (bitmap : Bytes)
    (j : Nat) : Prop where
  desc : groups[g]? = some bgd
  room : 0 < bgd.freeInodesCount
  read : inodeBitmapOf sb bitmapReader bgd = .ok bitmap
  inGroup : j < sb.inodesPerGroup.toNat
  inBitmap : j < bitmap.length * 8
  clear : bit bitmap j = false
  notReserved : sb.firstInode.toNat ≤ inodeNumber sb g j

/-- A free inode of a group, whatever the superblock's count of inodes. -/
def HasFreeInode (sb : Superblock) (groups : List BlockGroupDescriptor)
    (bitmapReader : Nat → Result Bytes) (g j : Nat) : Prop :=
  ∃ bgd bitmap, FreeInodeAt sb groups bitmapReader g bgd bitmap j

def FirstFreeInode (sb : Superblock) (groups : List BlockGroupDescriptor)
    (bitmapReader : Nat → Result Bytes) (order : List Nat) (g : Nat) (bgd : BlockGroupDescriptor)
    (bitmap : Bytes) (j : Nat) : Prop :=
  (∃ pre post, order = pre ++ g :: post ∧
    ∀ g' ∈ pre, ∀ j', ¬ HasFreeInode sb groups bitmapReader g' j') ∧
  FreeInodeAt sb groups bitmapReader g bgd bitmap j ∧
  ∀ j', j' < j → ¬ HasFreeInode sb groups bitmapReader g j'

section Planner

variable {sb : Superblock} {groups : List BlockGroupDescriptor} {bitmapReader : Nat → Result Bytes}

theorem InodeBitmapsRead.inodeBitmapOf (h : InodeBitmapsRead groups bitmapReader) {g : Nat}
    {bgd : BlockGroupDescriptor} (hbgd : groups[g]? = some bgd) :
    ∃ bitmap, inodeBitmapOf sb bitmapReader bgd = .ok bitmap := by
  unfold Alloc.inodeBitmapOf
  split
  · exact ⟨_, rfl⟩
  · exact h g bgd hbgd

theorem reservedFloor_le_iff (sb : Superblock) (g j : Nat) :
    reservedFloor sb g ≤ j ↔ sb.firstInode.toNat ≤ inodeNumber sb g j := by
  unfold reservedFloor inodeNumber
  omega

theorem inodeCandidate_iff_first {g j : Nat} {bgd : BlockGroupDescriptor} {bitmap : Bytes} :
    InodeCandidate sb groups bitmapReader g bgd bitmap j ↔
      FreeInodeAt sb groups bitmapReader g bgd bitmap j ∧
        ∀ j', j' < j → ¬ HasFreeInode sb groups bitmapReader g j' := by
  constructor
  · intro h
    obtain ⟨hlo, hhi, hclear, hbefore⟩ := h.first
    have h1 : j < sb.inodesPerGroup.toNat := Nat.lt_of_lt_of_le hhi (Nat.min_le_left _ _)
    have h2 : j < bitmap.length * 8 := Nat.lt_of_lt_of_le hhi (Nat.min_le_right _ _)
    refine ⟨⟨h.desc, h.room, h.read, h1, h2, hclear, (reservedFloor_le_iff sb g j).mp hlo⟩, ?_⟩
    rintro j' hj' ⟨bgd', bitmap', h'⟩
    obtain rfl := Option.some.inj (h.desc.symm.trans h'.desc)
    obtain rfl := Except.ok.inj (h.read.symm.trans h'.read)
    have hset := hbefore j' ((reservedFloor_le_iff sb g j').mpr h'.notReserved) hj'
    rw [h'.clear] at hset
    exact Bool.noConfusion hset
  · rintro ⟨h, hbefore⟩
    refine ⟨h.desc, h.room, h.read, (reservedFloor_le_iff sb g j).mpr h.notReserved,
      Nat.lt_min.mpr ⟨h.inGroup, h.inBitmap⟩, h.clear, ?_⟩
    intro j' h1 h2
    by_contra hset
    have hin := h.inGroup
    have hin' := h.inBitmap
    refine hbefore j' h2 ⟨bgd, bitmap, h.desc, h.room, h.read, by omega, by omega, ?_,
      (reservedFloor_le_iff sb g j').mp h1⟩
    simpa using hset

theorem exists_candidate {g j : Nat} (h : HasFreeInode sb groups bitmapReader g j) :
    ∃ bgd bitmap j', InodeCandidate sb groups bitmapReader g bgd bitmap j' := by
  classical
  have hex : ∃ j, HasFreeInode sb groups bitmapReader g j := ⟨j, h⟩
  obtain ⟨bgd, bitmap, hfree⟩ := Nat.find_spec hex
  exact ⟨bgd, bitmap, _, inodeCandidate_iff_first.mpr ⟨hfree, fun j' hj' => Nat.find_min hex hj'⟩⟩

theorem tryInodeGroup_isSome_iff (hread : InodeBitmapsRead groups bitmapReader) (isDir : Bool)
    {g : Nat} (hg : g < groups.length) :
    (tryInodeGroup sb groups isDir bitmapReader g).isSome = true ↔
      ∃ j, HasFreeInode sb groups bitmapReader g j := by
  constructor
  · intro hsome
    obtain ⟨r, hr⟩ := Option.isSome_iff_exists.mp hsome
    obtain ⟨bgd, bitmap, j, hc, -⟩ :=
      tryInodeGroup_some (fun bgd hbgd => hread.inodeBitmapOf hbgd) hg hr
    exact ⟨j, bgd, bitmap, (inodeCandidate_iff_first.mp hc).1⟩
  · rintro ⟨j, hj⟩
    obtain ⟨bgd, bitmap, j', hc⟩ := exists_candidate hj
    exact Option.isSome_iff_ne_none.mpr (tryInodeGroup_of_candidate hc)

variable (sb) in
/-- What the planner answers: the first free inode of the first group tried that has one, refused
when the superblock does not count it. -/
theorem planInode_eq_find (hread : InodeBitmapsRead groups bitmapReader) (isDir : Bool)
    (hintGroup : Nat) :
    (∃ g bgd bitmap j, FirstFreeInode sb groups bitmapReader
        (visitedForInode groups isDir hintGroup) g bgd bitmap j ∧
      planInodeAllocation sb groups isDir hintGroup bitmapReader =
        if inodeNumber sb g j ≤ sb.inodesCount.toNat then .ok (inodePlan sb isDir g bgd j)
        else .error (.corrupt "the group's inode range does not fit in the filesystem")) ∨
    ((∀ g ∈ visitedForInode groups isDir hintGroup, ∀ j,
    ¬ HasFreeInode sb groups bitmapReader g j) ∧
      ∃ e, planInodeAllocation sb groups isDir hintGroup bitmapReader = .error e) := by
  by_cases hn : groups.length % 2 ^ 32 = 0
  · right
    refine ⟨?_, .corrupt "no block groups", ?_⟩
    · intro g hg
      have := mem_groupOrder hg
      omega
    · unfold planInodeAllocation
      dsimp only
      rw [if_pos hn]
  have hlt : ∀ g ∈ visitedForInode groups isDir hintGroup, g < groups.length := by
    intro g hg
    have h1 := mem_groupOrder hg
    have h2 := Nat.mod_le groups.length (2 ^ 32)
    omega
  rw [planInodeAllocation_eq hn, firstAnswer_eq_find]
  cases hf : (visitedForInode groups isDir hintGroup).find?
      (fun g => (tryInodeGroup sb groups isDir bitmapReader g).isSome) with
  | none =>
    right
    refine ⟨?_, _, rfl⟩
    intro g hg j hj
    exact List.find?_eq_none.mp hf g hg
      ((tryInodeGroup_isSome_iff hread isDir (hlt g hg)).mpr ⟨j, hj⟩)
  | some g =>
    left
    have hg := hlt g (List.mem_of_find?_eq_some hf)
    obtain ⟨hsome, pre, post, heq, hpre⟩ := List.find?_eq_some_iff_append.mp hf
    obtain ⟨r, hr⟩ := Option.isSome_iff_exists.mp hsome
    obtain ⟨bgd, bitmap, j, hc, hres⟩ :=
      tryInodeGroup_some (fun bgd hbgd => hread.inodeBitmapOf hbgd) hg hr
    refine ⟨g, bgd, bitmap, j, ⟨⟨pre, post, heq, ?_⟩, inodeCandidate_iff_first.mp hc⟩, ?_⟩
    · intro g' hg' j' hj'
      have hg'' : g' ∈ visitedForInode groups isDir hintGroup := by
        rw [heq]
        exact List.mem_append_left _ hg'
      have hno := hpre g' hg'
      rw [(tryInodeGroup_isSome_iff hread isDir (hlt g' hg'')).mpr ⟨j', hj'⟩] at hno
      exact Bool.noConfusion hno
    · dsimp only
      rw [hr]
      exact hres

end Planner

theorem orlovStep_fst (groups : List BlockGroupDescriptor) (avgFreeInodes avgUsedDirs : Nat)
    (best : Option Nat × Int) (gi : Nat) :
    (orlovStep groups avgFreeInodes avgUsedDirs best gi).1 = some gi ∨
      (orlovStep groups avgFreeInodes avgUsedDirs best gi).1 = best.1 := by
  unfold orlovStep
  cases groups[gi]? with
  | none => exact .inr rfl
  | some g =>
    dsimp only
    generalize (g.freeInodesCount : Int) - g.usedDirsCount +
      (if (avgFreeInodes : Int) ≤ g.freeInodesCount then 1000 else 0) +
      (if (g.usedDirsCount : Int) ≤ avgUsedDirs then 500 else 0) = score
    split
    · exact .inl rfl
    · exact .inr rfl

theorem orlovSelectGroup_lt (groups : List BlockGroupDescriptor) (hint : Nat)
    (hn : 0 < groups.length % 2 ^ 32) : orlovSelectGroup groups hint < groups.length % 2 ^ 32 := by
  unfold orlovSelectGroup
  dsimp only
  rw [if_neg (by omega)]
  generalize (groups.map (·.freeInodesCount)).sum / (groups.length % 2 ^ 32) = avgInodes
  generalize (groups.map (·.usedDirsCount)).sum / (groups.length % 2 ^ 32) = avgDirs
  -- the best so far is one of the groups walked
  have hfold : ∀ (order : List Nat) (best : Option Nat × Int),
      (∀ g ∈ order, g < groups.length % 2 ^ 32) →
      (∀ g, best.1 = some g → g < groups.length % 2 ^ 32) →
      ∀ g, (order.foldl (orlovStep groups avgInodes avgDirs) best).1 = some g →
        g < groups.length % 2 ^ 32 := by
    intro order
    induction order with
    | nil => exact fun best _ hbest => hbest
    | cons gi rest ih =>
      intro best horder hbest
      rw [List.foldl_cons]
      apply ih _ (fun g hg => horder g (List.mem_cons_of_mem _ hg))
      intro g hg
      obtain hstep | hstep := orlovStep_fst groups avgInodes avgDirs best gi
      · rw [hstep] at hg
        obtain rfl := Option.some.inj hg
        exact horder _ List.mem_cons_self
      · rw [hstep] at hg
        exact hbest g hg
  have hres := hfold (groupOrder (groups.length % 2 ^ 32) (min hint (groups.length % 2 ^ 32 - 1)))
    (none, -(2 ^ 63)) (fun g hg => mem_groupOrder hg) (fun g hg => by cases hg)
  cases hbest : ((groupOrder (groups.length % 2 ^ 32) (min hint (groups.length % 2 ^ 32 - 1))).foldl
      (orlovStep groups avgInodes avgDirs) (none, -(2 ^ 63))).1 with
  | none =>
    rw [Option.getD_none]
    omega
  | some g => exact hres g hbest

theorem mem_visitedForInode {groups : List BlockGroupDescriptor} (hn : groups.length ≤ 2 ^ 31)
    (isDir : Bool) (hintGroup : Nat) {g : Nat} (hg : g < groups.length) :
    g ∈ visitedForInode groups isDir hintGroup := by
  have hmod : groups.length % 2 ^ 32 = groups.length := Nat.mod_eq_of_lt (by omega)
  unfold visitedForInode
  apply mem_groupOrder_of_lt
  · omega
  · split
    · exact orlovSelectGroup_lt groups hintGroup (by omega)
    · omega
  · omega

/-- The bit of an inode in its group, in use, with its group's descriptor. -/
def markInodeAt (m : Mount) (crc : Jbd2.Crc) (read : Nat → Result Bytes)
    (buf : BlockBuffer) (g : Nat) (bgd : BlockGroupDescriptor) (j : Nat) : Result BlockBuffer := do
  let (wasUninit, buf) ← m.clearBgdUninitFlagIfSet read buf g inodeUninit
  let buf ← buf.edit read bgd.inodeBitmap (m.markedInodeBitmap j wasUninit)
  let buf ← m.bufferRefreshBitmapCsum crc read buf g bgd .inode
  let (bgtBlock, off) := m.fs.sb.descriptorLocation g
  buf.edit read bgtBlock (fun block =>
    m.lowerItableUnused crc block off g (m.fs.sb.inodesPerGroup.toNat - (j + 1)))

theorem inodeNumber_div_mod (sb : Superblock) (g : Nat) {j : Nat}
    (hj : j < sb.inodesPerGroup.toNat) : (inodeNumber sb g j - 1) / sb.inodesPerGroup.toNat = g ∧
      (inodeNumber sb g j - 1) % sb.inodesPerGroup.toNat = j := by
  have hsub : inodeNumber sb g j - 1 = sb.inodesPerGroup.toNat * g + j := by
    unfold inodeNumber
    rw [Nat.mul_comm]
    omega
  rw [hsub, Nat.mul_add_div (by omega), Nat.div_eq_of_lt hj, Nat.mul_add_mod, Nat.mod_eq_of_lt hj]
  exact ⟨Nat.add_zero g, rfl⟩

theorem bufferMarkInodeUsed_inodeNumber {m : Mount} {crc : Jbd2.Crc} {read : Nat → Result Bytes}
    {buf : BlockBuffer} {g j : Nat} {bgd : BlockGroupDescriptor}
    (hbgd : m.fs.groups[g]? = some bgd) (hj : j < m.fs.sb.inodesPerGroup.toNat) :
    m.bufferMarkInodeUsed crc read buf (inodeNumber m.fs.sb g j) =
      markInodeAt m crc read buf g bgd j := by
  obtain ⟨hdiv, hmod⟩ := inodeNumber_div_mod m.fs.sb g hj
  unfold Mount.bufferMarkInodeUsed
  dsimp only
  rw [hdiv, hmod, hbgd]
  rfl

theorem locateInode_inodeNumber {sb : Superblock} {groups : List BlockGroupDescriptor} {g j : Nat}
    {bgd : BlockGroupDescriptor} (hbgd : groups[g]? = some bgd) (hj : j < sb.inodesPerGroup.toNat)
    (hcount : inodeNumber sb g j ≤ sb.inodesCount.toNat) {block off : Nat}
    (h : locateInode sb groups (UInt32.ofNat (inodeNumber sb g j)) = .ok (block, off)) :
    block = bgd.inodeTable + j / (sb.blockSize / sb.inodeSize) ∧
      off = j % (sb.blockSize / sb.inodeSize) * sb.inodeSize := by
  obtain ⟨hdiv, hmod⟩ := inodeNumber_div_mod sb g hj
  have hlt : inodeNumber sb g j < 2 ^ 32 := Nat.lt_of_le_of_lt hcount sb.inodesCount.toNat_lt
  have hnat : (UInt32.ofNat (inodeNumber sb g j)).toNat = inodeNumber sb g j := by
    rw [UInt32.toNat_ofNat', Nat.mod_eq_of_lt hlt]
  obtain ⟨-, -, -, -, found, hfound, hblock, hoff⟩ := locateInode_eq_ok.mp h
  rw [hnat] at hfound hblock hoff
  rw [hdiv, hbgd] at hfound
  obtain rfl := Option.some.inj hfound
  rw [hmod] at hblock hoff
  exact ⟨hblock, hoff⟩

/-- A plan for a free inode the superblock counts, whose number, group and bit agree for those that
use it. -/
structure PlannedInode (sb : Superblock) (groups : List BlockGroupDescriptor)
    (isDir : Bool) (g : Nat)
    (bgd : BlockGroupDescriptor) (j : Nat) (plan : InodeAllocationPlan) : Prop where
  eq : plan = inodePlan sb isDir g bgd j
  reserved : sb.firstInode.toNat ≤ plan.inode
  counted : plan.inode ≤ sb.inodesCount.toNat
  number : plan.inode = plan.bgd.groupIdx * sb.inodesPerGroup.toNat + plan.bitmap.bitStart + 1
  located : ∀ block off, locateInode sb groups (UInt32.ofNat plan.inode) = .ok (block, off) →
    block = bgd.inodeTable + plan.bitmap.bitStart / (sb.blockSize / sb.inodeSize) ∧
      off = plan.bitmap.bitStart % (sb.blockSize / sb.inodeSize) * sb.inodeSize
  marked : ∀ (m : Mount) crc read buf, m.fs.sb = sb → m.fs.groups = groups →
    m.bufferMarkInodeUsed crc read buf plan.inode =
      markInodeAt m crc read buf plan.bgd.groupIdx bgd plan.bitmap.bitStart

theorem plannedInode_of_free {sb : Superblock} {groups : List BlockGroupDescriptor}
    {bitmapReader : Nat → Result Bytes} (isDir : Bool) {g j : Nat} {bgd : BlockGroupDescriptor}
    {bitmap : Bytes} (h : FreeInodeAt sb groups bitmapReader g bgd bitmap j)
    (hcount : inodeNumber sb g j ≤ sb.inodesCount.toNat) :
    PlannedInode sb groups isDir g bgd j (inodePlan sb isDir g bgd j) where
  eq := rfl
  reserved := h.notReserved
  counted := hcount
  number := rfl
  located := fun _ _ hloc => locateInode_inodeNumber h.desc h.inGroup hcount hloc
  marked := by
    rintro m crc read buf rfl rfl
    exact bufferMarkInodeUsed_inodeNumber h.desc h.inGroup

/-- The first free inode of the first group tried that has one; no answer only when no group tried
has one or the superblock does not count that one. -/
def PlansFirstInode (sb : Superblock) (groups : List BlockGroupDescriptor) (isDir : Bool)
    (hintGroup : Nat) (bitmapReader : Nat → Result Bytes) : Prop :=
  match planInodeAllocation sb groups isDir hintGroup bitmapReader with
  | .ok plan => ∃ g bgd bitmap j, FirstFreeInode sb groups bitmapReader
      (visitedForInode groups isDir hintGroup) g bgd bitmap j ∧
      PlannedInode sb groups isDir g bgd j plan
  | .error e =>
    (∀ g ∈ visitedForInode groups isDir hintGroup, ∀ j, ¬ HasFreeInode sb groups bitmapReader g j) ∨
    ∃ g bgd bitmap j, FirstFreeInode sb groups bitmapReader
      (visitedForInode groups isDir hintGroup) g bgd bitmap j ∧
      sb.inodesCount.toNat < inodeNumber sb g j ∧
      e = .corrupt "the group's inode range does not fit in the filesystem"

/-- Every inode plan is the first free inode tried, and up to 2^31 groups all of them are tried. -/
theorem plans_first_free_inode {sb : Superblock} {groups : List BlockGroupDescriptor} (isDir : Bool)
    (hintGroup : Nat) {bitmapReader : Nat → Result Bytes}
    (hread : InodeBitmapsRead groups bitmapReader) :
    PlansFirstInode sb groups isDir hintGroup bitmapReader ∧
      (groups.length ≤ 2 ^ 31 → ∀ g, g < groups.length →
        g ∈ visitedForInode groups isDir hintGroup) := by
  refine ⟨?_, fun hn g hg => mem_visitedForInode hn isDir hintGroup hg⟩
  unfold PlansFirstInode
  rcases planInode_eq_find sb hread isDir hintGroup with
    ⟨g, bgd, bitmap, j, hfirst, hplan⟩ | ⟨hnone, e, hplan⟩
  · rw [hplan]
    by_cases hcount : inodeNumber sb g j ≤ sb.inodesCount.toNat
    · rw [if_pos hcount]
      exact ⟨g, bgd, bitmap, j, hfirst, plannedInode_of_free isDir hfirst.2.1 hcount⟩
    · rw [if_neg hcount]
      exact .inr ⟨g, bgd, bitmap, j, hfirst, Nat.lt_of_not_le hcount, rfl⟩
  · rw [hplan]
    exact .inl hnone

theorem plans_first_free_inode_two_groups :
    PlansFirstInode Mount.twoGroupsSb Mount.twoGroups.fs.groups true 0
      (readsFree Mount.twoGroupsSb) ∧
      (Mount.twoGroups.fs.groups.length ≤ 2 ^ 31 → ∀ g, g < Mount.twoGroups.fs.groups.length →
        g ∈ visitedForInode Mount.twoGroups.fs.groups true 0) :=
  plans_first_free_inode true 0 (fun _ _ _ => ⟨_, rfl⟩)

def shortCountSb : Superblock :=
  { Mount.twoGroupsSb with inodesCount := 26 }

def shortCountGroups : List BlockGroupDescriptor :=
    [⟨3, 4, 5, 22, 6, 1, 0⟩, ⟨35, 36, 37, 26, 6, 0, 0⟩]

def shortCountDisk : Disk where
  img := Image.writeBlocks (fun _ => 0) 1024 [(2, shortCountGroups.flatMap Mount.rawDescriptor)]
  size := 65 * 1024

def shortCountReader (_block : Nat) : Result Bytes := .ok ([0xFF, 0x03] ++ List.replicate 1022 0xFF)

example : shortCountSb.blockGroupCount = 2 := by decide +kernel

/-- Group 1 has its inodes from 27 on free, none of which is counted, and hides inode 11 of group
0. -/
theorem uncounted_inode_hides_free_inode :
    shortCountSb.Parsed ∧
      ((readAll Jbd2.linuxCrc32c shortCountSb ⟨0, false⟩ (65 * 1024)).exec shortCountDisk).1 =
        .ok shortCountGroups ∧
      InodeBitmapsRead shortCountGroups shortCountReader ∧
      HasFreeInode shortCountSb shortCountGroups shortCountReader 0 10 ∧
      inodeNumber shortCountSb 0 10 ≤ shortCountSb.inodesCount.toNat ∧
      planInodeAllocation shortCountSb shortCountGroups false 1 shortCountReader =
        .error (.corrupt "the group's inode range does not fit in the filesystem") := by
  refine ⟨⟨⟨0, 0, by decide⟩, by decide, by decide⟩, ?_, fun _ _ _ => ⟨_, rfl⟩, ?_,
    by decide +kernel, by decide +kernel⟩
  · have hends : Result.Ends (fun groups => groups = shortCountGroups)
        ((readAll Jbd2.linuxCrc32c shortCountSb ⟨0, false⟩ (65 * 1024)).exec shortCountDisk).1 := by
      decide +kernel
    obtain ⟨groups, hg, rfl⟩ := hends.exists_ok
    exact hg
  · exact ⟨⟨3, 4, 5, 22, 6, 1, 0⟩, [0xFF, 0x03] ++ List.replicate 1022 0xFF, rfl, by decide, rfl,
      by decide, by decide +kernel, by decide +kernel, by decide +kernel⟩

end FsExt4.Alloc
