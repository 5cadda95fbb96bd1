import FsExt4.BlockPlanner
import FsExt4.IndirectPlan

namespace FsExt4.Superblock

open Lib Alloc Indirect

def groupLength (sb : Superblock) (g : Nat) : Nat :=
  min sb.blocksPerGroup.toNat (sb.blocksCount - sb.firstBlockOfGroup g)

/-- A volume whose groups start behind the boot block, if there is one, and whose descriptor run and
reserved blocks fit behind the superblock. -/
structure Placeable (sb : Superblock) : Prop where
  parsed : sb.Parsed
  clusters : sb.featureRoCompat &&& roCompatBigalloc = 0
  firstData : sb.firstDataBlock.toNat = if sb.logBlockSize = 0 then 1 else 0
  metaGroups : sb.firstMetaBg ≤ divCeil sb.blockGroupCount sb.descsPerBlock
  fits : 1 + sb.sharedDescriptorRun + sb.reservedGdtBlocks ≤ sb.groupLength 0

/-- The group has the block in use when its bitmap is not initialised. -/
def UsedAtHead (sb : Superblock) (h b : Nat) : Prop :=
  sb.firstBlockOfGroup h ≤ b ∧ b < sb.firstBlockOfGroup h + sb.groupHeadMetadataBlocks h ∧
    ∀ groups, ∃ r ∈ uninitGroupUsedRanges sb groups h,
      sb.firstBlockOfGroup h + r.1 ≤ b ∧ b < sb.firstBlockOfGroup h + r.2

/-- Every descriptor has bytes of its own, behind the superblock at the head of a group. -/
structure Placed (sb : Superblock) : Prop where
  apart : ∀ g < sb.blockGroupCount, ∀ g' < sb.blockGroupCount, g ≠ g' →
    (sb.descriptorLocation g).1 = (sb.descriptorLocation g').1 →
      (sb.descriptorLocation g).2 + sb.descSize ≤ (sb.descriptorLocation g').2 ∨
        (sb.descriptorLocation g').2 + sb.descSize ≤ (sb.descriptorLocation g).2
  inBlock : ∀ g < sb.blockGroupCount, (sb.descriptorLocation g).2 + sb.descSize ≤ sb.blockSize
  notSuper : ∀ g < sb.blockGroupCount, (sb.descriptorLocation g).1 ≠ sb.primarySuperblockBlock
  atHead : ∀ g < sb.blockGroupCount, ∃ h < sb.blockGroupCount,
    (sb.descriptorLocation g).1 < sb.firstBlockOfGroup h + sb.groupLength h ∧
      sb.UsedAtHead h (sb.descriptorLocation g).1

/-- The groups that hold a meta group's descriptors have room for them, and are counted in 32
bits. -/
structure HeadsFit (sb : Superblock) : Prop where
  room : ∀ metaGroup, sb.metaGroupHolding (metaGroup * sb.descsPerBlock) = some metaGroup →
    metaGroup * sb.descsPerBlock < sb.blockGroupCount →
    (sb.groupHasSuper (metaGroup * sb.descsPerBlock)).toNat + 1 ≤
      sb.groupLength (metaGroup * sb.descsPerBlock)
  counted : sb.blockGroupCount < 2 ^ 32

section Geometry

variable {sb : Superblock} (hbnd : sb.Bounds)

include hbnd

theorem Bounds.blocksInGroup_eq (hcount : sb.blockGroupCount < 2 ^ 32) {g : Nat}
    (hg : g < sb.blockGroupCount) : blocksInGroup sb g = sb.groupLength g := by
  have hpos := hbnd.blocksPerGroup
  have hmax : max sb.blocksPerGroup.toNat 1 = sb.blocksPerGroup.toNat := Nat.max_eq_left hpos
  have hup := @le_divCeil_mul (sb.blocksCount - sb.firstDataBlock.toNat)
    sb.blocksPerGroup.toNat hpos
  rw [blockGroupCount, hmax] at hg
  rw [blocksInGroup, groupLength, firstBlockOfGroup, Nat.mod_eq_of_lt hcount, blockGroupCount, hmax,
    Nat.sub_add_eq]
  generalize sb.blocksCount - sb.firstDataBlock.toNat = n at hg hup ⊢
  generalize sb.blocksPerGroup.toNat = k at hpos hg hup ⊢
  dsimp only
  split
  · rename_i hnext
    have hlow := mul_lt_of_lt_divCeil hpos hnext
    rw [Nat.succ_mul] at hlow
    omega
  · rename_i hlast
    have hlow := mul_lt_of_lt_divCeil hpos hg
    have heq : divCeil n k = g + 1 := by omega
    rw [heq, Nat.succ_mul] at hup
    have hmod : n % k = (n - g * k) % k := by
      rw [← Nat.add_mul_mod_self_right (n - g * k) g k, Nat.sub_add_cancel (by omega)]
    rw [hmod]
    obtain hshort | hfull := Nat.lt_or_eq_of_le (show n - g * k ≤ k by omega)
    · rw [Nat.mod_eq_of_lt hshort, if_neg (by omega), Nat.min_eq_right (by omega)]
    · rw [hfull, Nat.mod_self, if_pos rfl, Nat.min_self]

end Geometry

/-- The group whose head has a group's descriptor, and how far behind the head's start. -/
def headGroup (sb : Superblock) (g : Nat) : Nat :=
  match sb.metaGroupHolding g with
  | none => 0
  | some metaGroup => metaGroup * sb.descsPerBlock

def headOffset (sb : Superblock) (g : Nat) : Nat :=
  match sb.metaGroupHolding g with
  | none => 1 + g / sb.descsPerBlock
  | some metaGroup => (sb.groupHasSuper (metaGroup * sb.descsPerBlock)).toNat

section Location

variable {sb : Superblock}

theorem metaGroupHolding_eq_some {g metaGroup : Nat} : sb.metaGroupHolding g = some metaGroup ↔
    sb.hasMetaBg = true ∧ sb.firstMetaBg ≤ metaGroup ∧ g / sb.descsPerBlock = metaGroup := by
  unfold metaGroupHolding
  dsimp only
  constructor
  · intro h
    split at h
    · rename_i hmeta
      split at h
      · rename_i hle
        obtain rfl := Option.some.inj h
        exact ⟨hmeta, hle, rfl⟩
      · cases h
    · cases h
  · rintro ⟨hmeta, hle, rfl⟩
    rw [if_pos hmeta, if_pos hle]

theorem metaGroupHolding_head (hper : 0 < sb.descsPerBlock) {g metaGroup : Nat}
    (h : sb.metaGroupHolding g = some metaGroup) :
    sb.metaGroupHolding (metaGroup * sb.descsPerBlock) = some metaGroup := by
  obtain ⟨hmeta, hle, -⟩ := metaGroupHolding_eq_some.mp h
  exact metaGroupHolding_eq_some.mpr ⟨hmeta, hle, Nat.mul_div_cancel _ hper⟩

theorem metaGroupHolding_zero {g : Nat} (h : sb.metaGroupHolding g = none) :
    sb.metaGroupHolding 0 = none := by
  cases h0 : sb.metaGroupHolding 0 with
  | none => rfl
  | some metaGroup =>
    obtain ⟨hmeta, hle, hzero⟩ := metaGroupHolding_eq_some.mp h0
    rw [Nat.zero_div] at hzero
    have hall := metaGroupHolding_eq_some.mpr
      ⟨hmeta, Nat.le_trans hle (hzero ▸ Nat.zero_le (g / sb.descsPerBlock)), rfl⟩
    rw [h] at hall
    cases hall

theorem groupHasSuper_zero : sb.groupHasSuper 0 = true := rfl

theorem Placeable.primarySuperblockBlock_eq (h : sb.Placeable) :
    sb.primarySuperblockBlock = sb.firstBlockOfGroup 0 := by
  rw [firstBlockOfGroup, Nat.zero_mul, Nat.add_zero, h.firstData, primarySuperblockBlock,
    superblockOffset, blockSize, Nat.shiftLeft_eq]
  split
  · rename_i hlog
    rw [hlog]
  · rename_i hlog
    have hpow := Nat.one_lt_two_pow hlog
    exact Nat.div_eq_of_lt (by omega)

theorem Placeable.descriptorLocation_eq (h : sb.Placeable) (g : Nat) :
    (sb.descriptorLocation g).1 = sb.firstBlockOfGroup (sb.headGroup g) + sb.headOffset g := by
  have hprimary := h.primarySuperblockBlock_eq
  unfold descriptorLocation headGroup headOffset
  dsimp only
  cases sb.metaGroupHolding g with
  | none =>
    dsimp only
    rw [hprimary, Nat.add_assoc]
  | some metaGroup =>
    dsimp only
    split
    · rename_i hzero
      rw [hzero, groupHasSuper_zero, hprimary]
      rfl
    · rfl

theorem headGroup_le (g : Nat) : sb.headGroup g ≤ g := by
  unfold headGroup
  cases hmeta : sb.metaGroupHolding g with
  | none => exact Nat.zero_le g
  | some metaGroup =>
    obtain ⟨-, -, rfl⟩ := metaGroupHolding_eq_some.mp hmeta
    exact Nat.div_mul_le_self g sb.descsPerBlock

theorem lt_sharedDescriptorRun (hper : 0 < sb.descsPerBlock) {g : Nat} (hg : g < sb.blockGroupCount)
    (h : sb.metaGroupHolding g = none) : g / sb.descsPerBlock < sb.sharedDescriptorRun := by
  unfold sharedDescriptorRun
  split
  · rename_i hmeta
    by_contra hle
    have hsome := metaGroupHolding_eq_some.mpr ⟨hmeta, Nat.le_of_not_lt hle, rfl⟩
    rw [h] at hsome
    cases hsome
  · exact lt_divCeil hper hg

theorem headOffset_lt_head (hper : 0 < sb.descsPerBlock) {g : Nat} (hg : g < sb.blockGroupCount) :
    sb.headOffset g < sb.groupHeadMetadataBlocks (sb.headGroup g) := by
  unfold headGroup headOffset
  cases hmeta : sb.metaGroupHolding g with
  | none =>
    have hrun := lt_sharedDescriptorRun hper hg hmeta
    dsimp only
    rw [groupHeadMetadataBlocks, metaGroupHolding_zero hmeta, groupHasSuper_zero]
    dsimp only [Bool.toNat_true]
    rw [if_pos rfl]
    omega
  | some metaGroup =>
    dsimp only
    rw [groupHeadMetadataBlocks, metaGroupHolding_head hper hmeta]
    dsimp only
    rw [Nat.sub_self, decide_eq_true (Or.inl rfl), Bool.toNat_true]
    exact Nat.lt_succ_self _

theorem Placeable.headOffset_lt_length (h : sb.Placeable) (hheads : sb.HeadsFit)
    (hper : 0 < sb.descsPerBlock) {g : Nat} (hg : g < sb.blockGroupCount) :
    sb.headOffset g < sb.groupLength (sb.headGroup g) := by
  have hle := @headGroup_le sb g
  have hfits := h.fits
  unfold headGroup headOffset at *
  cases hmeta : sb.metaGroupHolding g with
  | none =>
    have hrun := lt_sharedDescriptorRun hper hg hmeta
    dsimp only
    omega
  | some metaGroup =>
    rw [hmeta] at hle
    exact hheads.room metaGroup (metaGroupHolding_head hper hmeta) (Nat.lt_of_le_of_lt hle hg)

theorem div_eq_of_head (hper : 0 < sb.descsPerBlock) {g g' : Nat}
    (hgroup : sb.headGroup g = sb.headGroup g')
    (hoff : sb.headOffset g = sb.headOffset g') : g / sb.descsPerBlock = g' / sb.descsPerBlock := by
  unfold headGroup headOffset at *
  cases hmeta : sb.metaGroupHolding g with
  | none =>
    cases hmeta' : sb.metaGroupHolding g' with
    | none =>
      rw [hmeta, hmeta'] at hoff
      exact Nat.add_left_cancel hoff
    | some metaGroup =>
      -- a meta group that starts at group 0 leaves no run behind the superblock
      rw [hmeta, hmeta'] at hgroup
      have hhead := metaGroupHolding_head hper hmeta'
      rw [← show 0 = metaGroup * sb.descsPerBlock from hgroup, metaGroupHolding_zero hmeta] at hhead
      cases hhead
  | some metaGroup =>
    cases hmeta' : sb.metaGroupHolding g' with
    | none =>
      rw [hmeta, hmeta'] at hgroup
      have hhead := metaGroupHolding_head hper hmeta
      rw [show metaGroup * sb.descsPerBlock = 0 from hgroup, metaGroupHolding_zero hmeta'] at hhead
      cases hhead
    | some metaGroup' =>
      rw [hmeta, hmeta'] at hgroup
      obtain ⟨-, -, rfl⟩ := metaGroupHolding_eq_some.mp hmeta
      obtain ⟨-, -, rfl⟩ := metaGroupHolding_eq_some.mp hmeta'
      exact Nat.eq_of_mul_eq_mul_right hper hgroup

end Location

section Placement

variable {sb : Superblock}

theorem usedAtHead_of_lt {h off : Nat} (hhead : off < sb.groupHeadMetadataBlocks h)
    (hlen : off < blocksInGroup sb h) : sb.UsedAtHead h (sb.firstBlockOfGroup h + off) := by
  refine ⟨Nat.le_add_right _ _, Nat.add_lt_add_left hhead _, fun groups => ?_⟩
  refine ⟨(0, min (sb.groupHeadMetadataBlocks h) (blocksInGroup sb h)), ?_, Nat.add_le_add_left
    (Nat.zero_le _) _, Nat.add_lt_add_left (Nat.lt_min.mpr ⟨hhead, hlen⟩) _⟩
  unfold uninitGroupUsedRanges
  dsimp only
  rw [if_pos (Nat.zero_lt_of_lt hhead)]
  exact List.mem_append_left _ List.mem_cons_self

theorem headOffset_pos {g : Nat} (h : sb.headGroup g = 0) : 0 < sb.headOffset g := by
  unfold headGroup at h
  unfold headOffset
  cases hmeta : sb.metaGroupHolding g with
  | none => exact Nat.lt_of_lt_of_le Nat.one_pos (Nat.le_add_right _ _)
  | some metaGroup =>
    rw [hmeta] at h
    dsimp only at h ⊢
    rw [h, groupHasSuper_zero]
    decide

/-- Descriptors have bytes of their own, inside one block that is in use at the head of a group and
is not the superblock's. -/
theorem descriptors_placed (h : sb.Placeable) (hheads : sb.HeadsFit) : sb.Placed := by
  have hbnd := h.parsed.bounds h.clusters
  have hper := hbnd.descsPerBlock_pos
  have hloc := h.descriptorLocation_eq
  have hlen : ∀ g < sb.blockGroupCount, sb.headOffset g < sb.groupLength (sb.headGroup g) :=
    fun g hg => h.headOffset_lt_length hheads hper hg
  have hin : ∀ g < sb.blockGroupCount, sb.headOffset g < sb.blocksPerGroup.toNat :=
    fun g hg => Nat.lt_of_lt_of_le (hlen g hg) (Nat.min_le_left _ _)
  constructor
  case apart =>
    intro g hg g' hg' hne hblock
    refine descriptor_disjoint (fun heq => hne ?_) hblock
    have hsame := hblock
    rw [hloc, hloc] at hsame
    obtain ⟨hgroup, hoff⟩ := firstBlockOfGroup_add_inj sb (hin g hg) (hin g' hg') hsame
    have hdiv := div_eq_of_head hper hgroup hoff
    have hmod : g % sb.descsPerBlock * sb.descSize = g' % sb.descsPerBlock * sb.descSize :=
      congrArg Prod.snd heq
    have hds := hbnd.descSize
    have hrest := Nat.eq_of_mul_eq_mul_right (by omega) hmod
    rw [← Nat.div_add_mod g sb.descsPerBlock, ← Nat.div_add_mod g' sb.descsPerBlock, hdiv, hrest]
  case inBlock => exact fun g _ => hbnd.descriptor_fits g
  case notSuper =>
    intro g hg heq
    rw [hloc, h.primarySuperblockBlock_eq, ← Nat.add_zero (sb.firstBlockOfGroup 0)] at heq
    obtain ⟨hgroup, hoff⟩ := firstBlockOfGroup_add_inj sb (hin g hg) hbnd.blocksPerGroup heq
    have hpos := headOffset_pos hgroup
    omega
  case atHead =>
    intro g hg
    have hlt := Nat.lt_of_le_of_lt (@headGroup_le sb g) hg
    refine ⟨sb.headGroup g, hlt, ?_, ?_⟩
    · rw [hloc]
      exact Nat.add_lt_add_left (hlen g hg) _
    · rw [hloc]
      refine usedAtHead_of_lt (headOffset_lt_head hper hg) ?_
      rw [hbnd.blocksInGroup_eq hheads.counted hlt]
      exact hlen g hg

end Placement

/-- Meta groups of 32 groups of 8 MiB, a superblock copy in each group. -/
def metaSb (blocksCount : Nat) : Superblock where
  inodesCount := 64
  blocksCount := blocksCount
  firstDataBlock := 1
  logBlockSize := 0
  blocksPerGroup := 8192
  inodesPerGroup := 16
  inodeSize := 128
  featureIncompat := incompatMetaBg
  descSize := 32
  reservedGdtBlocks := 0
  journalInode := 0
  featureCompat := 0
  featureRoCompat := 0
  firstInode := 11
  metaBgField := 0
  backupBgs := []
  uuid := []

theorem metaSb_placeable {n : Nat} (hn : 8193 ≤ n) (hparsed : (metaSb n).Parsed) :
    (metaSb n).Placeable := by
  have hmeta : (metaSb n).hasMetaBg = true := by
    change (incompatMetaBg &&& incompatMetaBg != 0) = true
    decide
  have hfirst : (metaSb n).firstMetaBg = 0 := by
    rw [firstMetaBg, if_pos hmeta]
    rfl
  have hlen : (metaSb n).groupLength 0 = min 8192 (n - 1) := rfl
  have hclusters : (metaSb n).featureRoCompat &&& roCompatBigalloc = 0 := by
    change (0 : UInt32) &&& roCompatBigalloc = 0
    decide
  refine ⟨hparsed, hclusters, rfl, ?_, ?_⟩
  · rw [hfirst]
    exact Nat.zero_le _
  · rw [sharedDescriptorRun, if_pos hmeta, hfirst, hlen]
    change 1 + 0 + 0 ≤ _
    omega

theorem descriptors_placed_meta : (metaSb 270000).Placeable ∧ (metaSb 270000).HeadsFit ∧
    (metaSb 270000).Placed := by
  have hheads : (metaSb 270000).HeadsFit := by
    refine ⟨?_, by decide⟩
    intro metaGroup _ hlt
    have hsmall : metaGroup < 2 := by
      change metaGroup * 32 < 33 at hlt
      omega
    have hall : ∀ metaGroup < 2, ((metaSb 270000).groupHasSuper (metaGroup * 32)).toNat + 1 ≤
        (metaSb 270000).groupLength (metaGroup * 32) := by decide
    exact hall metaGroup hsmall
  exact ⟨metaSb_placeable (by decide) ⟨⟨0, 0, by decide⟩, by decide, by decide⟩, hheads,
    descriptors_placed (metaSb_placeable (by decide) ⟨⟨0, 0, by decide⟩, by decide, by decide⟩)
    hheads⟩

/-- A last group of one block has no room for the descriptors of its meta group behind its
superblock copy; and of 2 ^ 32 groups the allocator takes each to be as short as the last. -/
theorem short_heads_not_placed :
    ((metaSb 262146).Placeable ∧ ¬ (metaSb 262146).Placed) ∧
      ((metaSb 35184372080642).Placeable ∧ ¬ (metaSb 35184372080642).Placed) := by
  refine ⟨⟨metaSb_placeable (by decide) ⟨⟨0, 0, by decide⟩, by decide, by decide⟩, fun h => ?_⟩,
    ⟨metaSb_placeable (by decide) ⟨⟨0, 0, by decide⟩, by decide, by decide⟩, fun h => ?_⟩⟩
  · obtain ⟨g, hg, hlt, -⟩ := h.atHead 32 (by decide)
    have hblock : ((metaSb 262146).descriptorLocation 32).1 = 262146 := by decide
    have hlen : (metaSb 262146).groupLength g = min 8192 (262146 - (1 + g * 8192)) := rfl
    have hfirst : (metaSb 262146).firstBlockOfGroup g = 1 + g * 8192 := rfl
    rw [hblock, hlen, hfirst] at hlt
    change g < 33 at hg
    omega
  · obtain ⟨g, -, -, hfirst, -, hused⟩ := h.atHead 0 (by decide)
    have hblock : ((metaSb 35184372080642).descriptorLocation 0).1 = 2 := by decide
    obtain rfl : g = 0 := by
      rw [hblock] at hfirst
      change 1 + g * 8192 ≤ 2 at hfirst
      omega
    obtain ⟨r, hr, -, hlt⟩ := hused []
    have hranges : uninitGroupUsedRanges (metaSb 35184372080642) [] 0 = [(0, 1)] := by decide
    rw [hranges] at hr
    obtain rfl := List.mem_singleton.mp hr
    rw [hblock] at hlt
    exact absurd hlt (by decide)

end FsExt4.Superblock
