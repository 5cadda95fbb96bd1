import FsExt4.JournalApply

namespace FsExt4

open Lib Jbd2 Journal

variable (fs : Filesystem)

theorem readAt_readsBlocks (bs b : Nat) : (readAt (b * bs) bs).ReadsBlocks bs :=
  ⟨Nat.mul_mod_left b bs, rfl, fun r => Io.ReadsBlocks.done r⟩

theorem lookupNode_readsBlocks (bs logical descents : Nat) (cursor : Bytes)
    (header : ExtentHeader) :
    (Extent.lookupNode bs logical descents cursor header).ReadsBlocks bs := by
  induction descents generalizing cursor header with
  | zero =>
    unfold Extent.lookupNode
    split
    · exact Io.ReadsBlocks.done _
    · refine (Io.ReadsBlocks.done _).bind fun r => ?_
      dsimp only
      split
      · exact Io.ReadsBlocks.done _
      · split
        · exact Io.ReadsBlocks.done _
        · exact (readAt_readsBlocks bs _).bind fun buf =>
            (Io.ReadsBlocks.done _).bind fun child => Io.ReadsBlocks.done _
  | succ descents ih =>
    unfold Extent.lookupNode
    split
    · exact Io.ReadsBlocks.done _
    · refine (Io.ReadsBlocks.done _).bind fun r => ?_
      dsimp only
      split
      · exact Io.ReadsBlocks.done _
      · split
        · exact Io.ReadsBlocks.done _
        · exact (readAt_readsBlocks bs _).bind fun buf =>
            (Io.ReadsBlocks.done _).bind fun child => ih buf child

theorem mapLogical_readsBlocks (root : Bytes) (bs logical : Nat) :
    (Extent.mapLogical root bs logical).ReadsBlocks bs := by
  have hlookup : (Extent.lookup root bs logical).ReadsBlocks bs := by
    refine (Io.ReadsBlocks.done _).bind fun header => ?_
    split
    · exact Io.ReadsBlocks.done _
    · exact lookupNode_readsBlocks bs logical _ root header
  refine hlookup.bind fun ext => ?_
  cases ext <;> exact Io.ReadsBlocks.done _

theorem follow_readsBlocks (bs : Nat) (path : List Nat) (blockNo : Nat) :
    (Indirect.follow bs path blockNo).ReadsBlocks bs := by
  induction path generalizing blockNo with
  | nil => exact Io.ReadsBlocks.done _
  | cons i rest ih =>
    unfold Indirect.follow
    split
    · exact Io.ReadsBlocks.done _
    · refine Io.ReadsBlocks.bind ?_ fun buf => ih _
      unfold Indirect.getBlock
      split
      · exact Io.ReadsBlocks.done _
      · exact readAt_readsBlocks bs blockNo

theorem mapLogicalAny_readsBlocks (iBlock : Bytes) (flags : UInt32) (bs logical : Nat) :
    (Indirect.mapLogicalAny iBlock flags bs logical).ReadsBlocks bs := by
  unfold Indirect.mapLogicalAny
  split
  · exact mapLogical_readsBlocks iBlock bs logical
  · unfold Indirect.lookup
    dsimp only
    split
    · exact Io.ReadsBlocks.done _
    · split
      · exact follow_readsBlocks _ _ _
      · split
        · exact follow_readsBlocks _ _ _
        · split
          · exact follow_readsBlocks _ _ _
          · split
            · exact follow_readsBlocks _ _ _
            · exact Io.ReadsBlocks.done _

theorem journalInode_readsBlocks : fs.journalInode.ReadsBlocks fs.sb.blockSize := by
  refine Io.ReadsBlocks.bind ?_ fun raw => Io.ReadsBlocks.done _
  refine (Io.ReadsBlocks.done _).bind fun r => ?_
  refine Io.ReadsBlocks.bind ?_ fun data => ?_
  · unfold Filesystem.readBlock
    split
    · exact Io.ReadsBlocks.done _
    · exact readAt_readsBlocks _ _
  · split <;> exact Io.ReadsBlocks.done _

theorem readSuperblock_readsBlocks : fs.readSuperblock.ReadsBlocks fs.sb.blockSize := by
  unfold Filesystem.readSuperblock
  split
  · exact Io.ReadsBlocks.done _
  · refine (journalInode_readsBlocks fs).bind fun jinode => ?_
    refine (mapLogicalAny_readsBlocks _ _ _ _).bind fun phys => ?_
    cases phys with
    | none => exact Io.ReadsBlocks.done _
    | some phys =>
      exact (readAt_readsBlocks _ _).bind fun buf =>
        (Io.ReadsBlocks.done _).bind fun jsb => Io.ReadsBlocks.done _

theorem readJournalBlock_readsBlocks (jinode : Inode) (j : Nat) :
    (readJournalBlock fs jinode fs.sb.blockSize j).ReadsBlocks fs.sb.blockSize := by
  refine (mapLogicalAny_readsBlocks _ _ _ _).bind fun phys => ?_
  cases phys with
  | none => exact Io.ReadsBlocks.done _
  | some phys => exact readAt_readsBlocks _ _

variable (crc : Crc) (jsb : JournalSuperblock) {bs : Nat}

theorem checkTags_readsBlocks (rd : Nat → DevIo Bytes) (hrd : ∀ j, (rd j).ReadsBlocks bs)
    (tags : List (ReplayEntry × UInt32)) (st : WalkState) :
    (checkTags crc jsb rd tags st).ReadsBlocks bs := by
  induction tags generalizing st with
  | nil => exact Io.ReadsBlocks.done _
  | cons tag rest ih =>
    obtain ⟨entry, stored⟩ := tag
    unfold checkTags
    dsimp only
    split
    · exact (Io.ReadsBlocks.done _).bind fun st => ih _
    · exact (hrd _).bind fun data => (Io.ReadsBlocks.done _).bind fun st => ih _

theorem walkStep_readsBlocks (rd : Nat → DevIo Bytes) (hrd : ∀ j, (rd j).ReadsBlocks bs)
    (limit : Nat) (st : WalkState) : (walkStep crc jsb rd limit st).ReadsBlocks bs := by
  refine (hrd _).bind fun block => ?_
  dsimp only
  split
  · exact Io.ReadsBlocks.done _
  · split
    · exact Io.ReadsBlocks.done _
    · refine Io.ReadsBlocks.bind ?_ fun next => ?_
      · unfold walkArm
        split
        · unfold walkDescriptor
          split
          · split <;> exact Io.ReadsBlocks.done _
          · dsimp only
            split
            · exact Io.ReadsBlocks.done _
            · exact (checkTags_readsBlocks crc jsb rd hrd _ _).bind fun st => Io.ReadsBlocks.done _
        · split
          · exact Io.ReadsBlocks.done _
          · split <;> exact Io.ReadsBlocks.done _
      · cases next <;> exact Io.ReadsBlocks.done _

theorem walkLoop_readsBlocks (rd : Nat → DevIo Bytes) (hrd : ∀ j, (rd j).ReadsBlocks bs)
    (limit fuel : Nat) (st : WalkState) : (walkLoop crc jsb rd limit fuel st).ReadsBlocks bs := by
  induction fuel generalizing st with
  | zero => exact Io.ReadsBlocks.done _
  | succ fuel ih =>
    unfold walkLoop
    split
    · refine (walkStep_readsBlocks crc jsb rd hrd limit st).bind fun r => ?_
      obtain ⟨st', more⟩ := r
      dsimp only
      split
      · exact ih st'
      · exact Io.ReadsBlocks.done _
    · exact Io.ReadsBlocks.done _

theorem walk_readsBlocks : (walk crc fs jsb).ReadsBlocks fs.sb.blockSize := by
  unfold walk
  split
  · exact Io.ReadsBlocks.done _
  · dsimp only
    split
    · exact Io.ReadsBlocks.done _
    · split
      · exact Io.ReadsBlocks.done _
      · split
        · exact Io.ReadsBlocks.done _
        · rename_i hbs
          rw [ne_eq, not_not] at hbs
          split
          · exact Io.ReadsBlocks.done _
          · refine (journalInode_readsBlocks fs).bind fun jinode => ?_
            rw [hbs]
            exact (walkLoop_readsBlocks crc jsb _ (readJournalBlock_readsBlocks fs jinode) _ _
              _).bind fun st => Io.ReadsBlocks.done _

theorem resolve_readsBlocks (plan : ReplayPlan) :
    (JournalApply.resolve fs plan).ReadsBlocks fs.sb.blockSize := by
  refine (journalInode_readsBlocks fs).bind fun jinode => ?_
  generalize plan.writes = es
  induction es with
  | nil => exact Io.ReadsBlocks.done _
  | cons e rest ih =>
    unfold JournalApply.resolveEntries
    refine Io.ReadsBlocks.bind ?_ fun r => ih.bind fun rs => Io.ReadsBlocks.done _
    refine (mapLogicalAny_readsBlocks _ _ _ _).bind fun phys => ?_
    cases phys with
    | none => exact Io.ReadsBlocks.done _
    | some phys =>
      exact (Io.ReadsBlocks.done _).bind fun source =>
        (Io.ReadsBlocks.done _).bind fun destination => Io.ReadsBlocks.done _

end FsExt4
