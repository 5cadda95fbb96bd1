import FsExt4.JournalRevoke
import FsExt4.TransactionBlocks

namespace FsExt4

open Lib Jbd2 Journal

namespace Transaction

structure Accepted (jsb : JournalSuperblock) (tx : Transaction) : Prop where
  supported : jsb.unsupportedIncompat = 0
  declared : jsb.checksumDeclarationError = none
  blockSize : tx.blockSize = jsb.blockSize
  uses64bit : tx.uses64bit = jsb.uses64bit
  usesCsumV3 : tx.usesCsumV3 = jsb.usesCsumV3

section Serialize

variable (crc : Crc) (jsb : JournalSuperblock) (tx : Transaction)

theorem commitFor_accepted (h : Accepted jsb tx) :
    tx.commitFor crc jsb = tx.serialize crc (layoutFor crc jsb) := by
  unfold commitFor
  rw [if_neg (by simp [h.supported]), h.declared]
  dsimp only
  rw [if_neg (by simp [h.blockSize, h.uses64bit, h.usesCsumV3])]

theorem accepted_of_commitFor (blocks : List Bytes) (h : tx.commitFor crc jsb = .ok blocks) :
    Accepted jsb tx := by
  unfold commitFor at h
  split at h
  · exact absurd h (by simp)
  · rename_i hs
    split at h
    · exact absurd h (by simp)
    · rename_i hd
      split at h
      · exact absurd h (by simp)
      · rename_i hl
        simp only [ne_eq, not_or, not_not] at hs hl
        exact ⟨hs, hd, hl.1, hl.2.1, hl.2.2⟩

theorem putTags_ok (ws : List JournaledBlock) (blk : Bytes) (pos : Nat)
    (h : pos + ws.length * jsb.tagBytes ≤ blk.length - jsb.tailBytes) :
    ∃ blk', putTags crc tx (layoutFor crc jsb) ws blk pos = .ok blk' := by
  induction ws generalizing blk pos with
  | nil => exact ⟨blk, rfl⟩
  | cons w rest ih =>
    rw [List.length_cons, Nat.succ_mul] at h
    have hfit : ¬ blk.length - (layoutFor crc jsb).tailBytes <
        pos + (layoutFor crc jsb).tagBytes := by
      change ¬ blk.length - jsb.tailBytes < pos + jsb.tagBytes
      omega
    have hl := length_putTag crc jsb tx rest.isEmpty w blk pos (by omega)
    rw [putTags, if_neg hfit]
    apply ih
    rw [hl]
    change pos + jsb.tagBytes + _ ≤ _
    omega

theorem buildDescriptorBlock_ok (hbs : 32 ≤ tx.blockSize.toNat) (c : List JournaledBlock)
    (hc : c.length ≤ tx.tagsPerDescriptor (layoutFor crc jsb)) :
    ∃ d, buildDescriptorBlock crc tx (layoutFor crc jsb) c = .ok d := by
  have hh := writeHeader_hasHeader tx tx.zeroBlock descriptorBlock (by simp; omega)
  rw [length_zeroBlock] at hh
  have htag : 8 ≤ jsb.tagBytes ∧ jsb.tagBytes ≤ 16 := by
    unfold JournalSuperblock.tagBytes
    repeat' split
    all_goals omega
  have htail : jsb.tailBytes ≤ 4 := by
    unfold JournalSuperblock.tailBytes blockTailBytes
    split <;> omega
  have hone : 1 ≤ (tx.blockSize.toNat - 12 - jsb.tailBytes) / jsb.tagBytes := by
    rw [Nat.le_div_iff_mul_le (by omega)]
    omega
  have hroom : c.length * jsb.tagBytes ≤ tx.blockSize.toNat - 12 - jsb.tailBytes := by
    have hc' : c.length ≤ (tx.blockSize.toNat - 12 - jsb.tailBytes) / jsb.tagBytes := by
      refine Nat.le_trans hc ?_
      change max ((tx.blockSize.toNat - 12 - jsb.tailBytes) / jsb.tagBytes) 1 ≤ _
      omega
    exact Nat.le_trans (Nat.mul_le_mul_right _ hc') (Nat.div_mul_le_self _ _)
  obtain ⟨blk', hp⟩ := putTags_ok crc jsb tx c (tx.writeHeader tx.zeroBlock descriptorBlock) 12 (by
    rw [hh.length]
    omega)
  exact ⟨sealTail crc (layoutFor crc jsb) blk', by rw [buildDescriptorBlock, hp]; rfl⟩

theorem buildRevokeBlock_ok (hbs : 32 ≤ tx.blockSize.toNat) (c : List UInt64)
    (hc : c.length ≤ tx.revokesPerBlock (layoutFor crc jsb)) :
    ∃ r, buildRevokeBlock crc tx (layoutFor crc jsb) c = .ok r := by
  have hh := writeHeader_hasHeader tx tx.zeroBlock revokeBlock (by simp; omega)
  rw [length_zeroBlock] at hh
  have hrec : recordSize jsb.uses64bit = 4 ∨ recordSize jsb.uses64bit = 8 := by
    unfold recordSize
    split <;> simp
  have htail : jsb.tailBytes ≤ 4 := by
    unfold JournalSuperblock.tailBytes blockTailBytes
    split <;> omega
  have hone : 1 ≤ (tx.blockSize.toNat - 16 - jsb.tailBytes) / recordSize jsb.uses64bit := by
    rw [Nat.le_div_iff_mul_le (by omega)]
    omega
  have hroom : c.length * recordSize jsb.uses64bit ≤ tx.blockSize.toNat - 16 - jsb.tailBytes := by
    have hc' : c.length ≤ (tx.blockSize.toNat - 16 - jsb.tailBytes) / recordSize jsb.uses64bit := by
      refine Nat.le_trans hc ?_
      change max ((tx.blockSize.toNat - 16 - jsb.tailBytes) / recordSize jsb.uses64bit) 1 ≤ _
      omega
    exact Nat.le_trans (Nat.mul_le_mul_right _ hc') (Nat.div_mul_le_self _ _)
  unfold buildRevokeBlock
  dsimp only
  rw [if_neg]
  · exact ⟨_, rfl⟩
  · rw [hh.length]
    change ¬ tx.blockSize.toNat - jsb.tailBytes < 16 + c.length * recordSize jsb.uses64bit
    omega

theorem serialize_ok (hbs : 32 ≤ tx.blockSize.toNat) :
    ∃ blocks, tx.serialize crc (layoutFor crc jsb) = .ok blocks := by
  have hposT : 0 < tx.tagsPerDescriptor (layoutFor crc jsb) := by
    unfold tagsPerDescriptor
    omega
  have hposR : 0 < tx.revokesPerBlock (layoutFor crc jsb) := by
    unfold revokesPerBlock
    omega
  obtain ⟨groups, hg⟩ := mapM_ok (descriptorGroup crc tx (layoutFor crc jsb))
    (chunks (tx.tagsPerDescriptor (layoutFor crc jsb)) tx.writes) (by
      intro c hc
      obtain ⟨d, hd⟩ := buildDescriptorBlock_ok crc jsb tx hbs c (mem_chunks _ hposT _ c hc).2
      exact ⟨d :: c.map (fun w => loggedCopy w.bytes), by rw [descriptorGroup, hd]; rfl⟩)
  obtain ⟨revokes, hr⟩ := mapM_ok (buildRevokeBlock crc tx (layoutFor crc jsb))
    (chunks (tx.revokesPerBlock (layoutFor crc jsb)) tx.revokes) (fun c hc =>
      buildRevokeBlock_ok crc jsb tx hbs c (mem_chunks _ hposR _ c hc).2)
  exact ⟨groups.flatten ++ revokes ++ [buildCommitBlock crc tx (layoutFor crc jsb)],
    by rw [serialize, hg, hr]; rfl⟩

end Serialize

end Transaction

namespace Journal

/-- The entry names the write's block, and its journal block, un-escaped, holds the bytes. -/
structure Restores (jsb : JournalSuperblock) (log : Nat → Bytes) (sequence : UInt32)
    (e : ReplayEntry) (w : JournaledBlock) : Prop where
  transaction : e.transaction = sequence
  fsBlock : e.fsBlock = w.fsBlock
  inRing : InRing jsb e.journalBlock
  content : JournalApply.unescape e (log e.journalBlock) = w.bytes

theorem survivors_single (t : LogTransaction) :
    survivors [t] = (t.writes.filter (fun w => w.1 ∉ t.revokes)).map (0, ·) := by
  have hw : indexedWrites 0 [t] = t.writes.map (0, ·) := by simp [indexedWrites]
  have hr : indexedRevokes 0 [t] = t.revokes.map (0, ·) := by simp [indexedRevokes]
  unfold survivors
  rw [hw, List.filter_map]
  congr 1
  apply List.filter_congr
  intro w _
  simp only [Function.comp_apply, Unrevoked, hr, decide_eq_decide]
  constructor
  · intro h hmem
    exact absurd (h (0, w.1) (List.mem_map.mpr ⟨w.1, hmem, rfl⟩) rfl) (by simp)
  · rintro h r hr' he
    obtain ⟨b, hb, rfl⟩ := List.mem_map.mp hr'
    dsimp only at he
    rw [he] at hb
    exact absurd hb h

theorem committedLog_named (crc : Crc) (jsb : JournalSuperblock) (tx : Transaction)
    (hbs : 24 ≤ tx.blockSize.toNat) (hseq : tx.sequence = jsb.sequence) (blocks : List Bytes)
    (hs : tx.serialize crc (Transaction.layoutFor crc jsb) = .ok blocks) :
    ∃ t : LogTransaction, t.blocks = blocks ∧
      t.writes = tx.writes.map (fun w => (Transaction.named jsb w.fsBlock, w.bytes)) ∧
      t.revokes = tx.revokes.map (Transaction.named jsb) ∧
      ∀ log : Nat → Bytes, Holds jsb log jsb.start.toNat blocks → blocks.length ≤ capacity jsb →
        (blocks.length < capacity jsb →
          NoHeader log (advance jsb.start.toNat blocks.length jsb) (tx.sequence + 1)) →
        CommittedLog crc jsb log [t] := by
  obtain ⟨t, htb, htc, htw, htr⟩ := Transaction.serialize_committed crc jsb tx hbs blocks hs
  have hblocks : logBlocks [t] = blocks := by simp [logBlocks, htb]
  have hafter : sequenceAfterAll jsb.sequence [t] = tx.sequence + 1 := by
    rw [hseq]
    rfl
  refine ⟨t, htb, htw, htr, ?_⟩
  intro log hholds hfit hend
  refine ⟨⟨?_, trivial⟩, by simp, ?_, ?_, ?_⟩
  · rw [← hseq]
    exact htc
  · rwa [hblocks]
  · rwa [hblocks]
  · rwa [hblocks, hafter]

theorem committedLog_commitFor (crc : Crc) (jsb : JournalSuperblock) (tx : Transaction)
    (hbs : 1024 ≤ tx.blockSize.toNat) (hacc : tx.Accepted jsb) (hseq : tx.sequence = jsb.sequence)
    (hw : ∀ w ∈ tx.writes, Transaction.Fits jsb w.fsBlock)
    (hr : ∀ b ∈ tx.revokes, Transaction.Fits jsb b) :
    ∃ blocks, tx.commitFor crc jsb = .ok blocks ∧ ∃ t : LogTransaction, t.blocks = blocks ∧
      t.writes = tx.writes.map (fun w => (w.fsBlock, w.bytes)) ∧ t.revokes = tx.revokes ∧
      ∀ log : Nat → Bytes, Holds jsb log jsb.start.toNat blocks → blocks.length ≤ capacity jsb →
        (blocks.length < capacity jsb →
          NoHeader log (advance jsb.start.toNat blocks.length jsb) (tx.sequence + 1)) →
        CommittedLog crc jsb log [t] := by
  obtain ⟨blocks, hs⟩ := Transaction.serialize_ok crc jsb tx (by omega)
  obtain ⟨t, htb, htw, htr, hlog⟩ := committedLog_named crc jsb tx (by omega) hseq blocks hs
  refine ⟨blocks, (Transaction.commitFor_accepted crc jsb tx hacc).trans hs, t, htb, ?_, ?_, hlog⟩
  · rw [htw]
    apply List.map_congr_left
    intro w hmem
    rw [Transaction.named_of_fits jsb w.fsBlock (hw w hmem)]
  · rw [htr]
    conv_rhs => rw [← List.map_id tx.revokes]
    apply List.map_congr_left
    intro b hmem
    exact Transaction.named_of_fits jsb b (hr b hmem)

theorem Geometry.dirty {jsb : JournalSuperblock} (hg : Geometry jsb) : jsb.start ≠ 0 := by
  intro h0
  have h1 := hg.first_pos
  have h2 := hg.first_le
  rw [h0] at h2
  exact absurd (Nat.le_trans h1 h2) (by decide)

/-- What `commit_for` lays out in the ring, `walk` reads back. -/
theorem walk_commitFor (crc : Crc) (fs : Filesystem) (jsb : JournalSuperblock) (tx : Transaction)
    (hacc : tx.Accepted jsb) (hseq : tx.sequence = jsb.sequence)
    (hbs : jsb.blockSize.toNat = fs.sb.blockSize) (hg : Geometry jsb)
    (hw : ∀ w ∈ tx.writes, Transaction.Fits jsb w.fsBlock)
    (hr : ∀ b ∈ tx.revokes, Transaction.Fits jsb b) :
    ∃ blocks, tx.commitFor crc jsb = .ok blocks ∧
      ∀ (d : Disk) (log : Nat → Bytes), LogOnDisk fs jsb d log →
        Holds jsb log jsb.start.toNat blocks → blocks.length ≤ capacity jsb →
        (blocks.length < capacity jsb →
          NoHeader log (advance jsb.start.toNat blocks.length jsb) (tx.sequence + 1)) →
        ∃ plan, (walk crc fs jsb).exec d = (.ok plan, d) ∧
          List.Forall₂ (Restores jsb log tx.sequence) plan.writes
            (tx.writes.filter (fun w => w.fsBlock ∉ tx.revokes)) ∧
          plan.revokes = tx.revokes.map (⟨tx.sequence, ·⟩) ∧
          plan.nextSequence = some (tx.sequence + 1) := by
  have hbs' : 1024 ≤ tx.blockSize.toNat := by
    rw [hacc.blockSize, hbs]
    exact blockSize_ge fs.sb
  obtain ⟨blocks, hc, t, -, htw, htr, hlog⟩ :=
    committedLog_commitFor crc jsb tx hbs' hacc hseq hw hr
  refine ⟨blocks, hc, ?_⟩
  intro d log hd hholds hfit hend
  obtain ⟨plan, hwalk, hstands, hpr, hpn⟩ :=
    walk_committed ⟨hg.dirty, hacc.supported, hacc.declared, hbs, hg⟩ (hlog log hholds hfit hend)
  refine ⟨plan, hwalk d hd, ?_, ?_, ?_⟩
  · rw [survivors_single, htw, htr, List.filter_map, List.map_map] at hstands
    rw [List.forall₂_map_right_iff] at hstands
    refine List.Forall₂.imp ?_ hstands
    intro e w h
    exact ⟨by rw [h.transaction, hseq]; simp, h.fsBlock, h.inRing, h.content⟩
  · rw [hpr, ← htr, hseq]
    simp [logRevokes]
  · rw [hpn, hseq]
    rfl

/-- The blocks `commit_for` makes of a transaction, if it makes any. -/
def serialized (crc : Crc) (jsb : JournalSuperblock) (tx : Transaction) : List Bytes :=
  match tx.commitFor crc jsb with
  | .ok blocks => blocks
  | .error _ => []

/-- Two writes, one of a block that starts with the magic, and a revoke of the other. -/
def smallTransaction : Transaction where
  sequence := 0xFFFFFFFF
  blockSize := 1024
  uses64bit := false
  usesCsumV3 := false
  writes := [⟨30, u32be magicNumber ++ List.replicate 1020 7⟩, ⟨31, List.replicate 1024 9⟩]
  revokes := [31]

def smallBlocks : List Bytes := serialized linuxCrc32c (smallJsb 0 6 0xFFFFFFFF) smallTransaction

theorem smallBlocks_length : smallBlocks.length = 5 ∧ ∀ b ∈ smallBlocks, b.length = 1024 := by
  decide +kernel

theorem smallLog_walks : ∃ plan,
    (walk linuxCrc32c smallVolume (smallJsb 0 6 0xFFFFFFFF)).exec
      (smallDisk (ringLog 6 smallBlocks)) = (.ok plan, smallDisk (ringLog 6 smallBlocks)) ∧
    List.Forall₂ (Restores (smallJsb 0 6 0xFFFFFFFF) (ringLog 6 smallBlocks) 0xFFFFFFFF) plan.writes
      [⟨30, u32be magicNumber ++ List.replicate 1020 7⟩] ∧
    plan.revokes = [⟨0xFFFFFFFF, 31⟩] ∧ plan.nextSequence = some 0 := by
  obtain ⟨hl, hb⟩ := smallBlocks_length
  obtain ⟨blocks, hc, hwalk⟩ := walk_commitFor linuxCrc32c smallVolume (smallJsb 0 6 0xFFFFFFFF)
    smallTransaction (by constructor <;> decide) rfl rfl (by constructor <;> decide)
    (by decide) (List.forall_mem_singleton.2 (by decide))
  have hblocks : blocks = smallBlocks := by
    unfold smallBlocks serialized
    rw [hc]
  rw [hblocks] at hwalk
  have hs : 1 ≤ (6 : UInt32).toNat ∧ (6 : UInt32).toNat ≤ 7 := by decide
  obtain ⟨plan, h1, h2, h3, h4⟩ := hwalk (smallDisk (ringLog 6 smallBlocks)) (ringLog 6 smallBlocks)
    (smallVolume_logOnDisk _ rfl (by decide) _ (ringLog_length 6 _ hb))
    (ringLog_holds 0 6 0xFFFFFFFF smallBlocks hs (by rw [hl]; decide)) (by rw [hl]; decide)
    (fun _ => ringLog_ends 0 6 0xFFFFFFFF smallBlocks _ hs (by rw [hl]; decide))
  have hkept : smallTransaction.writes.filter (fun w => w.fsBlock ∉ smallTransaction.revokes) =
      [⟨30, u32be magicNumber ++ List.replicate 1020 7⟩] := by
    decide +kernel
  rw [hkept] at h2
  exact ⟨plan, h1, h2, h3, h4⟩

end Journal

end FsExt4
