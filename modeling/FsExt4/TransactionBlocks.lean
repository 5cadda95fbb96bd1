import FsExt4.JournalLog

namespace FsExt4

open Lib Jbd2 Journal

/-- A block as `serialize` makes them: its header, and its size. -/
structure HasHeader (bs : Nat) (blockType sequence : UInt32) (blk : Bytes) : Prop where
  length : blk.length = bs
  magic : u32beAt blk 0 = magicNumber
  blockType : u32beAt blk 4 = blockType
  sequence : u32beAt blk 8 = sequence

theorem HasHeader.tryParseHeader {bs : Nat} {t sequence : UInt32} {blk : Bytes}
    (h : HasHeader bs t sequence blk) (hbs : 12 ≤ bs) :
    tryParseHeader blk = some ⟨t, sequence⟩ := by
  have hl := h.length
  rw [Journal.tryParseHeader, if_neg (by omega), if_neg (by simp [h.magic]),
    h.blockType, h.sequence]

theorem HasHeader.congr {bs : Nat} {t sequence : UInt32} {a b : Bytes}
    (h : HasHeader bs t sequence b) (hl : a.length = b.length) (ha : AgreeOn a b 0 12) :
    HasHeader bs t sequence a := by
  refine ⟨hl.trans h.length, ?_, ?_, ?_⟩
  · rw [ha.u32beAt 0 (by omega) (by omega), h.magic]
  · rw [ha.u32beAt 4 (by omega) (by omega), h.blockType]
  · rw [ha.u32beAt 8 (by omega) (by omega), h.sequence]

namespace Transaction

variable {tx : Transaction}

theorem writeHeader_hasHeader (tx : Transaction) (blk : Bytes) (t : UInt32)
    (hbs : 12 ≤ blk.length) : HasHeader blk.length t tx.sequence (tx.writeHeader blk t) := by
  unfold writeHeader
  have l1 := length_copyAt blk 0 (u32be magicNumber) (by simp; omega)
  generalize hb1 : copyAt blk 0 (u32be magicNumber) = b1 at *
  have l2 := length_copyAt b1 4 (u32be t) (by simp; omega)
  generalize hb2 : copyAt b1 4 (u32be t) = b2 at *
  have l3 := length_copyAt b2 8 (u32be tx.sequence) (by simp; omega)
  have a2 := agreeOn_copyAt b1 4 (u32be t) 0 4 (by omega) (by omega)
  have a3 := agreeOn_copyAt b2 8 (u32be tx.sequence) 0 8 (by omega) (by omega)
  refine ⟨by omega, ?_, ?_, ?_⟩
  · rw [a3.u32beAt 0 (by omega) (by omega), ← hb2, a2.u32beAt 0 (by omega) (by omega), ← hb1,
      u32beAt_copyAt _ _ _ (by omega)]
  · rw [a3.u32beAt 4 (by omega) (by omega), ← hb2, u32beAt_copyAt _ _ _ (by omega)]
  · rw [u32beAt_copyAt _ _ _ (by omega)]

@[simp] theorem length_zeroBlock (tx : Transaction) : tx.zeroBlock.length = tx.blockSize.toNat := by
  simp [zeroBlock]

theorem length_sealTail (crc : Crc) (layout : Layout) (blk : Bytes) (h : 4 ≤ blk.length) :
    (sealTail crc layout blk).length = blk.length := by
  unfold sealTail
  split
  · apply length_copyAt
    simp only [length_u32be, blockTailBytes]
    omega
  · rfl

theorem sealTail_agreeOn (crc : Crc) (jsb : JournalSuperblock) (blk : Bytes) (h : 4 ≤ blk.length) :
    AgreeOn (sealTail crc (layoutFor crc jsb) blk) blk 0 (blk.length - jsb.tailBytes) := by
  unfold sealTail layoutFor JournalSuperblock.seed JournalSuperblock.tailBytes
  by_cases hc : jsb.usesCsumV2OrV3
  · simp only [hc, if_true]
    apply agreeOn_copyAt
    · omega
    · left
      exact Nat.le_refl _
  · simp only [hc]
    exact AgreeOn.refl _ _ _

theorem sealTail_not_torn (crc : Crc) (jsb : JournalSuperblock) (blk : Bytes)
    (h : 4 ≤ blk.length) : torn crc jsb (sealTail crc (layoutFor crc jsb) blk) = false := by
  have hl := length_sealTail crc (layoutFor crc jsb) blk h
  unfold torn
  cases hs : jsb.seed crc with
  | none => rfl
  | some seed =>
    have ha : AgreeOn (sealTail crc (layoutFor crc jsb) blk) blk 0
        (blk.length - blockTailBytes) := by
      have h' := sealTail_agreeOn crc jsb blk h
      have ht : jsb.tailBytes = blockTailBytes := by
        unfold JournalSuperblock.seed at hs
        unfold JournalSuperblock.tailBytes
        split at hs
        · rename_i hc
          rw [if_pos hc]
        · exact absurd hs (by simp)
      rwa [ht] at h'
    have hsum : blockTailChecksum crc seed (sealTail crc (layoutFor crc jsb) blk) =
        blockTailChecksum crc seed blk := by
      apply blockTailChecksum_congr crc seed _ _ hl
      rw [hl]
      exact ha 0 _ (Nat.le_refl _) (by omega)
    have htail : u32beAt (sealTail crc (layoutFor crc jsb) blk)
        ((sealTail crc (layoutFor crc jsb) blk).length - blockTailBytes) =
        blockTailChecksum crc seed blk := by
      rw [hl]
      unfold sealTail layoutFor
      simp only [hs]
      exact u32beAt_copyAt _ _ _ (by simp only [blockTailBytes]; omega)
    simp [tailChecksumMatches, hsum, htail]

theorem buildCommitBlock_hasHeader (crc : Crc) (tx : Transaction) (layout : Layout)
    (hbs : 20 ≤ tx.blockSize.toNat) :
    HasHeader tx.blockSize.toNat commitBlock tx.sequence (buildCommitBlock crc tx layout) := by
  have hh := writeHeader_hasHeader tx tx.zeroBlock commitBlock (by simp; omega)
  rw [length_zeroBlock] at hh
  have hl := hh.length
  unfold buildCommitBlock
  dsimp only
  split
  · apply hh.congr
    · apply length_copyAt
      simp only [length_u32be, commitChecksumAt]
      omega
    · apply agreeOn_copyAt
      · simp only [commitChecksumAt]
        omega
      · left
        decide
  · exact hh

theorem buildCommitBlock_checksum (crc : Crc) (jsb : JournalSuperblock) (tx : Transaction)
    (hbs : 20 ≤ tx.blockSize.toNat) (seed : UInt32) (hs : jsb.seed crc = some seed) :
    commitBlockChecksum crc seed (buildCommitBlock crc tx (layoutFor crc jsb)) =
      u32beAt (buildCommitBlock crc tx (layoutFor crc jsb)) commitChecksumAt := by
  have hh := writeHeader_hasHeader tx tx.zeroBlock commitBlock (by simp; omega)
  rw [length_zeroBlock] at hh
  have hl := hh.length
  unfold buildCommitBlock layoutFor
  simp only [hs]
  generalize tx.writeHeader tx.zeroBlock commitBlock = blk at *
  rw [u32beAt_copyAt _ _ _ (by simp only [commitChecksumAt]; omega)]
  generalize hc : commitBlockChecksum crc seed blk = c
  have hlow := slice_copyAt_of_le blk commitChecksumAt (u32be c) 0 commitChecksumAt
    (by simp only [commitChecksumAt]; omega) (by simp)
  have hhigh := slice_copyAt_of_ge blk commitChecksumAt (u32be c) (commitChecksumAt + 4) blk.length
    (by simp only [commitChecksumAt]; omega) (by simp)
  have hlen := length_copyAt blk commitChecksumAt (u32be c)
    (by simp only [length_u32be, commitChecksumAt]; omega)
  have hdrop : (copyAt blk commitChecksumAt (u32be c)).drop (commitChecksumAt + 4) =
      blk.drop (commitChecksumAt + 4) := by
    have e1 : ∀ b : Bytes, b.length = blk.length →
        slice b (commitChecksumAt + 4) blk.length = b.drop (commitChecksumAt + 4) := by
      intro b hb
      apply List.take_of_length_le
      rw [List.length_drop, hb]
      omega
    rw [← e1 _ hlen, ← e1 _ rfl, hhigh]
  rw [commitBlockChecksum, hlow, hdrop, ← hc, commitBlockChecksum]

theorem blocknr_split (b : UInt64) :
    ((blocknrHi b).toUInt64 <<< 32) ||| (blocknrLo b).toUInt64 = b := by
  apply UInt64.toNat_inj.mp
  have hb := b.toNat_lt
  have hhi : (blocknrHi b).toUInt64.toNat = b.toNat / 2 ^ 32 := by
    simp only [blocknrHi, UInt32.toNat_toUInt64, UInt64.toNat_toUInt32, UInt64.toNat_shiftRight]
    rw [Nat.shiftRight_eq_div_pow]
    simp
    omega
  have hlo : (blocknrLo b).toUInt64.toNat = b.toNat % 2 ^ 32 := by
    simp only [blocknrLo, UInt32.toNat_toUInt64, UInt64.toNat_toUInt32, UInt64.toNat_and]
    have hmask : (0xFFFFFFFF : UInt64).toNat = 2 ^ 32 - 1 := rfl
    rw [hmask, Nat.and_two_pow_sub_one_eq_mod]
    omega
  rw [UInt64.toNat_or, UInt64.toNat_shiftLeft, hhi, hlo]
  have hsh : (32 : UInt64).toNat % 64 = 32 := rfl
  rw [hsh, Nat.shiftLeft_eq, Nat.mod_eq_of_lt (by omega), ← Nat.shiftLeft_eq,
    ← Nat.shiftLeft_add_eq_or_of_lt (by omega), Nat.shiftLeft_eq]
  omega

theorem blocknr_low (b : UInt64) (h : b.toNat < 2 ^ 32) : (blocknrLo b).toUInt64 = b := by
  apply UInt64.toNat_inj.mp
  simp only [blocknrLo, UInt32.toNat_toUInt64, UInt64.toNat_toUInt32, UInt64.toNat_and]
  have hmask : (0xFFFFFFFF : UInt64).toNat = 2 ^ 32 - 1 := rfl
  rw [hmask, Nat.and_two_pow_sub_one_eq_mod]
  omega

/-- The block a journal's tags and revoke records name for `b`: without 64-bit tags, its low
half. -/
def named (jsb : JournalSuperblock) (b : UInt64) : UInt64 :=
  if jsb.uses64bit then b else (blocknrLo b).toUInt64

theorem blocknrLo_eq (b : UInt64) : blocknrLo b = b.toUInt32 := by
  apply UInt32.toNat_inj.mp
  have hmask : (0xFFFFFFFF : UInt64).toNat = 2 ^ 32 - 1 := rfl
  simp only [blocknrLo, UInt64.toNat_toUInt32, UInt64.toNat_and]
  rw [hmask, Nat.and_two_pow_sub_one_eq_mod]
  omega

/-- Every block a journal without 64-bit tags is asked to name fits in 32 bits. -/
def Fits (jsb : JournalSuperblock) (b : UInt64) : Prop :=
  jsb.uses64bit = false → b.toNat < 2 ^ 32

instance (jsb : JournalSuperblock) (b : UInt64) : Decidable (Fits jsb b) :=
  inferInstanceAs (Decidable (jsb.uses64bit = false → b.toNat < 2 ^ 32))

theorem named_of_fits (jsb : JournalSuperblock) (b : UInt64) (h : Fits jsb b) :
    named jsb b = b := by
  unfold named
  split
  · rfl
  · rename_i h64
    exact blocknr_low b (h (by simpa using h64))

theorem tagFlags_same (last : Bool) (bytes : Bytes) :
    hasFlag (tagFlags last bytes) tagSameUuid = true := by
  unfold tagFlags
  cases last <;> cases needsEscape bytes <;> decide

theorem tagFlags_last (last : Bool) (bytes : Bytes) :
    hasFlag (tagFlags last bytes) tagLast = last := by
  unfold tagFlags
  cases last <;> cases needsEscape bytes <;> decide

theorem tagFlags_escaped (last : Bool) (bytes : Bytes) :
    hasFlag (tagFlags last bytes) tagEscaped = needsEscape bytes := by
  unfold tagFlags
  cases last <;> cases needsEscape bytes <;> decide

theorem tagFlags_narrow (last : Bool) (bytes : Bytes) :
    (tagFlags last bytes).toUInt16.toUInt32 = tagFlags last bytes := by
  unfold tagFlags
  cases last <;> cases needsEscape bytes <;> decide

theorem narrow_checksum (c : UInt32) : c.toUInt16.toUInt32 = c &&& 0xFFFF := by
  apply UInt32.toNat_inj.mp
  have hmask : (0xFFFF : UInt32).toNat = 2 ^ 16 - 1 := rfl
  rw [UInt16.toNat_toUInt32, UInt32.toNat_toUInt16, UInt32.toNat_and, hmask,
    Nat.and_two_pow_sub_one_eq_mod]

theorem seed_of_csumV3 (crc : Crc) (jsb : JournalSuperblock) (h : jsb.usesCsumV3 = true) :
    ∃ seed, jsb.seed crc = some seed := by
  have hb : jsb.usesCsumV2OrV3 = true := by
    unfold JournalSuperblock.usesCsumV3 JournalSuperblock.has at h
    unfold JournalSuperblock.usesCsumV2OrV3 JournalSuperblock.has
    rw [bne_iff_ne] at h ⊢
    intro h0
    apply h
    have hsplit : incompatCsumV3 = (incompatCsumV2 ||| incompatCsumV3) &&&
      incompatCsumV3 := by decide
    rw [hsplit, ← UInt32.and_assoc, h0]
    decide
  exact ⟨_, if_pos hb⟩

theorem tagAt_congr (jsb : JournalSuperblock) (a b : Bytes) (pos : Nat)
    (h : AgreeOn a b pos (pos + jsb.tagBytes)) : tagAt jsb a pos = tagAt jsb b pos := by
  unfold JournalSuperblock.tagBytes at h
  unfold tagAt
  by_cases hv : jsb.usesCsumV3
  · simp only [hv, if_true] at h ⊢
    rw [h.u32beAt pos (by omega) (by omega), h.u32beAt (pos + 4) (by omega) (by omega),
      h.u32beAt (pos + 8) (by omega) (by omega), h.u32beAt (pos + 12) (by omega) (by omega)]
  · simp only [hv, Bool.false_eq_true, if_false] at h ⊢
    have h8 : AgreeOn a b pos (pos + 8) := by
      apply h.mono (Nat.le_refl _)
      split
      · split <;> omega
      · split <;> omega
    rw [h8.u32beAt pos (by omega) (by omega), h8.u16beAt (pos + 4) (by omega) (by omega),
      h8.u16beAt (pos + 6) (by omega) (by omega)]
    by_cases h64 : jsb.uses64bit
    · simp only [h64, if_true] at h ⊢
      have h12 : AgreeOn a b pos (pos + 12) := by
        apply h.mono (Nat.le_refl _)
        split <;> omega
      rw [h12.u32beAt (pos + 8) (by omega) (by omega)]
    · simp [h64]

theorem tagBytes_bounds (jsb : JournalSuperblock) : 8 ≤ jsb.tagBytes ∧
    (jsb.uses64bit = true → 12 ≤ jsb.tagBytes) ∧ (jsb.usesCsumV3 = true → jsb.tagBytes = 16) := by
  unfold JournalSuperblock.tagBytes
  refine ⟨?_, ?_, ?_⟩
  · repeat' split
    all_goals omega
  · intro h
    simp only [h]
    repeat' split
    all_goals simp_all
  · intro h
    rw [if_pos h]

section PutTag

variable (crc : Crc) (jsb : JournalSuperblock) (tx : Transaction) (last : Bool)
  (w : JournaledBlock) (blk : Bytes) (pos : Nat)

/-- The checksum of a logged block, or zero on a journal without checksums. -/
def loggedChecksum : UInt32 :=
  ((jsb.seed crc).map (fun seed => tagChecksum crc seed tx.sequence (loggedCopy w.bytes))).getD 0

def tagPatches : List (Nat × Bytes) :=
  (pos, u32be (blocknrLo w.fsBlock)) ::
    if jsb.usesCsumV3 then
      (pos + 4, u32be (tagFlags last w.bytes)) ::
        ((if jsb.uses64bit then [(pos + 8, u32be (blocknrHi w.fsBlock))] else []) ++
          [(pos + 12, u32be (loggedChecksum crc jsb tx w))])
    else
      (pos + 4, u16be (loggedChecksum crc jsb tx w).toUInt16) ::
        (pos + 6, u16be (tagFlags last w.bytes).toUInt16) ::
          (if jsb.uses64bit then [(pos + 8, u32be (blocknrHi w.fsBlock))] else [])

theorem putTag_eq_copyAll : putTag crc tx (layoutFor crc jsb) last w blk pos =
    copyAll blk (tagPatches crc jsb tx last w pos) := by
  unfold putTag layoutFor tagPatches loggedChecksum
  by_cases hv : jsb.usesCsumV3
  · obtain ⟨seed, hs⟩ := seed_of_csumV3 crc jsb hv
    by_cases h64 : jsb.uses64bit <;> simp [hv, h64, hs, copyAll]
  · cases hs : jsb.seed crc with
    | none => by_cases h64 : jsb.uses64bit <;> simp [hv, h64, copyAll]
    | some seed => by_cases h64 : jsb.uses64bit <;> simp [hv, h64, copyAll]

theorem mem_tagPatches (p : Nat × Bytes) (hp : p ∈ tagPatches crc jsb tx last w pos) :
    pos ≤ p.1 ∧ p.1 + p.2.length ≤ pos + jsb.tagBytes := by
  obtain ⟨h8, h12, h16⟩ := tagBytes_bounds jsb
  unfold tagPatches at hp
  by_cases hv : jsb.usesCsumV3
  · have h16' := h16 hv
    by_cases h64 : jsb.uses64bit
    · simp only [hv, h64, if_true, List.mem_cons, List.mem_append, List.not_mem_nil, or_false] at hp
      obtain rfl | rfl | rfl | rfl := hp <;> simp only [length_u32be] <;> omega
    · simp only [hv, h64, if_true, Bool.false_eq_true, if_false, List.mem_cons, List.nil_append,
        List.not_mem_nil, or_false] at hp
      obtain rfl | rfl | rfl := hp <;> simp only [length_u32be] <;> omega
  · by_cases h64 : jsb.uses64bit
    · have h12' := h12 h64
      simp only [hv, h64, if_true, Bool.false_eq_true, if_false, List.mem_cons, List.not_mem_nil,
        or_false] at hp
      obtain rfl | rfl | rfl | rfl := hp <;> simp only [length_u32be, length_u16be] <;> omega
    · simp only [hv, h64, Bool.false_eq_true, if_false, List.mem_cons, List.not_mem_nil,
        or_false] at hp
      obtain rfl | rfl | rfl := hp <;> simp only [length_u32be, length_u16be] <;> omega

theorem length_putTag (h : pos + jsb.tagBytes ≤ blk.length) :
    (putTag crc tx (layoutFor crc jsb) last w blk pos).length = blk.length := by
  rw [putTag_eq_copyAll]
  apply length_copyAll
  intro p hp
  exact (mem_tagPatches crc jsb tx last w pos p hp).2.trans h

theorem putTag_agreeOn (h : pos + jsb.tagBytes ≤ blk.length) (lo hi : Nat)
    (hd : hi ≤ pos ∨ pos + jsb.tagBytes ≤ lo) :
    AgreeOn (putTag crc tx (layoutFor crc jsb) last w blk pos) blk lo hi := by
  rw [putTag_eq_copyAll]
  apply agreeOn_copyAll
  · intro p hp
    exact (mem_tagPatches crc jsb tx last w pos p hp).2.trans h
  · intro p hp
    have hb := mem_tagPatches crc jsb tx last w pos p hp
    omega

theorem tagAt_putTag (h : pos + jsb.tagBytes ≤ blk.length) :
    tagAt jsb (putTag crc tx (layoutFor crc jsb) last w blk pos) pos =
      (named jsb w.fsBlock, tagFlags last w.bytes, storedChecksum jsb
        (loggedChecksum crc jsb tx w)) := by
  have hfit : ∀ p ∈ tagPatches crc jsb tx last w pos, p.1 + p.2.length ≤ blk.length :=
    fun p hp => (mem_tagPatches crc jsb tx last w pos p hp).2.trans h
  rw [putTag_eq_copyAll]
  unfold tagPatches at hfit ⊢
  unfold tagAt storedChecksum named
  by_cases hv : jsb.usesCsumV3
  · by_cases h64 : jsb.uses64bit
    · simp only [hv, h64, if_true, List.cons_append, List.nil_append] at hfit ⊢
      rw [u32beAt_copyAll blk _ [] _ pos _ hfit rfl (by simp),
        u32beAt_copyAll blk _ [_] _ (pos + 4) _ hfit rfl (by simp),
        u32beAt_copyAll blk _ [_, _] _ (pos + 8) _ hfit rfl (by simp),
        u32beAt_copyAll blk _ [_, _, _] _ (pos + 12) _ hfit rfl (by simp), blocknr_split]
    · simp only [hv, h64, if_true, Bool.false_eq_true, if_false, List.nil_append] at hfit ⊢
      rw [u32beAt_copyAll blk _ [] _ pos _ hfit rfl (by simp),
        u32beAt_copyAll blk _ [_] _ (pos + 4) _ hfit rfl (by simp),
        u32beAt_copyAll blk _ [_, _] _ (pos + 12) _ hfit rfl (by simp)]
  · by_cases h64 : jsb.uses64bit
    · simp only [hv, h64, if_true, Bool.false_eq_true, if_false] at hfit ⊢
      rw [u32beAt_copyAll blk _ [] _ pos _ hfit rfl (by simp),
        u16beAt_copyAll blk _ [_] _ (pos + 4) _ hfit rfl (by simp),
        u16beAt_copyAll blk _ [_, _] _ (pos + 6) _ hfit rfl (by simp),
        u32beAt_copyAll blk _ [_, _, _] _ (pos + 8) _ hfit rfl (by simp), blocknr_split,
        tagFlags_narrow, narrow_checksum]
    · simp only [hv, h64, Bool.false_eq_true, if_false] at hfit ⊢
      rw [u32beAt_copyAll blk _ [] _ pos _ hfit rfl (by simp),
        u16beAt_copyAll blk _ [_] _ (pos + 4) _ hfit rfl (by simp),
        u16beAt_copyAll blk _ [_, _] _ (pos + 6) _ hfit rfl (by simp), tagFlags_narrow,
        narrow_checksum]

end PutTag

def tagsOf (crc : Crc) (jsb : JournalSuperblock) (tx : Transaction) :
    List JournaledBlock → List LogTag
  | [] => []
  | w :: rest =>
    ⟨named jsb w.fsBlock, tagFlags rest.isEmpty w.bytes,
      storedChecksum jsb (loggedChecksum crc jsb tx w)⟩ :: tagsOf crc jsb tx rest

@[simp] theorem length_tagsOf (crc : Crc) (jsb : JournalSuperblock) (tx : Transaction)
    (ws : List JournaledBlock) : (tagsOf crc jsb tx ws).length = ws.length := by
  induction ws with
  | nil => rfl
  | cons w rest ih => simp [tagsOf, ih]

section Descriptor

variable (crc : Crc) (jsb : JournalSuperblock) (tx : Transaction)

theorem putTags_cons (w : JournaledBlock) (rest : List JournaledBlock)
    (blk blk' : Bytes) (pos : Nat)
    (h : putTags crc tx (layoutFor crc jsb) (w :: rest) blk pos = .ok blk') :
    pos + jsb.tagBytes ≤ blk.length - jsb.tailBytes ∧
      putTags crc tx (layoutFor crc jsb) rest
        (putTag crc tx (layoutFor crc jsb) rest.isEmpty w blk pos) (pos + jsb.tagBytes) =
          .ok blk' := by
  unfold putTags at h
  split at h
  · exact absurd h (by simp)
  · rename_i hfit
    exact ⟨Nat.le_of_not_lt hfit, h⟩

theorem putTags_frame (ws : List JournaledBlock) (blk blk' : Bytes) (pos : Nat)
    (h : putTags crc tx (layoutFor crc jsb) ws blk pos = .ok blk') :
    blk'.length = blk.length ∧ AgreeOn blk' blk 0 pos := by
  induction ws generalizing blk pos with
  | nil =>
    rw [← Except.ok.inj h]
    exact ⟨rfl, AgreeOn.refl _ _ _⟩
  | cons w rest ih =>
    obtain ⟨hfit, hrest⟩ := putTags_cons crc jsb tx w rest blk blk' pos h
    have hfit' : pos + jsb.tagBytes ≤ blk.length := by omega
    obtain ⟨h1, h2⟩ := ih _ _ hrest
    have hl := length_putTag crc jsb tx rest.isEmpty w blk pos hfit'
    have ha := putTag_agreeOn crc jsb tx rest.isEmpty w blk pos hfit' 0 pos (Or.inl (Nat.le_refl _))
    exact ⟨h1.trans hl, (h2.mono (Nat.le_refl _) (Nat.le_add_right _ _)).trans ha⟩

theorem putTags_count (ws : List JournaledBlock) (blk blk' : Bytes) (pos : Nat)
    (h : putTags crc tx (layoutFor crc jsb) ws blk pos = .ok blk') :
    ws = [] ∨ pos + ws.length ≤ blk.length := by
  induction ws generalizing blk pos with
  | nil => exact Or.inl rfl
  | cons w rest ih =>
    right
    obtain ⟨h8, -⟩ := tagBytes_bounds jsb
    obtain ⟨hfit, hrest⟩ := putTags_cons crc jsb tx w rest blk blk' pos h
    have hl := length_putTag crc jsb tx rest.isEmpty w blk pos (by omega)
    obtain rfl | hc := ih _ _ hrest
    · simp only [List.length_singleton]
      omega
    · simp only [List.length_cons]
      omega

theorem parseTags_putTags (ws : List JournaledBlock) (hne : ws ≠ []) (blk blk' : Bytes) (pos : Nat)
    (hput : putTags crc tx (layoutFor crc jsb) ws blk pos = .ok blk') (B : Bytes)
    (hl : B.length = blk.length) (ha : AgreeOn B blk' pos (blk.length - jsb.tailBytes))
    (fuel : Nat) (hf : ws.length ≤ fuel) (cur : Nat) (hcur : InRing jsb cur) :
    parseTags jsb B tx.sequence fuel pos cur =
      .ok (place jsb tx.sequence cur (tagsOf crc jsb tx ws), advance cur ws.length jsb) := by
  induction ws generalizing blk pos fuel cur with
  | nil => exact absurd rfl hne
  | cons w rest ih =>
    obtain ⟨hfit, hrest⟩ := putTags_cons crc jsb tx w rest blk blk' pos hput
    have hfit' : pos + jsb.tagBytes ≤ blk.length := by omega
    have hlp := length_putTag crc jsb tx rest.isEmpty w blk pos hfit'
    obtain ⟨hl', hframe⟩ := putTags_frame crc jsb tx rest _ blk' _ hrest
    have htag : tagAt jsb B pos = (named jsb w.fsBlock, tagFlags rest.isEmpty w.bytes,
        storedChecksum jsb (loggedChecksum crc jsb tx w)) := by
      rw [← tagAt_putTag crc jsb tx rest.isEmpty w blk pos hfit']
      apply tagAt_congr
      exact (ha.mono (Nat.le_refl _) hfit).trans (hframe.mono (Nat.zero_le _) (Nat.le_refl _))
    cases fuel with
    | zero => simp at hf
    | succ fuel =>
      have husable : usable jsb B = blk.length - jsb.tailBytes := by rw [usable, hl]
      rw [parseTags, husable, if_neg (by omega), htag]
      simp only [tagFlags_same, tagFlags_last, if_true, Nat.add_zero]
      cases rest with
      | nil => simp [tagsOf, place]
      | cons w' rest' =>
        obtain ⟨hfit2, -⟩ := putTags_cons crc jsb tx w' rest' _ blk' _ hrest
        rw [hlp] at hfit2
        have hstop : (List.isEmpty (w' :: rest') || decide (blk.length - jsb.tailBytes <
            pos + jsb.tagBytes + jsb.tagBytes)) = false := by
          simp only [List.isEmpty_cons, Bool.false_or, decide_eq_false_iff_not]
          omega
        have hpos : pos ≤ pos + jsb.tagBytes := Nat.le_add_right _ _
        have hfuel : (w' :: rest').length ≤ fuel := by
          simp only [List.length_cons] at hf ⊢
          omega
        have hih := ih (by simp) _ _ hrest (hl.trans hlp.symm)
          (by rw [hlp]; exact ha.mono hpos (Nat.le_refl _))
          fuel hfuel (advance cur 1 jsb) (advance_inRing hcur 1)
        rw [advance_advance hcur] at hih
        have hcount : 1 + (w' :: rest').length = (w :: w' :: rest').length := by
          simp only [List.length_cons]
          omega
        rw [hcount] at hih
        simp only [hstop, Bool.false_eq_true, if_false]
        rw [hih]
        rfl

theorem buildDescriptorBlock_eq (ws : List JournaledBlock) (d : Bytes)
    (h : buildDescriptorBlock crc tx (layoutFor crc jsb) ws = .ok d) :
    ∃ blk', putTags crc tx (layoutFor crc jsb) ws (tx.writeHeader tx.zeroBlock descriptorBlock) 12 =
      .ok blk' ∧ d = sealTail crc (layoutFor crc jsb) blk' := by
  unfold buildDescriptorBlock at h
  cases hp : putTags crc tx (layoutFor crc jsb) ws
      (tx.writeHeader tx.zeroBlock descriptorBlock) 12 with
  | error e =>
    rw [hp] at h
    exact absurd h (by simp [bind, Except.bind])
  | ok blk' =>
    rw [hp] at h
    exact ⟨blk', rfl, (Except.ok.inj h).symm⟩

theorem descriptor_decodes (ws : List JournaledBlock) (hne : ws ≠ []) (d : Bytes)
    (hbs : 24 ≤ tx.blockSize.toNat)
    (h : buildDescriptorBlock crc tx (layoutFor crc jsb) ws = .ok d) :
    HasHeader tx.blockSize.toNat descriptorBlock tx.sequence d ∧ torn crc jsb d = false ∧
      ∀ cur, InRing jsb cur → parseDescriptorTags jsb d cur tx.sequence =
        .ok (place jsb tx.sequence cur (tagsOf crc jsb tx ws), advance cur ws.length jsb) := by
  obtain ⟨blk', hput, rfl⟩ := buildDescriptorBlock_eq crc jsb tx ws d h
  have hh := writeHeader_hasHeader tx tx.zeroBlock descriptorBlock (by simp; omega)
  rw [length_zeroBlock] at hh
  obtain ⟨hl, hframe⟩ := putTags_frame crc jsb tx ws _ _ _ hput
  have hlen : blk'.length = tx.blockSize.toNat := hl.trans hh.length
  have htail : jsb.tailBytes ≤ 4 := by
    unfold JournalSuperblock.tailBytes blockTailBytes
    split <;> omega
  have hseal := sealTail_agreeOn crc jsb blk' (by omega)
  have hls := length_sealTail crc (layoutFor crc jsb) blk' (by omega)
  have hh' : HasHeader tx.blockSize.toNat descriptorBlock tx.sequence blk' := hh.congr hl hframe
  refine ⟨hh'.congr hls (hseal.mono (Nat.le_refl _) (by omega)),
    sealTail_not_torn crc jsb blk' (by omega), ?_⟩
  intro cur hcur
  have hcount : ws.length ≤ (sealTail crc (layoutFor crc jsb) blk').length + 1 := by
    have hc := (putTags_count crc jsb tx ws _ blk' 12 hput).resolve_left hne
    omega
  exact parseTags_putTags crc jsb tx ws hne _ blk' 12 hput _ (hls.trans hl)
    (by rw [← hl]; exact hseal.mono (Nat.zero_le _) (Nat.le_refl _)) _ hcount cur hcur

end Descriptor

section Revoke

variable (crc : Crc) (jsb : JournalSuperblock) (tx : Transaction)

def recordAt (jsb : JournalSuperblock) (block : Bytes) (pos : Nat) : UInt64 :=
  if jsb.uses64bit then u64beAt block pos else (u32beAt block pos).toUInt64

theorem recordSize_pos (uses64bit : Bool) :
    4 ≤ recordSize uses64bit ∧ recordSize uses64bit ≤ 8 := by
  cases uses64bit <;> decide

def putRevoke (layout : Layout) (b : UInt64) (blk : Bytes) (pos : Nat) : Bytes :=
  if layout.uses64bit then copyAt blk pos (u64be b) else copyAt blk pos (u32be b.toUInt32)

theorem length_putRevoke (b : UInt64) (blk : Bytes) (pos : Nat)
    (h : pos + recordSize jsb.uses64bit ≤ blk.length) :
    (putRevoke (layoutFor crc jsb) b blk pos).length = blk.length := by
  unfold putRevoke layoutFor
  unfold recordSize at h
  dsimp only
  split
  · rename_i h64
    rw [if_pos h64] at h
    exact length_copyAt _ _ _ (by simpa using h)
  · rename_i h64
    rw [if_neg h64] at h
    exact length_copyAt _ _ _ (by simpa using h)

theorem putRevoke_agreeOn (b : UInt64) (blk : Bytes) (pos : Nat)
    (h : pos + recordSize jsb.uses64bit ≤ blk.length) (lo hi : Nat)
    (hd : hi ≤ pos ∨ pos + recordSize jsb.uses64bit ≤ lo) :
    AgreeOn (putRevoke (layoutFor crc jsb) b blk pos) blk lo hi := by
  unfold putRevoke layoutFor
  unfold recordSize at h hd
  dsimp only
  split
  · rename_i h64
    rw [if_pos h64] at h hd
    exact agreeOn_copyAt _ _ _ _ _ (by omega) (by simpa using hd)
  · rename_i h64
    rw [if_neg h64] at h hd
    exact agreeOn_copyAt _ _ _ _ _ (by omega) (by simpa using hd)

theorem recordAt_putRevoke (b : UInt64) (blk : Bytes) (pos : Nat)
    (h : pos + recordSize jsb.uses64bit ≤ blk.length) :
    recordAt jsb (putRevoke (layoutFor crc jsb) b blk pos) pos = named jsb b := by
  unfold putRevoke layoutFor recordAt named
  unfold recordSize at h
  dsimp only
  by_cases h64 : jsb.uses64bit
  · simp only [h64, if_true] at h ⊢
    exact u64beAt_copyAt _ _ _ h
  · simp only [h64, Bool.false_eq_true, if_false] at h ⊢
    rw [u32beAt_copyAt _ _ _ h, blocknrLo_eq]

theorem recordAt_congr (a b : Bytes) (pos : Nat)
    (h : AgreeOn a b pos (pos + recordSize jsb.uses64bit)) :
    recordAt jsb a pos = recordAt jsb b pos := by
  unfold recordAt
  unfold recordSize at h
  split
  · rename_i h64
    rw [if_pos h64] at h
    exact h.u64beAt pos (Nat.le_refl _) (Nat.le_refl _)
  · rename_i h64
    rw [if_neg h64] at h
    rw [h.u32beAt pos (Nat.le_refl _) (Nat.le_refl _)]

theorem putRevokes_frame (rs : List UInt64) (blk : Bytes) (pos : Nat)
    (h : pos + rs.length * recordSize jsb.uses64bit ≤ blk.length) :
    (putRevokes (layoutFor crc jsb) rs blk pos).length = blk.length ∧
      AgreeOn (putRevokes (layoutFor crc jsb) rs blk pos) blk 0 pos := by
  induction rs generalizing blk pos with
  | nil => exact ⟨rfl, AgreeOn.refl _ _ _⟩
  | cons b rest ih =>
    rw [List.length_cons, Nat.succ_mul] at h
    have hfit : pos + recordSize jsb.uses64bit ≤ blk.length := by omega
    have hl := length_putRevoke crc jsb b blk pos hfit
    have ha := putRevoke_agreeOn crc jsb b blk pos hfit 0 pos (Or.inl (Nat.le_refl _))
    obtain ⟨h1, h2⟩ := ih (putRevoke (layoutFor crc jsb) b blk pos)
      (pos + recordSize jsb.uses64bit) (by omega)
    exact ⟨h1.trans hl, (h2.mono (Nat.le_refl _) (Nat.le_add_right _ _)).trans ha⟩

theorem parseRecords_succ (block : Bytes) (transaction : UInt32) (stop fuel pos : Nat) :
    parseRecords jsb block transaction stop (fuel + 1) pos =
      if stop < pos + recordSize jsb.uses64bit then []
      else ⟨transaction, recordAt jsb block pos⟩ ::
        parseRecords jsb block transaction stop fuel (pos + recordSize jsb.uses64bit) := rfl

theorem parseRecords_putRevokes (rs : List UInt64) (blk : Bytes) (pos : Nat) (B : Bytes)
    (h : pos + rs.length * recordSize jsb.uses64bit ≤ blk.length)
    (ha : AgreeOn B (putRevokes (layoutFor crc jsb) rs blk pos) pos
      (pos + rs.length * recordSize jsb.uses64bit))
    (transaction : UInt32) (fuel : Nat) (hf : rs.length < fuel) :
    parseRecords jsb B transaction (pos + rs.length * recordSize jsb.uses64bit) fuel pos =
      rs.map (fun b => ⟨transaction, named jsb b⟩) := by
  obtain ⟨hpos, -⟩ := recordSize_pos jsb.uses64bit
  induction rs generalizing blk pos fuel with
  | nil =>
    cases fuel with
    | zero => simp at hf
    | succ fuel => rw [parseRecords_succ, if_pos (by simp; omega), List.map_nil]
  | cons b rest ih =>
    have hsplit : pos + (b :: rest).length * recordSize jsb.uses64bit =
        pos + recordSize jsb.uses64bit + rest.length * recordSize jsb.uses64bit := by
      rw [List.length_cons, Nat.succ_mul]
      omega
    rw [hsplit] at h ha ⊢
    have hfit : pos + recordSize jsb.uses64bit ≤ blk.length := by omega
    have hl := length_putRevoke crc jsb b blk pos hfit
    cases fuel with
    | zero => simp at hf
    | succ fuel =>
      have hrec : recordAt jsb B pos = named jsb b := by
        have hframe := (putRevokes_frame crc jsb rest (putRevoke (layoutFor crc jsb) b blk pos)
          (pos + recordSize jsb.uses64bit) (by omega)).2
        rw [← recordAt_putRevoke crc jsb b blk pos hfit]
        apply recordAt_congr
        exact (ha.mono (Nat.le_refl _) (by omega)).trans
          (hframe.mono (Nat.zero_le _) (Nat.le_refl _))
      have hih := ih (putRevoke (layoutFor crc jsb) b blk pos) (pos + recordSize jsb.uses64bit)
        (by omega) (ha.mono (by omega) (Nat.le_refl _)) fuel (by simpa using hf)
      rw [parseRecords_succ, if_neg (by omega), hrec, hih, List.map_cons]

theorem revoke_decodes (rs : List UInt64) (r : Bytes) (hbs : 24 ≤ tx.blockSize.toNat)
    (h : buildRevokeBlock crc tx (layoutFor crc jsb) rs = .ok r) :
    HasHeader tx.blockSize.toNat revokeBlock tx.sequence r ∧ torn crc jsb r = false ∧
      parseRevokeBlock jsb r tx.sequence = .ok (rs.map (fun b => ⟨tx.sequence, named jsb b⟩)) := by
  have hh := writeHeader_hasHeader tx tx.zeroBlock revokeBlock (by simp; omega)
  rw [length_zeroBlock] at hh
  unfold buildRevokeBlock at h
  dsimp only at h
  generalize tx.writeHeader tx.zeroBlock revokeBlock = b0 at *
  have hl0 := hh.length
  have htail : jsb.tailBytes ≤ 4 := by
    unfold JournalSuperblock.tailBytes blockTailBytes
    split <;> omega
  split at h
  · exact absurd h (by simp)
  rename_i hfit
  have hfit' : 16 + rs.length * recordSize jsb.uses64bit ≤ b0.length - jsb.tailBytes :=
    Nat.le_of_not_lt hfit
  have hsz := tx.blockSize.toNat_lt
  obtain ⟨hrs, -⟩ := recordSize_pos jsb.uses64bit
  have hcount : (UInt32.ofNat (16 + rs.length * recordSize jsb.uses64bit)).toNat =
      16 + rs.length * recordSize jsb.uses64bit := by
    rw [UInt32.toNat_ofNat', Nat.mod_eq_of_lt]
    have : UInt32.size = 2 ^ 32 := rfl
    omega
  have hn : rs.length ≤ rs.length * recordSize jsb.uses64bit :=
    Nat.le_mul_of_pos_right _ (by omega)
  have hlayout : (layoutFor crc jsb).uses64bit = jsb.uses64bit := rfl
  rw [hlayout] at h
  generalize hm : 16 + rs.length * recordSize jsb.uses64bit = total at *
  have l1 := length_copyAt b0 12 (u32be (UInt32.ofNat total)) (by simp; omega)
  have a1 := agreeOn_copyAt b0 12 (u32be (UInt32.ofNat total)) 0 12 (by omega)
    (Or.inl (Nat.le_refl _))
  have hc := u32beAt_copyAt b0 12 (UInt32.ofNat total) (by omega)
  generalize copyAt b0 12 (u32be (UInt32.ofNat total)) = b1 at *
  obtain ⟨l2, a2⟩ := putRevokes_frame crc jsb rs b1 16 (by omega)
  have hparse := fun B ha => parseRecords_putRevokes crc jsb rs b1 16 B (by omega) ha tx.sequence
  generalize putRevokes (layoutFor crc jsb) rs b1 16 = b2 at *
  have l3 := length_sealTail crc (layoutFor crc jsb) b2 (by omega)
  have a3 := sealTail_agreeOn crc jsb b2 (by omega)
  rw [← Except.ok.inj h]
  have hh2 : HasHeader tx.blockSize.toNat revokeBlock tx.sequence b2 :=
    hh.congr (by omega) ((a2.mono (Nat.le_refl _) (by omega)).trans a1)
  refine ⟨hh2.congr l3 (a3.mono (Nat.le_refl _) (by omega)), sealTail_not_torn crc jsb b2
    (by omega), ?_⟩
  have hrcount : u32beAt (sealTail crc (layoutFor crc jsb) b2) 12 = UInt32.ofNat total := by
    rw [a3.u32beAt 12 (by omega) (by omega), a2.u32beAt 12 (by omega) (by omega), hc]
  unfold parseRevokeBlock usable
  dsimp only
  rw [if_neg (by omega), hrcount, hcount, if_neg (by omega)]
  congr 1
  rw [← hm]
  apply hparse
  · exact a3.mono (Nat.zero_le _) (by omega)
  · omega

end Revoke

section Logged

variable (crc : Crc) (jsb : JournalSuperblock) (tx : Transaction)

theorem content_loggedCopy (last : Bool) (b : UInt64) (c : UInt32) (bytes : Bytes) :
    LogTag.content ⟨b, tagFlags last bytes, c⟩ (loggedCopy bytes) = bytes := by
  unfold LogTag.content loggedCopy
  dsimp only
  rw [tagFlags_escaped]
  by_cases he : needsEscape bytes
  · have hm : slice bytes 0 4 = u32be magicNumber := by simpa [needsEscape] using he
    have hl : 4 ≤ bytes.length := by
      have h4 := congrArg List.length hm
      simp only [length_slice, length_u32be] at h4
      omega
    simp only [he, if_true]
    have hlen := length_copyAt bytes 0 [0, 0, 0, 0] (by simpa using hl)
    have hlen' := length_copyAt (copyAt bytes 0 [0, 0, 0, 0]) 0 (u32be magicNumber)
      (by rw [hlen]; simpa using hl)
    apply ext_getD (hlen'.trans hlen)
    intro i hi
    rw [hlen', hlen] at hi
    rw [getD_copyAt _ _ _ _ (by rw [hlen]; simpa using hl),
      getD_copyAt _ _ _ _ (by simpa using hl), ← hm, length_slice]
    by_cases h4 : i < 4
    · rw [if_pos (by omega), getD_slice _ _ _ _ (by omega)]
      congr 1
      omega
    · rw [if_neg (by omega), if_neg (by simp; omega)]
  · simp [he]

theorem tagsOf_content (ws : List JournaledBlock) :
    ((tagsOf crc jsb tx ws).zip (ws.map (fun w => loggedCopy w.bytes))).map
      (fun p => (p.1.fsBlock, p.1.content p.2)) =
        ws.map (fun w => (named jsb w.fsBlock, w.bytes)) := by
  induction ws with
  | nil => rfl
  | cons w rest ih =>
    simp only [tagsOf, List.map_cons, List.zip_cons_cons, content_loggedCopy, ih]

theorem tagsOf_checksum (ws : List JournaledBlock) (seed : UInt32) (hs : jsb.seed crc = some seed) :
    ∀ p ∈ (tagsOf crc jsb tx ws).zip (ws.map (fun w => loggedCopy w.bytes)),
      storedChecksum jsb (tagChecksum crc seed tx.sequence p.2) = p.1.checksum := by
  induction ws with
  | nil => simp [tagsOf]
  | cons w rest ih =>
    intro p hp
    simp only [tagsOf, List.map_cons, List.zip_cons_cons, List.mem_cons] at hp
    obtain rfl | hp := hp
    · simp [loggedChecksum, hs]
    · exact ih p hp

/-- The part of a log that a serialised transaction's pieces make up. -/
structure Logged (blocks : List Bytes) (writes : List JournaledBlock) (revoked : List UInt64)
    (records : List LogRecord) : Prop where
  blocks : records.flatMap LogRecord.blocks = blocks
  intact : ∀ r ∈ records, r.Intact crc jsb tx.sequence
  writes : records.flatMap LogRecord.writes = writes.map (fun w => (named jsb w.fsBlock, w.bytes))
  revokes : records.flatMap LogRecord.revokes = revoked.map (named jsb)

theorem descriptorGroup_ok (c : List JournaledBlock) (g : List Bytes)
    (h : descriptorGroup crc tx (layoutFor crc jsb) c = .ok g) :
    ∃ d, buildDescriptorBlock crc tx (layoutFor crc jsb) c = .ok d ∧
      g = d :: c.map (fun w => loggedCopy w.bytes) := by
  unfold descriptorGroup at h
  cases hd : buildDescriptorBlock crc tx (layoutFor crc jsb) c with
  | error e =>
    rw [hd] at h
    exact absurd h (by simp [bind, Except.bind])
  | ok d =>
    rw [hd] at h
    exact ⟨d, rfl, (Except.ok.inj h).symm⟩

theorem descriptorGroups_logged (hbs : 24 ≤ tx.blockSize.toNat) (cs : List (List JournaledBlock))
    (hne : ∀ c ∈ cs, c ≠ []) (groups : List (List Bytes))
    (h : cs.mapM (descriptorGroup crc tx (layoutFor crc jsb)) = .ok groups) :
    ∃ records, Logged crc jsb tx groups.flatten cs.flatten [] records := by
  induction cs generalizing groups with
  | nil =>
    rw [List.mapM_nil] at h
    rw [← Except.ok.inj h]
    exact ⟨[], rfl, by simp, rfl, rfl⟩
  | cons c rest ih =>
    obtain ⟨g, gs, hg, hrest, rfl⟩ := mapM_cons_ok _ c rest groups h
    obtain ⟨records, hl⟩ := ih (fun c' h' => hne c' (List.mem_cons_of_mem _ h')) gs hrest
    obtain ⟨d, hd, rfl⟩ := descriptorGroup_ok crc jsb tx c g hg
    obtain ⟨hh, ht, hp⟩ := descriptor_decodes crc jsb tx c (hne c List.mem_cons_self) d hbs
      hd
    refine ⟨.descriptor d (tagsOf crc jsb tx c) (c.map (fun w => loggedCopy w.bytes)) :: records,
      ?_, ?_, ?_, ?_⟩
    · rw [List.flatMap_cons, hl.blocks, List.flatten_cons]
      rfl
    · intro r hr'
      obtain rfl | hr' := List.mem_cons.mp hr'
      · refine ⟨hh.tryParseHeader (by omega), ht, by simp, ?_, ?_⟩
        · intro cur hcur
          rw [length_tagsOf]
          exact hp cur hcur
        · exact fun seed hs => tagsOf_checksum crc jsb tx c seed hs
      · exact hl.intact r hr'
    · rw [List.flatMap_cons, hl.writes, List.flatten_cons, List.map_append]
      congr 1
      exact tagsOf_content crc jsb tx c
    · rw [List.flatMap_cons, hl.revokes]
      rfl

theorem revokeBlocks_logged (hbs : 24 ≤ tx.blockSize.toNat) (cs : List (List UInt64))
    (blocks : List Bytes) (h : cs.mapM (buildRevokeBlock crc tx (layoutFor crc jsb)) = .ok blocks) :
    ∃ records, Logged crc jsb tx blocks [] cs.flatten records := by
  induction cs generalizing blocks with
  | nil =>
    rw [List.mapM_nil] at h
    rw [← Except.ok.inj h]
    exact ⟨[], rfl, by simp, rfl, rfl⟩
  | cons c rest ih =>
    obtain ⟨d, bs, hd, hrest, rfl⟩ := mapM_cons_ok _ c rest blocks h
    obtain ⟨records, hl⟩ := ih bs hrest
    obtain ⟨hh, ht, hp⟩ := revoke_decodes crc jsb tx c d hbs hd
    refine ⟨.revoke d (c.map (named jsb)) :: records, ?_, ?_, ?_, ?_⟩
    · rw [List.flatMap_cons, hl.blocks]
      rfl
    · intro r hr'
      obtain rfl | hr' := List.mem_cons.mp hr'
      · exact ⟨hh.tryParseHeader (by omega), ht, by rw [List.map_map]; exact hp⟩
      · exact hl.intact r hr'
    · rw [List.flatMap_cons, hl.writes]
      rfl
    · rw [List.flatMap_cons, hl.revokes, List.flatten_cons, List.map_append]
      rfl

theorem serialize_committed (hbs : 24 ≤ tx.blockSize.toNat)
    (blocks : List Bytes) (h : tx.serialize crc (layoutFor crc jsb) = .ok blocks) :
    ∃ t : LogTransaction, t.blocks = blocks ∧ t.Committed crc jsb tx.sequence ∧
      t.writes = tx.writes.map (fun w => (named jsb w.fsBlock, w.bytes)) ∧
      t.revokes = tx.revokes.map (named jsb) := by
  have hposT : 0 < tx.tagsPerDescriptor (layoutFor crc jsb) := by
    unfold tagsPerDescriptor
    omega
  have hposR : 0 < tx.revokesPerBlock (layoutFor crc jsb) := by
    unfold revokesPerBlock
    omega
  unfold serialize at h
  cases hg : (chunks (tx.tagsPerDescriptor (layoutFor crc jsb)) tx.writes).mapM
      (descriptorGroup crc tx (layoutFor crc jsb)) with
  | error e =>
    rw [hg] at h
    exact absurd h (by simp [bind, Except.bind])
  | ok groups =>
    cases hv : (chunks (tx.revokesPerBlock (layoutFor crc jsb)) tx.revokes).mapM
        (buildRevokeBlock crc tx (layoutFor crc jsb)) with
    | error e =>
      rw [hg, hv] at h
      exact absurd h (by simp [bind, Except.bind])
    | ok rblocks =>
      rw [hg, hv] at h
      have hblocks := (Except.ok.inj h).symm
      have hflatW := flatten_chunks _ hposT tx.writes
      have hflatR := flatten_chunks _ hposR tx.revokes
      obtain ⟨dr, hdr⟩ := descriptorGroups_logged crc jsb tx hbs _
        (fun c hc => (mem_chunks _ hposT _ c hc).1) groups hg
      obtain ⟨rr, hrr⟩ := revokeBlocks_logged crc jsb tx hbs _ rblocks hv
      refine ⟨⟨dr ++ rr, buildCommitBlock crc tx (layoutFor crc jsb)⟩, ?_, ⟨?_, ?_, ?_⟩, ?_, ?_⟩
      · rw [hblocks, LogTransaction.blocks, List.flatMap_append, hdr.blocks, hrr.blocks]
      · intro r hr'
        obtain hr' | hr' := List.mem_append.mp hr'
        · exact hdr.intact r hr'
        · exact hrr.intact r hr'
      · exact (buildCommitBlock_hasHeader crc tx _ (by omega)).tryParseHeader (by omega)
      · unfold commitTorn
        cases hs : jsb.seed crc with
        | none => rfl
        | some seed => simp [buildCommitBlock_checksum crc jsb tx (by omega) seed hs]
      · rw [LogTransaction.writes, List.flatMap_append, hdr.writes, hrr.writes, hflatW]
        simp
      · rw [LogTransaction.revokes, List.flatMap_append, hdr.revokes, hrr.revokes, hflatR]
        simp

end Logged

end Transaction

end FsExt4
