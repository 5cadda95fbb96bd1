import FsExt4.Alloc

namespace FsExt4.Alloc

open Lib

@[simp] theorem bitIsSet_eq (bitmap : Bytes) (idx : Nat) : bitIsSet bitmap idx =
  bit bitmap idx := by
  unfold bitIsSet
  by_cases h : idx / 8 < bitmap.length
  · rw [decide_eq_true h, Bool.true_and]
    rfl
  · rw [decide_eq_false h, Bool.false_and, bit_of_length_le bitmap idx (by omega)]

theorem trailingOnes_le (n w : Nat) : trailingOnes n w ≤ n := by
  induction n generalizing w with
  | zero => exact Nat.le_refl 0
  | succ n ih =>
    rw [trailingOnes]
    split
    · exact Nat.succ_le_succ (ih _)
    · exact Nat.zero_le _

theorem testBit_of_lt_trailingOnes (n w j : Nat) (h : j < trailingOnes n w) :
    w.testBit j = true := by
  induction n generalizing w j with
  | zero => exact absurd h (Nat.not_lt_zero j)
  | succ n ih =>
    rw [trailingOnes] at h
    split at h
    · rename_i hodd
      cases j with
      | zero => simpa [Nat.testBit_zero] using hodd
      | succ j =>
        rw [Nat.testBit_succ]
        exact ih (w / 2) j (by omega)
    · exact absurd h (Nat.not_lt_zero j)

theorem testBit_trailingOnes (n w : Nat) (h : trailingOnes n w < n) :
    w.testBit (trailingOnes n w) = false := by
  induction n generalizing w with
  | zero => exact absurd h (Nat.not_lt_zero _)
  | succ n ih =>
    by_cases hodd : w % 2 = 1
    · have hstep : trailingOnes (n + 1) w = trailingOnes n (w / 2) + 1 := by
        rw [trailingOnes, if_pos hodd]
      rw [hstep] at h
      rw [hstep, Nat.testBit_succ]
      exact ih (w / 2) (by omega)
    · have hstep : trailingOnes (n + 1) w = 0 := by rw [trailingOnes, if_neg hodd]
      rw [hstep, Nat.testBit_zero]
      simpa using hodd

theorem scanTail_firstClear (bitmap : Bytes) (n i : Nat) :
    FirstClear bitmap i (i + n) (scanTail bitmap n i) := by
  induction n generalizing i with
  | zero =>
    intro j h1 h2
    omega
  | succ n ih =>
    rw [scanTail, bitIsSet_eq]
    by_cases hb : bit bitmap i = true
    · simp only [hb, Bool.not_true, Bool.false_eq_true, if_false]
      have h := ih (i + 1)
      rw [Nat.add_right_comm, Nat.add_assoc] at h
      refine FirstClear.of_set ?_ (Nat.le_succ i) h
      intro j h1 h2
      rw [show j = i by omega]
      exact hb
    · have hf : bit bitmap i = false := by simpa using hb
      simp only [hf, Bool.not_false, if_true]
      exact firstClear_here bitmap i _ (by omega) hf

theorem bit_word (bitmap : Bytes) (i j : Nat) (hi : i % 64 = 0) (hj : j < 64) :
    (ofLe (slice bitmap (i / 8) 8)).testBit j = bit bitmap (i + j) := by
  rw [testBit_ofLe, bit_slice _ _ _ _ (by omega)]
  congr 1
  omega

theorem scanWords_firstClear (bitmap : Bytes) (maxBits n i : Nat) (hi : i % 64 = 0 ∨ maxBits ≤ i) :
    FirstClear bitmap i maxBits (scanWords bitmap maxBits n i) := by
  have htail : ∀ i, FirstClear bitmap i maxBits (scanTail bitmap (maxBits - i) i) := by
    intro i
    have h := scanTail_firstClear bitmap (maxBits - i) i
    by_cases hle : i ≤ maxBits
    · rwa [Nat.add_sub_cancel' hle] at h
    · rw [Nat.sub_eq_zero_of_le (by omega)]
      intro j h1 h2
      omega
  induction n generalizing i with
  | zero => exact htail i
  | succ n ih =>
    rw [scanWords]
    split
    · rename_i hfit
      have halign : i % 64 = 0 := by omega
      have hlen : (slice bitmap (i / 8) 8).length = 8 := by
        rw [length_slice]
        omega
      dsimp only
      split
      · -- a word with a clear bit: the trailing ones end at the first one
        rename_i hne
        have hlt : trailingOnes 64 (ofLe (slice bitmap (i / 8) 8)) < 64 := by
          by_contra hge
          have hle := trailingOnes_le 64 (ofLe (slice bitmap (i / 8) 8))
          apply hne
          have hmax := ofLe_eq_max (slice bitmap (i / 8) 8)
          rw [hlen] at hmax
          apply hmax
          intro j hj
          rw [← testBit_ofLe]
          exact testBit_of_lt_trailingOnes 64 _ j (by omega)
        rw [if_pos (by omega)]
        refine ⟨by omega, by omega, ?_, ?_⟩
        · rw [← bit_word bitmap i _ halign hlt]
          exact testBit_trailingOnes 64 _ hlt
        · intro j h1 h2
          have hj := bit_word bitmap i (j - i) halign (by omega)
          rw [Nat.add_sub_cancel' h1] at hj
          rw [← hj]
          exact testBit_of_lt_trailingOnes 64 _ _ (by omega)
      · rename_i heq
        refine FirstClear.of_set ?_ (by omega) (ih (i + 64) (Or.inl (by omega)))
        intro j h1 h2
        have hj := bit_word bitmap i (j - i) halign (by omega)
        rw [Nat.add_sub_cancel' h1] at hj
        rw [← hj, testBit_ofLe]
        apply bit_of_ofLe_eq_max
        · rw [hlen]
          exact not_not.mp heq
        · rw [hlen]
          omega
    · exact htail i

theorem scanHead_firstClear (bitmap : Bytes) (maxBits n i : Nat)
    (hn : i % 64 = 0 ∨ 64 ≤ i % 64 + n ∨ maxBits ≤ i) :
    FirstClear bitmap i maxBits (scanHead bitmap maxBits n i) := by
  induction n generalizing i with
  | zero =>
    rw [scanHead]
    exact scanWords_firstClear bitmap maxBits maxBits i (by omega)
  | succ n ih =>
    rw [scanHead]
    split
    · rename_i hlow
      rw [bitIsSet_eq]
      by_cases hb : bit bitmap i = true
      · simp only [hb, Bool.not_true, Bool.false_eq_true, if_false]
        refine FirstClear.of_set ?_ (Nat.le_succ i) (ih (i + 1) ?_)
        · intro j h1 h2
          rw [show j = i by omega]
          exact hb
        · omega
      · have hf : bit bitmap i = false := by simpa using hb
        simp only [hf, Bool.not_false, if_true]
        exact firstClear_here bitmap i maxBits (by omega) hf
    · exact scanWords_firstClear bitmap maxBits maxBits i (by omega)

theorem findFirstFree_firstClear (bitmap : Bytes) (start maxBits : Nat) :
    FirstClear bitmap start (clampBits bitmap maxBits) (findFirstFree bitmap start maxBits) := by
  unfold findFirstFree
  dsimp only
  split
  · intro i h1 h2
    omega
  · exact scanHead_firstClear bitmap _ 64 start (by omega)

theorem freeUntil_spec (bitmap : Bytes) (n j : Nat) :
    j ≤ freeUntil bitmap n j ∧ freeUntil bitmap n j ≤ j + n ∧
      (∀ i, j ≤ i → i < freeUntil bitmap n j → bit bitmap i = false) ∧
      (freeUntil bitmap n j < j + n → bit bitmap (freeUntil bitmap n j) = true) := by
  induction n generalizing j with
  | zero =>
    refine ⟨Nat.le_refl j, Nat.le_refl j, ?_, ?_⟩
    · intro i h1 h2
      exact absurd h2 (Nat.not_lt.mpr h1)
    · intro h
      exact absurd h (Nat.lt_irrefl j)
  | succ n ih =>
    rw [freeUntil, bitIsSet_eq]
    by_cases hb : bit bitmap j = true
    · simp only [hb, Bool.not_true, Bool.false_eq_true, if_false]
      refine ⟨Nat.le_refl j, by omega, ?_, fun _ => trivial⟩
      intro i h1 h2
      exact absurd h2 (Nat.not_lt.mpr h1)
    · have hf : bit bitmap j = false := by simpa using hb
      simp only [hf, Bool.not_false, if_true]
      obtain ⟨h1, h2, h3, h4⟩ := ih (j + 1)
      refine ⟨by omega, by omega, ?_, ?_⟩
      · intro i hi1 hi2
        by_cases hij : i = j
        · rw [hij]
          exact hf
        · exact h3 i (by omega) hi2
      · intro h
        exact h4 (by omega)

def FreeRun (bitmap : Bytes) (hi count r : Nat) : Prop :=
  r + count ≤ hi ∧ ∀ k, k < count → bit bitmap (r + k) = false

def FirstRun (bitmap : Bytes) (lo hi count : Nat) : Option Nat → Prop
  | none => ∀ r, lo ≤ r → ¬ FreeRun bitmap hi count r
  | some r => lo ≤ r ∧ FreeRun bitmap hi count r

theorem not_freeRun_of_set (bitmap : Bytes) (hi count r i : Nat) (h1 : r ≤ i) (h2 : i < r + count)
    (hb : bit bitmap i = true) : ¬ FreeRun bitmap hi count r := by
  rintro ⟨-, hfree⟩
  have h := hfree (i - r) (by omega)
  rw [Nat.add_sub_cancel' h1, hb] at h
  exact Bool.noConfusion h

theorem freeRunFrom_firstRun (bitmap : Bytes) (maxBits count n i : Nat) (hcount : 0 < count)
    (hmax : maxBits ≤ bitmap.length * 8) (hn : maxBits < i + n) :
    FirstRun bitmap i maxBits count (freeRunFrom bitmap maxBits count n i) := by
  induction n generalizing i with
  | zero =>
    rintro r hr ⟨hfit, -⟩
    omega
  | succ n ih =>
    rw [freeRunFrom]
    split
    · have hclamp : clampBits bitmap maxBits = maxBits := Nat.min_eq_left hmax
      have hfirst := findFirstFree_firstClear bitmap i maxBits
      rw [hclamp] at hfirst
      cases hf : findFirstFree bitmap i maxBits with
      | none =>
        rw [hf] at hfirst
        intro r hr hrun
        exact not_freeRun_of_set bitmap maxBits count r r (Nat.le_refl r) (by omega)
          (hfirst r hr (by have := hrun.1; omega)) hrun
      | some runStart =>
        rw [hf] at hfirst
        obtain ⟨hlo, hhi, hclear, hbefore⟩ := hfirst
        -- every candidate before the first clear bit starts on a set one
        have hskip : ∀ r, i ≤ r → r < runStart → ¬ FreeRun bitmap maxBits count r := by
          intro r h1 h2
          exact not_freeRun_of_set bitmap maxBits count r r (Nat.le_refl r) (by omega)
            (hbefore r h1 h2)
        dsimp only
        split
        · rename_i hroom
          obtain ⟨hj1, hj2, hjfree, hjset⟩ := freeUntil_spec bitmap (count - 1) (runStart + 1)
          split
          · rename_i hdone
            refine ⟨hlo, hroom, ?_⟩
            intro k hk
            cases k with
            | zero => exact hclear
            | succ k => exact hjfree _ (by omega) (by omega)
          · rename_i hstop
            have hset := hjset (by omega)
            have hrest := ih (freeUntil bitmap (count - 1) (runStart + 1) + 1) (by omega)
            -- a run that starts at or before the blocking bit would have to pass it
            have hblocked : ∀ r, i ≤ r → r ≤ freeUntil bitmap (count - 1) (runStart + 1) →
                ¬ FreeRun bitmap maxBits count r := by
              intro r h1 h2
              by_cases hr : r < runStart
              · exact hskip r h1 hr
              · exact not_freeRun_of_set bitmap maxBits count r _ h2 (by omega) hset
            cases hres : freeRunFrom bitmap maxBits count n
                (freeUntil bitmap (count - 1) (runStart + 1) + 1) with
            | none =>
              rw [hres] at hrest
              intro r hr
              by_cases hle : r ≤ freeUntil bitmap (count - 1) (runStart + 1)
              · exact hblocked r hr hle
              · exact hrest r (by omega)
            | some r =>
              rw [hres] at hrest
              exact ⟨by have := hrest.1; omega, hrest.2⟩
        · rename_i hroom
          intro r hr hrun
          by_cases hlt : r < runStart
          · exact hskip r hr hlt hrun
          · have := hrun.1
            omega
    · rename_i hroom
      rintro r hr ⟨hfit, -⟩
      omega

theorem findFreeRun_firstRun (bitmap : Bytes) (start maxBits count : Nat) (hcount : 0 < count) :
    FirstRun bitmap start (clampBits bitmap maxBits) count
      (findFreeRun bitmap start maxBits count) := by
  unfold findFreeRun
  rw [if_neg (by omega)]
  exact freeRunFrom_firstRun bitmap _ count _ start hcount (Nat.min_le_right _ _) (by omega)

theorem blocksInGroup_le_of_bounds {sb : Superblock} (hbnd : sb.Bounds) (g : Nat) :
    blocksInGroup sb g ≤ sb.blocksPerGroup.toNat := by
  unfold blocksInGroup
  dsimp only
  split
  · exact Nat.le_refl _
  · split
    · exact Nat.le_refl _
    · exact Nat.le_of_lt (Nat.mod_lt _ hbnd.blocksPerGroup)

@[simp] theorem length_markReservedInGroup (sb : Superblock) (gi maxBits : Nat)
  (reserved : List Nat) (bitmap : Bytes) :
    (markReservedInGroup sb gi maxBits reserved bitmap).length = bitmap.length := by
  unfold markReservedInGroup
  induction reserved generalizing bitmap with
  | nil => rfl
  | cons block rest ih =>
    rw [List.foldl_cons, ih]
    split
    · exact length_setBit _ _
    · rfl

theorem bit_markReserved_of_bit (sb : Superblock) (gi maxBits : Nat) (reserved : List Nat)
    (bitmap : Bytes) (j : Nat) (h : bit bitmap j = true) :
    bit (markReservedInGroup sb gi maxBits reserved bitmap) j = true := by
  unfold markReservedInGroup
  induction reserved generalizing bitmap with
  | nil => exact h
  | cons block rest ih =>
    rw [List.foldl_cons]
    apply ih
    split
    · rw [bit_setBit, h, Bool.true_or]
    · exact h

theorem bit_markReserved_of_mem (sb : Superblock) (gi maxBits : Nat) (reserved : List Nat)
    (bitmap : Bytes) (j : Nat) (hmem : sb.firstBlockOfGroup gi + j ∈ reserved) (hj : j < maxBits)
    (hlen : j / 8 < bitmap.length) :
    bit (markReservedInGroup sb gi maxBits reserved bitmap) j = true := by
  induction reserved generalizing bitmap with
  | nil => exact absurd hmem List.not_mem_nil
  | cons block rest ih =>
    have hstep : markReservedInGroup sb gi maxBits (block :: rest) bitmap =
        markReservedInGroup sb gi maxBits rest
          (if sb.firstBlockOfGroup gi ≤ block ∧ block - sb.firstBlockOfGroup gi < maxBits then
            setBit bitmap (block - sb.firstBlockOfGroup gi) else bitmap) := rfl
    rw [hstep]
    obtain rfl | hmem := List.mem_cons.mp hmem
    · apply bit_markReserved_of_bit
      rw [if_pos ⟨by omega, by omega⟩, Nat.add_sub_cancel_left, bit_setBit]
      simp [hlen]
    · apply ih _ hmem
      split
      · rwa [length_setBit]
      · exact hlen

theorem markReservedInGroup_nil (sb : Superblock) (gi maxBits : Nat) (bitmap : Bytes) :
    markReservedInGroup sb gi maxBits [] bitmap = bitmap := rfl

@[simp] theorem length_uninitBlockBitmap (sb : Superblock) (groups : List BlockGroupDescriptor)
    (gi : Nat) : (uninitBlockBitmap sb groups gi).length = sb.blockSize := by
  unfold uninitBlockBitmap
  dsimp only
  generalize uninitGroupUsedRanges sb groups gi ++ _ = ranges
  have h : ∀ (ranges : List (Nat × Nat)) (bitmap : Bytes),
      (ranges.foldl (fun bitmap r => setBits bitmap (min r.1 (sb.blockSize * 8))
        (min r.2 (sb.blockSize * 8) - min r.1 (sb.blockSize * 8))) bitmap).length =
      bitmap.length := by
    intro ranges
    induction ranges with
    | nil => exact fun _ => rfl
    | cons r rest ih =>
      intro bitmap
      rw [List.foldl_cons, ih, length_setBits]
  rw [h, List.length_replicate]

theorem mem_groupOrder {ngroups start gi : Nat} (h : gi ∈ groupOrder ngroups start) :
    gi < ngroups := by
  obtain ⟨step, hstep, rfl⟩ := List.mem_map.mp h
  have := List.mem_range.mp hstep
  exact Nat.mod_lt _ (by omega)

theorem mem_groupOrder_of_lt {ngroups start gi : Nat} (hgi : gi < ngroups)
    (hstart : start < ngroups) (hn : ngroups ≤ 2 ^ 31) : gi ∈ groupOrder ngroups start := by
  refine List.mem_map.mpr ⟨(gi + ngroups - start) % ngroups, ?_, ?_⟩
  · exact List.mem_range.mpr (Nat.mod_lt _ (by omega))
  · have hlt : (gi + ngroups - start) % ngroups < ngroups := Nat.mod_lt _ (by omega)
    rw [Nat.mod_eq_of_lt (by omega : start + (gi + ngroups - start) % ngroups < 2 ^ 32),
      Nat.add_mod_mod]
    have hsum : start + (gi + ngroups - start) = gi + ngroups := by omega
    rw [hsum, Nat.add_mod_right, Nat.mod_eq_of_lt hgi]

/-- A run of `count` free blocks in the bitmap scanned for a group whose descriptor says it has
room. -/
structure BlockCandidate (sb : Superblock) (groups : List BlockGroupDescriptor) (count : Nat)
    (reserved : List Nat) (bitmapReader : Nat → Result Bytes) (gi : Nat)
    (bgd : BlockGroupDescriptor) (bitmap : Bytes) (bitStart : Nat) : Prop where
  desc : groups[gi]? = some bgd
  room : count ≤ bgd.freeBlocksCount
  read : blockBitmapOf sb groups bitmapReader gi bgd = .ok bitmap
  run : FreeRun (markReservedInGroup sb gi (blocksInGroup sb gi) reserved bitmap)
    (clampBits bitmap (blocksInGroup sb gi)) count bitStart

theorem clampBits_markReserved (sb : Superblock) (gi maxBits : Nat) (reserved : List Nat)
    (bitmap : Bytes) (n : Nat) :
    clampBits (markReservedInGroup sb gi maxBits reserved bitmap) n = clampBits bitmap n := by
  rw [clampBits, length_markReservedInGroup]
  rfl

theorem firstAnswer_ok {β : Type} {e : Error} {answer : Nat → Option (Result β)} (order : List Nat)
    {b : β} (h : firstAnswer e answer order = .ok b) : ∃ gi ∈ order, answer gi = some (.ok b) := by
  induction order with
  | nil => cases h
  | cons gi rest ih =>
    rw [firstAnswer] at h
    split at h
    · obtain ⟨g, hg, ha⟩ := ih h
      exact ⟨g, List.mem_cons_of_mem _ hg, ha⟩
    · rename_i r hr
      exact ⟨gi, List.mem_cons_self, by rw [hr, h]⟩

theorem firstAnswer_of_answer {β : Type} (e : Error) {answer : Nat → Option (Result β)}
    (order : List Nat) (hsound : ∀ gi ∈ order, ∀ r, answer gi = some r → ∃ b, r = .ok b)
    (hsome : ∃ gi ∈ order, answer gi ≠ none) : ∃ b, firstAnswer e answer order = .ok b := by
  induction order with
  | nil =>
    obtain ⟨gi, hgi, -⟩ := hsome
    exact absurd hgi List.not_mem_nil
  | cons gi rest ih =>
    rw [firstAnswer]
    cases ha : answer gi with
    | none =>
      apply ih (fun g hg => hsound g (List.mem_cons_of_mem _ hg))
      obtain ⟨g, hg, hne⟩ := hsome
      obtain rfl | hg := List.mem_cons.mp hg
      · exact absurd ha hne
      · exact ⟨g, hg, hne⟩
    | some r => exact hsound gi List.mem_cons_self r ha

theorem tryBlockGroup_ok {sb : Superblock} {groups : List BlockGroupDescriptor} {count : Nat}
    {reserved : List Nat} {bitmapReader : Nat → Result Bytes} (hcount : 0 < count) {gi : Nat}
    {plan : BlockAllocationPlan}
    (h : tryBlockGroup sb groups count reserved bitmapReader gi = some (.ok plan)) :
    ∃ bgd bitmap bitStart,
      BlockCandidate sb groups count reserved bitmapReader gi bgd bitmap bitStart ∧
      plan = blockPlan sb count gi bgd bitStart := by
  unfold tryBlockGroup at h
  split at h
  · cases h
  · rename_i bgd hbgd
    split at h
    · cases h
    · rename_i hfree
      split at h
      · cases h
      · rename_i bitmap hbm
        dsimp only at h
        have hrun := findFreeRun_firstRun
          (markReservedInGroup sb gi (blocksInGroup sb gi) reserved bitmap) 0
          (blocksInGroup sb gi) count hcount
        split at h
        · cases h
        · rename_i bitStart hbit
          rw [hbit, clampBits_markReserved] at hrun
          refine ⟨bgd, bitmap, bitStart, ⟨hbgd, by omega, hbm, hrun.2⟩, ?_⟩
          exact (Except.ok.inj (Option.some.inj h)).symm

theorem tryBlockGroup_of_candidate {sb : Superblock} {groups : List BlockGroupDescriptor}
    {count : Nat} {reserved : List Nat} {bitmapReader : Nat → Result Bytes} (hcount : 0 < count)
    {gi : Nat} {bgd : BlockGroupDescriptor} {bitmap : Bytes} {bitStart : Nat}
    (h : BlockCandidate sb groups count reserved bitmapReader gi bgd bitmap bitStart) :
    tryBlockGroup sb groups count reserved bitmapReader gi ≠ none := by
  have hrun := findFreeRun_firstRun
    (markReservedInGroup sb gi (blocksInGroup sb gi) reserved bitmap) 0
    (blocksInGroup sb gi) count hcount
  rw [clampBits_markReserved] at hrun
  unfold tryBlockGroup
  rw [h.desc]
  dsimp only
  rw [if_neg (Nat.not_lt.mpr h.room), h.read]
  dsimp only
  intro hnone
  split at hnone
  · rename_i hf
    rw [hf] at hrun
    exact hrun bitStart (Nat.zero_le _) h.run
  · cases hnone

theorem planBlockAllocationExcluding_ok {sb : Superblock} {groups : List BlockGroupDescriptor}
    {count hintGroup : Nat} {reserved : List Nat} {bitmapReader : Nat → Result Bytes}
    {plan : BlockAllocationPlan}
    (h : planBlockAllocationExcluding sb groups count hintGroup reserved bitmapReader = .ok plan) :
    0 < count ∧ ∃ gi < groups.length % 2 ^ 32, ∃ bgd bitmap bitStart,
      BlockCandidate sb groups count reserved bitmapReader gi bgd bitmap bitStart ∧
      plan = blockPlan sb count gi bgd bitStart := by
  unfold planBlockAllocationExcluding at h
  dsimp only at h
  split at h
  · cases h
  · rename_i hcount
    split at h
    · cases h
    · obtain ⟨gi, hgi, ha⟩ := firstAnswer_ok _ h
      exact ⟨by omega, gi, mem_groupOrder hgi, tryBlockGroup_ok (by omega) ha⟩

def visited (groups : List BlockGroupDescriptor) (hintGroup : Nat) : List Nat :=
  groupOrder (groups.length % 2 ^ 32) (min hintGroup (groups.length % 2 ^ 32 - 1))

theorem planBlockAllocationExcluding_iff {sb : Superblock} {groups : List BlockGroupDescriptor}
    {count hintGroup : Nat} {reserved : List Nat} {bitmapReader : Nat → Result Bytes}
    (hcount : 0 < count)
    (hread : ∀ gi bgd, groups[gi]? = some bgd →
      ∃ bitmap, blockBitmapOf sb groups bitmapReader gi bgd = .ok bitmap) :
    (∃ plan, planBlockAllocationExcluding sb groups count hintGroup reserved bitmapReader =
        .ok plan) ↔
      ∃ gi ∈ visited groups hintGroup, ∃ bgd bitmap bitStart,
        BlockCandidate sb groups count reserved bitmapReader gi bgd bitmap bitStart := by
  have hplan : groups.length % 2 ^ 32 ≠ 0 →
      planBlockAllocationExcluding sb groups count hintGroup reserved bitmapReader =
        firstAnswer (.corrupt "no group has a contiguous free run of this size")
          (tryBlockGroup sb groups count reserved bitmapReader) (visited groups hintGroup) := by
    intro hn
    unfold planBlockAllocationExcluding
    dsimp only
    rw [if_neg (by omega), if_neg hn]
    rfl
  constructor
  · rintro ⟨plan, h⟩
    have hn : groups.length % 2 ^ 32 ≠ 0 := by
      obtain ⟨-, gi, hgi, -⟩ := planBlockAllocationExcluding_ok h
      omega
    rw [hplan hn] at h
    obtain ⟨gi, hgi, ha⟩ := firstAnswer_ok _ h
    obtain ⟨bgd, bitmap, bitStart, hc, -⟩ := tryBlockGroup_ok hcount ha
    exact ⟨gi, hgi, bgd, bitmap, bitStart, hc⟩
  · rintro ⟨gi, hgi, bgd, bitmap, bitStart, hc⟩
    have hn : groups.length % 2 ^ 32 ≠ 0 := by
      have := mem_groupOrder hgi
      omega
    rw [hplan hn]
    apply firstAnswer_of_answer
    · intro g hg r hr
      have hlt : g < groups.length := by
        have h1 := mem_groupOrder hg
        have h2 := Nat.mod_le groups.length (2 ^ 32)
        omega
      obtain ⟨bitmap', hbm⟩ := hread g groups[g] (List.getElem?_eq_getElem hlt)
      unfold tryBlockGroup at hr
      rw [List.getElem?_eq_getElem hlt] at hr
      dsimp only at hr
      split at hr
      · cases hr
      · rw [hbm] at hr
        dsimp only at hr
        split at hr
        · cases hr
        · exact ⟨_, (Option.some.inj hr).symm⟩
    · exact ⟨gi, hgi, tryBlockGroup_of_candidate hcount hc⟩

/-- A free inode that is not reserved, the first of a group whose descriptor says it has one. -/
structure InodeCandidate (sb : Superblock) (groups : List BlockGroupDescriptor)
    (bitmapReader : Nat → Result Bytes) (gi : Nat) (bgd : BlockGroupDescriptor) (bitmap : Bytes)
    (bitStart : Nat) : Prop where
  desc : groups[gi]? = some bgd
  room : 0 < bgd.freeInodesCount
  read : inodeBitmapOf sb bitmapReader bgd = .ok bitmap
  first : FirstClear bitmap (reservedFloor sb gi) (clampBits bitmap sb.inodesPerGroup.toNat)
    (some bitStart)

def inodeNumber (sb : Superblock) (gi bitStart : Nat) : Nat :=
  gi * sb.inodesPerGroup.toNat + (bitStart + 1)

/-- A turn of the inode planner that answers found a candidate; whether its number exists decides
between a plan and an error. -/
theorem tryInodeGroup_some {sb : Superblock} {groups : List BlockGroupDescriptor} {isDir : Bool}
    {bitmapReader : Nat → Result Bytes} {gi : Nat} {r : Result InodeAllocationPlan}
    (hread : ∀ bgd, groups[gi]? = some bgd → ∃ bitmap, inodeBitmapOf sb bitmapReader
      bgd = .ok bitmap)
    (hgi : gi < groups.length) (h : tryInodeGroup sb groups isDir bitmapReader gi = some r) :
    ∃ bgd bitmap bitStart, InodeCandidate sb groups bitmapReader gi bgd bitmap bitStart ∧
      r = if inodeNumber sb gi bitStart ≤ sb.inodesCount.toNat then
          .ok (inodePlan sb isDir gi bgd bitStart)
        else .error (.corrupt "the group's inode range does not fit in the filesystem") := by
  have hbgd := List.getElem?_eq_getElem hgi
  obtain ⟨bitmap, hbm⟩ := hread _ hbgd
  unfold tryInodeGroup at h
  rw [hbgd] at h
  dsimp only at h
  split at h
  · cases h
  · rename_i hfree
    rw [hbm] at h
    dsimp only at h
    have hfirst := findFirstFree_firstClear bitmap (reservedFloor sb gi) sb.inodesPerGroup.toNat
    split at h
    · cases h
    · rename_i bitStart hbit
      rw [hbit] at hfirst
      refine ⟨_, bitmap, bitStart, ⟨hbgd, Nat.pos_of_ne_zero hfree, hbm, hfirst⟩, ?_⟩
      unfold inodeNumber
      split at h
      · rename_i hle
        rw [if_pos hle]
        exact (Option.some.inj h).symm
      · rename_i hle
        rw [if_neg hle]
        exact (Option.some.inj h).symm

theorem tryInodeGroup_ok {sb : Superblock} {groups : List BlockGroupDescriptor} {isDir : Bool}
    {bitmapReader : Nat → Result Bytes} {gi : Nat} {plan : InodeAllocationPlan}
    (h : tryInodeGroup sb groups isDir bitmapReader gi = some (.ok plan)) :
    ∃ bgd bitmap bitStart, InodeCandidate sb groups bitmapReader gi bgd bitmap bitStart ∧
      inodeNumber sb gi bitStart ≤ sb.inodesCount.toNat ∧
      plan = inodePlan sb isDir gi bgd bitStart := by
  unfold tryInodeGroup at h
  split at h
  · cases h
  · rename_i bgd hbgd
    split at h
    · cases h
    · rename_i hfree
      split at h
      · cases h
      · rename_i bitmap hbm
        have hfirst := findFirstFree_firstClear bitmap (reservedFloor sb gi) sb.inodesPerGroup.toNat
        split at h
        · cases h
        · rename_i bitStart hbit
          rw [hbit] at hfirst
          split at h
          · rename_i hle
            exact ⟨bgd, bitmap, bitStart, ⟨hbgd, Nat.pos_of_ne_zero hfree, hbm, hfirst⟩, hle,
              (Except.ok.inj (Option.some.inj h)).symm⟩
          · cases h

theorem tryInodeGroup_of_candidate {sb : Superblock} {groups : List BlockGroupDescriptor}
    {isDir : Bool} {bitmapReader : Nat → Result Bytes} {gi : Nat} {bgd : BlockGroupDescriptor}
    {bitmap : Bytes} {bitStart : Nat}
    (h : InodeCandidate sb groups bitmapReader gi bgd bitmap bitStart) :
    tryInodeGroup sb groups isDir bitmapReader gi ≠ none := by
  have hfirst := findFirstFree_firstClear bitmap (reservedFloor sb gi) sb.inodesPerGroup.toNat
  unfold tryInodeGroup
  rw [h.desc]
  dsimp only
  rw [if_neg (Nat.pos_iff_ne_zero.mp h.room), h.read]
  dsimp only
  intro hnone
  split at hnone
  · rename_i hf
    rw [hf] at hfirst
    obtain ⟨h1, h2, h3, -⟩ := h.first
    rw [hfirst bitStart h1 h2] at h3
    cases h3
  · split at hnone <;> cases hnone

def visitedForInode (groups : List BlockGroupDescriptor) (isDir : Bool) (hintGroup : Nat) :
    List Nat :=
  groupOrder (groups.length % 2 ^ 32)
    (if isDir then orlovSelectGroup groups hintGroup
      else min hintGroup (groups.length % 2 ^ 32 - 1))

theorem planInodeAllocation_eq {sb : Superblock} {groups : List BlockGroupDescriptor}
    {isDir : Bool} {hintGroup : Nat} {bitmapReader : Nat → Result Bytes}
    (hn : groups.length % 2 ^ 32 ≠ 0) :
    planInodeAllocation sb groups isDir hintGroup bitmapReader =
      firstAnswer (.corrupt "no group has a free inode")
        (tryInodeGroup sb groups isDir bitmapReader) (visitedForInode groups isDir hintGroup) := by
  unfold planInodeAllocation
  dsimp only
  rw [if_neg hn]
  rfl

theorem planInodeAllocation_ok {sb : Superblock} {groups : List BlockGroupDescriptor}
    {isDir : Bool} {hintGroup : Nat} {bitmapReader : Nat → Result Bytes}
    {plan : InodeAllocationPlan}
    (h : planInodeAllocation sb groups isDir hintGroup bitmapReader = .ok plan) :
    ∃ gi < groups.length % 2 ^ 32, ∃ bgd bitmap bitStart,
      InodeCandidate sb groups bitmapReader gi bgd bitmap bitStart ∧
      inodeNumber sb gi bitStart ≤ sb.inodesCount.toNat ∧
      plan = inodePlan sb isDir gi bgd bitStart := by
  have hn : groups.length % 2 ^ 32 ≠ 0 := by
    intro hz
    unfold planInodeAllocation at h
    dsimp only at h
    rw [if_pos hz] at h
    cases h
  rw [planInodeAllocation_eq hn] at h
  obtain ⟨gi, hgi, ha⟩ := firstAnswer_ok _ h
  exact ⟨gi, mem_groupOrder hgi, tryInodeGroup_ok ha⟩

end FsExt4.Alloc
