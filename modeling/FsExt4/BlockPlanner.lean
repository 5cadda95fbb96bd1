import FsExt4.WritePaths

namespace FsExt4.Alloc

open Lib

/-- A run that starts before the first clear bit, or that would have to pass the bit after which the
clear bits end, is not free. -/
theorem not_freeRun_of_blocked {bitmap : Bytes} {hi count i runStart j r : Nat} (hcount : 0 < count)
    (hbefore : ∀ r, i ≤ r → r < runStart → bit bitmap r = true) (hset : bit bitmap j = true)
    (hj : j < runStart + count) (h1 : i ≤ r) (h2 : r ≤ j) : ¬ FreeRun bitmap hi count r := by
  by_cases hr : r < runStart
  · exact not_freeRun_of_set bitmap hi count r r (Nat.le_refl r) (by omega) (hbefore r h1 hr)
  · exact not_freeRun_of_set bitmap hi count r j h2 (by omega) hset

theorem freeRunFrom_lowest {bitmap : Bytes} {maxBits count n i r : Nat} (hcount : 0 < count)
    (hmax : maxBits ≤ bitmap.length * 8) (h : freeRunFrom bitmap maxBits count n i = some r)
    {r' : Nat} (h1 : i ≤ r') (h2 : r' < r) : ¬ FreeRun bitmap maxBits count r' := by
  induction n generalizing i with
  | zero => cases h
  | succ n ih =>
    rw [freeRunFrom] at h
    split at h
    · have hclamp : clampBits bitmap maxBits = maxBits := Nat.min_eq_left hmax
      have hfirst := findFirstFree_firstClear bitmap i maxBits
      rw [hclamp] at hfirst
      cases hf : findFirstFree bitmap i maxBits with
      | none =>
        rw [hf] at h
        cases h
      | some runStart =>
        rw [hf] at hfirst h
        obtain ⟨-, -, -, hbefore⟩ := hfirst
        dsimp only at h
        split at h
        · obtain ⟨-, hj2, -, hjset⟩ := freeUntil_spec bitmap (count - 1) (runStart + 1)
          split at h
          · obtain rfl := Option.some.inj h
            exact not_freeRun_of_set bitmap maxBits count r' r' (Nat.le_refl r') (by omega)
              (hbefore r' h1 h2)
          · have hset := hjset (by omega)
            by_cases hle : r' ≤ freeUntil bitmap (count - 1) (runStart + 1)
            · exact not_freeRun_of_blocked hcount hbefore hset (by omega) h1 hle
            · exact ih h (by omega)
        · cases h
    · cases h

theorem findFreeRun_lowest {bitmap : Bytes} {start maxBits count r : Nat} (hcount : 0 < count)
    (h : findFreeRun bitmap start maxBits count = some r) {r' : Nat} (h1 : start ≤ r')
    (h2 : r' < r) : ¬ FreeRun bitmap (clampBits bitmap maxBits) count r' := by
  unfold findFreeRun at h
  rw [if_neg (by omega)] at h
  exact freeRunFrom_lowest hcount (Nat.min_le_right _ _) h h1 h2

theorem bit_markReserved (sb : Superblock) (g maxBits : Nat) (reserved : List Nat) (bitmap : Bytes)
    (j : Nat) (hj : j < maxBits) (hlen : j / 8 < bitmap.length) :
    bit (markReservedInGroup sb g maxBits reserved bitmap) j = false ↔
      bit bitmap j = false ∧ sb.firstBlockOfGroup g + j ∉ reserved := by
  induction reserved generalizing bitmap with
  | nil =>
    rw [markReservedInGroup_nil]
    simp
  | cons block rest ih =>
    have hstep : markReservedInGroup sb g maxBits (block :: rest) bitmap =
        markReservedInGroup sb g maxBits rest
          (if sb.firstBlockOfGroup g ≤ block ∧ block - sb.firstBlockOfGroup g < maxBits then
            setBit bitmap (block - sb.firstBlockOfGroup g) else bitmap) := rfl
    rw [hstep, List.mem_cons, not_or]
    split
    · rename_i hin
      rw [ih _ (by rwa [length_setBit]), bit_setBit]
      by_cases hat : block = sb.firstBlockOfGroup g + j
      · subst hat
        rw [Nat.add_sub_cancel_left, decide_eq_true ⟨rfl, hlen⟩, Bool.or_true]
        simp
      · have hne : ¬ (block - sb.firstBlockOfGroup g = j ∧
            (block - sb.firstBlockOfGroup g) / 8 < bitmap.length) := by omega
        rw [decide_eq_false hne, Bool.or_false]
        exact ⟨fun h => ⟨h.1, fun heq => hat heq.symm, h.2⟩, fun h => ⟨h.1, h.2.2⟩⟩
    · rename_i hout
      rw [ih _ hlen]
      have hne : sb.firstBlockOfGroup g + j ≠ block := by omega
      exact ⟨fun h => ⟨h.1, hne, h.2⟩, fun h => ⟨h.1, h.2.2⟩⟩

/-- A run of a group's blocks that its bitmap has free and nobody reserved. -/
def RunFree (sb : Superblock) (bitmap : Bytes) (reserved : List Nat) (count g r : Nat) : Prop :=
  r + count ≤ blocksInGroup sb g ∧
    ∀ k, k < count → r + k < bitmap.length * 8 ∧ bit bitmap (r + k) = false ∧
      sb.firstBlockOfGroup g + (r + k) ∉ reserved

theorem freeRun_markReserved (sb : Superblock) (bitmap : Bytes) (reserved : List Nat)
    {count : Nat} (g r : Nat) (hcount : 0 < count) :
    FreeRun (markReservedInGroup sb g (blocksInGroup sb g) reserved bitmap)
        (clampBits bitmap (blocksInGroup sb g)) count r ↔
      RunFree sb bitmap reserved count g r := by
  unfold FreeRun RunFree clampBits
  constructor
  · rintro ⟨hfit, hfree⟩
    refine ⟨by omega, ?_⟩
    intro k hk
    have hclear := hfree k hk
    rw [bit_markReserved _ _ _ _ _ _ (by omega) (by omega)] at hclear
    exact ⟨by omega, hclear⟩
  · rintro ⟨hfit, hfree⟩
    have hlast := (hfree (count - 1) (by omega)).1
    refine ⟨by omega, ?_⟩
    intro k hk
    rw [bit_markReserved _ _ _ _ _ _ (by omega) (by omega)]
    exact (hfree k hk).2

theorem firstAnswer_eq_find {β : Type} (e : Error) (answer : Nat → Option (Result β))
    (order : List Nat) :
    firstAnswer e answer order =
      match order.find? (fun g => (answer g).isSome) with
      | none => .error e
      | some g => (answer g).getD (.error e) := by
  induction order with
  | nil => rfl
  | cons g rest ih =>
    rw [firstAnswer, List.find?_cons]
    cases ha : answer g with
    | none => exact ih
    | some r =>
      change r = (answer g).getD (.error e)
      rw [ha]
      rfl

theorem find?_congr_of_mem {α : Type} {p q : α → Bool} {l : List α} (h : ∀ a ∈ l, p a = q a) :
    l.find? p = l.find? q := by
  induction l with
  | nil => rfl
  | cons a rest ih =>
    rw [List.find?_cons, List.find?_cons, h a List.mem_cons_self,
      ih (fun b hb => h b (List.mem_cons_of_mem _ hb))]

def wrapOrder (n hintGroup : Nat) : List Nat :=
  (List.range n).map (fun step => (min hintGroup (n - 1) + step) % n)

theorem mem_wrapOrder {n hintGroup g : Nat} : g ∈ wrapOrder n hintGroup ↔ g < n := by
  constructor
  · intro h
    obtain ⟨step, hstep, rfl⟩ := List.mem_map.mp h
    have := List.mem_range.mp hstep
    exact Nat.mod_lt _ (by omega)
  · intro hg
    refine List.mem_map.mpr ⟨(g + n - min hintGroup (n - 1)) % n, ?_, ?_⟩
    · exact List.mem_range.mpr (Nat.mod_lt _ (by omega))
    · have hsum : min hintGroup (n - 1) + (g + n - min hintGroup (n - 1)) = g + n := by omega
      rw [Nat.add_mod_mod, hsum, Nat.add_mod_right, Nat.mod_eq_of_lt hg]

theorem visited_eq_wrapOrder {groups : List BlockGroupDescriptor} (hn : groups.length ≤ 2 ^ 31)
    (hintGroup : Nat) : visited groups hintGroup = wrapOrder groups.length hintGroup := by
  have hmod : groups.length % 2 ^ 32 = groups.length := Nat.mod_eq_of_lt (by omega)
  unfold visited groupOrder wrapOrder
  rw [hmod]
  apply List.map_congr_left
  intro step hstep
  have hlt := List.mem_range.mp hstep
  rw [Nat.mod_eq_of_lt (a := min hintGroup (groups.length - 1) + step) (by omega)]

/-- The lowest run a group offers: its descriptor says it has room, and the bitmap read or implied
has the run. -/
structure OffersRun (sb : Superblock) (groups : List BlockGroupDescriptor) (count : Nat)
    (reserved : List Nat) (bitmapReader : Nat → Result Bytes) (g : Nat)
    (bgd : BlockGroupDescriptor) (bitmap : Bytes) (r : Nat) : Prop where
  desc : groups[g]? = some bgd
  room : count ≤ bgd.freeBlocksCount
  read : blockBitmapOf sb groups bitmapReader g bgd = .ok bitmap
  free : RunFree sb bitmap reserved count g r
  lowest : ∀ r', r' < r → ¬ RunFree sb bitmap reserved count g r'

def Offers (sb : Superblock) (groups : List BlockGroupDescriptor) (count : Nat)
    (reserved : List Nat) (bitmapReader : Nat → Result Bytes) (g : Nat) : Prop :=
  ∃ bgd bitmap r, OffersRun sb groups count reserved bitmapReader g bgd bitmap r

def BitmapsRead (groups : List BlockGroupDescriptor) (bitmapReader : Nat → Result Bytes) : Prop :=
  ∀ (g : Nat) (bgd : BlockGroupDescriptor), groups[g]? = some bgd →
    ∃ bitmap, bitmapReader bgd.blockBitmap = .ok bitmap

section Planner

variable {sb : Superblock} {groups : List BlockGroupDescriptor} {count : Nat}
  {reserved : List Nat} {bitmapReader : Nat → Result Bytes}

variable (sb) in
theorem BitmapsRead.blockBitmapOf (h : BitmapsRead groups bitmapReader) {g : Nat}
    {bgd : BlockGroupDescriptor} (hbgd : groups[g]? = some bgd) :
    ∃ bitmap, blockBitmapOf sb groups bitmapReader g bgd = .ok bitmap := by
  unfold Alloc.blockBitmapOf
  split
  · exact ⟨_, rfl⟩
  · exact h g bgd hbgd

theorem offers_of_free {g r : Nat} {bgd : BlockGroupDescriptor} {bitmap : Bytes}
    (hbgd : groups[g]? = some bgd) (hroom : count ≤ bgd.freeBlocksCount)
    (hread : blockBitmapOf sb groups bitmapReader g bgd = .ok bitmap)
    (hfree : RunFree sb bitmap reserved count g r) :
    Offers sb groups count reserved bitmapReader g := by
  classical
  have hex : ∃ r, RunFree sb bitmap reserved count g r := ⟨r, hfree⟩
  exact ⟨bgd, bitmap, Nat.find hex, hbgd, hroom, hread, Nat.find_spec hex,
    fun r' hr' => Nat.find_min hex hr'⟩

variable (sb reserved) in
theorem tryBlockGroup_eq (hcount : 0 < count) (hread : BitmapsRead groups bitmapReader) {g : Nat}
    (hg : g < groups.length) :
    (∃ bgd bitmap r, OffersRun sb groups count reserved bitmapReader g bgd bitmap r ∧
      tryBlockGroup sb groups count reserved bitmapReader g =
        some (.ok (blockPlan sb count g bgd r))) ∨
    (¬ Offers sb groups count reserved bitmapReader g ∧
      tryBlockGroup sb groups count reserved bitmapReader g = none) := by
  have hbgd := List.getElem?_eq_getElem hg
  obtain ⟨bitmap, hbm⟩ := hread.blockBitmapOf sb hbgd
  have hinv : ∀ {bgd bitmap' r}, OffersRun sb groups count reserved bitmapReader g bgd bitmap' r →
      bgd = groups[g] ∧ bitmap' = bitmap := by
    intro bgd bitmap' r ho
    have hb : bgd = groups[g] := Option.some.inj (ho.desc.symm.trans hbgd)
    subst hb
    exact ⟨rfl, Except.ok.inj (ho.read.symm.trans hbm)⟩
  unfold tryBlockGroup
  rw [hbgd]
  dsimp only
  by_cases hroom : groups[g].freeBlocksCount < count
  · right
    rw [if_pos hroom]
    refine ⟨?_, rfl⟩
    rintro ⟨bgd, bitmap', r, ho⟩
    obtain ⟨rfl, -⟩ := hinv ho
    exact absurd ho.room (by omega)
  · rw [if_neg hroom, hbm]
    dsimp only
    have hrun := findFreeRun_firstRun
      (markReservedInGroup sb g (blocksInGroup sb g) reserved bitmap) 0 (blocksInGroup sb g) count
      hcount
    rw [clampBits_markReserved] at hrun
    cases hf : findFreeRun (markReservedInGroup sb g (blocksInGroup sb g) reserved bitmap) 0
        (blocksInGroup sb g) count with
    | none =>
      right
      rw [hf] at hrun
      refine ⟨?_, rfl⟩
      rintro ⟨bgd, bitmap', r, ho⟩
      obtain ⟨rfl, rfl⟩ := hinv ho
      exact hrun r (Nat.zero_le r) ((freeRun_markReserved sb _ _ _ _ hcount).mpr ho.free)
    | some r =>
      left
      rw [hf] at hrun
      refine ⟨groups[g], bitmap, r, ⟨hbgd, by omega, hbm,
        (freeRun_markReserved sb _ _ _ _ hcount).mp hrun.2, ?_⟩, rfl⟩
      intro r' hr' hfree
      have hlow := findFreeRun_lowest hcount hf (Nat.zero_le r') hr'
      rw [clampBits_markReserved] at hlow
      exact hlow ((freeRun_markReserved sb _ _ _ _ hcount).mpr hfree)

open Classical in
variable (sb reserved) in
theorem plan_eq_find (hcount : 0 < count) (hread : BitmapsRead groups bitmapReader)
    (hintGroup : Nat) :
    match (visited groups hintGroup).find?
        (fun g => decide (Offers sb groups count reserved bitmapReader g)) with
    | none => ∃ e, planBlockAllocationExcluding sb groups count hintGroup reserved bitmapReader =
        .error e
    | some g => ∃ bgd bitmap r, OffersRun sb groups count reserved bitmapReader g bgd bitmap r ∧
        planBlockAllocationExcluding sb groups count hintGroup reserved bitmapReader =
          .ok (blockPlan sb count g bgd r) := by
  have hlt : ∀ g ∈ visited groups hintGroup, g < groups.length := by
    intro g hg
    have h1 := mem_groupOrder hg
    have h2 := Nat.mod_le groups.length (2 ^ 32)
    omega
  have hsame : (visited groups hintGroup).find?
      (fun g => decide (Offers sb groups count reserved bitmapReader g)) =
      (visited groups hintGroup).find?
        (fun g => (tryBlockGroup sb groups count reserved bitmapReader g).isSome) := by
    apply find?_congr_of_mem
    intro g hg
    rcases tryBlockGroup_eq sb reserved hcount hread (hlt g hg) with
      ⟨bgd, bitmap, r, ho, htry⟩ | ⟨hno, htry⟩
    · rw [htry, decide_eq_true ⟨bgd, bitmap, r, ho⟩]
      rfl
    · rw [htry, decide_eq_false hno]
      rfl
  have hplan : groups.length % 2 ^ 32 ≠ 0 →
      planBlockAllocationExcluding sb groups count hintGroup reserved bitmapReader =
        firstAnswer (.corrupt "no group has a contiguous free run of this size")
          (tryBlockGroup sb groups count reserved bitmapReader) (visited groups hintGroup) := by
    intro hn
    unfold planBlockAllocationExcluding
    dsimp only
    rw [if_neg (by omega), if_neg hn]
    rfl
  by_cases hn : groups.length % 2 ^ 32 = 0
  · have hempty : visited groups hintGroup = [] := by
      unfold visited groupOrder
      rw [hn]
      rfl
    rw [hempty]
    refine ⟨.corrupt "no block groups", ?_⟩
    unfold planBlockAllocationExcluding
    dsimp only
    rw [if_neg (by omega), if_pos hn]
  · rw [hplan hn, firstAnswer_eq_find, ← hsame]
    cases hf : (visited groups hintGroup).find?
        (fun g => decide (Offers sb groups count reserved bitmapReader g)) with
    | none => exact ⟨_, rfl⟩
    | some g =>
      have hmem := List.mem_of_find?_eq_some hf
      have hoff : Offers sb groups count reserved bitmapReader g :=
        of_decide_eq_true
          (@List.find?_some _ (fun g => decide (Offers sb groups count reserved bitmapReader g)) _ _
            hf)
      rcases tryBlockGroup_eq sb reserved hcount hread (hlt g hmem) with
        ⟨bgd, bitmap, r, ho, htry⟩ | ⟨hno, -⟩
      · refine ⟨bgd, bitmap, r, ho, ?_⟩
        dsimp only
        rw [htry]
        rfl
      · exact absurd hoff hno

end Planner

/-- A group's own structures: its head, its bitmaps, its inode table. -/
def OwnBlock (sb : Superblock) (g : Nat) (bgd : BlockGroupDescriptor) (b : Nat) : Prop :=
  b < sb.firstBlockOfGroup g + sb.groupHeadMetadataBlocks g ∨ b = bgd.blockBitmap ∨
    b = bgd.inodeBitmap ∨ (bgd.inodeTable ≤ b ∧ b < bgd.inodeTable + sb.inodeTableBlocks)

/-- The lowest run of the first group round from the hint that offers one, inside the volume and off
the structures of a group whose bitmap is implied; no answer only when no group offers one. -/
def PlansFirstRun (sb : Superblock) (groups : List BlockGroupDescriptor) (count hintGroup : Nat)
    (reserved : List Nat) (bitmapReader : Nat → Result Bytes) : Prop :=
  match planBlockAllocationExcluding sb groups count hintGroup reserved bitmapReader with
  | .error _ => ∀ g, ¬ Offers sb groups count reserved bitmapReader g
  | .ok plan => ∃ pre g post bgd bitmap r,
      wrapOrder groups.length hintGroup = pre ++ g :: post ∧
      (∀ g' ∈ pre, ¬ Offers sb groups count reserved bitmapReader g') ∧
      OffersRun sb groups count reserved bitmapReader g bgd bitmap r ∧
      plan = blockPlan sb count g bgd r ∧
      sb.firstDataBlock.toNat ≤ plan.firstBlock ∧ plan.firstBlock + plan.count ≤ sb.blocksCount ∧
      (bgd.isUninit blockUninit = true → ∀ b, Mount.Holds plan b → ¬ OwnBlock sb g bgd b)

/-- Plans made one after the other against the same bitmaps, each with the blocks of those before it
reserved. -/
inductive Successive (sb : Superblock) (groups : List BlockGroupDescriptor)
    (bitmapReader : Nat → Result Bytes) : List BlockAllocationPlan → Prop
  | first {count hintGroup : Nat} {reserved : List Nat} {data : BlockAllocationPlan}
      (h : planBlockAllocationExcluding sb groups count hintGroup reserved
        bitmapReader = .ok data) :
      Successive sb groups bitmapReader [data]
  | next {data plan : BlockAllocationPlan} {handedOut : List BlockAllocationPlan}
      {count hintGroup : Nat} (hprev : Successive sb groups bitmapReader (data :: handedOut))
      (h : planBlockAllocationExcluding sb groups count hintGroup (reservedBlocks data handedOut)
        bitmapReader = .ok plan) :
      Successive sb groups bitmapReader (data :: (handedOut ++ [plan]))

/-- A group that can offer a block for some contents of the bitmaps and some reservations. -/
def CanOffer (sb : Superblock) (groups : List BlockGroupDescriptor) (g : Nat) : Prop :=
  ∃ (bgd : BlockGroupDescriptor) (j : Nat), groups[g]? = some bgd ∧ 0 < bgd.freeBlocksCount ∧
    j < blocksInGroup sb g ∧
    (bgd.isUninit blockUninit = true → bit (uninitBlockBitmap sb groups g) j = false)

/-- The planner's 32-bit order meets the groups that can offer a block in turn. -/
def OrderKept (sb : Superblock) (groups : List BlockGroupDescriptor) : Prop :=
  ∀ (hintGroup : Nat) (S : Nat → Bool), (∀ g, S g = true → CanOffer sb groups g) →
    (visited groups hintGroup).find? S = (wrapOrder groups.length hintGroup).find? S

/-- Where the inode table of a group with an implied bitmap starts before the group, its blocks in
the group are marked all the same. -/
def TablesMarked (sb : Superblock) (groups : List BlockGroupDescriptor) : Prop :=
  ∀ (g : Nat) (bgd : BlockGroupDescriptor), groups[g]? = some bgd →
    bgd.isUninit blockUninit = true → 0 < bgd.freeBlocksCount →
    bgd.inodeTable < sb.firstBlockOfGroup g → ∀ j, j < blocksInGroup sb g →
    sb.firstBlockOfGroup g + j < bgd.inodeTable + sb.inodeTableBlocks →
    bit (uninitBlockBitmap sb groups g) j = true

theorem orderKept_of_few {sb : Superblock} {groups : List BlockGroupDescriptor}
    (hn : groups.length ≤ 2 ^ 31) : OrderKept sb groups := by
  intro hintGroup S _
  rw [visited_eq_wrapOrder hn]

section Volume

variable {sb : Superblock} {groups : List BlockGroupDescriptor} {count : Nat}
  {reserved : List Nat} {bitmapReader : Nat → Result Bytes}

variable (sb) in
theorem firstBlockOfGroup_add_inj {g g' j j' : Nat} (hj : j < sb.blocksPerGroup.toNat)
    (hj' : j' < sb.blocksPerGroup.toNat)
    (h : sb.firstBlockOfGroup g + j = sb.firstBlockOfGroup g' + j') : g = g' ∧ j = j' := by
  unfold Superblock.firstBlockOfGroup at h
  have hsum : sb.blocksPerGroup.toNat * g + j = sb.blocksPerGroup.toNat * g' + j' := by
    rw [Nat.mul_comm _ g, Nat.mul_comm _ g']
    omega
  have hdiv : ∀ a b, b < sb.blocksPerGroup.toNat → (sb.blocksPerGroup.toNat * a + b) /
      sb.blocksPerGroup.toNat = a := by
    intro a b hb
    rw [Nat.mul_add_div (by omega), Nat.div_eq_of_lt hb, Nat.add_zero]
  have hg : g = g' := by
    rw [← hdiv g j hj, hsum, hdiv g' j' hj']
  subst hg
  exact ⟨rfl, by omega⟩

theorem OffersRun.canOffer (hcount : 0 < count) {g r : Nat} {bgd : BlockGroupDescriptor}
    {bitmap : Bytes} (h : OffersRun sb groups count reserved bitmapReader g bgd bitmap r) :
    CanOffer sb groups g := by
  have hfree := h.free.2 0 hcount
  have hroom := h.room
  have hfit := h.free.1
  refine ⟨bgd, r, h.desc, by omega, by omega, ?_⟩
  intro huninit
  have hread := h.read
  unfold blockBitmapOf at hread
  rw [if_pos huninit] at hread
  rw [Except.ok.inj hread]
  exact hfree.2.1

theorem OffersRun.not_ownBlock (hbnd : sb.Bounds) (hmarked : TablesMarked sb groups) {g r : Nat}
    {bgd : BlockGroupDescriptor} {bitmap : Bytes}
    (h : OffersRun sb groups count reserved bitmapReader g bgd bitmap r)
    (huninit : bgd.isUninit blockUninit = true) {b : Nat}
    (hb : Mount.Holds (blockPlan sb count g bgd r) b) : ¬ OwnBlock sb g bgd b := by
  have hread := h.read
  unfold blockBitmapOf at hread
  rw [if_pos huninit] at hread
  have hroom := h.room
  have hfit := h.free.1
  obtain ⟨h1, h2⟩ := hb
  change sb.firstBlockOfGroup g + r ≤ b at h1
  change b < sb.firstBlockOfGroup g + r + count at h2
  obtain ⟨-, hclear, -⟩ := h.free.2 (b - (sb.firstBlockOfGroup g + r)) (by omega)
  obtain ⟨j, rfl⟩ : ∃ j, b = sb.firstBlockOfGroup g + j := ⟨b - sb.firstBlockOfGroup g, by omega⟩
  have hj : r + (sb.firstBlockOfGroup g + j - (sb.firstBlockOfGroup g + r)) = j := by omega
  rw [hj, ← Except.ok.inj hread] at hclear
  intro hown
  have hset : bit (uninitBlockBitmap sb groups g) j = true := by
    by_cases hbefore : bgd.inodeTable < sb.firstBlockOfGroup g ∧
        sb.firstBlockOfGroup g + j < bgd.inodeTable + sb.inodeTableBlocks
    · exact hmarked g bgd h.desc huninit (by omega) hbefore.1 j (by omega) hbefore.2
    · apply bit_uninitBlockBitmap_of_own hbnd h.desc (by omega)
      obtain hhead | hbb | hib | htable := hown
      · exact .inl (by omega)
      · exact .inr (.inl hbb)
      · exact .inr (.inr (.inl hib))
      · exact .inr (.inr (.inr ⟨by omega, htable⟩))
  rw [hclear] at hset
  exact Bool.noConfusion hset

end Volume

section Successive

variable {sb : Superblock} {groups : List BlockGroupDescriptor} {bitmapReader : Nat → Result Bytes}

theorem mem_reservedBlocks {data : BlockAllocationPlan} {handedOut : List BlockAllocationPlan}
    {b : Nat} : b ∈ reservedBlocks data handedOut ↔ ∃ plan ∈ data :: handedOut,
    Mount.Holds plan b := by
  unfold reservedBlocks Mount.Holds
  rw [List.mem_flatMap]
  constructor
  · rintro ⟨plan, hplan, hb⟩
    obtain ⟨i, hi, rfl⟩ := List.mem_map.mp hb
    have := List.mem_range.mp hi
    exact ⟨plan, hplan, by omega, by omega⟩
  · rintro ⟨plan, hplan, h1, h2⟩
    exact ⟨plan, hplan, List.mem_map.mpr ⟨b - plan.firstBlock, List.mem_range.mpr (by omega),
      by omega⟩⟩

theorem plan_not_reserved {count hintGroup : Nat} {reserved : List Nat} {plan : BlockAllocationPlan}
    (h : planBlockAllocationExcluding sb groups count hintGroup reserved bitmapReader = .ok plan)
    {b : Nat} (hb : Mount.Holds plan b) : b ∉ reserved := by
  obtain ⟨hcount, g, -, bgd, bitmap, r, hcand, rfl⟩ := planBlockAllocationExcluding_ok h
  obtain ⟨-, hfree⟩ := (freeRun_markReserved sb bitmap reserved g r hcount).mp hcand.run
  obtain ⟨h1, h2⟩ := hb
  change sb.firstBlockOfGroup g + r ≤ b at h1
  change b < sb.firstBlockOfGroup g + r + count at h2
  have hout := (hfree (b - (sb.firstBlockOfGroup g + r)) (by omega)).2.2
  have hat : sb.firstBlockOfGroup g + (r + (b - (sb.firstBlockOfGroup g + r))) = b := by omega
  rwa [hat] at hout

theorem Successive.pairwise {plans : List BlockAllocationPlan}
    (h : Successive sb groups bitmapReader plans) :
    plans.Pairwise (fun p q => ∀ b, Mount.Holds p b → ¬ Mount.Holds q b) := by
  induction h with
  | first _ => exact List.pairwise_singleton _ _
  | @next data plan handedOut count hintGroup hprev hplan ih =>
    rw [← List.cons_append, List.pairwise_append]
    refine ⟨ih, List.pairwise_singleton _ _, ?_⟩
    intro p hp q hq b hb hbq
    rw [List.mem_singleton.mp hq] at hbq
    exact plan_not_reserved hplan hbq (mem_reservedBlocks.mpr ⟨p, hp, hb⟩)

end Successive

section Exact

variable {sb : Superblock} {groups : List BlockGroupDescriptor}

def reservedBut (sb : Superblock) (n : Nat) (S : Nat → Bool) (keep : Nat → Nat) : List Nat :=
  (List.range n).flatMap (fun g =>
    ((List.range (blocksInGroup sb g)).filter (fun j => !(S g && j == keep g))).map
      (sb.firstBlockOfGroup g + ·))

theorem mem_reservedBut (hbnd : sb.Bounds) {n : Nat} {S : Nat → Bool} {keep : Nat → Nat} {g j : Nat}
    (hg : g < n) (hj : j < blocksInGroup sb g) :
    sb.firstBlockOfGroup g + j ∈ reservedBut sb n S keep ↔ ¬ (S g = true ∧ j = keep g) := by
  have hle := blocksInGroup_le_of_bounds hbnd
  unfold reservedBut
  rw [List.mem_flatMap]
  constructor
  · rintro ⟨g', -, hmem⟩
    obtain ⟨j', hj', heq⟩ := List.mem_map.mp hmem
    obtain ⟨hrange, hkept⟩ := List.mem_filter.mp hj'
    have hlt := List.mem_range.mp hrange
    obtain ⟨rfl, rfl⟩ := firstBlockOfGroup_add_inj sb
      (Nat.lt_of_lt_of_le hlt (hle g')) (Nat.lt_of_lt_of_le hj (hle g)) heq
    rintro ⟨hS, hk⟩
    rw [hS, hk] at hkept
    simp at hkept
  · intro hnot
    refine ⟨g, List.mem_range.mpr hg, List.mem_map.mpr ⟨j, List.mem_filter.mpr
      ⟨List.mem_range.mpr hj, ?_⟩, rfl⟩⟩
    have hor : S g = false ∨ j ≠ keep g := by
      by_cases hS : S g = true
      · exact .inr (fun hk => hnot ⟨hS, hk⟩)
      · exact .inl (by simpa using hS)
    obtain h | h := hor
    · simp [h]
    · simp [h]

def readsFree (sb : Superblock) (_block : Nat) : Result Bytes := .ok (List.replicate sb.blockSize 0)

theorem bitmapsRead_free (sb : Superblock) (groups : List BlockGroupDescriptor) :
    BitmapsRead groups (readsFree sb) := fun _ _ _ => ⟨_, rfl⟩

theorem offersRun_reservedBut (hbnd : sb.Bounds) {S : Nat → Bool} {keep : Nat → Nat} {g r : Nat}
    {bgd : BlockGroupDescriptor} {bitmap : Bytes}
    (h : OffersRun sb groups 1 (reservedBut sb groups.length S keep) (readsFree sb) g
      bgd bitmap r) :
    S g = true ∧ r = keep g := by
  obtain ⟨hfit, hfree⟩ := h.free
  have hout := (hfree 0 Nat.one_pos).2.2
  rw [Nat.add_zero, mem_reservedBut hbnd (List.getElem?_eq_some_iff.mp h.desc).1 (by omega)] at hout
  exact not_not.mp hout

theorem offers_reservedBut (hbnd : sb.Bounds) {S : Nat → Bool} {keep : Nat → Nat} {g : Nat}
    {bgd : BlockGroupDescriptor} (hS : S g = true) (hbgd : groups[g]? = some bgd)
    (hroom : 0 < bgd.freeBlocksCount) (hkeep : keep g < blocksInGroup sb g)
    (hclear : bgd.isUninit blockUninit = true →
      bit (uninitBlockBitmap sb groups g) (keep g) = false) :
    Offers sb groups 1 (reservedBut sb groups.length S keep) (readsFree sb) g := by
  obtain ⟨bitmap, hread⟩ := (bitmapsRead_free sb groups).blockBitmapOf sb hbgd
  have hle := blocksInGroup_le_of_bounds hbnd g
  have hcap := hbnd.bitmap
  refine offers_of_free (r := keep g) hbgd hroom hread ⟨by omega, ?_⟩
  intro k hk
  obtain rfl : k = 0 := by omega
  rw [Nat.add_zero, mem_reservedBut hbnd (List.getElem?_eq_some_iff.mp hbgd).1 hkeep]
  refine ⟨?_, ?_, not_not.mpr ⟨hS, rfl⟩⟩
  all_goals
    unfold blockBitmapOf readsFree at hread
    split at hread
  · rw [← Except.ok.inj hread, length_uninitBlockBitmap]
    omega
  · rw [← Except.ok.inj hread, List.length_replicate]
    omega
  · rename_i huninit
    rw [← Except.ok.inj hread]
    exact hclear huninit
  · rw [← Except.ok.inj hread]
    exact bit_replicate_zero _ _

end Exact

section Main

variable {sb : Superblock} {groups : List BlockGroupDescriptor}

open Classical in
theorem plansFirstRun_of_kept (hbnd : sb.Bounds) (hlen : groups.length = sb.blockGroupCount)
    (hkept : OrderKept sb groups) (hmarked : TablesMarked sb groups) {count hintGroup : Nat}
    {reserved : List Nat} {bitmapReader : Nat → Result Bytes} (hcount : 0 < count)
    (hread : BitmapsRead groups bitmapReader) :
    PlansFirstRun sb groups count hintGroup reserved bitmapReader := by
  have hplan := plan_eq_find sb reserved hcount hread hintGroup
  have hsame := hkept hintGroup
    (fun g => decide (Offers sb groups count reserved bitmapReader g)) (by
      intro g hg
      obtain ⟨bgd, bitmap, r, ho⟩ := of_decide_eq_true hg
      exact ho.canOffer hcount)
  cases hf : (visited groups hintGroup).find?
      (fun g => decide (Offers sb groups count reserved bitmapReader g)) with
  | none =>
    rw [hf] at hplan hsame
    obtain ⟨e, he⟩ := hplan
    unfold PlansFirstRun
    rw [he]
    rintro g ⟨bgd, bitmap, r, ho⟩
    have hmem : g ∈ wrapOrder groups.length hintGroup :=
      mem_wrapOrder.mpr (List.getElem?_eq_some_iff.mp ho.desc).1
    have hno := List.find?_eq_none.mp hsame.symm g hmem
    exact hno (decide_eq_true ⟨bgd, bitmap, r, ho⟩)
  | some g =>
    have hvisited := mem_groupOrder (List.mem_of_find?_eq_some hf)
    rw [hf] at hplan hsame
    obtain ⟨bgd, bitmap, r, ho, hp⟩ := hplan
    obtain ⟨-, pre, post, heq, hpre⟩ := List.find?_eq_some_iff_append.mp hsame.symm
    unfold PlansFirstRun
    rw [hp]
    refine ⟨pre, g, post, bgd, bitmap, r, heq, ?_, ho, rfl, ?_, ?_, ?_⟩
    · intro g' hg'
      simpa using hpre g' hg'
    · change sb.firstDataBlock.toNat ≤ sb.firstBlockOfGroup g + r
      unfold Superblock.firstBlockOfGroup
      omega
    · change sb.firstBlockOfGroup g + r + count ≤ sb.blocksCount
      rw [Nat.add_assoc]
      rw [hlen] at hvisited
      exact Mount.firstBlockOfGroup_add_le hbnd hvisited ho.free.1
    · intro huninit b hb
      exact ho.not_ownBlock hbnd hmarked huninit hb

theorem orderKept_of_plansFirstRun (hbnd : sb.Bounds)
    (h : ∀ hintGroup reserved,
      PlansFirstRun sb groups 1 hintGroup reserved (readsFree sb)) : OrderKept sb groups := by
  classical
  intro hintGroup S hS
  -- one block of each selected group
  have hbit : ∀ g, ∃ j, S g = true → ∃ bgd : BlockGroupDescriptor, groups[g]? = some bgd ∧
      0 < bgd.freeBlocksCount ∧ j < blocksInGroup sb g ∧
      (bgd.isUninit blockUninit = true → bit (uninitBlockBitmap sb groups g) j = false) := by
    intro g
    by_cases hg : S g = true
    · obtain ⟨bgd, j, hj⟩ := hS g hg
      exact ⟨j, fun _ => ⟨bgd, hj⟩⟩
    · exact ⟨0, fun h => absurd h hg⟩
  obtain ⟨keep, hkeep⟩ := Classical.axiomOfChoice hbit
  have hoffers : (fun g => decide (Offers sb groups 1 (reservedBut sb groups.length S keep)
      (readsFree sb) g)) = S := by
    funext g
    cases hg : S g with
    | true =>
      obtain ⟨bgd, hbgd, hroom, hj, hclear⟩ := hkeep g hg
      exact decide_eq_true (offers_reservedBut hbnd hg hbgd hroom hj hclear)
    | false =>
      apply decide_eq_false
      rintro ⟨bgd, bitmap, r, ho⟩
      rw [(offersRun_reservedBut hbnd ho).1] at hg
      exact Bool.noConfusion hg
  have hplan := plan_eq_find sb (reservedBut sb groups.length S keep)
    Nat.one_pos (bitmapsRead_free sb groups) hintGroup
  have hfirst := h hintGroup (reservedBut sb groups.length S keep)
  unfold PlansFirstRun at hfirst
  rw [hoffers] at hplan
  cases hf : (visited groups hintGroup).find? S with
  | none =>
    rw [hf] at hplan
    obtain ⟨e, he⟩ := hplan
    rw [he] at hfirst
    symm
    apply List.find?_eq_none.mpr
    intro g _ hg
    exact hfirst g (of_decide_eq_true ((congrFun hoffers g).trans hg))
  | some g =>
    rw [hf] at hplan
    obtain ⟨bgd, bitmap, r, ho, hp⟩ := hplan
    rw [hp] at hfirst
    obtain ⟨pre, g', post, bgd', bitmap', r', heq, hpre, ho', hsame, -⟩ := hfirst
    have hg : g = g' := congrArg (fun plan => plan.bgd.groupIdx) hsame
    subst hg
    symm
    apply List.find?_eq_some_iff_append.mpr
    refine ⟨(offersRun_reservedBut hbnd ho).1, pre, post, heq, ?_⟩
    intro a ha
    have hno := hpre a ha
    rw [← congrFun hoffers a, decide_eq_false hno]
    rfl

theorem tablesMarked_of_plansFirstRun (hbnd : sb.Bounds)
    (h : ∀ hintGroup reserved,
      PlansFirstRun sb groups 1 hintGroup reserved (readsFree sb)) : TablesMarked sb groups := by
  intro g bgd hbgd huninit hroom hbefore j hj htable
  by_contra hset
  have hclear : bit (uninitBlockBitmap sb groups g) j = false := by simpa using hset
  -- with every other block reserved the plan is that block of the table
  have hfirst := h 0 (reservedBut sb groups.length (· == g) (fun _ => j))
  unfold PlansFirstRun at hfirst
  split at hfirst
  · exact hfirst g (offers_reservedBut hbnd (by simp) hbgd hroom hj (fun _ => hclear))
  · rename_i plan hp
    obtain ⟨pre, g', post, bgd', bitmap, r, -, -, ho, rfl, -, -, hown⟩ := hfirst
    obtain ⟨hg', rfl⟩ := offersRun_reservedBut hbnd ho
    obtain rfl : g' = g := by simpa using hg'
    obtain rfl := Option.some.inj (ho.desc.symm.trans hbgd)
    refine hown huninit (sb.firstBlockOfGroup g' + r) ⟨Nat.le_refl _, ?_⟩
      (.inr (.inr (.inr ⟨by omega, htable⟩)))
    change sb.firstBlockOfGroup g' + r < sb.firstBlockOfGroup g' + r + 1
    omega

end Main

theorem not_plansFirstRun_of_ownBlock {sb : Superblock} {groups : List BlockGroupDescriptor}
    {count hintGroup g r : Nat} {reserved : List Nat} {bitmapReader : Nat → Result Bytes}
    {bgd : BlockGroupDescriptor} {bitmap : Bytes}
    (horder : (wrapOrder groups.length hintGroup).head? = some g)
    (ho : OffersRun sb groups count reserved bitmapReader g bgd bitmap r)
    (huninit : bgd.isUninit blockUninit = true) {b : Nat}
    (hb : Mount.Holds (blockPlan sb count g bgd r) b) (hblock : OwnBlock sb g bgd b) :
    ¬ PlansFirstRun sb groups count hintGroup reserved bitmapReader := by
  intro h
  unfold PlansFirstRun at h
  split at h
  · exact absurd ⟨bgd, bitmap, r, ho⟩ (h g)
  · obtain ⟨pre, g', post, bgd', bitmap', r', heq, hpre, ho', rfl, -, -, hown⟩ := h
    rw [heq] at horder
    obtain rfl : g' = g := by
      cases pre with
      | nil => exact Option.some.inj horder
      | cons a pre =>
        obtain rfl : a = g := Option.some.inj horder
        exact absurd ⟨bgd, bitmap, r, ho⟩ (hpre a List.mem_cons_self)
    obtain rfl := Option.some.inj (ho.desc.symm.trans ho'.desc)
    obtain rfl := Except.ok.inj (ho.read.symm.trans ho'.read)
    -- both are the lowest run
    obtain rfl : r' = r := by
      obtain hlt | heq | hgt := Nat.lt_trichotomy r' r
      · exact absurd ho'.free (ho.lowest r' hlt)
      · exact heq
      · exact absurd ho.free (ho'.lowest r hgt)
    exact hown huninit b hb hblock

/-- Of the volumes that mount accepts, the planner finds the first run on those whose groups are met
in turn and whose uninitialised groups have the blocks of their inode tables marked. -/
theorem plans_first_run_iff {crc : Jbd2.Crc} {sb : Superblock} {csum : Checksummer}
    {sizeBytes : Nat} {d : Disk} {groups : List BlockGroupDescriptor} (hparsed : sb.Parsed)
    (hclusters : sb.featureRoCompat &&& Superblock.roCompatBigalloc = 0)
    (haccepted : ((readAll crc sb csum sizeBytes).exec d).1 = .ok groups) :
    ((∀ count hintGroup reserved bitmapReader, 0 < count → BitmapsRead groups bitmapReader →
        PlansFirstRun sb groups count hintGroup reserved bitmapReader) ∧
      ∀ bitmapReader plans, Successive sb groups bitmapReader plans →
        plans.Pairwise (fun p q => ∀ b, Mount.Holds p b → ¬ Mount.Holds q b)) ↔
      OrderKept sb groups ∧ TablesMarked sb groups := by
  have hbnd := hparsed.bounds hclusters
  obtain ⟨-, -, -, hlen, -⟩ := readAll_ok (readAll_eq_of_fst haccepted)
  constructor
  · rintro ⟨h, -⟩
    have hone : ∀ hintGroup reserved,
        PlansFirstRun sb groups 1 hintGroup reserved (readsFree sb) :=
      fun hintGroup reserved => h 1 hintGroup reserved (readsFree sb) Nat.one_pos
        (bitmapsRead_free sb groups)
    exact ⟨orderKept_of_plansFirstRun hbnd hone, tablesMarked_of_plansFirstRun hbnd hone⟩
  · rintro ⟨hkept, hmarked⟩
    exact ⟨fun _ _ _ _ hcount hread => plansFirstRun_of_kept hbnd hlen hkept hmarked hcount hread,
      fun _ _ h => h.pairwise⟩

theorem bit_uninitBlockBitmap_iff {sb : Superblock} (hbnd : sb.Bounds)
    (groups : List BlockGroupDescriptor) {g j : Nat} (hj : j < blocksInGroup sb g) :
    bit (uninitBlockBitmap sb groups g) j = true ↔
      ∃ r ∈ uninitGroupUsedRanges sb groups g, r.1 ≤ j ∧ j < r.2 := by
  have hle := blocksInGroup_le_of_bounds hbnd g
  have hcap := hbnd.bitmap
  unfold uninitBlockBitmap
  dsimp only
  rw [bit_foldl_setBits _ _ _ _ (by rw [List.length_replicate]) (by omega), bit_replicate_zero]
  constructor
  · rintro (h | ⟨r, hr, h1, h2⟩)
    · cases h
    · obtain hr | hr := List.mem_append.mp hr
      · exact ⟨r, hr, h1, h2⟩
      · obtain rfl := List.mem_singleton.mp hr
        dsimp only at h1
        omega
  · rintro ⟨r, hr, hin⟩
    exact .inr ⟨r, List.mem_append_left _ hr, hin⟩

/-- Two groups of 32 blocks under FLEX_BG; the table of group 1 starts in the last block of group
0. -/
def straddlingSb : Superblock :=
  { Mount.twoGroupsSb with
    inodesCount := 64
    inodesPerGroup := 32
    featureIncompat := incompatFlexBg }

def straddlingGroups : List BlockGroupDescriptor :=
  [⟨3, 4, 5, 20, 22, 1, 0⟩, ⟨36, 37, 32, 28, 32, 0, 0x3⟩]

def straddlingDisk : Disk where
  img := Image.writeBlocks (fun _ => 0) 1024 [(2, straddlingGroups.flatMap Mount.rawDescriptor)]
  size := 65 * 1024

theorem straddling_parsed : straddlingSb.Parsed :=
  ⟨⟨0, 0, by decide⟩, by decide, by decide⟩

theorem straddling_accepted :
    ((readAll Jbd2.linuxCrc32c straddlingSb ⟨0, false⟩ (65 * 1024)).exec straddlingDisk).1 =
      .ok straddlingGroups := by
  have hends : Result.Ends (fun groups => groups = straddlingGroups)
      ((readAll Jbd2.linuxCrc32c straddlingSb ⟨0, false⟩ (65 * 1024)).exec straddlingDisk).1 := by
    decide +kernel
  obtain ⟨groups, hg, rfl⟩ := hends.exists_ok
  exact hg

theorem straddling_bits :
    bit (uninitBlockBitmap straddlingSb straddlingGroups 1) 0 = true ∧
      bit (uninitBlockBitmap straddlingSb straddlingGroups 1) 1 = true ∧
      bit (uninitBlockBitmap straddlingSb straddlingGroups 1) 2 = false := by
  have hbnd : straddlingSb.Bounds := straddling_parsed.bounds (by decide)
  refine ⟨(bit_uninitBlockBitmap_iff hbnd _ (by decide)).mpr (by decide),
    (bit_uninitBlockBitmap_iff hbnd _ (by decide)).mpr (by decide), ?_⟩
  rw [Bool.eq_false_iff]
  intro hset
  have hno : ¬ ∃ r ∈ uninitGroupUsedRanges straddlingSb straddlingGroups 1, r.1 ≤ 2 ∧ 2 < r.2 := by
    decide
  exact hno ((bit_uninitBlockBitmap_iff hbnd _ (by decide)).mp hset)

/-- The third block of an uninitialised group's own inode table is handed out. -/
theorem straddling_table_handed_out :
    straddlingSb.Parsed ∧
      ((readAll Jbd2.linuxCrc32c straddlingSb ⟨0, false⟩ (65 * 1024)).exec straddlingDisk).1 =
        .ok straddlingGroups ∧
      BitmapsRead straddlingGroups (readsFree straddlingSb) ∧
      ¬ PlansFirstRun straddlingSb straddlingGroups 1 1 [] (readsFree straddlingSb) := by
  refine ⟨straddling_parsed, straddling_accepted, bitmapsRead_free _ _, ?_⟩
  obtain ⟨hset0, hset1, hclear⟩ := straddling_bits
  have hread : blockBitmapOf straddlingSb straddlingGroups (readsFree straddlingSb) 1
      ⟨36, 37, 32, 28, 32, 0, 0x3⟩ = .ok (uninitBlockBitmap straddlingSb straddlingGroups 1) := by
    unfold blockBitmapOf
    rw [if_pos (by decide)]
  have ho : OffersRun straddlingSb straddlingGroups 1 [] (readsFree straddlingSb) 1
      ⟨36, 37, 32, 28, 32, 0, 0x3⟩ (uninitBlockBitmap straddlingSb straddlingGroups 1) 2 := by
    refine ⟨rfl, by decide, hread, ⟨by decide, ?_⟩, ?_⟩
    · intro k hk
      obtain rfl : k = 0 := by omega
      refine ⟨?_, hclear, List.not_mem_nil⟩
      rw [length_uninitBlockBitmap]
      decide
    · -- its first two blocks are its head
      intro r hr hfree
      have hbit := (hfree.2 0 Nat.one_pos).2.1
      have hr' : r = 0 ∨ r = 1 := by omega
      obtain rfl | rfl := hr'
      · exact Bool.noConfusion (hset0.symm.trans hbit)
      · exact Bool.noConfusion (hset1.symm.trans hbit)
  exact not_plansFirstRun_of_ownBlock (by decide) ho (by decide) (b := 35) ⟨by decide, by decide⟩
    (.inr (.inr (.inr ⟨by decide, by decide⟩)))

/-- The volume of two groups with each table inside its group. -/
theorem plans_first_run_two_groups :
    (∀ count hintGroup reserved bitmapReader, 0 < count →
        BitmapsRead Mount.twoGroups.fs.groups bitmapReader →
        PlansFirstRun Mount.twoGroupsSb Mount.twoGroups.fs.groups count hintGroup reserved
          bitmapReader) ∧
      ∀ bitmapReader plans, Successive Mount.twoGroupsSb Mount.twoGroups.fs.groups
        bitmapReader plans →
        plans.Pairwise (fun p q => ∀ b, Mount.Holds p b → ¬ Mount.Holds q b) := by
  have haccepted : ((readAll Jbd2.linuxCrc32c Mount.twoGroups.fs.sb Mount.twoGroups.csum
      Mount.twoGroups.fs.sizeBytes).exec Mount.twoGroupsDisk).1 = .ok Mount.twoGroups.fs.groups :=
    congrArg Prod.fst Mount.twoGroups_mounted.groups
  refine (plans_first_run_iff Mount.twoGroups_mounted.parsed (by decide) haccepted).mpr ⟨?_, ?_⟩
  · exact orderKept_of_few (by decide)
  · intro g bgd hbgd _ _ hbefore
    have hinside : ∀ g < 2, ∀ bgd ∈ Mount.twoGroups.fs.groups[g]?,
        Mount.twoGroups.fs.sb.firstBlockOfGroup g ≤ bgd.inodeTable := by
      decide
    exact absurd (hinside g (List.getElem?_eq_some_iff.mp hbgd).1 bgd hbgd) (by omega)

end FsExt4.Alloc
