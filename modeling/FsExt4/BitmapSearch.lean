import FsExt4.AllocScan
import FsExt4.Lib.Checked

namespace FsExt4.Alloc

open Lib

/-- What a scan of `alloc.rs` does with its words: `none` where an addition overflows, an index
leaves the bitmap or a loop takes more than its rounds; else what it returns. -/
abbrev Scan := Option (Option Nat)

section Scans

variable (bitmap : Bytes)

/-- `max_bits.min(u32::try_from(bitmap.len().saturating_mul(8)).unwrap_or(u32::MAX))` -/
def clampWord (maxBits : Nat) : Nat :=
  let bits := min (bitmap.length * 8) (2 ^ 64 - 1)
  min maxBits (if bits < 2 ^ 32 then bits else 2 ^ 32 - 1)

def tailLoop (maxBits : Nat) : Nat → Nat → Scan
  | 0, _ => none
  | rounds + 1, i =>
    if i < maxBits then
      if !bitIsSet bitmap i then some (some i)
      else do
        let i ← Checked.add 32 i 1
        tailLoop maxBits rounds i
    else some none

def wordLoop (maxBits : Nat) : Nat → Nat → Scan
  | 0, _ => none
  | rounds + 1, i => do
    let next ← Checked.add 32 i 64
    if next ≤ maxBits then
      let byte := i / 8
      let stop ← Checked.add 64 byte 8
      if bitmap.length < stop then tailLoop bitmap maxBits (maxBits + 1) i
      else
        let word := ofLe (← Checked.range bitmap byte 8)
        if word ≠ 2 ^ 64 - 1 then
          let cand ← Checked.add 32 i (trailingOnes 64 word)
          some (if cand < maxBits then some cand else none)
        else wordLoop maxBits rounds next
    else tailLoop bitmap maxBits (maxBits + 1) i

def headLoop (maxBits : Nat) : Nat → Nat → Scan
  | 0, _ => none
  | rounds + 1, i =>
    if i < maxBits ∧ i % 64 ≠ 0 then
      if !bitIsSet bitmap i then some (some i)
      else do
        let i ← Checked.add 32 i 1
        headLoop maxBits rounds i
    else wordLoop bitmap maxBits maxBits i

/-- `find_first_free` -/
def findFirstFreeWord (start maxBits : Nat) : Scan :=
  let maxBits := clampWord bitmap maxBits
  if maxBits ≤ start then some none else headLoop bitmap maxBits 65 start

def freeLoop (runEnd : Nat) : Nat → Nat → Option Nat
  | 0, _ => none
  | rounds + 1, j =>
    if j < runEnd ∧ !bitIsSet bitmap j then do
      let j ← Checked.add 32 j 1
      freeLoop runEnd rounds j
    else some j

/-- The loop of `find_free_run`; its `checked_add`s end the search instead of overflowing. -/
def runLoop (maxBits count : Nat) : Nat → Nat → Scan
  | 0, _ => none
  | rounds + 1, i =>
    match (Checked.add 32 i count).filter (· ≤ maxBits) with
    | none => some none
    | some _ => do
      match ← findFirstFreeWord bitmap i maxBits with
      | none => some none
      | some runStart =>
        match (Checked.add 32 runStart count).filter (· ≤ maxBits) with
        | none => some none
        | some runEnd =>
          let j ← Checked.add 32 runStart 1
          let j ← freeLoop bitmap runEnd count j
          if j = runEnd then some (some runStart)
          else
            match Checked.add 32 j 1 with
            | none => some none
            | some i => runLoop maxBits count rounds i

def findFreeRunWord (start maxBits count : Nat) : Scan :=
  if count = 0 then some none
  else
    let maxBits := clampWord bitmap maxBits
    runLoop bitmap maxBits count (maxBits + 1) start

end Scans

section Words

variable {bitmap : Bytes} {maxBits count : Nat}

theorem clampWord_eq (hlen : bitmap.length ≤ 65536) (maxBits : Nat) :
    clampWord bitmap maxBits = clampBits bitmap maxBits := by
  unfold clampWord clampBits
  dsimp only
  rw [Nat.min_eq_left (show bitmap.length * 8 ≤ 2 ^ 64 - 1 by omega), if_pos (by omega)]

theorem tailLoop_eq (hmax : maxBits < 2 ^ 32) (rounds i : Nat) (hrounds : maxBits < i + rounds)
    (hpos : 0 < rounds) : tailLoop bitmap maxBits rounds i =
      some (scanTail bitmap (maxBits - i) i) := by
  induction rounds generalizing i with
  | zero => exact absurd hpos (Nat.lt_irrefl 0)
  | succ rounds ih =>
    rw [tailLoop]
    by_cases hlow : i < maxBits
    · have hstep : maxBits - i = (maxBits - (i + 1)) + 1 := by omega
      rw [if_pos hlow, hstep, scanTail]
      split
      · rfl
      · rw [Checked.add_eq (by omega)]
        exact ih (i + 1) (by omega) (by omega)
    · rw [if_neg hlow, Nat.sub_eq_zero_of_le (Nat.le_of_not_lt hlow), scanTail]

theorem wordLoop_eq (hlen : bitmap.length ≤ 65536) (hmax : maxBits ≤ bitmap.length * 8)
    (rounds i : Nat) (hi : i ≤ maxBits) (hrounds : maxBits - i < 64 * rounds) :
    wordLoop bitmap maxBits rounds i = some (scanWords bitmap maxBits rounds i) := by
  have htail : ∀ i, i ≤ maxBits → tailLoop bitmap maxBits (maxBits + 1) i =
      some (scanTail bitmap (maxBits - i) i) :=
    fun i hi => tailLoop_eq (by omega) _ i (by omega) (Nat.succ_pos _)
  induction rounds generalizing i with
  | zero => exact absurd hrounds (Nat.not_lt_zero _)
  | succ rounds ih =>
    rw [wordLoop, scanWords, Checked.add_eq (by omega)]
    dsimp only [bind, Option.bind]
    by_cases hword : i + 64 ≤ maxBits
    · rw [if_pos hword, Checked.add_eq (show i / 8 + 8 < 2 ^ 64 by omega)]
      dsimp only
      by_cases hshort : bitmap.length < i / 8 + 8
      · rw [if_pos hshort, if_neg (by omega), htail i hi]
      · rw [if_neg hshort, if_pos ⟨hword, by omega⟩, Checked.range_eq (by omega)]
        dsimp only
        split
        · have hones := trailingOnes_le 64 (ofLe (slice bitmap (i / 8) 8))
          rw [Checked.add_eq (by omega)]
        · exact ih (i + 64) hword (by omega)
    · rw [if_neg hword, if_neg (fun h => hword h.1), htail i hi]

theorem headLoop_eq (hlen : bitmap.length ≤ 65536) (hmax : maxBits ≤ bitmap.length * 8)
    (rounds i : Nat)
    (hpos : 0 < maxBits) (hi : i ≤ maxBits) (hrounds : (64 - i % 64) % 64 ≤ rounds) :
    headLoop bitmap maxBits (rounds + 1) i = some (scanHead bitmap maxBits rounds i) := by
  have hwords : ∀ i, i ≤ maxBits → wordLoop bitmap maxBits maxBits i =
      some (scanWords bitmap maxBits maxBits i) :=
    fun i hi => wordLoop_eq hlen hmax maxBits i hi (by omega)
  induction rounds generalizing i with
  | zero => rw [headLoop, if_neg (by omega), scanHead, hwords i hi]
  | succ rounds ih =>
    rw [headLoop, scanHead]
    split
    · rename_i hlow
      split
      · rfl
      · rw [Checked.add_eq (by omega)]
        exact ih (i + 1) (by omega) (by omega)
    · exact hwords i hi

theorem findFirstFreeWord_eq (hlen : bitmap.length ≤ 65536) (start maxBits : Nat) :
    findFirstFreeWord bitmap start maxBits = some (findFirstFree bitmap start maxBits) := by
  unfold findFirstFreeWord findFirstFree
  rw [clampWord_eq hlen]
  dsimp only
  have hmax : clampBits bitmap maxBits ≤ bitmap.length * 8 := Nat.min_le_right _ _
  split
  · rfl
  · exact headLoop_eq hlen hmax 64 start (by omega) (by omega) (by omega)

theorem freeLoop_eq {runEnd : Nat} (hend : runEnd < 2 ^ 32) (rounds j : Nat) (hj : j ≤ runEnd)
    (hrounds : runEnd < j + rounds) :
    freeLoop bitmap runEnd rounds j = some (freeUntil bitmap (runEnd - j) j) := by
  induction rounds generalizing j with
  | zero => omega
  | succ rounds ih =>
    rw [freeLoop]
    by_cases hlow : j < runEnd
    · have hstep : runEnd - j = (runEnd - (j + 1)) + 1 := by omega
      rw [hstep, freeUntil]
      by_cases hfree : (!bitIsSet bitmap j) = true
      · rw [if_pos ⟨hlow, hfree⟩, if_pos hfree, Checked.add_eq (by omega)]
        exact ih (j + 1) (by omega) (by omega)
      · rw [if_neg (fun h => hfree h.2), if_neg hfree]
    · rw [if_neg (fun h => hlow h.1), Nat.sub_eq_zero_of_le (Nat.le_of_not_lt hlow), freeUntil]

theorem filter_add (a : Nat) (hmax : maxBits < 2 ^ 32) :
    (Checked.add 32 a count).filter (· ≤ maxBits) = if a + count ≤ maxBits
      then some (a + count) else none := by
  unfold Checked.add
  by_cases hfit : a + count ≤ maxBits
  · rw [if_pos hfit, if_pos (by omega), Option.filter_some, decide_eq_true hfit]
    rfl
  · rw [if_neg hfit]
    split
    · rw [Option.filter_some, decide_eq_false hfit]
      rfl
    · rfl

theorem runLoop_eq (hlen : bitmap.length ≤ 65536) (hmax : maxBits ≤ bitmap.length * 8)
    (hcount : 0 < count) (rounds i : Nat) (hrounds : maxBits < i + rounds) (hpos : 0 < rounds) :
    runLoop bitmap maxBits count rounds i = some (freeRunFrom bitmap maxBits count rounds i) := by
  induction rounds generalizing i with
  | zero => exact absurd hpos (Nat.lt_irrefl 0)
  | succ rounds ih =>
    rw [runLoop, freeRunFrom, filter_add i (by omega)]
    by_cases hroom : i + count ≤ maxBits
    · rw [if_pos hroom, if_pos hroom, findFirstFreeWord_eq hlen]
      dsimp only [bind, Option.bind]
      cases hfirst : findFirstFree bitmap i maxBits with
      | none => rfl
      | some runStart =>
        have hfound := findFirstFree_firstClear bitmap i maxBits
        rw [hfirst] at hfound
        dsimp only
        rw [filter_add runStart (by omega)]
        by_cases hfit : runStart + count ≤ maxBits
        · obtain ⟨hj1, hj2, -, -⟩ := freeUntil_spec bitmap (count - 1) (runStart + 1)
          have hlast : runStart + count - (runStart + 1) = count - 1 := by omega
          have hlow := hfound.1
          rw [if_pos hfit, if_pos hfit]
          dsimp only
          rw [Checked.add_eq (by omega)]
          dsimp only
          rw [freeLoop_eq (by omega) count (runStart + 1) (by omega) (by omega), hlast]
          dsimp only
          split
          · rfl
          · rw [Checked.add_eq (by omega)]
            exact ih _ (by omega) (by omega)
        · rw [if_neg hfit, if_neg hfit]
    · rw [if_neg hroom, if_neg hroom]

theorem findFreeRunWord_eq (hlen : bitmap.length ≤ 65536) (start maxBits count : Nat) :
    findFreeRunWord bitmap start maxBits count = some (findFreeRun bitmap start maxBits count) := by
  unfold findFreeRunWord findFreeRun
  rw [clampWord_eq hlen]
  dsimp only
  split
  · rfl
  · rename_i hcount
    have hmax : clampBits bitmap maxBits ≤ bitmap.length * 8 := Nat.min_le_right _ _
    exact runLoop_eq hlen hmax (Nat.pos_of_ne_zero hcount) _ start (by omega) (Nat.succ_pos _)

end Words

section Runs

variable {bitmap : Bytes} {maxBits count : Nat}

def LeastRun (bitmap : Bytes) (lo hi count : Nat) : Option Nat → Prop
  | none => ∀ r, lo ≤ r → ¬ FreeRun bitmap hi count r
  | some r => lo ≤ r ∧ FreeRun bitmap hi count r ∧ ∀ q, lo ≤ q → q < r → ¬ FreeRun bitmap hi count q

theorem LeastRun.of_skip {lo mid hi : Nat} {r : Option Nat}
    (hskip : ∀ q, lo ≤ q → q < mid → ¬ FreeRun bitmap hi count q) (hmid : lo ≤ mid)
    (h : LeastRun bitmap mid hi count r) : LeastRun bitmap lo hi count r := by
  cases r with
  | none =>
    intro q hq
    by_cases hlow : q < mid
    · exact hskip q hq hlow
    · exact h q (Nat.le_of_not_lt hlow)
  | some r =>
    obtain ⟨hr, hrun, hleast⟩ := h
    refine ⟨Nat.le_trans hmid hr, hrun, fun q hq hqr => ?_⟩
    by_cases hlow : q < mid
    · exact hskip q hq hlow
    · exact hleast q (Nat.le_of_not_lt hlow) hqr

theorem freeRunFrom_leastRun (hmax : maxBits ≤ bitmap.length * 8) (hcount : 0 < count)
    (rounds i : Nat) (hrounds : maxBits < i + rounds) :
    LeastRun bitmap i maxBits count (freeRunFrom bitmap maxBits count rounds i) := by
  induction rounds generalizing i with
  | zero =>
    rintro r hr ⟨hfit, -⟩
    omega
  | succ rounds ih =>
    have hclamp : clampBits bitmap maxBits = maxBits := Nat.min_eq_left hmax
    have hfound := findFirstFree_firstClear bitmap i maxBits
    rw [hclamp] at hfound
    rw [freeRunFrom]
    split
    · cases hfirst : findFirstFree bitmap i maxBits with
      | none =>
        rw [hfirst] at hfound
        intro r hr hrun
        exact not_freeRun_of_set bitmap maxBits count r r (Nat.le_refl r) (by omega)
          (hfound r hr (by have := hrun.1; omega)) hrun
      | some runStart =>
        rw [hfirst] at hfound
        obtain ⟨hlow, hhigh, hclear, hbefore⟩ := hfound
        -- no run starts on a bit that is set
        have hskip : ∀ q, i ≤ q → q < runStart → ¬ FreeRun bitmap maxBits count q :=
          fun q h1 h2 => not_freeRun_of_set bitmap maxBits count q q (Nat.le_refl q) (by omega)
            (hbefore q h1 h2)
        dsimp only
        split
        · rename_i hroom
          obtain ⟨hj1, hj2, hjfree, hjset⟩ := freeUntil_spec bitmap (count - 1) (runStart + 1)
          split
          · rename_i hdone
            refine ⟨hlow, ⟨hroom, fun k hk => ?_⟩, hskip⟩
            cases k with
            | zero => exact hclear
            | succ k => exact hjfree _ (by omega) (by omega)
          · rename_i hstop
            have hset := hjset (by omega)
            -- nor one that would have to pass the blocking bit
            refine LeastRun.of_skip ?_ (by omega) (ih _ (by omega))
            intro q h1 h2
            by_cases hq : q < runStart
            · exact hskip q h1 hq
            · exact not_freeRun_of_set bitmap maxBits count q _ (Nat.le_of_lt_succ h2)
                (by omega) hset
        · rename_i hroom
          intro r hr hrun
          by_cases hq : r < runStart
          · exact hskip r hr hq hrun
          · have := hrun.1
            omega
    · rename_i hroom
      rintro r hr ⟨hfit, -⟩
      omega

end Runs

/-- In words of 32 bits, and without an overflow or an index past the bitmap, the scans return the
least clear bit and the least run of clear bits below the bound. -/
theorem searches_least (bitmap : Bytes) (hlen : bitmap.length ≤ 65536) (start maxBits count : Nat) :
    (∃ r, findFirstFreeWord bitmap start maxBits = some r ∧
        FirstClear bitmap start (min maxBits (8 * bitmap.length)) r) ∧
      ∃ r, findFreeRunWord bitmap start maxBits count = some r ∧ (count = 0 → r = none) ∧
        (0 < count → LeastRun bitmap start (min maxBits (8 * bitmap.length)) count r) := by
  have hclamp : clampBits bitmap maxBits = min maxBits (8 * bitmap.length) := by
    rw [Nat.mul_comm]
    rfl
  refine ⟨⟨_, findFirstFreeWord_eq hlen start maxBits, ?_⟩, _, findFreeRunWord_eq hlen start
    maxBits count, ?_, ?_⟩
  · rw [← hclamp]
    exact findFirstFree_firstClear bitmap start maxBits
  · intro hzero
    unfold findFreeRun
    rw [if_pos hzero]
  · intro hcount
    rw [← hclamp]
    unfold findFreeRun
    rw [if_neg (by omega)]
    exact freeRunFrom_leastRun (Nat.min_le_right _ _) hcount _ start (by omega)

/-- A bitmap of nine bytes with its only clear bits at 66 and 67. -/
theorem searches_least_nine :
    (∃ r, findFirstFreeWord (List.replicate 8 255 ++ [0xF3]) 3 1000 = some r ∧
        FirstClear (List.replicate 8 255 ++ [0xF3]) 3 72 r) ∧
      ∃ r, findFreeRunWord (List.replicate 8 255 ++ [0xF3]) 3 1000 2 = some r ∧
        LeastRun (List.replicate 8 255 ++ [0xF3]) 3 72 2 r := by
  obtain ⟨hfirst, r, hrun, -, hleast⟩ := searches_least (List.replicate 8 255 ++ [0xF3])
    (by decide) 3 1000 2
  exact ⟨hfirst, r, hrun, hleast (by decide)⟩

end FsExt4.Alloc
