import FsExt4.JournalTorn
import FsExt4.JournalRoundTrip
import FsExt4.Lib.Checked
import Mathlib.Data.List.Nodup

namespace FsExt4.Journal

open Lib Jbd2

/-- Where a walk has been: the values its cursor took, the ring positions it read as log headers and
those its descriptors' tags took for data. -/
structure Trail where
  cursors : List Nat := []
  headers : List Nat := []
  tagged : List Nat := []

structure Walker where
  st : WalkState
  trail : Trail

/-- The block at the cursor is read as a log header, the last of `walked` blocks. -/
def Walker.tookHeader (w : Walker) (walked : Nat) : Walker where
  st := { w.st with plan := { w.st.plan with blocksWalked := walked } }
  trail := { w.trail with headers := w.trail.headers ++ [w.st.cur] }

def Walker.moveTo (w : Walker) (cur : Nat) : Walker where
  st := { w.st with cur }
  trail := { w.trail with cursors := w.trail.cursors ++ [cur] }

/-- How a turn of the loop ends: round again, `break`, or `return Err`. -/
inductive Turn
  | again
  | stop
  | fail (e : Error)

namespace Bounded

-- Each part of the walk comes to nothing where an addition or a multiplication takes more than 64
-- bits, a
-- difference is negative, an index leaves its block or a loop takes more than its rounds.
section Blocks

variable (crc : Crc) (jsb : JournalSuperblock) (block : Bytes)

def advance (cur n : Nat) : Option Nat :=
  let first := jsb.first.toNat
  let capacity := jsb.maxLen.toNat - first
  if capacity = 0 then some cur
  else do
    let offset ← Checked.sub cur first
    let sum ← Checked.add 64 offset n
    Checked.add 64 first (sum % capacity)

def u16beAt (off : Nat) : Option UInt16 := (Checked.range block off 2).map
    (fun _ => Lib.u16beAt block off)

def u32beAt (off : Nat) : Option UInt32 := (Checked.range block off 4).map
    (fun _ => Lib.u32beAt block off)

def u64beAt (off : Nat) : Option UInt64 := (Checked.range block off 8).map
    (fun _ => Lib.u64beAt block off)

def tryParseHeader : Option (Option JournalHeader) :=
  if block.length < 12 then some none
  else do
    let magic ← u32beAt block 0
    if magic ≠ magicNumber then some none
    else do
      let blockType ← u32beAt block 4
      let sequence ← u32beAt block 8
      some (some ⟨blockType, sequence⟩)

def torn : Option Bool :=
  match jsb.seed crc with
  | none => some false
  | some seed => do
    let tail ← Checked.sub block.length blockTailBytes
    let stored ← u32beAt block tail
    some (!(blockTailChecksum crc seed block == stored))

def commitTorn : Option Bool :=
  match jsb.seed crc with
  | none => some false
  | some seed => do
    let stored ← u32beAt block commitChecksumAt
    let _ ← Checked.range block 0 commitChecksumAt
    let _ ← Checked.sub block.length (commitChecksumAt + 4)
    some (commitBlockChecksum crc seed block != stored)

def usable : Option Nat :=
  if jsb.usesCsumV2OrV3 then Checked.sub block.length blockTailBytes else some block.length

def tagBlocknr (pos : Nat) : Option UInt64 :=
  if jsb.uses64bit then do
    let lo ← u32beAt block pos
    let hi ← u32beAt block (pos + 8)
    some ((hi.toUInt64 <<< 32) ||| lo.toUInt64)
  else (u32beAt block pos).map UInt32.toUInt64

def tagFlags (pos : Nat) : Option (UInt32 × UInt32) :=
  if jsb.usesCsumV3 then do
    let flags ← u32beAt block (pos + 4)
    let checksum ← u32beAt block (pos + 12)
    some (flags, checksum)
  else do
    let flags ← u16beAt block (pos + 6)
    let checksum ← u16beAt block (pos + 4)
    some (flags.toUInt32, checksum.toUInt32)

def tagAt (pos : Nat) : Option (UInt64 × UInt32 × UInt32) := do
  let blocknr ← tagBlocknr jsb block pos
  let (flags, checksum) ← tagFlags jsb block pos
  some (blocknr, flags, checksum)

def parseTags (usable : Nat) (transaction : UInt32) :
    Nat → Nat → Nat → Option (List Nat × Result (List (ReplayEntry × UInt32)))
  | 0, _, _ => none
  | rounds + 1, pos, cur => do
    let stop ← Checked.add 64 pos jsb.tagBytes
    if usable < stop then some ([], .error (.corrupt "descriptor tag overruns block"))
    else do
      let (blocknr, flags, checksum) ← tagAt jsb block pos
      let uuidFollowsSize := if hasFlag flags tagSameUuid then 0 else 16
      let cur ← advance jsb cur 1
      let entry : ReplayEntry × UInt32 := (⟨transaction, blocknr, cur, flags⟩, checksum)
      let pos ← Checked.add 64 pos (jsb.tagBytes + uuidFollowsSize)
      if hasFlag flags tagLast then some ([cur], .ok [entry])
      else do
        let stop ← Checked.add 64 pos jsb.tagBytes
        if usable < stop then some ([cur], .ok [entry])
        else do
          let (cursors, rest) ← parseTags usable transaction rounds pos cur
          some (cur :: cursors, rest.map (entry :: ·))

def parseDescriptorTags (cur : Nat) (transaction : UInt32) :
    Option (List Nat × Result (List (ReplayEntry × UInt32))) := do
  let usable ← usable jsb block
  parseTags jsb block usable transaction (block.length + 1) 12 cur

def recordAt (pos : Nat) : Option UInt64 :=
  if jsb.uses64bit then u64beAt block pos else (u32beAt block pos).map UInt32.toUInt64

def parseRecords (transaction : UInt32) (stop : Nat) : Nat → Nat → Option (List RevokeEntry)
  | 0, _ => none
  | rounds + 1, pos => do
    let recordSize := if jsb.uses64bit then 8 else 4
    let next ← Checked.add 64 pos recordSize
    if stop < next then some []
    else do
      let fsBlock ← recordAt jsb block pos
      let rest ← parseRecords transaction stop rounds next
      some (⟨transaction, fsBlock⟩ :: rest)

def parseRevokeBlock (transaction : UInt32) : Option (Result (List RevokeEntry)) :=
  if block.length < 16 then some (.error (.corrupt "revoke block too small"))
  else do
    let rCount ← u32beAt block 12
    let usable ← usable jsb block
    if usable < rCount.toNat then
      some (.error (.corrupt "journal revoke block count exceeds the block"))
    else do
      let records ← parseRecords jsb block transaction rCount.toNat block.length 16
      some (.ok records)

end Blocks

section Walk

variable (crc : Crc) (jsb : JournalSuperblock) (rd : Nat → Option (Result Bytes))

def checkTags : List (ReplayEntry × UInt32) → WalkState → Option (Result WalkState)
  | [], st => some (.ok st)
  | (entry, stored) :: rest, st =>
    match jsb.seed crc with
    | none => checkTags rest { st with pendingWrites := st.pendingWrites ++ [entry] }
    | some seed => do
      match ← rd entry.journalBlock with
      | .error e => some (.error e)
      | .ok data =>
        let computed := tagChecksum crc seed st.expectSeq data
        let computed := if jsb.usesCsumV3 then computed else computed &&& 0xFFFF
        let st := if computed ≠ stored then
            { st with pendingCorrupt := some "journal data block of a committed transaction" }
          else st
        checkTags rest { st with pendingWrites := st.pendingWrites ++ [entry] }

def walkDescriptor (limit : Nat) (block : Bytes) (w : Walker) : Option (Walker × Turn) := do
  let torn ← torn crc jsb block
  let (cursors, tags) ← parseDescriptorTags jsb block w.st.cur w.st.expectSeq
  let trail := { w.trail with cursors := w.trail.cursors ++ cursors }
  match tags with
  | .error e => some (⟨w.st, trail⟩, if torn then .stop else .fail e)
  | .ok tags => do
    let walked ← Checked.add 64 w.st.plan.blocksWalked tags.length
    let st := w.st.noteTorn torn "journal descriptor block of a committed transaction"
    let st := { st with cur := cursors.getLastD st.cur, plan :=
      { st.plan with blocksWalked := walked } }
    let trail := { trail with tagged := trail.tagged ++ tags.map (·.1.journalBlock) }
    if limit < walked then some (⟨st, trail⟩, .fail (.corrupt "journal transaction exceeds ring"))
    else do
      match ← checkTags crc jsb rd tags st with
      | .error e => some (⟨st, trail⟩, .fail e)
      | .ok st => some (⟨st, trail⟩, .again)

def walkCommit (block : Bytes) (w : Walker) : Option (Walker × Turn) := do
  let torn ← commitTorn crc jsb block
  if torn then some (w, .stop)
  else
    match w.st.pendingCorrupt with
    | some what => some (w, .fail (.badChecksum what))
    | none => some (⟨w.st.commit, w.trail⟩, .again)

def walkRevoke (block : Bytes) (w : Walker) : Option (Walker × Turn) := do
  let torn ← torn crc jsb block
  let st := w.st.noteTorn torn "journal revoke block of a committed transaction"
  match ← parseRevokeBlock jsb block st.expectSeq with
  | .error e => some (⟨st, w.trail⟩, .fail e)
  | .ok revokes => some (⟨{ st with pendingRevokes := st.pendingRevokes ++ revokes }, w.trail⟩,
      .again)

def walkArm (limit : Nat) (blockType : UInt32) (block : Bytes) (w : Walker) :
    Option (Walker × Turn) :=
  if blockType = descriptorBlock then walkDescriptor crc jsb rd limit block w
  else if blockType = commitBlock then walkCommit crc jsb block w
  else if blockType = revokeBlock then walkRevoke crc jsb block w
  else some (w, .stop)

def walkStep (limit : Nat) (w : Walker) : Option (Walker × Turn) := do
  match ← rd w.st.cur with
  | .error e => some (w, .fail e)
  | .ok block =>
    let walked ← Checked.add 64 w.st.plan.blocksWalked 1
    let w := w.tookHeader walked
    match ← tryParseHeader block with
    | none => some (w, .stop)
    | some hdr =>
      if hdr.sequence ≠ w.st.expectSeq then some (w, .stop)
      else do
        let (w, turn) ← walkArm crc jsb rd limit hdr.blockType block w
        match turn with
        | .again => do
          let cur ← advance jsb w.st.cur 1
          some (w.moveTo cur, .again)
        | turn => some (w, turn)

def walkLoop (limit : Nat) : Nat → Walker → Option (Walker × Option Error)
  | 0, _ => none
  | rounds + 1, w =>
    if w.st.plan.blocksWalked < limit then do
      let (w, turn) ← walkStep crc jsb rd limit w
      match turn with
      | .again => walkLoop limit rounds w
      | .stop => some (w, none)
      | .fail e => some (w, some e)
    else some (w, none)

end Walk

def readJournalBlock (fs : Filesystem) (jinode : Inode) (blockSize : Nat) (d : Disk)
    (journalBlock : Nat) :
    Option (Result Bytes) :=
  match ((fs.journalBlockToPhysical jinode journalBlock).exec d).1 with
  | .error e => some (.error e)
  | .ok none => some (.error (.corrupt "journal block unmapped"))
  | .ok (some phys) => do
    let off ← Checked.mul 64 phys blockSize
    some ((readAt off blockSize).exec d).1

def walk (crc : Crc) (fs : Filesystem) (jsb : JournalSuperblock) (d : Disk) :
    Option (Trail × Result ReplayPlan) :=
  if jsb.isClean then some ({}, .ok {})
  else if jsb.unsupportedIncompat ≠ 0 then
    some ({}, .error (.unsupported
      "journal declares an incompat feature this driver cannot replay"))
  else match jsb.checksumDeclarationError with
  | some why => some ({}, .error (.corrupt why))
  | none =>
    if jsb.blockSize.toNat ≠ fs.sb.blockSize then
      some ({}, .error (.corrupt "journal block size differs from the filesystem's"))
    else if jsb.first = 0 ∨ jsb.maxLen ≤ jsb.first ∨ jsb.start < jsb.first ∨
      jsb.maxLen ≤ jsb.start then
      some ({}, .error (.corrupt "invalid journal geometry"))
    else
      match (fs.journalInode.exec d).1 with
      | .error e => some ({}, .error e)
      | .ok jinode => do
        let limit ← Checked.sub jsb.maxLen.toNat jsb.first.toNat
        let rd := readJournalBlock fs jinode jsb.blockSize.toNat d
        let (w, failed) ← walkLoop crc jsb rd limit (limit + 1)
          ⟨WalkState.start jsb, { cursors := [jsb.start.toNat] }⟩
        match failed with
        | some e => some (w.trail, .error e)
        | none => some (w.trail, .ok w.st.plan.filterRevoked)

section Parts

variable {crc : Crc} {jsb : JournalSuperblock} {block : Bytes}

theorem advance_eq {cur n : Nat} (h : InRing jsb cur) (hn : n < 2 ^ 63) :
    advance jsb cur n = some (Journal.advance cur n jsb) := by
  have hc := h.capacity_pos
  have hmax : jsb.maxLen.toNat < 2 ^ 32 := jsb.maxLen.toNat_lt
  have hlt := Nat.mod_lt (cur - jsb.first.toNat + n) hc
  obtain ⟨hlo, hhi⟩ := h
  unfold capacity at hc hlt
  unfold advance Journal.advance
  dsimp only
  rw [if_neg (by omega), if_neg (by omega), Checked.sub_eq hlo]
  dsimp only [bind, Option.bind]
  rw [Checked.add_eq (by omega)]
  exact Checked.add_eq (by omega)

theorem u16beAt_eq {off : Nat} (h : off + 2 ≤ block.length) :
    u16beAt block off = some (Lib.u16beAt block off) := by
  rw [u16beAt, Checked.range_eq h]
  rfl

theorem u32beAt_eq {off : Nat} (h : off + 4 ≤ block.length) :
    u32beAt block off = some (Lib.u32beAt block off) := by
  rw [u32beAt, Checked.range_eq h]
  rfl

theorem u64beAt_eq {off : Nat} (h : off + 8 ≤ block.length) :
    u64beAt block off = some (Lib.u64beAt block off) := by
  rw [u64beAt, Checked.range_eq h]
  rfl

theorem tryParseHeader_eq : tryParseHeader block = some (Journal.tryParseHeader block) := by
  unfold tryParseHeader Journal.tryParseHeader
  split
  · rfl
  · rw [u32beAt_eq (by omega), u32beAt_eq (by omega), u32beAt_eq (by omega)]
    dsimp only [bind, Option.bind]
    split <;> rfl

theorem torn_eq (h : 4 ≤ block.length) : torn crc jsb block =
    some (Journal.torn crc jsb block) := by
  unfold torn Journal.torn
  cases jsb.seed crc with
  | none => rfl
  | some seed =>
    dsimp only
    rw [Checked.sub_eq (show blockTailBytes ≤ block.length from h)]
    dsimp only [bind, Option.bind]
    rw [u32beAt_eq (show block.length - blockTailBytes + 4 ≤ block.length from Nat.le_of_eq
      (Nat.sub_add_cancel h))]
    rfl

theorem commitTorn_eq (h : 20 ≤ block.length) :
    commitTorn crc jsb block = some (Journal.commitTorn crc jsb block) := by
  unfold commitTorn Journal.commitTorn
  cases jsb.seed crc with
  | none => rfl
  | some seed =>
    dsimp only
    rw [u32beAt_eq (show commitChecksumAt + 4 ≤ block.length from h),
      Checked.range_eq (show 0 + commitChecksumAt ≤ block.length from Nat.le_trans (by decide) h),
      Checked.sub_eq (show commitChecksumAt + 4 ≤ block.length from h)]
    rfl

theorem usable_eq (h : 4 ≤ block.length) : usable jsb block = some (Journal.usable jsb block) := by
  unfold usable Journal.usable JournalSuperblock.tailBytes
  split
  · exact Checked.sub_eq h
  · rfl

theorem usable_le : Journal.usable jsb block ≤ block.length := Nat.sub_le _ _

theorem tagBytes_bounds : 8 ≤ jsb.tagBytes ∧ jsb.tagBytes ≤ 16 ∧
    (jsb.usesCsumV3 = true → jsb.tagBytes = 16) ∧ (jsb.uses64bit = true → 12 ≤ jsb.tagBytes) := by
  unfold JournalSuperblock.tagBytes
  cases jsb.usesCsumV3 <;> cases jsb.uses64bit <;> cases jsb.has incompatCsumV2 <;> decide

theorem tagBlocknr_eq {pos : Nat} (h : pos + jsb.tagBytes ≤ block.length) :
    tagBlocknr jsb block pos = some (Journal.tagAt jsb block pos).1 := by
  obtain ⟨h8, -, -, h64⟩ := @tagBytes_bounds jsb
  unfold tagBlocknr Journal.tagAt
  cases hb : jsb.uses64bit with
  | true =>
    have h12 := h64 hb
    rw [if_pos rfl, u32beAt_eq (by omega), u32beAt_eq (by omega)]
    rfl
  | false =>
    rw [if_neg Bool.false_ne_true, u32beAt_eq (by omega)]
    rfl

theorem tagFlags_eq {pos : Nat} (h : pos + jsb.tagBytes ≤ block.length) :
    tagFlags jsb block pos = some (Journal.tagAt jsb block pos).2 := by
  obtain ⟨h8, -, hv3, -⟩ := @tagBytes_bounds jsb
  unfold tagFlags Journal.tagAt
  cases hc : jsb.usesCsumV3 with
  | true =>
    have h16 := hv3 hc
    rw [if_pos rfl, u32beAt_eq (by omega), u32beAt_eq (by omega)]
    rfl
  | false =>
    rw [if_neg Bool.false_ne_true, u16beAt_eq (by omega), u16beAt_eq (by omega)]
    rfl

theorem tagAt_eq {pos : Nat} (h : pos + jsb.tagBytes ≤ block.length) :
    tagAt jsb block pos = some (Journal.tagAt jsb block pos) := by
  rw [tagAt, tagBlocknr_eq h, tagFlags_eq h]
  rfl

theorem recordAt_eq {pos : Nat} (h : pos + (if jsb.uses64bit then 8 else 4) ≤ block.length) :
    recordAt jsb block pos =
      some (if jsb.uses64bit then Lib.u64beAt block pos else (Lib.u32beAt block pos).toUInt64) := by
  unfold recordAt
  cases hb : jsb.uses64bit with
  | true =>
    rw [hb] at h
    exact u64beAt_eq h
  | false =>
    rw [hb] at h
    rw [if_neg Bool.false_ne_true, if_neg Bool.false_ne_true, u32beAt_eq h]
    rfl

theorem parseRecords_eq {transaction : UInt32} {stop rounds pos : Nat} (hstop : stop ≤ block.length)
    (hlen : block.length < 2 ^ 32) (hpos : pos ≤ block.length)
      (hrounds : block.length < pos + rounds) :
    parseRecords jsb block transaction stop rounds pos =
      some (Journal.parseRecords jsb block transaction stop rounds pos) := by
  induction rounds generalizing pos with
  | zero => omega
  | succ rounds ih =>
    have hsize : 4 ≤ (if jsb.uses64bit then 8 else 4) ∧ (if jsb.uses64bit then 8 else 4) ≤ 8 := by
      cases jsb.uses64bit <;> decide
    have hrecord := @recordAt_eq jsb block pos
    unfold parseRecords Journal.parseRecords
    dsimp only
    generalize (if jsb.uses64bit then 8 else 4) = recordSize at hsize hrecord ⊢
    rw [Checked.add_eq (by omega)]
    dsimp only [bind, Option.bind]
    split
    · rfl
    · rename_i hroom
      rw [hrecord (by omega), ih (by omega) (by omega)]

theorem parseRevokeBlock_eq {transaction : UInt32} (h16 : 16 ≤ block.length)
    (hlen : block.length < 2 ^ 32) :
    parseRevokeBlock jsb block transaction =
      some (Journal.parseRevokeBlock jsb block transaction) := by
  unfold parseRevokeBlock Journal.parseRevokeBlock
  rw [if_neg (by omega), if_neg (by omega), u32beAt_eq (by omega), usable_eq (by omega)]
  dsimp only [bind, Option.bind]
  split
  · rfl
  · rename_i hcount
    have hle := @usable_le jsb block
    rw [parseRecords_eq (by omega) hlen h16 (by omega)]

end Parts

section Tags

variable {jsb : JournalSuperblock} {block : Bytes} {transaction : UInt32}

theorem getLastD_positionsAfter {cur n : Nat} (h : InRing jsb cur) :
    (positionsAfter jsb cur n).getLastD cur = Journal.advance cur n jsb := by
  cases n with
  | zero => exact (advance_zero h).symm
  | succ n =>
    unfold positionsAfter
    rw [List.range_succ, List.map_append]
    exact List.getLastD_concat

theorem parseTags_eq {rounds pos cur : Nat} (hlen : block.length < 2 ^ 32)
    (hpos : pos ≤ block.length) (hrounds : block.length < pos + rounds) (hcur : InRing jsb cur) :
    ∃ cursors, parseTags jsb block (Journal.usable jsb block) transaction rounds pos cur =
        some (cursors, (Journal.parseTags jsb block transaction rounds pos cur).map Prod.fst) ∧
      (∀ c ∈ cursors, InRing jsb c) ∧
      ∀ tags cur', Journal.parseTags jsb block transaction rounds pos cur = .ok (tags, cur') →
        cursors = positionsAfter jsb cur tags.length := by
  induction rounds generalizing pos cur with
  | zero => omega
  | succ rounds ih =>
    obtain ⟨h8, h16, -, -⟩ := @tagBytes_bounds jsb
    have hnext := advance_inRing hcur 1
    have hle := @usable_le jsb block
    unfold parseTags
    rw [Checked.add_eq (by omega)]
    dsimp only [bind, Option.bind]
    by_cases hover : Journal.usable jsb block < pos + jsb.tagBytes
    · have hparse : Journal.parseTags jsb block transaction (rounds + 1) pos cur =
          .error (.corrupt "descriptor tag overruns block") := by
        rw [Journal.parseTags, if_pos hover]
      rw [if_pos hover, hparse]
      refine ⟨[], rfl, by simp, ?_⟩
      intro tags cur' h
      cases h
    · rw [if_neg hover, tagAt_eq (by omega), advance_eq hcur (by decide)]
      unfold Journal.parseTags
      rw [if_neg hover]
      dsimp only
      have hskip : (if hasFlag (Journal.tagAt jsb block pos).2.1 tagSameUuid then 0 else 16) ≤
          16 := by
        split <;> decide
      generalize (if hasFlag (Journal.tagAt jsb block pos).2.1 tagSameUuid then 0 else 16) =
        skip at hskip ⊢
      rw [Checked.add_eq (by omega), ← Nat.add_assoc]
      dsimp only
      cases hlast : hasFlag (Journal.tagAt jsb block pos).2.1 tagLast with
      | true =>
        rw [Bool.true_or, if_pos rfl, if_pos rfl]
        refine ⟨_, rfl, by simpa using hnext, ?_⟩
        intro tags cur' h
        obtain ⟨rfl, -⟩ := Prod.mk.inj (Except.ok.inj h)
        rfl
      | false =>
        rw [Bool.false_or, if_neg Bool.false_ne_true, Checked.add_eq (by omega)]
        dsimp only
        by_cases hfull : Journal.usable jsb block < pos + jsb.tagBytes + skip + jsb.tagBytes
        · rw [if_pos hfull, if_pos (decide_eq_true hfull)]
          refine ⟨_, rfl, by simpa using hnext, ?_⟩
          intro tags cur' h
          obtain ⟨rfl, -⟩ := Prod.mk.inj (Except.ok.inj h)
          rfl
        · obtain ⟨cursors, hrun, hring, htags⟩ := @ih (pos + jsb.tagBytes + skip) _ (by omega)
            (by omega) hnext
          rw [if_neg hfull, if_neg (by simpa using hfull), hrun]
          refine ⟨Journal.advance cur 1 jsb :: cursors, ?_, ?_, ?_⟩
          · cases Journal.parseTags jsb block transaction rounds (pos + jsb.tagBytes + skip)
              (Journal.advance cur 1 jsb) <;> rfl
          · intro c hc
            obtain rfl | hc := List.mem_cons.mp hc
            · exact hnext
            · exact hring c hc
          · intro tags cur' h
            cases hrest : Journal.parseTags jsb block transaction rounds (pos + jsb.tagBytes + skip)
                (Journal.advance cur 1 jsb) with
            | error e =>
              rw [hrest] at h
              cases h
            | ok r =>
              obtain ⟨rest, cur''⟩ := r
              rw [hrest] at h
              obtain ⟨rfl, -⟩ := Prod.mk.inj (Except.ok.inj h)
              rw [htags rest cur'' hrest, List.length_cons, positionsAfter_succ hcur]

theorem parseDescriptorTags_eq {cur : Nat} (hlen : block.length < 2 ^ 32) (h12 : 12 ≤ block.length)
    (hcur : InRing jsb cur) :
    ∃ cursors, parseDescriptorTags jsb block cur transaction =
        some (cursors, (Journal.parseDescriptorTags jsb block cur transaction).map Prod.fst) ∧
      (∀ c ∈ cursors, InRing jsb c) ∧
      ∀ tags cur', Journal.parseDescriptorTags jsb block cur transaction = .ok (tags, cur') →
        cursors = positionsAfter jsb cur tags.length := by
  unfold parseDescriptorTags
  rw [usable_eq (by omega)]
  exact parseTags_eq hlen h12 (by omega) hcur

end Tags

/-- The cursor has been in the ring only, the positions taken are the first ones from the start on,
one for each block counted, and the plan's data lies in those its tags took. -/
structure Consumed (jsb : JournalSuperblock) (w : Walker) : Prop where
  cursors : ∀ c ∈ w.trail.cursors, InRing jsb c
  taken : (w.trail.headers ++ w.trail.tagged).Perm
    ((List.range w.st.plan.blocksWalked).map (fun i => Journal.advance jsb.start.toNat i jsb))
  writes : ∀ e ∈ w.st.plan.writes ++ w.st.pendingWrites, e.journalBlock ∈ w.trail.tagged

/-- The walk is at the last of the `k + 1` blocks it has counted. -/
structure AtBlock (jsb : JournalSuperblock) (limit k : Nat) (w : Walker) :
    Prop extends Consumed jsb w where
  cur : w.st.cur = Journal.advance jsb.start.toNat k jsb
  walked : w.st.plan.blocksWalked = k + 1
  fits : k + 1 ≤ limit

def ArmDone (jsb : JournalSuperblock) (limit : Nat) (next : Result (Option WalkState))
    (w : Walker) :
    Walker × Turn → Prop
  | (w', .again) => next = .ok (some w'.st) ∧ ∃ k, AtBlock jsb limit k w'
  | (w', .stop) => next = .ok none ∧ w'.st = w.st ∧ Consumed jsb w'
  | (w', .fail e) => next = .error e ∧ ∀ c ∈ w'.trail.cursors, InRing jsb c

section Arms

variable {crc : Crc} {jsb : JournalSuperblock} {log : Nat → Bytes}
  {rd : Nat → Option (Result Bytes)} {limit k : Nat} {w : Walker} {block : Bytes}

theorem checkTags_eq (hrd : ∀ j, InRing jsb j → rd j = some (.ok (log j)))
    (tags : List (ReplayEntry × UInt32)) (htags : ∀ tag ∈ tags, InRing jsb tag.1.journalBlock)
    (st : WalkState) : checkTags crc jsb rd tags st =
      some (.ok (tags.foldl (checkTag crc jsb log) st)) := by
  induction tags generalizing st with
  | nil => rfl
  | cons tag rest ih =>
    obtain ⟨entry, stored⟩ := tag
    have hrest := fun t ht => htags t (List.mem_cons_of_mem _ ht)
    have hread := hrd entry.journalBlock (htags (entry, stored) List.mem_cons_self)
    rw [List.foldl_cons, ← ih hrest, checkTags]
    cases hs : jsb.seed crc with
    | none =>
      have hst : checkTag crc jsb log st (entry, stored) =
          { st with pendingWrites := st.pendingWrites ++ [entry] } := by
        simp [checkTag, dataCorrupt, hs]
      rw [hst]
    | some seed =>
      have hst : checkTag crc jsb log st (entry, stored) =
          { (if storedChecksum jsb (tagChecksum crc seed st.expectSeq (log entry.journalBlock)) ≠
              stored then
            { st with pendingCorrupt := some "journal data block of a committed transaction" }
          else st) with
            pendingWrites := (if storedChecksum jsb (tagChecksum crc seed st.expectSeq
              (log entry.journalBlock)) ≠ stored then
            { st with pendingCorrupt := some "journal data block of a committed transaction" }
          else st).pendingWrites ++ [entry] } := by
        simp only [checkTag, dataCorrupt, hs, bne_iff_ne]
      dsimp only
      rw [hread, hst]
      rfl

theorem taken_tags (hs : InRing jsb jsb.start.toNat) {headers tagged : List Nat} (n : Nat)
    (h : (headers ++ tagged).Perm
      ((List.range (k + 1)).map (fun i => Journal.advance jsb.start.toNat i jsb))) :
    (headers ++ (tagged ++ positionsAfter jsb (Journal.advance jsb.start.toNat k jsb) n)).Perm
      ((List.range (k + 1 + n)).map (fun i => Journal.advance jsb.start.toNat i jsb)) := by
  have hafter : positionsAfter jsb (Journal.advance jsb.start.toNat k jsb) n =
      (List.range n).map (fun i => Journal.advance jsb.start.toNat (k + 1 + i) jsb) := by
    apply List.map_congr_left
    intro i _
    rw [advance_advance hs, Nat.add_assoc, Nat.add_comm 1]
  rw [← List.append_assoc, List.range_add, List.map_append, List.map_map, hafter]
  exact h.append_right _

theorem walkDescriptor_done (hrd : ∀ j, InRing jsb j → rd j = some (.ok (log j)))
    (hs : InRing jsb jsb.start.toNat) (h12 : 12 ≤ block.length) (hlen : block.length < 2 ^ 32)
    (hlimit : limit < 2 ^ 32) (hw : AtBlock jsb limit k w) :
    ∃ r, walkDescriptor crc jsb rd limit block w = some r ∧
      ArmDone jsb limit (scanDescriptor crc jsb log limit block w.st) w r := by
  have hcur : InRing jsb w.st.cur := by
    rw [hw.cur]
    exact advance_inRing hs k
  obtain ⟨cursors, hparse, hring, hpos⟩ :=
    @parseDescriptorTags_eq jsb block w.st.expectSeq w.st.cur hlen h12 hcur
  have hcursors : ∀ c ∈ w.trail.cursors ++ cursors, InRing jsb c := by
    intro c hc
    obtain hc | hc := List.mem_append.mp hc
    · exact hw.cursors c hc
    · exact hring c hc
  unfold walkDescriptor scanDescriptor
  rw [torn_eq (by omega), hparse]
  dsimp only [bind, Option.bind]
  cases hp : Journal.parseDescriptorTags jsb block w.st.cur w.st.expectSeq with
  | error e =>
    dsimp only [Except.map]
    cases Journal.torn crc jsb block with
    | true => exact ⟨_, rfl, rfl, rfl, hcursors, hw.taken, hw.writes⟩
    | false => exact ⟨_, rfl, rfl, hcursors⟩
  | ok r =>
    obtain ⟨tags, cur'⟩ := r
    have hc := hpos tags cur' hp
    obtain ⟨-, htags⟩ := parseTags_inRing _ _ _ _ _ _ _ hcur hp
    obtain ⟨hpositions, hcount⟩ := parseTags_positions hcur hp
    have hend : cur' = cursors.getLastD w.st.cur := by
      rw [hc, getLastD_positionsAfter hcur]
      exact parseTags_cursor _ _ _ _ _ _ hcur hp
    dsimp only [Except.map]
    rw [Checked.add_eq (by rw [hw.walked]; have := hw.fits; omega)]
    dsimp only
    rw [noteTorn_cur, noteTorn_plan, ← hend]
    split
    · exact ⟨_, rfl, rfl, hcursors⟩
    · rename_i hfits
      rw [checkTags_eq hrd tags htags]
      rw [hw.walked] at hfits
      obtain ⟨hfcur, hfplan, -, -, hfwrites⟩ := @foldl_checkTag_cur crc jsb log tags
        { w.st.noteTorn (Journal.torn crc jsb block)
          "journal descriptor block of a committed transaction" with
          cur := cur'
          plan := { w.st.plan with blocksWalked := w.st.plan.blocksWalked + tags.length } }
      have hwalked := congrArg ReplayPlan.blocksWalked hfplan
      refine ⟨_, rfl, rfl, k + tags.length, ⟨hcursors, ?_, ?_⟩, ?_, ?_, by omega⟩
      · dsimp only
        rw [hwalked, hpositions, hw.cur, hw.walked]
        exact taken_tags hs tags.length (hw.walked ▸ hw.taken)
      · intro e he
        dsimp only at he ⊢
        rw [hfplan, hfwrites, noteTorn_pendingWrites, ← List.append_assoc] at he
        obtain he | he := List.mem_append.mp he
        · exact List.mem_append_left _ (hw.writes e he)
        · obtain ⟨tag, htag, rfl⟩ := List.mem_map.mp he
          exact List.mem_append_right _ (List.mem_map_of_mem htag)
      · dsimp only
        rw [hfcur, parseTags_cursor _ _ _ _ _ _ hcur hp, hw.cur, advance_advance hs]
      · dsimp only
        rw [hwalked, hw.walked]
        exact Nat.add_right_comm k 1 tags.length

end Arms

section Turns

variable {crc : Crc} {jsb : JournalSuperblock} {log : Nat → Bytes}
  {rd : Nat → Option (Result Bytes)} {limit k : Nat} {w : Walker} {block : Bytes}

theorem walkCommit_done (h20 : 20 ≤ block.length) (hw : AtBlock jsb limit k w) :
    ∃ r, walkCommit crc jsb block w = some r ∧
      ArmDone jsb limit (Journal.walkCommit crc jsb block w.st) w r := by
  unfold walkCommit Journal.walkCommit
  rw [commitTorn_eq h20]
  dsimp only [bind, Option.bind]
  cases Journal.commitTorn crc jsb block with
  | true => exact ⟨_, rfl, rfl, rfl, hw.toConsumed⟩
  | false =>
    rw [if_neg Bool.false_ne_true, if_neg Bool.false_ne_true]
    cases w.st.pendingCorrupt with
    | some what => exact ⟨_, rfl, rfl, hw.cursors⟩
    | none =>
      refine ⟨_, rfl, rfl, k, ⟨hw.cursors, hw.taken, ?_⟩, hw.cur, hw.walked, hw.fits⟩
      intro e he
      have hnone : w.st.commit.pendingWrites = [] := rfl
      rw [hnone, List.append_nil] at he
      exact hw.writes e he

theorem walkRevoke_done (h16 : 16 ≤ block.length) (hlen : block.length < 2 ^ 32)
    (hw : AtBlock jsb limit k w) : ∃ r, walkRevoke crc jsb block w = some r ∧
      ArmDone jsb limit (Journal.walkRevoke crc jsb block w.st) w r := by
  unfold walkRevoke Journal.walkRevoke
  rw [torn_eq (by omega)]
  dsimp only [bind, Option.bind]
  rw [parseRevokeBlock_eq h16 hlen]
  dsimp only
  cases Journal.parseRevokeBlock jsb block _ with
  | error e => exact ⟨_, rfl, rfl, hw.cursors⟩
  | ok revokes =>
    refine ⟨_, rfl, rfl, k, ⟨hw.cursors, ?_, ?_⟩, ?_, ?_, hw.fits⟩
    · dsimp only
      rw [noteTorn_plan]
      exact hw.taken
    · dsimp only
      rw [noteTorn_plan, noteTorn_pendingWrites]
      exact hw.writes
    · dsimp only
      rw [noteTorn_cur]
      exact hw.cur
    · dsimp only
      rw [noteTorn_plan]
      exact hw.walked

theorem walkArm_done (hrd : ∀ j, InRing jsb j → rd j = some (.ok (log j)))
    (hs : InRing jsb jsb.start.toNat) (h20 : 20 ≤ block.length) (hlen : block.length < 2 ^ 32)
    (hlimit : limit < 2 ^ 32) (blockType : UInt32) (hw : AtBlock jsb limit k w) :
    ∃ r, walkArm crc jsb rd limit blockType block w = some r ∧
      ArmDone jsb limit (scanArm crc jsb log limit blockType block w.st) w r := by
  unfold walkArm scanArm
  split
  · exact walkDescriptor_done hrd hs (by omega) hlen hlimit hw
  split
  · exact walkCommit_done h20 hw
  split
  · exact walkRevoke_done (by omega) hlen hw
  · exact ⟨_, rfl, rfl, rfl, hw.toConsumed⟩

structure Between (jsb : JournalSuperblock) (limit : Nat) (w : Walker) :
    Prop extends Consumed jsb w where
  cur : w.st.cur = Journal.advance jsb.start.toNat w.st.plan.blocksWalked jsb
  fits : w.st.plan.blocksWalked ≤ limit

def TurnDone (jsb : JournalSuperblock) (limit : Nat) (next : Result (WalkState × Bool))
    (w : Walker) :
    Walker × Turn → Prop
  | (w', .again) => next = .ok (w'.st, true) ∧ Between jsb limit w' ∧
      w.st.plan.blocksWalked < w'.st.plan.blocksWalked
  | (w', .stop) => next = .ok (w'.st, false) ∧ Consumed jsb w' ∧ w'.st.plan.blocksWalked ≤ limit
  | (w', .fail e) => next = .error e ∧ ∀ c ∈ w'.trail.cursors, InRing jsb c

theorem taken_header (hw : Between jsb limit w) :
    (w.trail.headers ++ [w.st.cur] ++ w.trail.tagged).Perm
      ((List.range (w.st.plan.blocksWalked + 1)).map
      (fun i => Journal.advance jsb.start.toNat i jsb)) := by
  rw [List.range_succ, List.map_append, List.append_assoc, hw.cur]
  refine List.Perm.trans ?_ (hw.taken.append_right _)
  rw [List.append_assoc]
  exact List.Perm.append_left _ List.perm_append_comm

theorem walkStep_done (hrd : ∀ j, InRing jsb j → rd j = some (.ok (log j)))
    (hlog : ∀ j, InRing jsb j → 20 ≤ (log j).length ∧ (log j).length < 2 ^ 32)
    (hs : InRing jsb jsb.start.toNat) (hlimit : limit < 2 ^ 32) (hw : Between jsb limit w)
    (hmore : w.st.plan.blocksWalked < limit) :
    ∃ r, walkStep crc jsb rd limit w = some r ∧ TurnDone jsb limit
      (scanStep crc jsb log limit w.st) w r := by
  have hcur : InRing jsb w.st.cur := by
    rw [hw.cur]
    exact advance_inRing hs _
  obtain ⟨h20, hlen⟩ := hlog _ hcur
  have hat : AtBlock jsb limit w.st.plan.blocksWalked (w.tookHeader (w.st.plan.blocksWalked + 1)) :=
    ⟨⟨hw.cursors, taken_header hw, hw.writes⟩, hw.cur, rfl, hmore⟩
  have hcounted : w.st.counted = (w.tookHeader (w.st.plan.blocksWalked + 1)).st := rfl
  unfold walkStep scanStep
  rw [hrd _ hcur]
  dsimp only [bind, Option.bind]
  rw [Checked.add_eq (by omega)]
  dsimp only
  rw [tryParseHeader_eq, hcounted]
  generalize w.tookHeader (w.st.plan.blocksWalked + 1) = here at hat hcounted ⊢
  cases Journal.tryParseHeader (log w.st.cur) with
  | none => exact ⟨_, rfl, rfl, hat.toConsumed, by rw [hat.walked]; exact hmore⟩
  | some hdr =>
    dsimp only
    split
    · exact ⟨_, rfl, rfl, hat.toConsumed, by rw [hat.walked]; exact hmore⟩
    · obtain ⟨⟨w', turn⟩, hrun, hdone⟩ := @walkArm_done crc jsb log rd limit _ _ _ hrd hs h20 hlen
        hlimit hdr.blockType hat
      rw [hrun]
      dsimp only
      cases turn with
      | fail e =>
        obtain ⟨hnext, hring⟩ := hdone
        rw [hnext]
        exact ⟨_, rfl, rfl, hring⟩
      | stop =>
        obtain ⟨hnext, hst, hconsumed⟩ := hdone
        rw [hnext]
        refine ⟨_, rfl, ?_, hconsumed, ?_⟩
        · rw [hst]
        · rw [hst, hat.walked]
          exact hmore
      | again =>
        obtain ⟨hnext, k', hat'⟩ := hdone
        have hcur' : InRing jsb w'.st.cur := by
          rw [hat'.cur]
          exact advance_inRing hs _
        obtain ⟨-, hgrows⟩ := scanArm_progress limit _ _ here.st w'.st
          (by rw [← hcounted]; exact hcur) hnext
        rw [hnext, advance_eq hcur' (by decide)]
        refine ⟨_, rfl, rfl, ⟨⟨?_, hat'.taken, hat'.writes⟩, ?_, ?_⟩, ?_⟩
        · intro c hc
          obtain hc | hc := List.mem_append.mp hc
          · exact hat'.cursors c hc
          · rw [List.mem_singleton.mp hc]
            exact advance_inRing hcur' 1
        · change Journal.advance w'.st.cur 1 jsb = Journal.advance _ w'.st.plan.blocksWalked jsb
          rw [hat'.cur, advance_advance hs, hat'.walked]
        · exact hat'.walked ▸ hat'.fits
        · change w.st.plan.blocksWalked < w'.st.plan.blocksWalked
          have hone := hat.walked
          omega

end Turns

section Loop

variable {crc : Crc} {jsb : JournalSuperblock} {log : Nat → Bytes}
  {rd : Nat → Option (Result Bytes)} {limit : Nat} {w : Walker}

theorem walkLoop_done (hrd : ∀ j, InRing jsb j → rd j = some (.ok (log j)))
    (hlog : ∀ j, InRing jsb j → 20 ≤ (log j).length ∧ (log j).length < 2 ^ 32)
    (hs : InRing jsb jsb.start.toNat) (hlimit : limit < 2 ^ 32) (rounds : Nat)
      (hw : Between jsb limit w)
    (hrounds : limit < rounds + w.st.plan.blocksWalked) :
    ∃ w' failed, walkLoop crc jsb rd limit rounds w = some (w', failed) ∧
      (∀ c ∈ w'.trail.cursors, InRing jsb c) ∧
      match failed with
      | some e => scan crc jsb log limit w.st = .error e
      | none => scan crc jsb log limit w.st = .ok w'.st ∧ Consumed jsb w' ∧
          w'.st.plan.blocksWalked ≤ limit := by
  induction rounds generalizing w with
  | zero =>
    have hfits := hw.fits
    omega
  | succ rounds ih =>
    rw [walkLoop]
    by_cases hmore : w.st.plan.blocksWalked < limit
    · have hcur : InRing jsb w.st.cur := by
        rw [hw.cur]
        exact advance_inRing hs _
      obtain ⟨⟨w', turn⟩, hrun, hdone⟩ := @walkStep_done crc jsb log rd limit w hrd hlog hs
        hlimit hw hmore
      rw [if_pos hmore, hrun, scan_step limit w.st hcur hmore]
      dsimp only [bind, Option.bind]
      cases turn with
      | fail e =>
        obtain ⟨hnext, hring⟩ := hdone
        rw [hnext]
        exact ⟨w', some e, rfl, hring, rfl⟩
      | stop =>
        obtain ⟨hnext, hconsumed, hle⟩ := hdone
        rw [hnext]
        exact ⟨w', none, rfl, hconsumed.cursors, rfl, hconsumed, hle⟩
      | again =>
        obtain ⟨hnext, hbetween, hgrows⟩ := hdone
        rw [hnext]
        exact ih hbetween (by omega)
    · rw [if_neg hmore, scan_done limit w.st (Nat.le_of_not_lt hmore)]
      exact ⟨w, none, rfl, hw.cursors, rfl, hw.toConsumed, hw.fits⟩

theorem Consumed.nodup (h : Consumed jsb w) (hs : InRing jsb jsb.start.toNat)
    (hle : w.st.plan.blocksWalked ≤ capacity jsb) : (w.trail.headers ++ w.trail.tagged).Nodup := by
  apply h.taken.nodup_iff.mpr
  refine List.Nodup.map_on ?_ List.nodup_range
  intro m hm n hn heq
  rw [List.mem_range] at hm hn
  exact advance_inj hs m n (by omega) (by omega) heq

theorem Consumed.length (h : Consumed jsb w) :
    (w.trail.headers ++ w.trail.tagged).length = w.st.plan.blocksWalked := by
  rw [h.taken.length_eq, List.length_map, List.length_range]

theorem Consumed.inRing (h : Consumed jsb w) (hs : InRing jsb jsb.start.toNat) :
    ∀ p ∈ w.trail.headers ++ w.trail.tagged, InRing jsb p := by
  intro p hp
  obtain ⟨i, -, rfl⟩ := List.mem_map.mp (h.taken.mem_iff.mp hp)
  exact advance_inRing hs i

end Loop

theorem readJournalBlock_eq {fs : Filesystem} {jinode : Inode} {d : Disk} {bs j phys : Nat}
    (hmap : (fs.journalBlockToPhysical jinode j).exec d = (.ok (some phys), d))
    (hdev : phys * bs + bs ≤ d.size) (hsize : d.size < 2 ^ 64) :
    readJournalBlock fs jinode bs d j = some (.ok (d.img.block bs phys)) := by
  unfold readJournalBlock
  rw [hmap]
  dsimp only
  rw [Checked.mul_eq (by omega)]
  dsimp only [bind, Option.bind]
  rw [exec_readAt d _ _ hdev]
  rfl

end Bounded

/-- The walk returns, its cursor never leaves the ring, and a plan it makes takes each position of
the ring once at most, its data among those its tags took. -/
def StaysInLog (crc : Crc) (fs : Filesystem) (jsb : JournalSuperblock) (d : Disk) : Prop :=
  ∃ trail outcome, Bounded.walk crc fs jsb d = some (trail, outcome) ∧
    (walk crc fs jsb).exec d = (outcome, d) ∧ (∀ c ∈ trail.cursors, InRing jsb c) ∧
    ∀ plan, outcome = .ok plan → (trail.headers ++ trail.tagged).Nodup ∧
      (trail.headers ++ trail.tagged).length ≤ capacity jsb ∧
      (∀ p ∈ trail.headers ++ trail.tagged, InRing jsb p) ∧
      ∀ e ∈ plan.writes, e.journalBlock ∈ trail.tagged

section Whole

variable {crc : Crc} {fs : Filesystem} {jsb : JournalSuperblock} {d : Disk}

theorem staysInLog_of_not_walkable (h : ¬ Walkable fs jsb) : StaysInLog crc fs jsb d := by
  have hearly : ∃ outcome, Bounded.walk crc fs jsb d = some ({}, outcome) ∧
      (walk crc fs jsb).exec d = (outcome, d) ∧ ∀ plan, outcome = .ok plan → plan = {} := by
    unfold Bounded.walk walk
    by_cases hclean : jsb.isClean = true
    · rw [if_pos hclean, if_pos hclean]
      exact ⟨_, rfl, rfl, fun plan hok => (Except.ok.inj hok).symm⟩
    rw [if_neg hclean, if_neg hclean]
    by_cases hsupported : jsb.unsupportedIncompat ≠ 0
    · rw [if_pos hsupported, if_pos hsupported]
      exact ⟨_, rfl, rfl, nofun⟩
    rw [if_neg hsupported, if_neg hsupported]
    cases hdeclared : jsb.checksumDeclarationError with
    | some why => exact ⟨_, rfl, rfl, nofun⟩
    | none =>
      dsimp only
      by_cases hbs : jsb.blockSize.toNat ≠ fs.sb.blockSize
      · rw [if_pos hbs, if_pos hbs]
        exact ⟨_, rfl, rfl, nofun⟩
      rw [if_neg hbs, if_neg hbs]
      split
      · exact ⟨_, rfl, rfl, nofun⟩
      · rename_i hgeo
        refine absurd ⟨?_, Decidable.not_not.mp hsupported, hdeclared, Decidable.not_not.mp hbs,
          geometry_iff.mpr hgeo⟩ h
        simpa [JournalSuperblock.isClean] using hclean
  obtain ⟨outcome, hbounded, hwalk, hplan⟩ := hearly
  refine ⟨{}, outcome, hbounded, hwalk, by simp, ?_⟩
  intro plan hok
  rw [hplan plan hok]
  simp

theorem filterRevoked_writes_subset (plan : ReplayPlan) : ∀ e ∈ plan.filterRevoked.writes,
    e ∈ plan.writes := by
  intro e he
  unfold ReplayPlan.filterRevoked at he
  split at he
  · exact he
  · exact List.mem_of_mem_filter he

theorem staysInLog_of_walkable {map : Nat → Nat} {jinode : Inode} (hw : Walkable fs jsb)
    (hm : Mapped fs (InRing jsb) map jinode d)
    (hdev : ∀ j, InRing jsb j → map j * fs.sb.blockSize + fs.sb.blockSize ≤ d.size)
    (hsize : d.size < 2 ^ 64) : StaysInLog crc fs jsb d := by
  have hg := hw.geometry
  have hs := hg.start_inRing
  have hlog := hm.logOnDisk hw.blockSize hdev
  have hexec := walk_exec crc fs jsb d _ hw hlog
  have hrd : ∀ j, InRing jsb j → Bounded.readJournalBlock fs jinode jsb.blockSize.toNat d j =
      some (.ok (logOf fs map d j)) := by
    intro j hj
    rw [hw.blockSize]
    exact Bounded.readJournalBlock_eq (hm.2 j hj) (hdev j hj) hsize
  have hblocks : ∀ j, InRing jsb j → 20 ≤ (logOf fs map d j).length ∧ (logOf fs map d j).length <
      2 ^ 32 := by
    intro j _
    have hge := blockSize_ge fs.sb
    have hlt := jsb.blockSize.toNat_lt
    rw [hw.blockSize] at hlt
    unfold logOf Image.block
    rw [Image.length_read]
    omega
  have hcap : capacity jsb < 2 ^ 32 := Nat.lt_of_le_of_lt (Nat.sub_le _ _) jsb.maxLen.toNat_lt
  have hstart : Bounded.Between jsb (capacity jsb)
      ⟨WalkState.start jsb, { cursors := [jsb.start.toNat] }⟩ := by
    refine ⟨⟨by simpa using hs, List.Perm.refl _, ?_⟩, ?_, ?_⟩
    · intro e he
      cases he
    · exact (advance_zero hs).symm
    · exact Nat.zero_le _
  obtain ⟨w, failed, hrun, hring, hdone⟩ := @Bounded.walkLoop_done crc jsb (logOf fs map d) _
    (capacity jsb) _ hrd hblocks hs hcap (capacity jsb + 1) hstart (Nat.lt_succ_self _)
  have hclean : jsb.isClean = false := by simp [JournalSuperblock.isClean, hw.dirty]
  have hbounded : Bounded.walk crc fs jsb d =
      some (w.trail, failed.elim (.ok w.st.plan.filterRevoked) .error) := by
    have hsub : Checked.sub jsb.maxLen.toNat jsb.first.toNat = some (capacity jsb) :=
      Checked.sub_eq (by have h1 := hg.first_le; have h2 := hg.start_lt; omega)
    unfold Bounded.walk
    rw [hclean, if_neg Bool.false_ne_true, if_neg (by simp [hw.supported]), hw.declared]
    dsimp only
    rw [if_neg (by simp [hw.blockSize]), if_neg (geometry_iff.mp hg), hm.1]
    dsimp only [bind, Option.bind]
    rw [hsub]
    dsimp only
    rw [hrun]
    cases failed <;> rfl
  cases failed with
  | some e =>
    refine ⟨w.trail, .error e, hbounded, ?_, hring, ?_⟩
    · rw [hexec, hdone]
      rfl
    · intro plan hok
      cases hok
  | none =>
    obtain ⟨hscan, hconsumed, hle⟩ := hdone
    refine ⟨w.trail, .ok w.st.plan.filterRevoked, hbounded, ?_, hring, ?_⟩
    · rw [hexec, hscan]
      rfl
    · intro plan hok
      obtain rfl := Except.ok.inj hok
      refine ⟨hconsumed.nodup hs hle, ?_, hconsumed.inRing hs, ?_⟩
      · rw [hconsumed.length]
        exact hle
      · intro e he
        exact hconsumed.writes e (List.mem_append_left _ (filterRevoked_writes_subset _ e he))

end Whole

end FsExt4.Journal
