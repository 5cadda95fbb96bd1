import FsExt4.Filesystem
import FsExt4.Transaction

namespace FsExt4.Journal

open Lib Jbd2

structure ReplayEntry where
  transaction : UInt32
  fsBlock : UInt64
  journalBlock : Nat
  flags : UInt32
  deriving DecidableEq

structure RevokeEntry where
  transaction : UInt32
  fsBlock : UInt64
  deriving DecidableEq

structure ReplayPlan where
  writes : List ReplayEntry := []
  revokes : List RevokeEntry := []
  lastCommit : UInt32 := 0
  nextSequence : Option UInt32 := none
  blocksWalked : Nat := 0
  deriving DecidableEq

/-- Serial-number order: the wrapping difference, as a signed number, is positive. -/
def sequenceAfter (a b : UInt32) : Bool := decide (0 < (a - b).toBitVec.toInt)

def highest (revokes : List RevokeEntry) (fsBlock : UInt64) : Option UInt32 :=
  revokes.foldl (fun e r =>
    if r.fsBlock = fsBlock then
      match e with
      | none => some r.transaction
      | some t => some (if sequenceAfter r.transaction t then r.transaction else t)
    else e) none

def survives (revokes : List RevokeEntry) (w : ReplayEntry) : Bool :=
  match highest revokes w.fsBlock with
  | some t => sequenceAfter w.transaction t
  | none => true

def ReplayPlan.filterRevoked (plan : ReplayPlan) : ReplayPlan :=
  if plan.revokes.isEmpty then plan
  else { plan with writes := plan.writes.filter (survives plan.revokes) }

def advance (cur n : Nat) (jsb : JournalSuperblock) : Nat :=
  let first := jsb.first.toNat
  let capacity := jsb.maxLen.toNat - first
  if capacity = 0 then cur else first + (cur - first + n) % capacity

structure JournalHeader where
  blockType : UInt32
  sequence : UInt32
  deriving DecidableEq

def tryParseHeader (block : Bytes) : Option JournalHeader :=
  if block.length < 12 then none
  else if u32beAt block 0 ≠ magicNumber then none
  else some ⟨u32beAt block 4, u32beAt block 8⟩

def tailChecksumMatches (crc : Crc) (seed : UInt32) (block : Bytes) : Bool :=
  blockTailChecksum crc seed block == u32beAt block (block.length - blockTailBytes)

def readJournalBlock (fs : Filesystem) (jinode : Inode) (blockSize : Nat) (journalBlock : Nat) :
    DevIo Bytes := do
  match ← fs.journalBlockToPhysical jinode journalBlock with
  | none => .fail (.corrupt "journal block unmapped")
  | some phys => readAt (phys * blockSize) blockSize

def usable (jsb : JournalSuperblock) (block : Bytes) : Nat := block.length - jsb.tailBytes

/-- The tag at `pos`: the block it names, its flags and its stored checksum. -/
def tagAt (jsb : JournalSuperblock) (block : Bytes) (pos : Nat) : UInt64 × UInt32 × UInt32 :=
  let lo := u32beAt block pos
  let (flags, checksum) :=
    if jsb.usesCsumV3 then (u32beAt block (pos + 4), u32beAt block (pos + 12))
    else ((u16beAt block (pos + 6)).toUInt32, (u16beAt block (pos + 4)).toUInt32)
  let blocknr :=
    if jsb.uses64bit then ((u32beAt block (pos + 8)).toUInt64 <<< 32) ||| lo.toUInt64
    else lo.toUInt64
  (blocknr, flags, checksum)

def hasFlag (flags bit : UInt32) : Bool := flags &&& bit != 0

/-- The tag array from `pos` on, each tag with its data block's journal position. The cursor
comes back past the last data block. -/
def parseTags (jsb : JournalSuperblock) (block : Bytes) (transaction : UInt32) :
    Nat → Nat → Nat → Result (List (ReplayEntry × UInt32) × Nat)
  | 0, _, cur => .ok ([], cur)
  | fuel + 1, pos, cur =>
    if usable jsb block < pos + jsb.tagBytes then
      .error (.corrupt "descriptor tag overruns block")
    else
      let (blocknr, flags, checksum) := tagAt jsb block pos
      let uuidFollowsSize := if hasFlag flags tagSameUuid then 0 else 16
      let cur := advance cur 1 jsb
      let entry : ReplayEntry × UInt32 := (⟨transaction, blocknr, cur, flags⟩, checksum)
      let pos := pos + jsb.tagBytes + uuidFollowsSize
      if hasFlag flags tagLast || decide (usable jsb block < pos + jsb.tagBytes) then
        .ok ([entry], cur)
      else do
        let (rest, cur) ← parseTags jsb block transaction fuel pos cur
        return (entry :: rest, cur)

def parseDescriptorTags (jsb : JournalSuperblock) (block : Bytes) (cur : Nat)
    (transaction : UInt32) : Result (List (ReplayEntry × UInt32) × Nat) :=
  parseTags jsb block transaction (block.length + 1) 12 cur

def parseRecords (jsb : JournalSuperblock) (block : Bytes) (transaction : UInt32) (stop : Nat) :
    Nat → Nat → List RevokeEntry
  | 0, _ => []
  | fuel + 1, pos =>
    let recordSize := if jsb.uses64bit then 8 else 4
    if stop < pos + recordSize then []
    else
      let fsBlock := if jsb.uses64bit then u64beAt block pos else (u32beAt block pos).toUInt64
      ⟨transaction, fsBlock⟩ :: parseRecords jsb block transaction stop fuel (pos + recordSize)

def parseRevokeBlock (jsb : JournalSuperblock) (block : Bytes) (transaction : UInt32) :
    Result (List RevokeEntry) :=
  if block.length < 16 then .error (.corrupt "revoke block too small")
  else
    let rCount := (u32beAt block 12).toNat
    if usable jsb block < rCount then
      .error (.corrupt "journal revoke block count exceeds the block")
    else .ok (parseRecords jsb block transaction rCount block.length 16)

/-- The walk's local variables: the plan, the open transaction's writes and revokes, what was
found wrong in it, the cursor and the sequence it expects. -/
structure WalkState where
  plan : ReplayPlan
  pendingWrites : List ReplayEntry
  pendingRevokes : List RevokeEntry
  pendingCorrupt : Option String
  cur : Nat
  expectSeq : UInt32
  deriving DecidableEq

def WalkState.counted (st : WalkState) : WalkState :=
  { st with plan := { st.plan with blocksWalked := st.plan.blocksWalked + 1 } }

section Walk

variable (crc : Crc) (jsb : JournalSuperblock) (rd : Nat → DevIo Bytes)

/-- Check each tagged data block against its tag and add it to the open transaction. -/
def checkTags : List (ReplayEntry × UInt32) → WalkState → DevIo WalkState
  | [], st => pure st
  | (entry, stored) :: rest, st => do
    let st ← match jsb.seed crc with
      | none => pure st
      | some seed => do
        let data ← rd entry.journalBlock
        let computed := tagChecksum crc seed st.expectSeq data
        let computed := if jsb.usesCsumV3 then computed else computed &&& 0xFFFF
        pure (if computed ≠ stored then
          { st with pendingCorrupt := some "journal data block of a committed transaction" }
        else st)
    checkTags rest { st with pendingWrites := st.pendingWrites ++ [entry] }

def torn (block : Bytes) : Bool :=
  match jsb.seed crc with
  | some seed => !tailChecksumMatches crc seed block
  | none => false

def WalkState.noteTorn (st : WalkState) (torn : Bool) (what : String) : WalkState :=
  if torn then { st with pendingCorrupt := some what } else st

def walkDescriptor (limit : Nat) (block : Bytes) (st : WalkState) : DevIo (Option WalkState) :=
  match parseDescriptorTags jsb block st.cur st.expectSeq with
  | .error e => if torn crc jsb block then pure none else .fail e
  | .ok (tags, cur) => do
    let walked := st.plan.blocksWalked + tags.length
    let st := st.noteTorn (torn crc jsb block) "journal descriptor block of a committed transaction"
    let st := { st with cur, plan := { st.plan with blocksWalked := walked } }
    if limit < walked then .fail (.corrupt "journal transaction exceeds ring")
    else return some (← checkTags crc jsb rd tags st)

def commitTorn (block : Bytes) : Bool :=
  match jsb.seed crc with
  | some seed => commitBlockChecksum crc seed block != u32beAt block commitChecksumAt
  | none => false

def WalkState.commit (st : WalkState) : WalkState :=
  { st with
    plan := { st.plan with
      writes := st.plan.writes ++ st.pendingWrites
      revokes := st.plan.revokes ++ st.pendingRevokes
      lastCommit := st.expectSeq
      nextSequence := some (st.expectSeq + 1) }
    pendingWrites := []
    pendingRevokes := []
    expectSeq := st.expectSeq + 1 }

def walkCommit (block : Bytes) (st : WalkState) : Result (Option WalkState) :=
  if commitTorn crc jsb block then .ok none
  else match st.pendingCorrupt with
  | some what => .error (.badChecksum what)
  | none => .ok (some st.commit)

def walkRevoke (block : Bytes) (st : WalkState) : Result (Option WalkState) :=
  let st := st.noteTorn (torn crc jsb block) "journal revoke block of a committed transaction"
  match parseRevokeBlock jsb block st.expectSeq with
  | .error e => .error e
  | .ok revokes => .ok (some { st with pendingRevokes := st.pendingRevokes ++ revokes })

/-- The arm for a block's type; a type the walk does not know ends the log. -/
def walkArm (limit : Nat) (blockType : UInt32) (block : Bytes) (st : WalkState) :
    DevIo (Option WalkState) :=
  if blockType = descriptorBlock then walkDescriptor crc jsb rd limit block st
  else if blockType = commitBlock then liftM (walkCommit crc jsb block st)
  else if blockType = revokeBlock then liftM (walkRevoke crc jsb block st)
  else pure none

def walkStep (limit : Nat) (st : WalkState) : DevIo (WalkState × Bool) := do
  let block ← rd st.cur
  let st := st.counted
  match tryParseHeader block with
  | none => return (st, false)
  | some hdr =>
    if hdr.sequence ≠ st.expectSeq then return (st, false)
    else
      match ← walkArm crc jsb rd limit hdr.blockType block st with
      | none => return (st, false)
      | some st => return ({ st with cur := advance st.cur 1 jsb }, true)

def walkLoop (limit : Nat) : Nat → WalkState → DevIo WalkState
  | 0, st => pure st
  | fuel + 1, st =>
    if st.plan.blocksWalked < limit then do
      let (st, more) ← walkStep crc jsb rd limit st
      if more then walkLoop limit fuel st else return st
    else return st

end Walk

def WalkState.start (jsb : JournalSuperblock) : WalkState where
  plan := {}
  pendingWrites := []
  pendingRevokes := []
  pendingCorrupt := none
  cur := jsb.start.toNat
  expectSeq := jsb.sequence

def walk (crc : Crc) (fs : Filesystem) (jsb : JournalSuperblock) : DevIo ReplayPlan := do
  if jsb.isClean then return {}
  if jsb.unsupportedIncompat ≠ 0 then
    .fail (.unsupported "journal declares an incompat feature this driver cannot replay")
  else match jsb.checksumDeclarationError with
  | some why => .fail (.corrupt why)
  | none =>
    if jsb.blockSize.toNat ≠ fs.sb.blockSize then
      .fail (.corrupt "journal block size differs from the filesystem's")
    else if jsb.first = 0 ∨ jsb.maxLen ≤ jsb.first ∨ jsb.start < jsb.first ∨
        jsb.maxLen ≤ jsb.start then
      .fail (.corrupt "invalid journal geometry")
    else
      let jinode ← fs.journalInode
      let limit := jsb.maxLen.toNat - jsb.first.toNat
      let st ← walkLoop crc jsb (readJournalBlock fs jinode jsb.blockSize.toNat) limit limit
        (WalkState.start jsb)
      return st.plan.filterRevoked

end FsExt4.Journal
