import FsExt4.JournalWalk

namespace FsExt4.Journal

open Lib Jbd2

/-- The log holds the blocks at consecutive ring positions from `cur`. -/
def Holds (jsb : JournalSuperblock) (log : Nat → Bytes) (cur : Nat) (blocks : List Bytes) : Prop :=
  ∀ i b, blocks[i]? = some b → log (advance cur i jsb) = b

section Holds

variable {jsb : JournalSuperblock} {log : Nat → Bytes} {cur : Nat}

theorem holds_cons (hcur : InRing jsb cur) (b : Bytes) (rest : List Bytes) :
    Holds jsb log cur (b :: rest) ↔ log cur = b ∧ Holds jsb log (advance cur 1 jsb) rest := by
  constructor
  · intro h
    refine ⟨?_, ?_⟩
    · have h0 := h 0 b rfl
      rwa [advance_zero hcur] at h0
    · intro i c hc
      rw [advance_advance hcur, Nat.add_comm]
      exact h (i + 1) c (by simpa using hc)
  · rintro ⟨h0, hr⟩ i c hc
    cases i with
    | zero =>
      rw [advance_zero hcur, h0]
      simpa using hc
    | succ i =>
      have hri := hr i c (by simpa using hc)
      rwa [advance_advance hcur, Nat.add_comm] at hri

theorem holds_append (hcur : InRing jsb cur) (as bs : List Bytes) :
    Holds jsb log cur (as ++ bs) ↔
      Holds jsb log cur as ∧ Holds jsb log (advance cur as.length jsb) bs := by
  induction as generalizing cur with
  | nil =>
    rw [List.nil_append, List.length_nil, advance_zero hcur]
    constructor
    · intro h
      exact ⟨by simp [Holds], h⟩
    · exact And.right
  | cons a as ih =>
    have hn := ih (advance_inRing hcur 1)
    rw [advance_advance hcur] at hn
    have hlen : 1 + as.length = (a :: as).length := by simp [Nat.add_comm]
    rw [hlen] at hn
    rw [List.cons_append, holds_cons hcur, holds_cons hcur, hn, and_assoc]

end Holds

/-- One tag of a descriptor block, without the position of its data block. -/
structure LogTag where
  fsBlock : UInt64
  flags : UInt32
  checksum : UInt32

def LogTag.content (tag : LogTag) (data : Bytes) : Bytes :=
  if hasFlag tag.flags tagEscaped then copyAt data 0 (u32be magicNumber) else data

/-- A descriptor block with its data blocks, or a revoke block. -/
inductive LogRecord where
  | descriptor (block : Bytes) (tags : List LogTag) (data : List Bytes)
  | revoke (block : Bytes) (revoked : List UInt64)

def place (jsb : JournalSuperblock) (sequence : UInt32) : Nat → List LogTag →
    List (ReplayEntry × UInt32)
  | _, [] => []
  | cur, tag :: rest =>
    (⟨sequence, tag.fsBlock, advance cur 1 jsb, tag.flags⟩, tag.checksum) ::
      place jsb sequence (advance cur 1 jsb) rest

namespace LogRecord

def blocks : LogRecord → List Bytes
  | descriptor block _ data => block :: data
  | revoke block _ => [block]

/-- The record is what the walk takes it for: header, tail, tags and data checksums agree. -/
def Intact (crc : Crc) (jsb : JournalSuperblock) (sequence : UInt32) : LogRecord → Prop
  | descriptor block tags data =>
    tryParseHeader block = some ⟨descriptorBlock, sequence⟩ ∧ torn crc jsb block = false ∧
      tags.length = data.length ∧
      (∀ cur, InRing jsb cur → parseDescriptorTags jsb block cur sequence =
        .ok (place jsb sequence cur tags, advance cur tags.length jsb)) ∧
      ∀ seed, jsb.seed crc = some seed → ∀ p ∈ tags.zip data,
        storedChecksum jsb (tagChecksum crc seed sequence p.2) = p.1.checksum
  | revoke block revoked =>
    tryParseHeader block = some ⟨revokeBlock, sequence⟩ ∧ torn crc jsb block = false ∧
      parseRevokeBlock jsb block sequence = .ok (revoked.map (⟨sequence, ·⟩))

def writes : LogRecord → List (UInt64 × Bytes)
  | descriptor _ tags data => (tags.zip data).map (fun p => (p.1.fsBlock, p.1.content p.2))
  | revoke _ _ => []

def revokes : LogRecord → List UInt64
  | descriptor _ _ _ => []
  | revoke _ revoked => revoked

def entries (jsb : JournalSuperblock) (sequence : UInt32) (cur : Nat) : LogRecord → List ReplayEntry
  | descriptor _ tags _ => (place jsb sequence cur tags).map Prod.fst
  | revoke _ _ => []

end LogRecord

/-- A transaction in the log: its records, then its commit block. -/
structure LogTransaction where
  records : List LogRecord
  commit : Bytes

namespace LogTransaction

def blocks (t : LogTransaction) : List Bytes := t.records.flatMap LogRecord.blocks ++ [t.commit]

/-- Every record is intact and the commit block closes them. -/
structure Committed (crc : Crc) (jsb : JournalSuperblock) (sequence : UInt32)
    (t : LogTransaction) : Prop where
  records : ∀ r ∈ t.records, r.Intact crc jsb sequence
  header : tryParseHeader t.commit = some ⟨commitBlock, sequence⟩
  sound : commitTorn crc jsb t.commit = false

def writes (t : LogTransaction) : List (UInt64 × Bytes) := t.records.flatMap LogRecord.writes

def revokes (t : LogTransaction) : List UInt64 := t.records.flatMap LogRecord.revokes

end LogTransaction

def recordEntries (jsb : JournalSuperblock) (sequence : UInt32) :
    Nat → List LogRecord → List ReplayEntry
  | _, [] => []
  | cur, r :: rest => r.entries jsb sequence cur ++
      recordEntries jsb sequence (advance cur r.blocks.length jsb) rest

section Scan

variable {crc : Crc} {jsb : JournalSuperblock} {log : Nat → Bytes}

@[simp] theorem length_place (sequence : UInt32) (cur : Nat) (tags : List LogTag) :
    (place jsb sequence cur tags).length = tags.length := by
  induction tags generalizing cur with
  | nil => rfl
  | cons tag rest ih => simp [place, ih]

theorem foldl_checkTag_clean (tags : List (ReplayEntry × UInt32)) (st : WalkState)
    (h : ∀ tag ∈ tags, dataCorrupt crc jsb log st.expectSeq tag = false) :
    tags.foldl (checkTag crc jsb log) st =
      { st with pendingWrites := st.pendingWrites ++ tags.map Prod.fst } := by
  induction tags generalizing st with
  | nil => simp
  | cons tag rest ih =>
    have hst : checkTag crc jsb log st tag =
        { st with pendingWrites := st.pendingWrites ++ [tag.1] } := by
      simp [checkTag, h tag List.mem_cons_self]
    rw [List.foldl_cons, hst, ih]
    · simp
    · exact fun t ht => h t (List.mem_cons_of_mem _ ht)

theorem place_sound (sequence : UInt32) (cur : Nat) (hcur : InRing jsb cur) (tags : List LogTag)
    (data : List Bytes) (hl : tags.length = data.length)
    (hlog : Holds jsb log (advance cur 1 jsb) data)
    (hsum : ∀ seed, jsb.seed crc = some seed → ∀ p ∈ tags.zip data,
      storedChecksum jsb (tagChecksum crc seed sequence p.2) = p.1.checksum) :
    ∀ tag ∈ place jsb sequence cur tags, dataCorrupt crc jsb log sequence tag = false := by
  induction tags generalizing cur data with
  | nil => simp [place]
  | cons tag rest ih =>
    cases data with
    | nil => simp at hl
    | cons b data =>
      obtain ⟨h0, hr⟩ := (holds_cons (advance_inRing hcur 1) b data).mp hlog
      intro t ht
      rw [place, List.mem_cons] at ht
      obtain rfl | ht := ht
      · unfold dataCorrupt
        cases hs : jsb.seed crc with
        | none => rfl
        | some seed =>
          have hp := hsum seed hs (tag, b) (by simp)
          simp [h0, hp]
      · exact ih (advance cur 1 jsb) (advance_inRing hcur 1) data (by simpa using hl) hr
          (fun seed hs p hp => hsum seed hs p (by simp [hp])) t ht

def WalkState.record (jsb : JournalSuperblock) (st : WalkState) (r : LogRecord) : WalkState :=
  { st with
    plan := { st.plan with blocksWalked := st.plan.blocksWalked + r.blocks.length }
    pendingWrites := st.pendingWrites ++ r.entries jsb st.expectSeq st.cur
    pendingRevokes := st.pendingRevokes ++ r.revokes.map (⟨st.expectSeq, ·⟩)
    cur := advance st.cur r.blocks.length jsb }

theorem turn_record (limit : Nat) (st : WalkState) (r : LogRecord) (hcur : InRing jsb st.cur)
    (hr : r.Intact crc jsb st.expectSeq) (hlog : Holds jsb log st.cur r.blocks)
    (hfit : st.plan.blocksWalked + r.blocks.length ≤ limit) :
    GoesRound crc jsb log limit st (st.record jsb r) := by
  cases r with
  | descriptor block tags data =>
    obtain ⟨hh, ht, hl, hp, hsum⟩ := hr
    obtain ⟨hb, hdata⟩ := (holds_cons hcur block data).mp hlog
    have hlen : (LogRecord.descriptor block tags data).blocks.length = tags.length + 1 := by
      simp [LogRecord.blocks, hl]
    rw [hlen] at hfit
    have harm : scanArm crc jsb log limit descriptorBlock block st.counted =
        .ok (some { st.counted with
          plan := { st.counted.plan with
            blocksWalked := st.counted.plan.blocksWalked + tags.length }
          pendingWrites := st.pendingWrites ++ (place jsb st.expectSeq st.cur tags).map Prod.fst
          cur := advance st.cur tags.length jsb }) := by
      have hp' := hp st.cur hcur
      have hpc : parseDescriptorTags jsb block st.counted.cur st.counted.expectSeq =
          .ok (place jsb st.expectSeq st.cur tags, advance st.cur tags.length jsb) := hp'
      have hwalk : ¬ limit < st.counted.plan.blocksWalked + tags.length := by
        have : st.counted.plan.blocksWalked = st.plan.blocksWalked + 1 := rfl
        omega
      rw [scanArm, if_pos rfl, scanDescriptor, hpc]
      simp only [ht, length_place, WalkState.noteTorn, Bool.false_eq_true, if_false]
      rw [if_neg hwalk, foldl_checkTag_clean]
      · rfl
      · exact place_sound st.expectSeq st.cur hcur tags data hl hdata hsum
    refine ⟨by omega, ?_⟩
    rw [scanStep, hb, hh]
    simp only [ne_eq, WalkState.counted] at harm ⊢
    simp only [not_true_eq_false, if_false, harm]
    congr 1
    simp only [WalkState.record, hlen, LogRecord.entries, LogRecord.revokes, List.map_nil,
      List.append_nil, advance_advance hcur]
    congr 3
    omega
  | revoke block revoked =>
    obtain ⟨hh, ht, hp⟩ := hr
    obtain ⟨hb, -⟩ := (holds_cons hcur block []).mp hlog
    have hlen : (LogRecord.revoke block revoked).blocks.length = 1 := rfl
    rw [hlen] at hfit
    have harm : scanArm crc jsb log limit revokeBlock block st.counted =
        .ok (some { st.counted with
          pendingRevokes := st.pendingRevokes ++ revoked.map (⟨st.expectSeq, ·⟩) }) := by
      have hpc : parseRevokeBlock jsb block st.counted.expectSeq =
          .ok (revoked.map (⟨st.expectSeq, ·⟩)) := hp
      rw [scanArm, if_neg (by decide), if_neg (by decide), if_pos rfl, walkRevoke, ht]
      simp only [WalkState.noteTorn, Bool.false_eq_true, if_false, hpc]
      rfl
    refine ⟨by omega, ?_⟩
    rw [scanStep, hb, hh]
    simp only [ne_eq, WalkState.counted] at harm ⊢
    simp only [not_true_eq_false, if_false, harm]
    simp [WalkState.record, hlen, LogRecord.entries, LogRecord.revokes]

theorem foldl_record (records : List LogRecord) (st : WalkState) (hcur : InRing jsb st.cur) :
    records.foldl (WalkState.record jsb) st =
      { st with
        plan := { st.plan with
          blocksWalked := st.plan.blocksWalked + (records.flatMap LogRecord.blocks).length }
        pendingWrites := st.pendingWrites ++ recordEntries jsb st.expectSeq st.cur records
        pendingRevokes := st.pendingRevokes ++
          (records.flatMap LogRecord.revokes).map (⟨st.expectSeq, ·⟩)
        cur := advance st.cur (records.flatMap LogRecord.blocks).length jsb } := by
  induction records generalizing st with
  | nil => simp [recordEntries, advance_zero hcur]
  | cons r rest ih =>
    have hcur' : InRing jsb (st.record jsb r).cur := advance_inRing hcur _
    rw [List.foldl_cons, ih _ hcur']
    simp only [WalkState.record, recordEntries, List.flatMap_cons, List.length_append,
      List.map_append, List.append_assoc, advance_advance hcur, Nat.add_assoc]

theorem turns_records (limit : Nat) (records : List LogRecord) (st : WalkState)
    (hcur : InRing jsb st.cur) (hr : ∀ r ∈ records, r.Intact crc jsb st.expectSeq)
    (hlog : Holds jsb log st.cur (records.flatMap LogRecord.blocks))
    (hfit : st.plan.blocksWalked + (records.flatMap LogRecord.blocks).length ≤ limit) :
    Relation.ReflTransGen (GoesRound crc jsb log limit) st
      (records.foldl (WalkState.record jsb) st) := by
  induction records generalizing st with
  | nil => exact .refl
  | cons r rest ih =>
    rw [List.flatMap_cons, holds_append hcur] at hlog
    rw [List.flatMap_cons, List.length_append] at hfit
    rw [List.foldl_cons]
    refine .head (turn_record limit st r hcur (hr r List.mem_cons_self) hlog.1 (by omega)) ?_
    apply ih
    · exact advance_inRing hcur _
    · exact fun r' h' => hr r' (List.mem_cons_of_mem _ h')
    · exact hlog.2
    · change st.plan.blocksWalked + r.blocks.length + _ ≤ limit
      omega

/-- The walk's state after a committed transaction it had nothing open before. -/
def WalkState.transaction (jsb : JournalSuperblock) (st : WalkState) (t : LogTransaction) :
    WalkState :=
  { st with
    plan := { st.plan with
      writes := st.plan.writes ++ recordEntries jsb st.expectSeq st.cur t.records
      revokes := st.plan.revokes ++ t.revokes.map (⟨st.expectSeq, ·⟩)
      lastCommit := st.expectSeq
      nextSequence := some (st.expectSeq + 1)
      blocksWalked := st.plan.blocksWalked + t.blocks.length }
    cur := advance st.cur t.blocks.length jsb
    expectSeq := st.expectSeq + 1 }

structure WalkState.Closed (st : WalkState) : Prop where
  writes : st.pendingWrites = []
  revokes : st.pendingRevokes = []
  corrupt : st.pendingCorrupt = none

theorem turns_transaction (limit : Nat) (st : WalkState) (t : LogTransaction)
    (hcur : InRing jsb st.cur) (hclosed : st.Closed) (ht : t.Committed crc jsb st.expectSeq)
    (hlog : Holds jsb log st.cur t.blocks)
    (hfit : st.plan.blocksWalked + t.blocks.length ≤ limit) :
    Relation.ReflTransGen (GoesRound crc jsb log limit) st (st.transaction jsb t) := by
  have hlen : t.blocks.length = (t.records.flatMap LogRecord.blocks).length + 1 := by
    simp [LogTransaction.blocks]
  rw [LogTransaction.blocks, holds_append hcur] at hlog
  have hrecords := turns_records limit t.records st hcur ht.records hlog.1 (by omega)
  rw [foldl_record t.records st hcur, hclosed.writes, hclosed.revokes, List.nil_append,
    List.nil_append] at hrecords
  have hcur' := advance_inRing hcur (t.records.flatMap LogRecord.blocks).length
  obtain ⟨hc, -⟩ := (holds_cons hcur' t.commit []).mp hlog.2
  refine hrecords.tail ⟨by dsimp only; omega, ?_⟩
  rw [scanStep]
  dsimp only
  rw [hc, ht.header]
  simp only [WalkState.counted, ne_eq, not_true_eq_false, if_false]
  rw [scanArm, if_neg (by decide), if_pos rfl, walkCommit, ht.sound]
  simp only [hclosed.corrupt, Bool.false_eq_true, if_false]
  congr 1
  simp only [WalkState.commit, WalkState.transaction, hlen, advance_advance hcur, hclosed.writes,
    hclosed.revokes, hclosed.corrupt, LogTransaction.revokes, Nat.add_assoc]

theorem WalkState.Closed.transaction {st : WalkState} (h : st.Closed) (t : LogTransaction) :
    (st.transaction jsb t).Closed := ⟨h.writes, h.revokes, h.corrupt⟩

/-- The transactions are committed one after another from sequence `sequence` on. -/
def AllCommitted (crc : Crc) (jsb : JournalSuperblock) : UInt32 → List LogTransaction → Prop
  | _, [] => True
  | sequence, t :: rest => t.Committed crc jsb sequence ∧ AllCommitted crc jsb (sequence + 1) rest

def logBlocks (ts : List LogTransaction) : List Bytes := ts.flatMap LogTransaction.blocks

theorem turns_transactions (limit : Nat) (ts : List LogTransaction) (st : WalkState)
    (hcur : InRing jsb st.cur) (hclosed : st.Closed) (ht : AllCommitted crc jsb st.expectSeq ts)
    (hlog : Holds jsb log st.cur (logBlocks ts))
    (hfit : st.plan.blocksWalked + (logBlocks ts).length ≤ limit) :
    Relation.ReflTransGen (GoesRound crc jsb log limit) st
      (ts.foldl (WalkState.transaction jsb) st) := by
  induction ts generalizing st with
  | nil => exact .refl
  | cons t rest ih =>
    obtain ⟨h1, h2⟩ := ht
    unfold logBlocks at hlog hfit
    rw [List.flatMap_cons, holds_append hcur] at hlog
    rw [List.flatMap_cons, List.length_append] at hfit
    rw [List.foldl_cons]
    refine (turns_transaction limit st t hcur hclosed h1 hlog.1 (by omega)).trans ?_
    apply ih
    · exact advance_inRing hcur _
    · exact hclosed.transaction t
    · exact h2
    · exact hlog.2
    · change st.plan.blocksWalked + t.blocks.length + _ ≤ limit
      unfold logBlocks
      omega

def logEntries (jsb : JournalSuperblock) : UInt32 → Nat → List LogTransaction → List ReplayEntry
  | _, _, [] => []
  | sequence, cur, t :: rest => recordEntries jsb sequence cur t.records ++
      logEntries jsb (sequence + 1) (advance cur t.blocks.length jsb) rest

def logRevokes : UInt32 → List LogTransaction → List RevokeEntry
  | _, [] => []
  | sequence, t :: rest => t.revokes.map (⟨sequence, ·⟩) ++ logRevokes (sequence + 1) rest

def sequenceAfterAll : UInt32 → List LogTransaction → UInt32
  | sequence, [] => sequence
  | sequence, _ :: rest => sequenceAfterAll (sequence + 1) rest

theorem foldl_transaction (ts : List LogTransaction) (st : WalkState) (hcur : InRing jsb st.cur) :
    (ts.foldl (WalkState.transaction jsb) st).plan.writes =
      st.plan.writes ++ logEntries jsb st.expectSeq st.cur ts ∧
    (ts.foldl (WalkState.transaction jsb) st).plan.revokes =
      st.plan.revokes ++ logRevokes st.expectSeq ts ∧
    (ts.foldl (WalkState.transaction jsb) st).plan.nextSequence =
      (if ts = [] then st.plan.nextSequence else some (sequenceAfterAll st.expectSeq ts)) ∧
    (ts.foldl (WalkState.transaction jsb) st).plan.blocksWalked =
      st.plan.blocksWalked + (logBlocks ts).length ∧
    (ts.foldl (WalkState.transaction jsb) st).cur = advance st.cur (logBlocks ts).length jsb ∧
    (ts.foldl (WalkState.transaction jsb) st).expectSeq = sequenceAfterAll st.expectSeq ts := by
  induction ts generalizing st with
  | nil => simp [logEntries, logRevokes, logBlocks, sequenceAfterAll, advance_zero hcur]
  | cons t rest ih =>
    have hcur' : InRing jsb (st.transaction jsb t).cur := advance_inRing hcur _
    obtain ⟨h1, h2, h3, h4, h5, h6⟩ := ih (st.transaction jsb t) hcur'
    rw [List.foldl_cons, h1, h2, h3, h4, h5, h6]
    have hblocks : logBlocks (t :: rest) = t.blocks ++ logBlocks rest := rfl
    refine ⟨?_, ?_, ?_, ?_, ?_, rfl⟩
    · simp [WalkState.transaction, logEntries]
    · simp [WalkState.transaction, logRevokes]
    · cases rest with
      | nil => rfl
      | cons t' rest => rfl
    · rw [hblocks, List.length_append]
      simp only [WalkState.transaction]
      omega
    · rw [hblocks, List.length_append]
      simp only [WalkState.transaction, advance_advance hcur]

theorem place_positions (sequence : UInt32) {cur : Nat} (hcur : InRing jsb cur)
    (tags : List LogTag) :
    (place jsb sequence cur tags).map (·.1.journalBlock) = positionsAfter jsb cur tags.length := by
  induction tags generalizing cur with
  | nil => rfl
  | cons tag rest ih =>
    rw [place, List.map_cons, ih (advance_inRing hcur 1), List.length_cons,
      positionsAfter_succ hcur]

theorem entries_positions {sequence : UInt32} {cur : Nat} (hcur : InRing jsb cur) {r : LogRecord}
    (hr : r.Intact crc jsb sequence) : ∀ e ∈ r.entries jsb sequence cur, ∃ i < r.blocks.length,
      e.journalBlock = advance cur i jsb := by
  intro e he
  cases r with
  | descriptor block tags data =>
    have hlen : tags.length = data.length := hr.2.2.1
    obtain ⟨p, hp, rfl⟩ := List.mem_map.mp he
    have hmem : p.1.journalBlock ∈ positionsAfter jsb cur tags.length := by
      rw [← place_positions sequence hcur tags]
      exact List.mem_map_of_mem hp
    obtain ⟨i, hi, heq⟩ := List.mem_map.mp hmem
    refine ⟨i + 1, ?_, heq.symm⟩
    have := List.mem_range.mp hi
    simp only [LogRecord.blocks, List.length_cons]
    omega
  | revoke block revoked => cases he

theorem recordEntries_positions {sequence : UInt32} {cur : Nat} (hcur : InRing jsb cur)
    {records : List LogRecord} (hr : ∀ r ∈ records, r.Intact crc jsb sequence) :
    ∀ e ∈ recordEntries jsb sequence cur records, ∃ i < (records.flatMap LogRecord.blocks).length,
      e.journalBlock = advance cur i jsb := by
  induction records generalizing cur with
  | nil => nofun
  | cons r rest ih =>
    intro e he
    rw [recordEntries] at he
    rw [List.flatMap_cons, List.length_append]
    obtain he | he := List.mem_append.mp he
    · obtain ⟨i, hi, heq⟩ := entries_positions hcur (hr r List.mem_cons_self) e he
      exact ⟨i, by omega, heq⟩
    · obtain ⟨i, hi, heq⟩ := ih (advance_inRing hcur _)
        (fun r' h' => hr r' (List.mem_cons_of_mem _ h')) e he
      exact ⟨r.blocks.length + i, by omega, by rw [heq, advance_advance hcur]⟩

/-- The state with these writes and revokes in its plan before its own. -/
def WalkState.behind (ws : List ReplayEntry) (rs : List RevokeEntry) (st : WalkState) : WalkState :=
  { st with plan := { st.plan with writes := ws ++ st.plan.writes, revokes :=
    rs ++ st.plan.revokes } }

section Behind

variable (ws : List ReplayEntry) (rs : List RevokeEntry)

theorem foldl_checkTag_behind (tags : List (ReplayEntry × UInt32)) (st : WalkState) :
    tags.foldl (checkTag crc jsb log) (st.behind ws rs) =
      (tags.foldl (checkTag crc jsb log) st).behind ws rs := by
  induction tags generalizing st with
  | nil => rfl
  | cons tag rest ih =>
    have htag : checkTag crc jsb log (st.behind ws rs) tag =
        (checkTag crc jsb log st tag).behind ws rs := by
      unfold checkTag WalkState.behind
      dsimp only
      split <;> rfl
    rw [List.foldl_cons, htag, ih, List.foldl_cons]

theorem noteTorn_behind (st : WalkState) (t : Bool) (what : String) :
    (st.behind ws rs).noteTorn t what = (st.noteTorn t what).behind ws rs := by
  cases t <;> rfl

theorem scanDescriptor_behind (limit : Nat) (block : Bytes) (st : WalkState) :
    scanDescriptor crc jsb log limit block (st.behind ws rs) =
      (scanDescriptor crc jsb log limit block st).map (Option.map (WalkState.behind ws rs)) := by
  have hparse : parseDescriptorTags jsb block (st.behind ws rs).cur (st.behind ws rs).expectSeq =
      parseDescriptorTags jsb block st.cur st.expectSeq := rfl
  unfold scanDescriptor
  rw [hparse, noteTorn_behind]
  cases parseDescriptorTags jsb block st.cur st.expectSeq with
  | error e =>
    dsimp only
    split <;> rfl
  | ok r =>
    obtain ⟨tags, cur⟩ := r
    have hwalked : (st.behind ws rs).plan.blocksWalked = st.plan.blocksWalked := rfl
    dsimp only
    rw [hwalked]
    split
    · rfl
    · generalize st.noteTorn (torn crc jsb block) _ = noted
      exact congrArg (fun st => Except.ok (some st)) (foldl_checkTag_behind ws rs tags
        { noted with
          cur := cur
          plan := { noted.plan with blocksWalked := st.plan.blocksWalked + tags.length } })

theorem scanArm_behind (limit : Nat) (blockType : UInt32) (block : Bytes) (st : WalkState) :
    scanArm crc jsb log limit blockType block (st.behind ws rs) =
      (scanArm crc jsb log limit blockType block st).map (Option.map (WalkState.behind ws rs)) := by
  unfold scanArm
  split
  · exact scanDescriptor_behind ws rs limit block st
  split
  · have hcorrupt : (st.behind ws rs).pendingCorrupt = st.pendingCorrupt := rfl
    have hcommit : (st.behind ws rs).commit = st.commit.behind ws rs := by
      simp only [WalkState.commit, WalkState.behind, List.append_assoc]
    unfold walkCommit
    rw [hcorrupt, hcommit]
    split
    · rfl
    · cases st.pendingCorrupt <;> rfl
  split
  · have hseq : ((st.noteTorn (torn crc jsb block)
      "journal revoke block of a committed transaction").behind
        ws rs).expectSeq = st.expectSeq := noteTorn_expectSeq _ _ _
    unfold walkRevoke
    rw [noteTorn_behind]
    dsimp only
    rw [hseq, noteTorn_expectSeq]
    cases parseRevokeBlock jsb block st.expectSeq <;> rfl
  · rfl

theorem scanStep_behind (limit : Nat) (st : WalkState) :
    scanStep crc jsb log limit (st.behind ws rs) =
      (scanStep crc jsb log limit st).map (fun r => (r.1.behind ws rs, r.2)) := by
  have hcur : (st.behind ws rs).cur = st.cur := rfl
  have hcounted : (st.behind ws rs).counted = st.counted.behind ws rs := rfl
  have hseq : (st.counted.behind ws rs).expectSeq = st.counted.expectSeq := rfl
  unfold scanStep
  rw [hcur, hcounted]
  dsimp only
  cases tryParseHeader (log st.cur) with
  | none => rfl
  | some hdr =>
    dsimp only
    rw [hseq, scanArm_behind]
    split
    · rfl
    · cases scanArm crc jsb log limit hdr.blockType (log st.cur) st.counted with
      | error e => rfl
      | ok next => cases next <;> rfl

theorem scanLoop_behind (limit fuel : Nat) (st : WalkState) :
    scanLoop crc jsb log limit fuel (st.behind ws rs) =
      (scanLoop crc jsb log limit fuel st).map (WalkState.behind ws rs) ∧
    loopReads crc jsb log limit fuel (st.behind ws rs) = loopReads crc jsb log limit fuel st := by
  induction fuel generalizing st with
  | zero => exact ⟨rfl, rfl⟩
  | succ fuel ih =>
    have hreads : stepReads crc jsb log limit (st.behind ws rs) = stepReads crc jsb log limit st :=
      rfl
    have hwalked' : (st.behind ws rs).plan.blocksWalked = st.plan.blocksWalked := rfl
    rw [scanLoop, scanLoop, loopReads, loopReads, hreads, scanStep_behind, hwalked']
    by_cases hwalked : st.plan.blocksWalked < limit
    · rw [if_pos hwalked, if_pos hwalked, if_pos hwalked, if_pos hwalked]
      cases scanStep crc jsb log limit st with
      | error e => exact ⟨rfl, rfl⟩
      | ok r =>
        obtain ⟨st', more⟩ := r
        cases more with
        | false => exact ⟨rfl, rfl⟩
        | true => exact ⟨(ih st').1, congrArg (_ ++ ·) (ih st').2⟩
    · rw [if_neg hwalked, if_neg hwalked, if_neg hwalked, if_neg hwalked]
      exact ⟨rfl, rfl⟩

end Behind

def NoHeader (log : Nat → Bytes) (cur : Nat) (sequence : UInt32) : Prop :=
  ∀ hdr, tryParseHeader (log cur) = some hdr → hdr.sequence ≠ sequence

theorem scan_end (limit : Nat) (st : WalkState) (hcur : InRing jsb st.cur)
    (h : st.plan.blocksWalked < limit → NoHeader log st.cur st.expectSeq) :
    ∃ st', scan crc jsb log limit st = .ok st' ∧ st'.plan.writes = st.plan.writes ∧
      st'.plan.revokes = st.plan.revokes ∧ st'.plan.nextSequence = st.plan.nextSequence := by
  by_cases hw : st.plan.blocksWalked < limit
  · have hn := h hw
    rw [scan_step limit st hcur hw, scanStep]
    cases hh : tryParseHeader (log st.cur) with
    | none => exact ⟨st.counted, rfl, rfl, rfl, rfl⟩
    | some hdr =>
      have hne : hdr.sequence ≠ st.counted.expectSeq := hn hdr hh
      dsimp only
      rw [if_pos hne]
      exact ⟨st.counted, rfl, rfl, rfl, rfl⟩
  · exact ⟨st, scan_done limit st (Nat.le_of_not_lt hw), rfl, rfl, rfl⟩

theorem scanReads_end (limit : Nat) (st : WalkState) (h : st.plan.blocksWalked < limit →
    NoHeader log st.cur st.expectSeq) :
    ∀ j ∈ scanReads crc jsb log limit st, st.plan.blocksWalked < limit ∧ j = st.cur := by
  intro j hj
  unfold scanReads at hj
  by_cases hw : st.plan.blocksWalked < limit
  · obtain ⟨fuel, hfuel⟩ : ∃ fuel, limit - st.plan.blocksWalked = fuel + 1 :=
      ⟨limit - st.plan.blocksWalked - 1, by omega⟩
    have hn := h hw
    rw [hfuel, loopReads, if_pos hw, stepReads, scanStep] at hj
    refine ⟨hw, ?_⟩
    cases hh : tryParseHeader (log st.cur) with
    | none =>
      rw [hh] at hj
      simpa using hj
    | some hdr =>
      have hne : hdr.sequence ≠ st.counted.expectSeq := hn hdr hh
      have hnot : ¬ (hdr.sequence = st.expectSeq ∧ hdr.blockType = descriptorBlock) :=
        fun hc => hne hc.1
      rw [hh] at hj
      dsimp only at hj
      rw [if_neg hnot, if_pos hne] at hj
      simpa using hj
  · rw [Nat.sub_eq_zero_of_le (Nat.le_of_not_lt hw)] at hj
    cases hj

theorem scan_log (ts : List LogTransaction) (hg : Geometry jsb)
    (ht : AllCommitted crc jsb jsb.sequence ts)
    (hlog : Holds jsb log jsb.start.toNat (logBlocks ts))
    (hfit : (logBlocks ts).length ≤ capacity jsb)
    (hend : (logBlocks ts).length < capacity jsb →
      NoHeader log (advance jsb.start.toNat (logBlocks ts).length jsb)
        (sequenceAfterAll jsb.sequence ts)) :
    ∃ st, scan crc jsb log (capacity jsb) (WalkState.start jsb) = .ok st ∧
      st.plan.writes = logEntries jsb jsb.sequence jsb.start.toNat ts ∧
      st.plan.revokes = logRevokes jsb.sequence ts ∧
      st.plan.nextSequence = if ts = [] then none else some (sequenceAfterAll jsb.sequence ts) := by
  have hcur : InRing jsb (WalkState.start jsb).cur := hg.start_inRing
  obtain ⟨h1, h2, h3, h4, h5, h6⟩ := foldl_transaction ts (WalkState.start jsb) hcur
  have hrun := scan_of_turns hcur <| turns_transactions (capacity jsb) ts (WalkState.start jsb) hcur
    ⟨rfl, rfl, rfl⟩ ht hlog (by simpa [WalkState.start] using hfit)
  have hcur' : InRing jsb (ts.foldl (WalkState.transaction jsb) (WalkState.start jsb)).cur := by
    rw [h5]
    exact advance_inRing hcur _
  have hend' : (ts.foldl (WalkState.transaction jsb) (WalkState.start jsb)).plan.blocksWalked <
      capacity jsb → NoHeader log
        (ts.foldl (WalkState.transaction jsb) (WalkState.start jsb)).cur
        (ts.foldl (WalkState.transaction jsb) (WalkState.start jsb)).expectSeq := by
    rw [h4, h5, h6]
    intro hlt
    exact hend (by simpa [WalkState.start] using hlt)
  obtain ⟨st, hs, hw, hr, hn⟩ := @scan_end crc jsb log (capacity jsb) _ hcur' hend'
  refine ⟨st, hrun.trans hs, ?_, ?_, ?_⟩
  · rw [hw, h1]
    simp [WalkState.start]
  · rw [hr, h2]
    simp [WalkState.start]
  · rw [hn, h3]
    rfl

end Scan

/-- The blocks laid from ring position `start` on, round the end of the journal. -/
def ringLog (start : Nat) (blocks : List Bytes) (j : Nat) : Bytes :=
  blocks.getD ((j + 7 - start) % 7) (List.replicate 1024 0)

theorem ringLog_length (start : Nat) (blocks : List Bytes) (h : ∀ b ∈ blocks, b.length = 1024)
    (j : Nat) : (ringLog start blocks j).length = 1024 := by
  unfold ringLog
  by_cases hj : (j + 7 - start) % 7 < blocks.length
  · rw [List.getD_eq_getElem _ _ hj]
    exact h _ (List.getElem_mem hj)
  · rw [List.getD_eq_default _ _ (by omega), List.length_replicate]

theorem smallJsb_advance (features start sequence : UInt32) (cur n : Nat) :
    advance cur n (smallJsb features start sequence) = 1 + (cur - 1 + n) % 7 := rfl

theorem ringLog_holds (features start sequence : UInt32) (blocks : List Bytes)
    (hs : 1 ≤ start.toNat ∧ start.toNat ≤ 7) (hl : blocks.length ≤ 7) :
    Holds (smallJsb features start sequence) (ringLog start.toNat blocks) start.toNat blocks := by
  intro i b hb
  have hi : i < blocks.length := (List.getElem?_eq_some_iff.mp hb).1
  have hidx : (1 + (start.toNat - 1 + i) % 7 + 7 - start.toNat) % 7 = i := by omega
  rw [smallJsb_advance, ringLog, hidx, List.getD_eq_getElem?_getD, hb]
  rfl

theorem ringLog_ends (features start sequence : UInt32) (blocks : List Bytes) (next : UInt32)
    (hs : 1 ≤ start.toNat ∧ start.toNat ≤ 7) (hl : blocks.length < 7) :
    NoHeader (ringLog start.toNat blocks)
      (advance start.toNat blocks.length (smallJsb features start sequence)) next := by
  have hidx : (1 + (start.toNat - 1 + blocks.length) % 7 + 7 - start.toNat) % 7 =
      blocks.length := by omega
  have hnone : tryParseHeader (List.replicate 1024 0) = none := by decide +kernel
  intro hdr hh
  rw [smallJsb_advance, ringLog, hidx, List.getD_eq_default _ _ (Nat.le_refl _), hnone] at hh
  exact absurd hh (by simp)

end FsExt4.Journal
