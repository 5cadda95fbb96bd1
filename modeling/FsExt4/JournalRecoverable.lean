import FsExt4.JournalCommit
import Mathlib.Data.List.Nodup

namespace FsExt4

open Lib Jbd2

namespace Journal

section Fixed

variable (crc : Crc) (jsb : JournalSuperblock) (log : Nat → Bytes)

theorem parseDescriptorTags_fixed : parseDescriptorTags jsb.fixed = parseDescriptorTags jsb := by
  have htags : ∀ block transaction fuel,
      parseTags jsb.fixed block transaction fuel = parseTags jsb block transaction fuel := by
    intro block transaction fuel
    induction fuel with
    | zero => rfl
    | succ fuel ih =>
      funext pos cur
      unfold parseTags
      rw [ih]
      rfl
  funext block cur transaction
  exact congrFun (congrFun (htags block transaction (block.length + 1)) 12) cur

theorem parseRevokeBlock_fixed : parseRevokeBlock jsb.fixed = parseRevokeBlock jsb := by
  have hrecords : ∀ block transaction stop fuel,
      parseRecords jsb.fixed block transaction stop fuel = parseRecords jsb block transaction
        stop fuel := by
    intro block transaction stop fuel
    induction fuel with
    | zero => rfl
    | succ fuel ih =>
      funext pos
      unfold parseRecords
      rw [ih]
      rfl
  funext block transaction
  unfold parseRevokeBlock
  dsimp only
  rw [hrecords]
  rfl

theorem scanStep_fixed : scanStep crc jsb.fixed log = scanStep crc jsb log := by
  funext limit st
  unfold scanStep scanArm scanDescriptor walkRevoke
  rw [parseDescriptorTags_fixed, parseRevokeBlock_fixed]
  rfl

theorem scan_fixed (limit : Nat) (st : WalkState) :
    scan crc jsb.fixed log limit st = scan crc jsb log limit st ∧
      scanReads crc jsb.fixed log limit st = scanReads crc jsb log limit st := by
  unfold scan scanReads
  generalize limit - st.plan.blocksWalked = fuel
  induction fuel generalizing st with
  | zero => exact ⟨rfl, rfl⟩
  | succ fuel ih =>
    have hreads : stepReads crc jsb.fixed log = stepReads crc jsb log := by
      funext limit st
      unfold stepReads descriptorReads
      rw [parseDescriptorTags_fixed]
      rfl
    unfold scanLoop loopReads
    rw [scanStep_fixed, hreads]
    split
    · cases scanStep crc jsb log limit st with
      | error e => exact ⟨rfl, rfl⟩
      | ok r =>
        obtain ⟨st', more⟩ := r
        cases more with
        | false => exact ⟨rfl, rfl⟩
        | true => exact ⟨(ih st').1, congrArg (_ ++ ·) (ih st').2⟩
    · exact ⟨rfl, rfl⟩

end Fixed

end Journal

open Journal JournalApply

section Dirtied

variable {crc : Crc} {fs : Filesystem} {map : Nat → Nat} {jsb : JournalSuperblock} {jinode : Inode}
  {d : Disk} {tx : Transaction} {blocks : List Bytes}

theorem advance_one (hfirst : jsb.first = 1) (i : Nat) (h : i < jsb.maxLen.toNat - 1) :
    advance 1 i jsb = 1 + i := by
  have h1 : jsb.first.toNat = 1 := by rw [hfirst]; rfl
  have hring : InRing jsb 1 := ⟨by omega, by omega⟩
  rw [advance_eq hring, h1, capacity, h1, Nat.sub_self, Nat.zero_add, Nat.mod_eq_of_lt h]

/-- The journal superblock and the log as step 2 of a commit leaves them. -/
structure Logged (crc : Crc) (fs : Filesystem) (map : Nat → Nat) (jsb : JournalSuperblock)
    (tx : Transaction) (blocks : List Bytes) (d : Disk) : Prop where
  accepted : tx.Accepted jsb
  serialized : tx.serialize crc (Transaction.layoutFor crc jsb) = .ok blocks
  sequence : tx.sequence = jsb.sequence
  blockSize : jsb.blockSize.toNat = fs.sb.blockSize
  first : jsb.first = 1
  start : jsb.start = 1
  nonempty : blocks ≠ []
  fits : blocks.length ≤ jsb.maxLen.toNat - 1
  holds : ∀ i b, blocks[i]? = some b → logOf fs map d (1 + i) = b

structure Dirtied (crc : Crc) (fs : Filesystem) (map : Nat → Nat) (jsb : JournalSuperblock)
    (tx : Transaction) (blocks : List Bytes) (d : Disk) : Prop extends
    Logged crc fs map jsb tx blocks d where
  ends : blocks.length < jsb.maxLen.toNat - 1 →
    NoHeader (logOf fs map d) (1 + blocks.length) (jsb.sequence + 1)

theorem Logged.transaction (h : Logged crc fs map jsb tx blocks d) :
    ∃ t : LogTransaction, t.blocks = blocks ∧
      t.writes = tx.writes.map (fun w => (Transaction.named jsb w.fsBlock, w.bytes)) ∧
      t.revokes = tx.revokes.map (Transaction.named jsb) ∧ t.Committed crc jsb jsb.sequence ∧
      Holds jsb (logOf fs map d) jsb.start.toNat blocks := by
  have hbs := blockSize_ge fs.sb
  have htx : tx.blockSize.toNat = fs.sb.blockSize := by rw [h.accepted.blockSize, h.blockSize]
  obtain ⟨t, htb, htc, htw, htr⟩ := Transaction.serialize_committed crc jsb tx (by omega) blocks
    h.serialized
  have hs1 : jsb.start.toNat = 1 := by rw [h.start]; rfl
  refine ⟨t, htb, htw, htr, h.sequence ▸ htc, ?_⟩
  intro i b hb
  have hi : i < blocks.length := (List.getElem?_eq_some_iff.mp hb).1
  have hfit := h.fits
  rw [hs1, advance_one h.first i (by omega)]
  exact h.holds i b hb

theorem Dirtied.committedLog (h : Dirtied crc fs map jsb tx blocks d) :
    ∃ t : LogTransaction,
      t.writes = tx.writes.map (fun w => (Transaction.named jsb w.fsBlock, w.bytes)) ∧
      t.revokes = tx.revokes.map (Transaction.named jsb) ∧
      CommittedLog crc jsb (logOf fs map d) [t] := by
  obtain ⟨t, htb, htw, htr, htc, hholds⟩ := h.transaction
  have h1 : jsb.first.toNat = 1 := by rw [h.first]; rfl
  have hs1 : jsb.start.toNat = 1 := by rw [h.start]; rfl
  have hcap : capacity jsb = jsb.maxLen.toNat - 1 := by rw [capacity, h1]
  have hblocks : logBlocks [t] = blocks := by rw [logBlocks, List.flatMap_singleton, htb]
  refine ⟨t, htw, htr, ⟨htc, trivial⟩, by simp, ?_, ?_, ?_⟩
  · rwa [hblocks]
  · rw [hblocks, hcap]
    exact h.fits
  · intro hlt
    rw [hblocks, hcap] at hlt
    rw [hblocks, hs1, advance_one h.first _ hlt]
    exact h.ends hlt

theorem Logged.walkable (h : Logged crc fs map jsb tx blocks d) : Walkable fs jsb := by
  have h1 : jsb.first.toNat = 1 := by rw [h.first]; rfl
  have hs1 : jsb.start.toNat = 1 := by rw [h.start]; rfl
  have hpos := List.length_pos_of_ne_nil h.nonempty
  have hfit := h.fits
  refine ⟨by rw [h.start]; decide, h.accepted.supported, h.accepted.declared, h.blockSize, ?_⟩
  exact ⟨by omega, by omega, by omega⟩

/-- The events of replaying the transaction's writes: nothing at all if there are none. -/
def replayEvs (bs : Nat) (tx : Transaction) : List Ev :=
  if tx.writes = [] then [] else writeEvs (atOffsets bs tx.finalWrites) ++ [.flush]

/-- Every write's destination lies in the volume, fits a tag and is none the transaction revokes. -/
structure Addressed (fs : Filesystem) (jsb : JournalSuperblock) (tx : Transaction) : Prop where
  inVolume : ∀ v ∈ tx.writes, InVolume fs v.fsBlock.toNat
  fits : ∀ v ∈ tx.writes, Transaction.Fits jsb v.fsBlock
  unrevoked : ∀ v ∈ tx.writes, ∀ b ∈ tx.revokes, Transaction.named jsb b ≠ v.fsBlock

/-- Where a transaction's writes may go for a replay of it to do the same. -/
structure Replayable (fs : Filesystem) (map : Nat → Nat) (jsb : JournalSuperblock)
    (tx : Transaction) : Prop extends Addressed fs jsb tx where
  outside : ∀ v ∈ tx.writes, ∀ j, j < jsb.maxLen.toNat → map j ≠ v.fsBlock.toNat

theorem Addressed.apply_runs (h : Addressed fs jsb tx) (hwr : fs.isWritable = true)
    (hsize : d.size = fs.sizeBytes)
    (h64 : fs.sizeBytes < 2 ^ 64) (hm : Mapped fs (InRing jsb) map jinode d) {t : LogTransaction}
    (htw : t.writes = tx.writes.map (fun w => (Transaction.named jsb w.fsBlock, w.bytes)))
    (htr : t.revokes = tx.revokes.map (Transaction.named jsb)) {plan : ReplayPlan}
    (hstands : List.Forall₂ (Stands jsb (logOf fs map d)) plan.writes (survivors [t]))
    (hin : ∀ e ∈ plan.writes, InVolume fs (map e.journalBlock))
    (hout : ∀ e ∈ plan.writes, ∀ v ∈ tx.writes, map e.journalBlock ≠ v.fsBlock.toNat) :
    (apply fs plan).Runs d plan.writes.length (replayEvs fs.sb.blockSize tx) := by
  -- no write is revoked, and every tag names the block it was made for
  have hwrites : replayWrites [t] = tx.finalWrites := by
    have hkeep : t.writes.filter (fun w => w.1 ∉ t.revokes) = t.writes := by
      apply List.filter_eq_self.mpr
      intro w hw
      rw [htw] at hw
      obtain ⟨v, hv, rfl⟩ := List.mem_map.mp hw
      simp only [decide_eq_true_eq, htr, List.mem_map, not_exists, not_and]
      intro b hb he
      rw [Transaction.named_of_fits jsb v.fsBlock (h.fits v hv)] at he
      exact h.unrevoked v hv b hb he
    unfold replayWrites Transaction.finalWrites
    rw [survivors_single, hkeep, htw, List.map_map, List.map_map]
    apply List.map_congr_left
    intro v hv
    simp only [Function.comp_apply]
    rw [Transaction.named_of_fits jsb v.fsBlock (h.fits v hv)]
  have hentries : entryWrites fs map d plan.writes = tx.finalWrites := by
    rw [← hwrites]
    exact entryWrites_eq _ _ hstands
  have hdst : ∀ e ∈ plan.writes, ∃ v ∈ tx.writes, e.fsBlock.toNat = v.fsBlock.toNat := by
    intro e he
    have hmem : (e.fsBlock.toNat, unescape e (logOf fs map d e.journalBlock)) ∈ tx.finalWrites := by
      rw [← hentries]
      exact List.mem_map.mpr ⟨e, he, rfl⟩
    obtain ⟨v, hv, heq⟩ := List.mem_map.mp hmem
    exact ⟨v, hv, (Prod.mk.inj heq).1.symm⟩
  have hsrc : ∀ e ∈ plan.writes, InRing jsb e.journalBlock := by
    intro e he
    obtain ⟨w, -, hst⟩ := mem_of_forall₂ hstands e he
    exact hst.inRing
  have hlen : plan.writes = [] ↔ tx.writes = [] := by
    have hl := congrArg List.length hentries
    rw [entryWrites, Transaction.finalWrites, List.length_map, List.length_map] at hl
    rw [← List.length_eq_zero_iff, ← List.length_eq_zero_iff, hl]
  unfold replayEvs
  by_cases hne : tx.writes = []
  · rw [if_pos hne]
    have hpe := hlen.mpr hne
    unfold JournalApply.apply
    rw [hpe]
    exact Io.Runs.pure _ _
  · rw [if_neg hne, ← hentries]
    apply JournalApply.apply_runs h64 hwr hm plan hsrc hsize.symm
    · intro e he
      obtain ⟨v, hv, hev⟩ := hdst e he
      exact ⟨hin e he, by rw [hev]; exact h.inVolume v hv⟩
    · apply List.pairwise_of_forall_mem_list
      intro e he e' he'
      obtain ⟨v, hv, hev⟩ := hdst e he
      rw [hev]
      exact hout e' he' v hv
    · exact fun hpe => hne (hlen.mp hpe)

theorem Dirtied.replays (h : Dirtied crc fs map jsb tx blocks d) (hr : Replayable fs map jsb tx)
    (hwr : fs.isWritable = true) (hsize : d.size = fs.sizeBytes) (h64 : fs.sizeBytes < 2 ^ 64)
    (hm : Mapped fs (· < jsb.maxLen.toNat) map jinode d)
    (hdev : ∀ j, 1 ≤ j → j < jsb.maxLen.toNat → InVolume fs (map j)) :
    ∃ plan, (walk crc fs jsb).Runs d plan [] ∧ plan.nextSequence = some (jsb.sequence + 1) ∧
      (apply fs plan).Runs d plan.writes.length (replayEvs fs.sb.blockSize tx) := by
  have h1 : jsb.first.toNat = 1 := by rw [h.first]; rfl
  have hm' : Mapped fs (InRing jsb) map jinode d := hm.mono fun j hj => hj.2
  have hring : ∀ j, InRing jsb j → InVolume fs (map j) := by
    intro j hj
    have hj1 := hj.1
    exact hdev j (by omega) hj.2
  obtain ⟨t, htw, htr, hlog⟩ := h.committedLog
  obtain ⟨plan, hplan, hstands, -, hnext⟩ := walk_committed h.walkable hlog
  have hexec := hplan d (hm'.logOnDisk h.blockSize fun j hj => by
    rw [hsize]
    exact (hring j hj).2)
  have hsrc : ∀ e ∈ plan.writes, InRing jsb e.journalBlock := by
    intro e he
    obtain ⟨w, -, hst⟩ := mem_of_forall₂ hstands e he
    exact hst.inRing
  refine ⟨plan, (walk_readsBlocks fs crc jsb).runs hexec, ?_, ?_⟩
  · rw [hnext]
    rfl
  · exact hr.apply_runs hwr hsize h64 hm' htw htr hstands (fun e he => hring _ (hsrc e he))
      (fun e he v hv => hr.outside v hv _ (hsrc e he).2)

/-- The walk behind a log of `n` blocks that starts at block 1, with nothing in its plan. -/
def afterCommit (jsb : JournalSuperblock) (n : Nat) : WalkState where
  plan := { lastCommit := jsb.sequence, nextSequence := some (jsb.sequence + 1), blocksWalked := n }
  pendingWrites := []
  pendingRevokes := []
  pendingCorrupt := none
  cur := advance 1 n jsb
  expectSeq := jsb.sequence + 1

/-- The walk goes through what is behind the log, and finds no write and no revoke of the
transaction's blocks committed there. -/
def Undisturbed (crc : Crc) (jsb : JournalSuperblock) (log : Nat → Bytes) (tx : Transaction)
    (n : Nat) : Prop :=
  ∃ st, scan crc jsb log (capacity jsb) (afterCommit jsb n) = .ok st ∧ st.plan.writes = [] ∧
    ∀ r ∈ st.plan.revokes, ∀ v ∈ tx.writes, r.fsBlock ≠ v.fsBlock

/-- Walk and apply carry out the transaction's own writes whatever is behind the log, as long as it
does not disturb them. -/
theorem Logged.replays (h : Logged crc fs map jsb tx blocks d) (hr : Addressed fs jsb tx)
    (hwr : fs.isWritable = true) (hsize : d.size = fs.sizeBytes) (h64 : fs.sizeBytes < 2 ^ 64)
    (hm : Mapped fs (InRing jsb) map jinode d)
    (hvol : ∀ j, 1 ≤ j → j ≤ blocks.length → InVolume fs (map j))
    (hout : ∀ v ∈ tx.writes, ∀ j, j ≤ blocks.length → map j ≠ v.fsBlock.toNat)
    (hbehind : Undisturbed crc jsb (logOf fs map d) tx blocks.length)
    (hreads : ∀ j ∈ scanReads crc jsb (logOf fs map d) (capacity jsb)
      (afterCommit jsb blocks.length), OnDevice fs map d j) :
    ∃ plan, (walk crc fs jsb).Runs d plan [] ∧
      (apply fs plan).Runs d plan.writes.length (replayEvs fs.sb.blockSize tx) := by
  have hw := h.walkable
  have h1 : jsb.first.toNat = 1 := by rw [h.first]; rfl
  have hs1 : jsb.start.toNat = 1 := by rw [h.start]; rfl
  have hcap : capacity jsb = jsb.maxLen.toNat - 1 := by rw [capacity, h1]
  have hcur : InRing jsb (WalkState.start jsb).cur := hw.geometry.start_inRing
  have hfit := h.fits
  obtain ⟨t, htb, htw, htr, htc, hholds⟩ := h.transaction
  have hplaced : ∀ i < blocks.length, advance jsb.start.toNat i jsb = 1 + i := by
    intro i hi
    rw [hs1, advance_one h.first i (by omega)]
  -- the walk takes the transaction in and goes on behind it
  have hturns := turns_transaction (capacity jsb) (WalkState.start jsb) t hcur ⟨rfl, rfl, rfl⟩ htc
    (by rwa [htb]) (by rw [htb, hcap]; simpa [WalkState.start] using hfit)
  have hstate : (WalkState.start jsb).transaction jsb t =
      (afterCommit jsb blocks.length).behind
        (recordEntries jsb jsb.sequence jsb.start.toNat t.records)
        (t.revokes.map (⟨jsb.sequence, ·⟩)) := by
    simp [WalkState.transaction, WalkState.start, WalkState.behind, afterCommit, htb, hs1]
  generalize hentries : recordEntries jsb jsb.sequence jsb.start.toNat t.records = ws at hstate
  generalize hrevokes : t.revokes.map (fun b => (⟨jsb.sequence, b⟩ : RevokeEntry)) = rs at hstate
  rw [hstate] at hturns
  obtain ⟨st, hst, hnone, hclear⟩ := hbehind
  have hpast := @scanLoop_behind crc jsb (logOf fs map d) ws rs (capacity jsb)
    (capacity jsb - blocks.length) (afterCommit jsb blocks.length)
  have hscan : scan crc jsb (logOf fs map d) (capacity jsb) (WalkState.start jsb) =
      .ok (st.behind ws rs) := by
    rw [scan_of_turns hcur hturns]
    refine hpast.1.trans ?_
    change (scan crc jsb (logOf fs map d) (capacity jsb) (afterCommit jsb blocks.length)).map _ = _
    rw [hst]
    rfl
  -- what it reads is the log and what it reads behind it
  have hdev : ∀ j ∈ logReads crc jsb (logOf fs map d), OnDevice fs map d j := by
    intro j hj
    obtain ⟨n, hn, -, hpositions⟩ := scanReads_of_turns hcur hturns
    have hn' : n = blocks.length := by
      change blocks.length = 0 + n at hn
      omega
    obtain ⟨i, hi, rfl⟩ | hj := hpositions j hj
    · change OnDevice fs map d (advance jsb.start.toNat i jsb)
      rw [hplaced i (by omega)]
      unfold OnDevice
      rw [hsize]
      exact (hvol (1 + i) (by omega) (by omega)).2
    · rw [scanReads] at hj
      change j ∈ loopReads crc jsb (logOf fs map d) (capacity jsb)
        (capacity jsb - blocks.length) _ at hj
      rw [hpast.2] at hj
      exact hreads j hj
  have hwalk := walk_reads crc fs jsb d _ hw hm.1 (Mapped.reads hm hw)
  rw [List.all_eq_true.mpr (fun j hj => decide_eq_true (hdev j hj)), cond_true, hscan] at hwalk
  -- what is behind the log takes nothing out of the plan and puts nothing into it
  have hlogEntries : ws = logEntries jsb jsb.sequence jsb.start.toNat [t] := by
    rw [logEntries, logEntries, List.append_nil, hentries]
  have hlogRevokes : rs = logRevokes jsb.sequence [t] := by
    rw [logRevokes, logRevokes, List.append_nil, hrevokes]
  have hholdsAll : Holds jsb (logOf fs map d) jsb.start.toNat (logBlocks [t]) := by
    rwa [logBlocks, List.flatMap_singleton, htb]
  have hstandsAll : List.Forall₂ (Stands jsb (logOf fs map d)) ws (indexedWrites 0 [t]) := by
    have hall := @log_stands crc jsb (logOf fs map d) [t] 0 jsb.start.toNat hcur
      (by rw [show jsb.sequence + UInt32.ofNat 0 = jsb.sequence by simp]; exact ⟨htc, trivial⟩)
        hholdsAll
    rwa [show jsb.sequence + UInt32.ofNat 0 = jsb.sequence by simp, ← hlogEntries] at hall
  have hown : ReplayPlan.writes (st.behind ws rs).plan.filterRevoked =
      ReplayPlan.writes ({ writes := ws, revokes := rs } : ReplayPlan).filterRevoked := by
    rw [ReplayPlan.filterRevoked_writes, ReplayPlan.filterRevoked_writes]
    change (ws ++ st.plan.writes).filter (survives (rs ++ st.plan.revokes)) = ws.filter
      (survives rs)
    rw [hnone, List.append_nil]
    apply List.filter_congr
    intro e he
    apply survives_append
    intro r hrmem hsame
    obtain ⟨w, hw', hew⟩ := mem_of_forall₂ hstandsAll e he
    rw [show indexedWrites 0 [t] = t.writes.map (0, ·) by simp [indexedWrites], htw,
      List.map_map] at hw'
    obtain ⟨v, hv, rfl⟩ := List.mem_map.mp hw'
    apply hclear r hrmem v hv
    rw [hsame, hew.fsBlock]
    exact Transaction.named_of_fits jsb v.fsBlock (hr.fits v hv)
  have hstands : List.Forall₂ (Stands jsb (logOf fs map d))
    (st.behind ws rs).plan.filterRevoked.writes (survivors [t]) := by
    rw [hown]
    exact filterRevoked_stands [t] jsb.start.toNat hcur ⟨htc, trivial⟩ hholdsAll
      (by simp) _ hlogEntries hlogRevokes
  have hsrc : ∀ e ∈ (st.behind ws rs).plan.filterRevoked.writes,
      1 ≤ e.journalBlock ∧ e.journalBlock ≤ blocks.length := by
    intro e he
    rw [hown, ReplayPlan.filterRevoked_writes] at he
    have hmem := (List.mem_filter.mp he).1
    rw [← hentries] at hmem
    obtain ⟨i, hi, heq⟩ := recordEntries_positions hcur htc.records e hmem
    have hlen : blocks.length = (t.records.flatMap LogRecord.blocks).length + 1 := by
      rw [← htb, LogTransaction.blocks, List.length_append, List.length_singleton]
    have hplace := hplaced i (by omega)
    change e.journalBlock = advance jsb.start.toNat i jsb at heq
    omega
  refine ⟨(st.behind ws rs).plan.filterRevoked, (walk_readsBlocks fs crc jsb).runs hwalk, ?_⟩
  exact hr.apply_runs hwr hsize h64 hm htw htr hstands
    (fun e he => hvol _ (hsrc e he).1 (hsrc e he).2) (fun e he v hv => hout v hv _ (hsrc e he).2)

end Dirtied

namespace JournalWriter

section Written

variable (fs : Filesystem) (w : JournalWriter) (blocks : List Bytes)

theorem logWrites_mem (j : Nat) (v : Nat × Bytes) (h : v ∈ w.logWrites blocks j) :
    ∃ i, blocks[i]? = some v.2 ∧ v.1 = w.journalBlock (j + i) := by
  induction blocks generalizing j with
  | nil => simp [logWrites] at h
  | cons b rest ih =>
    rw [logWrites] at h
    obtain rfl | h := List.mem_cons.mp h
    · exact ⟨0, rfl, rfl⟩
    · obtain ⟨i, h1, h2⟩ := ih (j + 1) h
      exact ⟨i + 1, h1, by rw [h2]; congr 1; omega⟩

theorem mem_logWrites (j i : Nat) (b : Bytes) (h : blocks[i]? = some b) :
    (w.journalBlock (j + i), b) ∈ w.logWrites blocks j := by
  induction blocks generalizing i j with
  | nil => simp at h
  | cons c rest ih =>
    rw [logWrites]
    cases i with
    | zero =>
      rw [List.getElem?_cons_zero] at h
      rw [Option.some.inj h]
      exact List.mem_cons_self
    | succ i =>
      have hmem := ih (j + 1) i h
      rw [Nat.add_assoc, Nat.add_comm 1 i] at hmem
      exact List.mem_cons_of_mem _ hmem

theorem logWrites_fst (j : Nat) : (w.logWrites blocks j).map Prod.fst =
    (List.range' j blocks.length).map w.journalBlock := by
  induction blocks generalizing j with
  | nil => rfl
  | cons b rest ih => rw [logWrites, List.map_cons, ih, List.length_cons, List.range'_succ,
      List.map_cons]

/-- The journal blocks a commit of `n` log blocks writes are all different. -/
def Distinct (w : JournalWriter) (n : Nat) : Prop :=
  ∀ i j, i ≤ n → j ≤ n → i ≠ j → w.journalBlock i ≠ w.journalBlock j

variable {w blocks}

theorem Distinct.logWrites_nodup (h : w.Distinct blocks.length) :
    ((w.logWrites blocks 1).map Prod.fst).Nodup := by
  rw [logWrites_fst]
  refine List.Nodup.map_on ?_ List.nodup_range'
  intro i hi j hj he
  simp only [List.mem_range'_1] at hi hj
  by_contra hne
  exact h i j (by omega) (by omega) hne he

/-- The image after step 1, `sb` being the superblock it wrote, and step 2's journal superblock. -/
def dirtiedImage (fs : Filesystem) (w : JournalWriter) (blocks : List Bytes) (sb buf : Bytes)
    (img : Image) : Image :=
  ((img.writeBlocks fs.sb.blockSize (w.logWrites blocks 1)).write superblockOffset sb).write
    (w.journalBlock 0 * fs.sb.blockSize) buf

variable {sb buf : Bytes} {img : Image} (hsb : sb.length = 1024)
  (hbuf : buf.length = fs.sb.blockSize)
  (hlen : ∀ b ∈ blocks, b.length = fs.sb.blockSize)

include hsb hlen in
theorem block_logged (b : Nat) (hb : 2048 ≤ b * fs.sb.blockSize) :
    ((img.writeBlocks fs.sb.blockSize (w.logWrites blocks 1)).write superblockOffset sb).block
      fs.sb.blockSize b =
      (lastWrite (w.logWrites blocks 1) b).getD (img.block fs.sb.blockSize b) := by
  have hdisj : b * fs.sb.blockSize + fs.sb.blockSize ≤ superblockOffset ∨
      superblockOffset + sb.length ≤ b * fs.sb.blockSize := by
    right
    rw [hsb]
    exact hb
  rw [Image.block, Image.read_write_disjoint _ _ _ _ _ hdisj]
  apply Image.block_writeBlocks
  intro v hv
  obtain ⟨i, hi, -⟩ := logWrites_mem w blocks 1 v hv
  exact hlen v.2 (List.mem_of_getElem? hi)

include hbuf in
theorem block_jsb : (dirtiedImage fs w blocks sb buf img).block fs.sb.blockSize (w.journalBlock 0) =
    buf := by
  have h := Image.read_write_self ((img.writeBlocks fs.sb.blockSize (w.logWrites blocks 1)).write
    superblockOffset sb) (w.journalBlock 0 * fs.sb.blockSize) buf
  rwa [hbuf] at h

include hsb hbuf hlen

theorem block_dirtied (b : Nat) (hb : 2048 ≤ b * fs.sb.blockSize) (h0 : w.journalBlock 0 ≠ b) :
    (dirtiedImage fs w blocks sb buf img).block fs.sb.blockSize b =
      (lastWrite (w.logWrites blocks 1) b).getD (img.block fs.sb.blockSize b) := by
  rw [← block_logged fs hsb hlen b hb]
  apply Image.read_write_disjoint
  rw [hbuf]
  exact (block_disjoint _ _ _ h0).symm

/-- The bytes a commit of `n` log blocks may change in its first two steps. -/
def CommitArea (fs : Filesystem) (w : JournalWriter) (n p : Nat) : Prop :=
  (superblockOffset ≤ p ∧ p < superblockOffset + 1024) ∨
    ∃ j, j ≤ n ∧ w.journalBlock j * fs.sb.blockSize ≤ p ∧
      p < w.journalBlock j * fs.sb.blockSize + fs.sb.blockSize

theorem dirtiedImage_frame (p : Nat) (hp : ¬ CommitArea fs w blocks.length p) :
    dirtiedImage fs w blocks sb buf img p = img p := by
  unfold CommitArea at hp
  rw [not_or, not_exists] at hp
  obtain ⟨h1, h2⟩ := hp
  unfold dirtiedImage
  rw [Image.write_of_not_mem, Image.write_of_not_mem, Image.writeBlocks_of_not_mem]
  · intro v hv
    obtain ⟨i, hi, -⟩ := logWrites_mem w blocks 1 v hv
    exact hlen v.2 (List.mem_of_getElem? hi)
  · intro v hv
    obtain ⟨i, hi, hj⟩ := logWrites_mem w blocks 1 v hv
    have hi' := (List.getElem?_eq_some_iff.mp hi).1
    rw [hj]
    exact fun hc => h2 (1 + i) ⟨by omega, hc⟩
  · rw [hsb]
    exact h1
  · rw [hbuf]
    exact fun hc => h2 0 ⟨Nat.zero_le _, hc⟩

end Written

end JournalWriter

theorem accepted_fixed (jsb : JournalSuperblock) (tx : Transaction) :
    tx.Accepted jsb.fixed ↔ tx.Accepted jsb :=
  ⟨fun h => ⟨h.supported, h.declared, h.blockSize, h.uses64bit, h.usesCsumV3⟩,
    fun h => ⟨h.supported, h.declared, h.blockSize, h.uses64bit, h.usesCsumV3⟩⟩

theorem layoutFor_fixed (crc : Crc) (jsb : JournalSuperblock) :
    Transaction.layoutFor crc jsb.fixed = Transaction.layoutFor crc jsb := rfl

namespace JournalWriter

section Commit

variable {crc : Crc} {fs : Filesystem} {w : JournalWriter} {d : Disk} {tx : Transaction}
  {blocks : List Bytes}

theorem journalBlock_mem (hmap : w.physicalMap.length = w.jsb.maxLen.toNat) (j : Nat)
    (hj : j < w.jsb.maxLen.toNat) : w.journalBlock j ∈ w.physicalMap := by
  unfold journalBlock
  rw [List.getD_eq_getElem?_getD, List.getElem?_eq_getElem (by omega), Option.getD_some]
  exact List.getElem_mem _

theorem Attached.clear (h : Attached fs w d) (hdesc : 0 < fs.sb.descSize) (j : Nat)
    (hj : j < w.jsb.maxLen.toNat) : 2048 ≤ w.journalBlock j * fs.sb.blockSize := by
  obtain ⟨h1, h2⟩ := h.placed _ (journalBlock_mem h.mapLength j hj)
  exact superblock_below fs.sb hdesc _ h1 h2

def flagged (crc : Crc) (img : Image) : Bytes :=
  setNeedsRecoveryIn crc (img.read superblockOffset 1024) true

theorem length_flagged (crc : Crc) (img : Image) : (flagged crc img).length = 1024 :=
  length_setNeedsRecoveryIn crc _ true (Image.length_read _ _ _)

def loggingWrites (crc : Crc) (fs : Filesystem) (w : JournalWriter) (blocks : List Bytes)
    (img : Image) : List (Nat × Bytes) :=
  atOffsets fs.sb.blockSize (w.logWrites blocks 1) ++ [(superblockOffset, flagged crc img)]

def dirtyBlock (crc : Crc) (fs : Filesystem) (w : JournalWriter) (img : Image) : Bytes :=
  w.dirty.patchJsb crc (img.block fs.sb.blockSize (w.journalBlock 0))

def dirtied (crc : Crc) (fs : Filesystem) (w : JournalWriter) (blocks : List Bytes) (d : Disk) :
    Disk where
  size := d.size
  img := dirtiedImage fs w blocks (flagged crc d.img) (dirtyBlock crc fs w d.img) d.img

variable (hatt : Attached fs w d) (hprep : Prepared crc w tx blocks)
  (hdesc : 0 < fs.sb.descSize) (h64 : fs.sizeBytes < 2 ^ 64)
  (hdev : ∀ j ≤ blocks.length, OnDevice fs w.journalBlock d j)
  (hdist : w.Distinct blocks.length)

include hatt hprep

theorem Attached.logWrites_inVolume (hdev : ∀ j ≤ blocks.length, OnDevice fs w.journalBlock d j) :
    ∀ v ∈ w.logWrites blocks 1, InVolume fs v.1 ∧ v.2.length = fs.sb.blockSize := by
  intro v hv
  obtain ⟨i, hi, hj⟩ := logWrites_mem w blocks 1 v hv
  have hi' := (List.getElem?_eq_some_iff.mp hi).1
  have hfit := hprep.fits
  have hlt : 1 + i < w.jsb.maxLen.toNat := by omega
  refine ⟨⟨?_, ?_⟩, ?_⟩
  · rw [hj]
    exact (hatt.placed _ (journalBlock_mem hatt.mapLength _ hlt)).2
  · rw [hj, ← hatt.size]
    exact hdev _ (by omega)
  · rw [← hatt.blockSize]
    exact (hprep.stamped v.2 (List.mem_of_getElem? hi)).length

theorem lengths_blocks : ∀ b ∈ blocks, b.length = fs.sb.blockSize := by
  intro b hb
  rw [← hatt.blockSize]
  exact (hprep.stamped b hb).length

omit hatt in
theorem Prepared.maxLen_pos : 1 < w.jsb.maxLen.toNat := by
  have hpos := List.length_pos_of_ne_nil hprep.nonempty
  have hfit := hprep.fits
  omega

include hdesc

theorem device_holds_superblock : 2048 ≤ d.size := by
  have h1 := hprep.maxLen_pos
  have h2 := hatt.clear hdesc 0 (by omega)
  have h3 := hatt.onDevice
  omega

theorem read_superblock_logged :
    (d.img.writeBlocks fs.sb.blockSize (w.logWrites blocks 1)).read superblockOffset 1024 =
      d.img.read superblockOffset 1024 := by
  apply Image.read_writeAll_disjoint
  intro v hv
  obtain ⟨u, hu, rfl⟩ := List.mem_map.mp hv
  obtain ⟨i, hi, hj⟩ := logWrites_mem w blocks 1 u hu
  have hi' := (List.getElem?_eq_some_iff.mp hi).1
  have hfit := hprep.fits
  have hclear := hatt.clear hdesc (1 + i) (by omega)
  left
  dsimp only
  rw [hj]
  exact hclear

include h64 hdev in
theorem logging_runs : (w.logStep crc fs.sizeBytes blocks).Runs d ()
    (writeEvs (loggingWrites crc fs w blocks d.img) ++ [.flush]) := by
  have hrun := logStep_runs crc hatt.blockSize hatt.blocksCount hatt.size h64
    (device_holds_superblock hatt hprep hdesc) blocks (hatt.logWrites_inVolume hprep hdev)
  rwa [read_superblock_logged hatt hprep hdesc] at hrun

include hdist

theorem block_jsb_logged : (d.img.writeAll (loggingWrites crc fs w blocks d.img)).block
    fs.sb.blockSize (w.journalBlock 0) = d.img.block fs.sb.blockSize (w.journalBlock 0) := by
  have h1 := hprep.maxLen_pos
  have hclear := hatt.clear hdesc 0 (by omega)
  have hb := @block_logged fs w blocks (flagged crc d.img) d.img (length_flagged crc d.img)
    (lengths_blocks hatt hprep) (w.journalBlock 0) hclear
  rw [lastWrite_eq_none, Option.getD_none] at hb
  · unfold loggingWrites
    rw [Image.writeAll_append]
    exact hb
  · intro v hv
    obtain ⟨i, hi, hj⟩ := logWrites_mem w blocks 1 v hv
    have hi' := (List.getElem?_eq_some_iff.mp hi).1
    rw [hj]
    exact (hdist 0 (1 + i) (Nat.zero_le _) (by omega) (by omega)).symm

theorem dirtying_runs : (w.dirtyStep crc).Runs
    { d with img := d.img.writeAll (loggingWrites crc fs w blocks d.img) } ()
    (writeEvs [(w.journalBlock 0 * fs.sb.blockSize, dirtyBlock crc fs w d.img)] ++ [.flush]) := by
  obtain ⟨jsb, hparse, hfixed, -, -⟩ := hatt.superblock
  exact @dirtyStep_runs fs w { d with img := d.img.writeAll (loggingWrites crc fs w blocks d.img) }
    crc hatt.blockSize _ (block_jsb_logged hatt hprep hdesc hdist) hatt.onDevice jsb hparse
    hfixed

/-- After step 2 the log is the transaction's and the journal superblock says so; the other journal
blocks are as they were. -/
theorem logged_of_steps (hfirst : w.jsb.first = 1) :
    ∃ jsb, JournalSuperblock.parse (dirtyBlock crc fs w d.img) = .ok jsb ∧
      jsb.fixed = w.jsb.fixed ∧ jsb.sequence = w.jsb.sequence ∧
      (dirtyBlock crc fs w d.img).length = fs.sb.blockSize ∧
      Logged crc fs w.journalBlock jsb tx blocks (dirtied crc fs w blocks d) ∧
      ∀ j < w.jsb.maxLen.toNat, (∀ i ≤ blocks.length, w.journalBlock i ≠ w.journalBlock j) →
        logOf fs w.journalBlock (dirtied crc fs w blocks d) j = logOf fs w.journalBlock d j := by
  obtain ⟨jsb₀, hparse, hfixed₀, -, -⟩ := hatt.superblock
  have hlen₀ := (JournalSuperblock.parse_ok _ _ hparse).1
  have hst := patchJsb_restamped crc w.dirty _ hlen₀
  obtain ⟨jsb, hp, hfixed, hseq, hstart⟩ := hst.parse hparse
  have hfixed' : jsb.fixed = w.jsb.fixed := hfixed.trans hfixed₀
  have hseq' : jsb.sequence = w.jsb.sequence := hseq
  have hmax : jsb.maxLen = w.jsb.maxLen := congrArg (·.maxLen) hfixed'
  have hbs : jsb.blockSize = w.jsb.blockSize := congrArg (·.blockSize) hfixed'
  have hlen : (dirtyBlock crc fs w d.img).length = fs.sb.blockSize :=
    hst.length.trans (Image.length_read _ _ _)
  have hlens := lengths_blocks hatt hprep
  have hfit := hprep.fits
  have hsame : ∀ j, j < w.jsb.maxLen.toNat → w.journalBlock 0 ≠ w.journalBlock j →
      logOf fs w.journalBlock (dirtied crc fs w blocks d) j =
        (lastWrite (w.logWrites blocks 1) (w.journalBlock j)).getD
          (logOf fs w.journalBlock d j) := by
    intro j hj hne
    exact block_dirtied fs (length_flagged crc d.img) hlen hlens _ (hatt.clear hdesc j hj) hne
  have hacc : tx.Accepted jsb := by
    rw [← accepted_fixed, hfixed', accepted_fixed]
    exact hprep.accepted
  have hser : tx.serialize crc (Transaction.layoutFor crc jsb) = .ok blocks := by
    rw [← layoutFor_fixed, hfixed', layoutFor_fixed]
    exact hprep.serialized
  refine ⟨jsb, hp, hfixed', hseq', hlen, ⟨hacc, hser, hprep.sequence.trans hseq'.symm, ?_,
    (congrArg (·.first) hfixed').trans hfirst, hstart,
    hprep.nonempty, by rw [hmax]; exact hfit, ?_⟩, ?_⟩
  · rw [hbs, ← hprep.accepted.blockSize, hprep.blockSize, hatt.blockSize]
  · intro i b hb
    have hi := (List.getElem?_eq_some_iff.mp hb).1
    rw [hsame (1 + i) (by omega) (hdist 0 (1 + i) (Nat.zero_le _) (by omega) (by omega))]
    rw [lastWrite_of_mem _ hdist.logWrites_nodup _ (mem_logWrites w blocks 1 i b hb),
      Option.getD_some]
  · intro j hj hne
    rw [hsame j hj (hne 0 (Nat.zero_le _)), lastWrite_eq_none, Option.getD_none]
    intro v hv
    obtain ⟨i, hi, hjb⟩ := logWrites_mem w blocks 1 v hv
    have hi' := (List.getElem?_eq_some_iff.mp hi).1
    rw [hjb]
    exact hne (1 + i) (by omega)

theorem dirtied_of_steps (hfirst : w.jsb.first = 1)
    (hnext : blocks.length < w.jsb.maxLen.toNat - 1 →
      ∀ i ≤ blocks.length, w.journalBlock i ≠ w.journalBlock (1 + blocks.length))
    (hends : blocks.length < w.jsb.maxLen.toNat - 1 →
      NoHeader (logOf fs w.journalBlock d) (1 + blocks.length) (w.jsb.sequence + 1)) :
    ∃ jsb, JournalSuperblock.parse (dirtyBlock crc fs w d.img) = .ok jsb ∧
      jsb.fixed = w.jsb.fixed ∧ (dirtyBlock crc fs w d.img).length = fs.sb.blockSize ∧
      Dirtied crc fs w.journalBlock jsb tx blocks (dirtied crc fs w blocks d) := by
  obtain ⟨jsb, hp, hfixed, hseq, hlen, hlogged, hsame⟩ := logged_of_steps hatt hprep hdesc
    hdist hfirst
  have hmax : jsb.maxLen = w.jsb.maxLen := congrArg (·.maxLen) hfixed
  refine ⟨jsb, hp, hfixed, hlen, hlogged, ?_⟩
  intro hlt
  rw [hmax] at hlt
  unfold NoHeader
  rw [hsame (1 + blocks.length) (by omega) (hnext hlt), hseq]
  exact hends hlt

end Commit

end JournalWriter

/-- What a later mount does with the log before it marks the journal clean. -/
def replayLog (crc : Crc) (fs : Filesystem) : DevIo Nat := do
  match ← fs.readSuperblock with
  | none => return 0
  | some jsb =>
    let plan ← walk crc fs jsb
    apply fs plan

def evWrites (evs : List Ev) : List (Nat × Bytes) :=
  evs.filterMap (fun ev => match ev with
    | .write off data => some (off, data)
    | .flush => none)

theorem evWrites_writeEvs (ws : List (Nat × Bytes)) : evWrites (writeEvs ws ++ [.flush]) = ws := by
  induction ws with
  | nil => rfl
  | cons w rest ih =>
    change w :: evWrites (writeEvs rest ++ [.flush]) = _
    rw [ih]

theorem evWrites_replayEvs (bs : Nat) (tx : Transaction) :
    evWrites (replayEvs bs tx) = atOffsets bs tx.finalWrites := by
  unfold replayEvs
  split
  · rename_i h
    rw [Transaction.finalWrites, h]
    rfl
  · exact evWrites_writeEvs _

theorem Addressed.congr {fs : Filesystem} {a b : JournalSuperblock} {tx : Transaction}
    (hab : a.fixed = b.fixed) (h : Addressed fs b tx) : Addressed fs a tx := by
  have h' : Addressed fs b.fixed tx := ⟨h.inVolume, h.fits, h.unrevoked⟩
  rw [← hab] at h'
  exact ⟨h'.inVolume, h'.fits, h'.unrevoked⟩

theorem Replayable.congr {fs : Filesystem} {map : Nat → Nat} {a b : JournalSuperblock}
    {tx : Transaction} (hab : a.fixed = b.fixed) (h : Replayable fs map b tx) :
    Replayable fs map a tx :=
  ⟨h.toAddressed.congr hab, fun v hv j hj => h.outside v hv j (by
    rwa [show a.maxLen = b.maxLen from congrArg (·.maxLen) hab] at hj)⟩

theorem behind_congr {crc : Crc} {a b : JournalSuperblock} {log : Nat → Bytes}
    {tx : Transaction} {n : Nat} (hab : a.fixed = b.fixed) (hseq : a.sequence = b.sequence) :
    (Undisturbed crc a log tx n ↔ Undisturbed crc b log tx n) ∧
      scanReads crc a log (capacity a) (afterCommit a n) = scanReads crc b log (capacity b)
        (afterCommit b n) := by
  have hcap : capacity a = capacity b := by
    change capacity a.fixed = capacity b.fixed
    rw [hab]
  have hstate : afterCommit a n = afterCommit b n := by
    have hcursor : advance 1 n a = advance 1 n b := by
      change advance 1 n a.fixed = advance 1 n b.fixed
      rw [hab]
    rw [afterCommit, afterCommit, hseq, hcursor]
  have hscan : ∀ limit st, scan crc a log limit st = scan crc b log limit st := by
    intro limit st
    rw [← (scan_fixed crc a log limit st).1, hab, (scan_fixed crc b log limit st).1]
  have hreads : ∀ limit st, scanReads crc a log limit st = scanReads crc b log limit st := by
    intro limit st
    rw [← (scan_fixed crc a log limit st).2, hab, (scan_fixed crc b log limit st).2]
  unfold Undisturbed
  rw [hscan, hreads, hcap, hstate]
  exact ⟨Iff.rfl, rfl⟩

namespace JournalWriter

/-- A refused commit leaves the device as it was; one that succeeds left, after step 2, a log
whose replay makes the writes of step 3. -/
structure Recoverable (crc : Crc) (fs : Filesystem) (w : JournalWriter) (d : Disk)
    (tx : Transaction) : Prop where
  refused : ∀ e w' d', (w.commit crc fs.sizeBytes fs.isWritable tx).exec d =
    (.ok (.error e, w'), d') →
    d' = d
  committed : ∀ w' d', (w.commit crc fs.sizeBytes fs.isWritable tx).exec d =
    (.ok (.ok (), w'), d') →
    ∃ tx' blocks d₂ n, w.prepare crc fs.isWritable tx = .ok (tx', blocks) ∧
      (w.logStep crc fs.sizeBytes blocks >>= fun _ => w.dirtyStep crc).exec d = (.ok (), d₂) ∧
      ((replayLog crc fs).exec d₂).1 = .ok n ∧
      evWrites ((replayLog crc fs).trace d₂) = evWrites ((w.finalStep fs.sizeBytes tx').trace d₂)

/-- Behind a log of `n` blocks the walk finds nothing that disturbs the transaction and reads
nothing past the end of the device, whatever it finds in the blocks a commit writes. -/
def QuietBehind (crc : Crc) (fs : Filesystem) (w : JournalWriter) (d : Disk) (tx : Transaction)
    (n : Nat) : Prop :=
  ∀ log : Nat → Bytes, (∀ j < w.jsb.maxLen.toNat, (∀ i ≤ n, w.journalBlock i ≠ w.journalBlock j) →
      log j = logOf fs w.journalBlock d j) →
    Undisturbed crc w.jsb log tx n ∧
      ∀ j ∈ scanReads crc w.jsb log (capacity w.jsb) (afterCommit w.jsb n),
      OnDevice fs w.journalBlock d j

theorem quietBehind_of_noHeader {crc : Crc} {fs : Filesystem} {w : JournalWriter}
    {d : Disk} {n : Nat} (tx : Transaction) (hfirst : w.jsb.first = 1)
    (hnext : n < w.jsb.maxLen.toNat - 1 → OnDevice fs w.journalBlock d (1 + n) ∧
      (∀ i ≤ n, w.journalBlock i ≠ w.journalBlock (1 + n)) ∧
      NoHeader (logOf fs w.journalBlock d) (1 + n) (w.jsb.sequence + 1))
    (hpos : 1 < w.jsb.maxLen.toNat) : QuietBehind crc fs w d tx n := by
  intro log hlog
  have h1 : w.jsb.first.toNat = 1 := by rw [hfirst]; rfl
  have hcap : capacity w.jsb = w.jsb.maxLen.toNat - 1 := by rw [capacity, h1]
  have hring : InRing w.jsb 1 := ⟨by omega, hpos⟩
  have hcur : InRing w.jsb (afterCommit w.jsb n).cur := advance_inRing hring n
  have hplace : n < capacity w.jsb → (afterCommit w.jsb n).cur = 1 + n :=
    fun hlt => advance_one hfirst n (by omega)
  have hends : (afterCommit w.jsb n).plan.blocksWalked < capacity w.jsb →
      NoHeader log (afterCommit w.jsb n).cur (afterCommit w.jsb n).expectSeq := by
    intro hlt
    obtain ⟨-, hne, hno⟩ := hnext (hcap ▸ hlt)
    rw [hplace hlt]
    unfold NoHeader
    rw [hlog (1 + n) (by change n < _ at hlt; omega) hne]
    exact hno
  constructor
  · obtain ⟨st, hst, hwrites, hrevokes, -⟩ := @scan_end crc w.jsb log (capacity w.jsb) _ hcur hends
    refine ⟨st, hst, hwrites, ?_⟩
    rw [hrevokes]
    exact fun r hr => absurd hr List.not_mem_nil
  · intro j hj
    obtain ⟨hlt, rfl⟩ := scanReads_end (capacity w.jsb) _ hends j hj
    rw [hplace hlt]
    exact (hnext (hcap ▸ hlt)).1

/-- A journal, and a transaction prepared for it, that replay reads the way commit writes. -/
structure Sound (crc : Crc) (fs : Filesystem) (w : JournalWriter) (d : Disk) (tx : Transaction)
    (blocks : List Bytes) : Prop where
  first : w.jsb.first = 1
  onDevice : ∀ j ≤ blocks.length, OnDevice fs w.journalBlock d j
  distinct : w.Distinct blocks.length
  behind : QuietBehind crc fs w d tx blocks.length
  addressed : Addressed fs w.jsb tx
  outside : ∀ v ∈ tx.writes, ∀ j ≤ blocks.length, w.journalBlock j ≠ v.fsBlock.toNat
  mapping : ∀ d' : Disk, d'.size = d.size →
    (∀ p, ¬ CommitArea fs w blocks.length p → d'.img p = d.img p) →
    ∃ jinode, Mapped fs (· < w.jsb.maxLen.toNat) w.journalBlock jinode d'

/-- The writer as `open` returned it, but for the flag it holds and the two fields of its copy of
the journal superblock that its commits do not keep up to date. -/
def Synced (w₀ w : JournalWriter) : Prop :=
  w = { w₀ with
    holdNeedsRecovery := w.holdNeedsRecovery
    jsb := { w₀.jsb with headerSequence := w.jsb.headerSequence, checksum := w.jsb.checksum } }

theorem Attached.synced {fs : Filesystem} {w₀ w : JournalWriter} {d : Disk}
    (h : Attached fs w₀ d) (hs : Synced w₀ w) : Attached fs w d := by
  rw [hs]
  exact ⟨h.size, h.blockSize, h.blocksCount, h.mapLength, h.placed, h.hasJournal, h.mapped,
    h.onDevice, h.superblock⟩

theorem publish_error (w w' : JournalWriter) (step : DevIo Unit)
    (rest : List (JournalWriter × DevIo Unit)) (d d' : Disk) (e : Error)
    (h : step.exec d = (.error e, d')) :
    (publish ((w', step) :: rest) w).exec d =
      (.ok (.error e, { w' with healthy := false }), d') := by
  rw [publish, Io.exec_bind, Io.exec_attempt, h]
  rfl

theorem logStep_refused (crc : Crc) (fs : Filesystem) (w : JournalWriter)
    (hbs : w.blockSize = fs.sb.blockSize) (hbc : w.blocksCount = fs.sb.blocksCount) (d : Disk)
    (blocks : List Bytes) (hne : blocks ≠ []) (hout : ¬ InVolume fs (w.journalBlock 1)) :
    ∃ e, (w.logStep crc fs.sizeBytes blocks).exec d = (.error e, d) := by
  obtain ⟨e, he⟩ := byteOffsetOf_error fs (w.journalBlock 1) hout
  cases blocks with
  | nil => exact absurd rfl hne
  | cons b rest =>
    refine ⟨e, ?_⟩
    have hoff : byteOffsetIn (w.physicalMap.getD 1 0) w.blocksCount w.blockSize fs.sizeBytes =
        .error e := by
      rw [hbs, hbc]
      exact he
    have hb : (w.writeBlockAt fs.sizeBytes (w.physicalMap.getD 1 0) b).exec d = (.error e, d) := by
      unfold writeBlockAt
      rw [hoff]
      rfl
    unfold logStep writeLog
    rw [Io.exec_bind_error _ _ _ _ e]
    rw [Io.exec_bind_error _ _ _ _ _ hb]

theorem readSuperblock_runs (fs : Filesystem) (map : Nat → Nat) (jinode : Inode)
    (d : Disk) (n : Nat)
    (hn : 0 < n) (h0 : fs.sb.journalInode ≠ 0) (hm : Mapped fs (· < n) map jinode d)
    (hdev : map 0 * fs.sb.blockSize + fs.sb.blockSize ≤ d.size) (jsb : JournalSuperblock)
    (hparse : JournalSuperblock.parse (d.img.block fs.sb.blockSize (map 0)) = .ok jsb) :
    fs.readSuperblock.Runs d (some jsb) [] := by
  apply (readSuperblock_readsBlocks fs).runs
  unfold Filesystem.readSuperblock
  rw [if_neg h0, Io.exec_bind_ok _ _ _ _ _ hm.1, Io.exec_bind_ok _ _ _ _ _ (hm.2 0 hn)]
  dsimp only
  rw [Io.exec_bind_ok _ _ _ _ _ (exec_readAt d _ _ hdev)]
  change (liftM (JournalSuperblock.parse (d.img.block fs.sb.blockSize (map 0))) >>= _ :
    DevIo _).exec d = _
  rw [hparse]
  rfl

end JournalWriter

namespace JournalWriter

theorem prepare_maxLen (crc : Crc) (w : JournalWriter) (isWritable : Bool) (tx tx' : Transaction)
    (blocks : List Bytes) (h : w.prepare crc isWritable tx = .ok (tx', blocks)) :
    1 < w.jsb.maxLen.toNat := by
  unfold prepare at h
  split at h
  · exact absurd h (by simp)
  split at h
  · exact absurd h (by simp)
  split at h
  · exact absurd h (by simp)
  split at h
  · exact absurd h (by simp)
  dsimp only at h
  split at h
  · exact absurd h (by simp)
  rename_i bs hc
  split at h
  · exact absurd h (by simp)
  rename_i hfit
  have hacc := Transaction.accepted_of_commitFor crc w.jsb _ _ hc
  rw [Transaction.commitFor_accepted crc w.jsb _ hacc] at hc
  have hpos := List.length_pos_of_ne_nil (Transaction.serialize_ne_nil crc _ _ bs hc)
  unfold maxBlocksPerTransaction at hfit
  omega

/-- The condition under which a commit can be recovered: it is refused before its first write, or
the journal and the transaction are ones that replay reads the way commit writes. -/
def RecoverableWhen (crc : Crc) (fs : Filesystem) (w : JournalWriter) (d : Disk)
    (tx : Transaction) : Prop :=
  match w.prepare crc fs.isWritable tx with
  | .error _ => True
  | .ok (tx', blocks) => ¬ InVolume fs (w.journalBlock 1) ∨ Sound crc fs w d tx' blocks

section Recover

variable {crc : Crc} {fs : Filesystem} {w : JournalWriter} {d : Disk} {tx : Transaction}
  {blocks : List Bytes}

theorem Sound.runs (h : Sound crc fs w d tx blocks) (hatt : Attached fs w d)
    (hprep : Prepared crc w tx blocks) (hwr : fs.isWritable = true) (hdesc : 0 < fs.sb.descSize)
    (h64 : fs.sizeBytes < 2 ^ 64) :
    (w.logStep crc fs.sizeBytes blocks).Runs d ()
        (writeEvs (loggingWrites crc fs w blocks d.img) ++ [.flush]) ∧
      (w.dirtyStep crc).Runs { d with img := d.img.writeAll (loggingWrites crc fs w blocks d.img) }
        ()
        (writeEvs [(w.journalBlock 0 * fs.sb.blockSize, dirtyBlock crc fs w d.img)] ++ [.flush]) ∧
      (w.finalStep fs.sizeBytes tx).Runs (dirtied crc fs w blocks d) ()
        (writeEvs (atOffsets fs.sb.blockSize tx.finalWrites) ++ [.flush]) ∧
      ∃ n, (replayLog crc fs).Runs (dirtied crc fs w blocks d) n
        (replayEvs fs.sb.blockSize tx) := by
  have hpos := hprep.maxLen_pos
  have hfit := hprep.fits
  obtain ⟨jsb, hparse, hfixed, hseq, hlen, hlogged, hsame⟩ :=
    logged_of_steps hatt hprep hdesc h.distinct h.first
  have hmax : jsb.maxLen = w.jsb.maxLen := congrArg (·.maxLen) hfixed
  obtain ⟨jinode, hm⟩ := h.mapping (dirtied crc fs w blocks d) rfl
    (dirtiedImage_frame fs (length_flagged crc d.img) hlen (lengths_blocks hatt hprep))
  have hvol : ∀ j, 1 ≤ j → j ≤ blocks.length → InVolume fs (w.journalBlock j) := by
    intro j _ hj
    exact ⟨(hatt.placed _ (journalBlock_mem hatt.mapLength j (by omega))).2, by
      rw [← hatt.size]
      exact h.onDevice j hj⟩
  obtain ⟨hquiet, hreads⟩ := h.behind (logOf fs w.journalBlock (dirtied crc fs w blocks d)) hsame
  obtain ⟨hundisturbed, hsameReads⟩ := @behind_congr crc jsb w.jsb
    (logOf fs w.journalBlock (dirtied crc fs w blocks d)) tx blocks.length hfixed hseq
  obtain ⟨plan, hwalk, happly⟩ := hlogged.replays (h.addressed.congr hfixed) hwr hatt.size h64
    (hm.mono fun j hj => by rw [← hmax]; exact hj.2) hvol h.outside (hundisturbed.mpr hquiet)
    (by rwa [hsameReads])
  have hread := readSuperblock_runs fs w.journalBlock jinode (dirtied crc fs w blocks d) _
    (Nat.zero_lt_of_lt hpos) hatt.hasJournal hm hatt.onDevice jsb
    (by rw [dirtied, block_jsb fs hlen]; exact hparse)
  refine ⟨logging_runs hatt hprep hdesc h64 h.onDevice, dirtying_runs hatt hprep hdesc h.distinct,
    ?_, plan.writes.length, ?_⟩
  · apply finalStep_runs (d := dirtied crc fs w blocks d) hatt.blockSize hatt.blocksCount
      hatt.size h64
    intro v hv
    exact ⟨h.addressed.inVolume v hv, by rw [hprep.lengths v hv, hatt.blockSize]⟩
  · exact hread.bind_silent (hwalk.bind_silent happly)

theorem Sound.cleaning_runs (h : Sound crc fs w d tx blocks) (hatt : Attached fs w d)
    (hprep : Prepared crc w tx blocks) (hdesc : 0 < fs.sb.descSize) :
    ∃ evs, (w.cleanStep crc).Runs { (dirtied crc fs w blocks d) with
      img := (dirtied crc fs w blocks d).img.writeBlocks fs.sb.blockSize tx.finalWrites }
          () evs := by
  obtain ⟨jsb, hparse, hfixed, -, hlen, -, -⟩ := logged_of_steps hatt hprep hdesc h.distinct h.first
  have hblock : ((dirtied crc fs w blocks d).img.writeBlocks fs.sb.blockSize tx.finalWrites).block
      fs.sb.blockSize (w.journalBlock 0) = dirtyBlock crc fs w d.img := by
    rw [Image.block_writeBlocks, lastWrite_eq_none, Option.getD_none, dirtied, block_jsb fs hlen]
    · intro v hv
      obtain ⟨u, hu, rfl⟩ := List.mem_map.mp hv
      exact (h.outside u hu 0 (Nat.zero_le _)).symm
    · intro v hv
      obtain ⟨u, hu, rfl⟩ := List.mem_map.mp hv
      rw [hprep.lengths u hu, hatt.blockSize]
  have hdev : 2048 ≤ d.size := device_holds_superblock hatt hprep hdesc
  exact ⟨_, cleanStep_runs crc hatt.blockSize hdev hatt.onDevice jsb (by rw [hblock]; exact hparse)
    hfixed⟩

end Recover

end JournalWriter

namespace JournalWriter

def smallWriter (features start sequence : UInt32) : JournalWriter where
  healthy := true
  holdNeedsRecovery := false
  physicalMap := [16, 17, 18, 19, 20, 21, 22, 23]
  blockSize := 1024
  jsb := smallJsb features start sequence
  blocksCount := 32

def zeroLog (_ : Nat) : Bytes := List.replicate 1024 0

def smallClean : Disk := smallDisk (withJsb 0 0 7 zeroLog)

example : (smallClean.img.read (2 * 1024) 1024).length = 1024 := by decide +kernel

theorem smallClean_opens :
    (openWriter smallVolume).exec smallClean = (.ok (some (smallWriter 0 0 7)), smallClean) := by
  have h : ((openWriter smallVolume).exec smallClean).1 = .ok (some (smallWriter 0 0 7)) := by
    decide +kernel
  rcases he : (openWriter smallVolume).exec smallClean with ⟨r, d'⟩
  rw [he] at h
  dsimp only at h
  subst h
  rw [(attached_of_open smallVolume smallClean d' _ he rfl (by decide)).1]

def strayTransaction : Transaction where
  sequence := 7
  blockSize := 1024
  uses64bit := false
  usesCsumV3 := false
  writes := [⟨40, List.replicate 1024 9⟩]
  revokes := []

def strayCommit : Result (Result Unit × JournalWriter) × Disk :=
  ((smallWriter 0 0 7).commit linuxCrc32c smallVolume.sizeBytes smallVolume.isWritable
    strayTransaction).exec smallClean

theorem smallWriter_journalBlock (features start sequence : UInt32) (j : Nat) (hj : j < 8) :
    (smallWriter features start sequence).journalBlock j = 16 + j := by
  have h : ∀ j, j < 8 → [16, 17, 18, 19, 20, 21, 22, 23].getD j 0 = 16 + j := by decide
  exact h j hj

theorem smallWriter_mapped (features start sequence : UInt32) (d : Disk) (hd : d.size = 32768)
    (ht : d.img.read 5120 1024 = smallInodeTable) :
    Mapped smallVolume (· < 8) (smallWriter features start sequence).journalBlock
      smallJournalInode d := by
  obtain ⟨h1, h2⟩ := smallVolume_mapped d hd ht
  refine ⟨h1, ?_⟩
  intro j hj
  rw [smallWriter_journalBlock features start sequence j hj]
  exact h2 j hj

/-- Two writes, one of a block that starts with the magic, and a revoke of a third block. -/
def smallCommitted : Transaction where
  sequence := 7
  blockSize := 1024
  uses64bit := false
  usesCsumV3 := false
  writes := [⟨30, u32be magicNumber ++ List.replicate 1020 7⟩, ⟨31, List.replicate 1024 9⟩]
  revokes := [12]

theorem smallClean_log (j : Nat) (h1 : 1 ≤ j) (h8 : j < 8) :
    logOf smallVolume (smallWriter 0 0 7).journalBlock smallClean j = List.replicate 1024 0 := by
  have hl : logOf smallVolume (16 + ·) smallClean j = withJsb 0 0 7 zeroLog j := by
    apply smallDisk_logOf _ j h8
    unfold withJsb
    rw [if_neg (by omega)]
    exact List.length_replicate
  unfold logOf at hl ⊢
  rw [smallWriter_journalBlock 0 0 7 j h8, hl]
  unfold withJsb
  rw [if_neg (by omega)]
  rfl

theorem smallCommitted_replayable :
    Replayable smallVolume (smallWriter 0 0 7).journalBlock (smallWriter 0 0 7).jsb
      smallCommitted := by
  have hrevoke : ∀ v ∈ smallCommitted.writes,
      Transaction.named (smallWriter 0 0 7).jsb 12 ≠ v.fsBlock := by decide
  refine ⟨⟨by decide, by decide, ?_⟩, ?_⟩
  · intro v hv
    exact List.forall_mem_singleton.2 (hrevoke v hv)
  · intro v hv j hj
    have hb : v.fsBlock.toNat = 30 ∨ v.fsBlock.toNat = 31 := by
      simp only [smallCommitted, List.mem_cons, List.not_mem_nil, or_false] at hv
      obtain rfl | rfl := hv
      · left; rfl
      · right; rfl
    change j < 8 at hj
    rw [smallWriter_journalBlock 0 0 7 j hj]
    omega

theorem smallCommitted_sound (blocks : List Bytes) (hn : blocks.length ≤ 7) :
    Sound linuxCrc32c smallVolume (smallWriter 0 0 7) smallClean smallCommitted blocks := by
  have hjb := smallWriter_journalBlock 0 0 7
  have hdev : ∀ j < 8, OnDevice smallVolume (smallWriter 0 0 7).journalBlock smallClean
    j := by decide
  refine ⟨rfl, fun j hj => hdev j (by omega), ?_, ?_, smallCommitted_replayable.toAddressed, ?_, ?_⟩
  · intro i j hi hj hne
    rw [hjb i (by omega), hjb j (by omega)]
    omega
  · refine quietBehind_of_noHeader smallCommitted rfl (fun hlt => ?_) (by decide)
    change blocks.length < 7 at hlt
    refine ⟨hdev _ (by omega), fun i hi => ?_, fun hdr hh => ?_⟩
    · rw [hjb i (by omega), hjb _ (by omega)]
      omega
    · have hl := smallClean_log (1 + blocks.length) (by omega) (by omega)
      have hnone : tryParseHeader (List.replicate 1024 0) = none := by decide +kernel
      rw [hl, hnone] at hh
      exact absurd hh (by simp)
  · intro v hv j hj
    refine smallCommitted_replayable.outside v hv j ?_
    change j < 8
    omega
  · intro d' hd hsame
    refine ⟨_, smallWriter_mapped 0 0 7 d' hd ?_⟩
    rw [← smallDisk_inodeTable (withJsb 0 0 7 zeroLog)]
    apply Image.read_congr
    intro p hp1 hp2
    apply hsame
    rintro (⟨-, hc⟩ | ⟨j, hj, hc1, hc2⟩)
    · change p < 1024 + 1024 at hc
      omega
    · change (smallWriter 0 0 7).journalBlock j * 1024 ≤ p at hc1
      rw [hjb j (by omega)] at hc1
      omega

end JournalWriter

end FsExt4
