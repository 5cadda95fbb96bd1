import FsExt4.JournalRoundTrip

namespace FsExt4.Journal

open Lib Jbd2

section Tail

variable (crc : Crc) (jsb : JournalSuperblock) (log : Nat → Bytes) (sequence : UInt32)

def blockAt (i : Nat) : Bytes := log (advance jsb.start.toNat i jsb)

def HeaderAt (i : Nat) (blockType : UInt32) : Prop :=
  tryParseHeader (blockAt jsb log i) = some ⟨blockType, sequence⟩

def tagsAt (i : Nat) : Result (List (ReplayEntry × UInt32) × Nat) :=
  parseDescriptorTags jsb (blockAt jsb log i) (advance jsb.start.toNat i jsb) sequence

/-- The places at which a transaction laid from `origin` on has its descriptor and revoke blocks,
as their own tags lay it out. -/
inductive Meets (origin : Nat) : Nat → Prop
  | first : Meets origin origin
  | descriptor (i : Nat) (tags : List (ReplayEntry × UInt32)) (cur : Nat) : Meets origin i →
      i < capacity jsb → HeaderAt jsb log sequence i descriptorBlock →
      tagsAt jsb log sequence i = .ok (tags, cur) → Meets origin (i + 1 + tags.length)
  | revoke (i : Nat) : Meets origin i → i < capacity jsb →
      HeaderAt jsb log sequence i revokeBlock → Meets origin (i + 1)

/-- A transaction without a sound commit block, each of its descriptor and revoke blocks either
intact or failing its tail checksum. -/
structure Unfinished (origin : Nat) : Prop where
  uncommitted : ∀ i, Meets jsb log sequence origin i → i < capacity jsb →
    HeaderAt jsb log sequence i commitBlock → commitTorn crc jsb (blockAt jsb log i) = true
  descriptors : ∀ i, Meets jsb log sequence origin i → i < capacity jsb →
    HeaderAt jsb log sequence i descriptorBlock → torn crc jsb (blockAt jsb log i) = true ∨
      ∃ tags cur, tagsAt jsb log sequence i = .ok (tags, cur) ∧ i + 1 + tags.length ≤ capacity jsb
  revokes : ∀ i, Meets jsb log sequence origin i → i < capacity jsb →
    HeaderAt jsb log sequence i revokeBlock → torn crc jsb (blockAt jsb log i) = true ∨
      (u32beAt (blockAt jsb log i) 12).toNat ≤ usable jsb (blockAt jsb log i)

/-- What the torn blocks happen to hold stays in bounds: no torn descriptor tags more blocks than
the ring has left, and no torn revoke block counts more bytes than it has. -/
structure TornInBounds (origin : Nat) : Prop where
  descriptors : ∀ i, Meets jsb log sequence origin i → i < capacity jsb →
    HeaderAt jsb log sequence i descriptorBlock → torn crc jsb (blockAt jsb log i) = true →
      ∀ tags cur, tagsAt jsb log sequence i = .ok (tags, cur) → i + 1 + tags.length ≤ capacity jsb
  revokes : ∀ i, Meets jsb log sequence origin i → i < capacity jsb →
    HeaderAt jsb log sequence i revokeBlock → torn crc jsb (blockAt jsb log i) = true →
      (u32beAt (blockAt jsb log i) 12).toNat ≤ usable jsb (blockAt jsb log i)

/-- The walk stands at place `i` of the unfinished transaction, with `plan` made before it. -/
structure TailState (plan : ReplayPlan) (i : Nat) (st : WalkState) : Prop where
  walked : st.plan.blocksWalked = i
  cur : st.cur = advance jsb.start.toNat i jsb
  expectSeq : st.expectSeq = sequence
  writes : st.plan.writes = plan.writes
  revokes : st.plan.revokes = plan.revokes
  nextSequence : st.plan.nextSequence = plan.nextSequence

variable {crc jsb log sequence}

theorem scanStep_refuses (limit : Nat) (st : WalkState) (blockType : UInt32) (e : Error)
    (hh : tryParseHeader (log st.cur) = some ⟨blockType, st.expectSeq⟩)
    (harm : scanArm crc jsb log limit blockType (log st.cur) st.counted = .error e) :
    scanStep crc jsb log limit st = .error e := by
  have hseq : ¬ (st.expectSeq ≠ st.counted.expectSeq) := fun h => h rfl
  rw [scanStep, hh]
  dsimp only
  rw [if_neg hseq, harm]

theorem scanStep_goes_on (limit : Nat) (st st' : WalkState) (blockType : UInt32)
    (hh : tryParseHeader (log st.cur) = some ⟨blockType, st.expectSeq⟩)
    (harm : scanArm crc jsb log limit blockType (log st.cur) st.counted = .ok (some st')) :
    scanStep crc jsb log limit st = .ok ({ st' with cur := advance st'.cur 1 jsb }, true) := by
  have hseq : ¬ (st.expectSeq ≠ st.counted.expectSeq) := fun h => h rfl
  rw [scanStep, hh]
  dsimp only
  rw [if_neg hseq, harm]

section Step

variable {plan : ReplayPlan} {i : Nat} {st : WalkState}

theorem tail_descriptor (hs : InRing jsb jsb.start.toNat) (hst : TailState jsb sequence plan i st)
    (hh : HeaderAt jsb log sequence i descriptorBlock) (tags : List (ReplayEntry × UInt32))
    (cur : Nat) (htags : tagsAt jsb log sequence i = .ok (tags, cur)) :
    (capacity jsb < i + 1 + tags.length →
      ∃ e, scanStep crc jsb log (capacity jsb) st = .error e) ∧
    (i + 1 + tags.length ≤ capacity jsb → ∃ st',
      scanStep crc jsb log (capacity jsb) st = .ok (st', true) ∧
        TailState jsb sequence plan (i + 1 + tags.length) st') := by
  have hb : log st.cur = blockAt jsb log i := by rw [hst.cur]; rfl
  have hcur : cur = advance (advance jsb.start.toNat i jsb) tags.length jsb :=
    parseTags_cursor _ _ _ _ tags cur (advance_inRing hs i) htags
  have hp : parseDescriptorTags jsb (blockAt jsb log i) st.counted.cur st.counted.expectSeq =
      .ok (tags, cur) := by
    have h1 : st.counted.cur = advance jsb.start.toNat i jsb := hst.cur
    have h2 : st.counted.expectSeq = sequence := hst.expectSeq
    rw [h1, h2]
    exact htags
  have hw : st.counted.plan.blocksWalked = i + 1 := by rw [← hst.walked]; rfl
  have hh' : tryParseHeader (log st.cur) = some ⟨descriptorBlock, st.expectSeq⟩ := by
    rw [hb, hst.expectSeq]
    exact hh
  constructor
  · intro hover
    refine ⟨_, scanStep_refuses (capacity jsb) st descriptorBlock
      (.corrupt "journal transaction exceeds ring") hh' ?_⟩
    rw [scanArm, if_pos rfl, hb, scanDescriptor, hp]
    dsimp only
    rw [hw, if_pos hover]
  · intro hfit
    have harm : scanArm crc jsb log (capacity jsb) descriptorBlock (log st.cur) st.counted =
        .ok (some (tags.foldl (checkTag crc jsb log)
          { st.counted.noteTorn (torn crc jsb (blockAt jsb log i))
              "journal descriptor block of a committed transaction" with
            cur := cur
            plan := { st.counted.plan with blocksWalked := i + 1 + tags.length } })) := by
      rw [scanArm, if_pos rfl, hb, scanDescriptor, hp]
      dsimp only
      rw [hw, if_neg (by omega), noteTorn_plan]
    refine ⟨_, scanStep_goes_on (capacity jsb) st _ descriptorBlock hh' harm, ?_⟩
    obtain ⟨h1, h2, h3, -, -⟩ := @foldl_checkTag_cur crc jsb log tags
      { st.counted.noteTorn (torn crc jsb (blockAt jsb log i))
          "journal descriptor block of a committed transaction" with
        cur := cur
        plan := { st.counted.plan with blocksWalked := i + 1 + tags.length } }
    constructor
    · dsimp only
      rw [h2]
    · dsimp only
      rw [h1, hcur, advance_advance (advance_inRing hs i), advance_advance hs]
      congr 1
      omega
    · dsimp only
      rw [h3, noteTorn_expectSeq]
      exact hst.expectSeq
    · dsimp only
      rw [h2]
      exact hst.writes
    · dsimp only
      rw [h2]
      exact hst.revokes
    · dsimp only
      rw [h2]
      exact hst.nextSequence

theorem tail_revoke (hs : InRing jsb jsb.start.toNat) (hst : TailState jsb sequence plan i st)
    (hlen : 16 ≤ (blockAt jsb log i).length) (hh : HeaderAt jsb log sequence i revokeBlock) :
    (usable jsb (blockAt jsb log i) < (u32beAt (blockAt jsb log i) 12).toNat →
      ∃ e, scanStep crc jsb log (capacity jsb) st = .error e) ∧
    ((u32beAt (blockAt jsb log i) 12).toNat ≤ usable jsb (blockAt jsb log i) → ∃ st',
      scanStep crc jsb log (capacity jsb) st = .ok (st', true) ∧
        TailState jsb sequence plan (i + 1) st') := by
  have hb : log st.cur = blockAt jsb log i := by rw [hst.cur]; rfl
  have hh' : tryParseHeader (log st.cur) = some ⟨revokeBlock, st.expectSeq⟩ := by
    rw [hb, hst.expectSeq]
    exact hh
  constructor
  · intro hover
    refine ⟨_, scanStep_refuses (capacity jsb) st revokeBlock
      (.corrupt "journal revoke block count exceeds the block") hh' ?_⟩
    rw [scanArm, if_neg (by decide), if_neg (by decide), if_pos rfl, hb, walkRevoke,
      parseRevokeBlock, if_neg (by omega)]
    dsimp only
    rw [if_pos hover]
  · intro hfit
    have hp : ∃ revokes, parseRevokeBlock jsb (blockAt jsb log i) sequence = .ok revokes := by
      rw [parseRevokeBlock, if_neg (by omega)]
      dsimp only
      rw [if_neg (by omega)]
      exact ⟨_, rfl⟩
    obtain ⟨revokes, hp⟩ := hp
    have harm : scanArm crc jsb log (capacity jsb) revokeBlock (log st.cur) st.counted =
        .ok (some { st.counted.noteTorn (torn crc jsb (blockAt jsb log i))
            "journal revoke block of a committed transaction" with
          pendingRevokes := st.pendingRevokes ++ revokes }) := by
      have hp' : parseRevokeBlock jsb (blockAt jsb log i)
          (st.counted.noteTorn (torn crc jsb (blockAt jsb log i))
            "journal revoke block of a committed transaction").expectSeq = .ok revokes := by
        rw [noteTorn_expectSeq, show st.counted.expectSeq = sequence from hst.expectSeq]
        exact hp
      rw [scanArm, if_neg (by decide), if_neg (by decide), if_pos rfl, hb, walkRevoke, hp']
      simp only [noteTorn_pendingRevokes]
      rfl
    refine ⟨_, scanStep_goes_on (capacity jsb) st _ revokeBlock hh' harm, ?_⟩
    constructor
    · simp [WalkState.counted, hst.walked]
    · dsimp only
      rw [noteTorn_cur, show st.counted.cur = advance jsb.start.toNat i jsb from hst.cur,
        advance_advance hs]
    · dsimp only
      rw [noteTorn_expectSeq]
      exact hst.expectSeq
    · dsimp only
      rw [noteTorn_plan]
      exact hst.writes
    · dsimp only
      rw [noteTorn_plan]
      exact hst.revokes
    · dsimp only
      rw [noteTorn_plan]
      exact hst.nextSequence

theorem tail_end (hst : TailState jsb sequence plan i st)
    (hcommit : HeaderAt jsb log sequence i commitBlock →
      commitTorn crc jsb (blockAt jsb log i) = true)
    (hdescr : HeaderAt jsb log sequence i descriptorBlock →
      torn crc jsb (blockAt jsb log i) = true ∧ ∃ e, tagsAt jsb log sequence i = .error e)
    (hrevoke : ¬ HeaderAt jsb log sequence i revokeBlock) :
    scanStep crc jsb log (capacity jsb) st = .ok (st.counted, false) := by
  have hb : log st.cur = blockAt jsb log i := by rw [hst.cur]; rfl
  have hseq : st.counted.expectSeq = sequence := hst.expectSeq
  rw [scanStep, hb]
  cases hh : tryParseHeader (blockAt jsb log i) with
  | none => rfl
  | some hdr =>
    obtain ⟨t, s⟩ := hdr
    dsimp only
    split
    · rfl
    · rename_i heq
      rw [hseq, ne_eq, not_not] at heq
      subst heq
      have harm : scanArm crc jsb log (capacity jsb) t (blockAt jsb log i) st.counted =
          .ok none := by
        unfold scanArm
        split
        · rename_i ht
          subst ht
          obtain ⟨h1, e, h2⟩ := hdescr hh
          have hp : parseDescriptorTags jsb (blockAt jsb log i) st.counted.cur
              st.counted.expectSeq = .error e := by
            rw [hseq, show st.counted.cur = advance jsb.start.toNat i jsb from hst.cur]
            exact h2
          rw [scanDescriptor, hp]
          dsimp only
          rw [if_pos h1]
        · split
          · rename_i ht
            subst ht
            rw [walkCommit, if_pos (hcommit hh)]
          · split
            · rename_i ht
              subst ht
              exact absurd hh hrevoke
            · rfl
      rw [harm]

end Step

variable {plan : ReplayPlan} {origin : Nat} {st₀ : WalkState}

theorem tail_arrives (hs : InRing jsb jsb.start.toNat) (hlen : ∀ i, 16 ≤ (blockAt jsb log i).length)
    (h₀ : TailState jsb sequence plan origin st₀) (i : Nat) (hm : Meets jsb log sequence origin i) :
    (∃ e, scan crc jsb log (capacity jsb) st₀ = .error e) ∨
      ∃ st, TailState jsb sequence plan i st ∧
        scan crc jsb log (capacity jsb) st₀ = scan crc jsb log (capacity jsb) st := by
  induction hm with
  | first => exact Or.inr ⟨st₀, h₀, rfl⟩
  | descriptor i tags cur _ hi hh htags ih =>
    obtain he | ⟨st, hst, hscan⟩ := ih
    · exact Or.inl he
    · have hcur : InRing jsb st.cur := by rw [hst.cur]; exact advance_inRing hs i
      have hstep := @scan_step crc jsb log (capacity jsb) st hcur (by rw [hst.walked]; exact hi)
      obtain ⟨hbad, hgood⟩ := @tail_descriptor crc jsb log sequence plan i st hs hst hh
        tags cur htags
      by_cases hfit : i + 1 + tags.length ≤ capacity jsb
      · obtain ⟨st', h1, h2⟩ := hgood hfit
        refine Or.inr ⟨st', h2, ?_⟩
        rw [hscan, hstep, h1]
        rfl
      · obtain ⟨e, h1⟩ := hbad (by omega)
        refine Or.inl ⟨e, ?_⟩
        rw [hscan, hstep, h1]
  | revoke i _ hi hh ih =>
    obtain he | ⟨st, hst, hscan⟩ := ih
    · exact Or.inl he
    · have hcur : InRing jsb st.cur := by rw [hst.cur]; exact advance_inRing hs i
      have hstep := @scan_step crc jsb log (capacity jsb) st hcur (by rw [hst.walked]; exact hi)
      obtain ⟨hbad, hgood⟩ := @tail_revoke crc jsb log sequence plan i st hs hst (hlen i) hh
      by_cases hfit : (u32beAt (blockAt jsb log i) 12).toNat ≤ usable jsb (blockAt jsb log i)
      · obtain ⟨st', h1, h2⟩ := hgood hfit
        refine Or.inr ⟨st', h2, ?_⟩
        rw [hscan, hstep, h1]
        rfl
      · obtain ⟨e, h1⟩ := hbad (by omega)
        refine Or.inl ⟨e, ?_⟩
        rw [hscan, hstep, h1]

theorem tail_runs_out (hs : InRing jsb jsb.start.toNat)
    (hlen : ∀ i, 16 ≤ (blockAt jsb log i).length) (hu : Unfinished crc jsb log sequence origin)
    (hb : TornInBounds crc jsb log sequence origin) (left i : Nat) (st : WalkState)
    (hleft : capacity jsb ≤ i + left) (hm : Meets jsb log sequence origin i)
    (hst : TailState jsb sequence plan i st) :
    ∃ st', scan crc jsb log (capacity jsb) st = .ok st' ∧ st'.plan.writes = plan.writes ∧
      st'.plan.revokes = plan.revokes ∧ st'.plan.nextSequence = plan.nextSequence := by
  induction left generalizing i st with
  | zero =>
    refine ⟨st, scan_done _ st ?_, hst.writes, hst.revokes, hst.nextSequence⟩
    rw [hst.walked]
    exact hleft
  | succ left ih =>
    by_cases hi : i < capacity jsb
    · have hcur : InRing jsb st.cur := by rw [hst.cur]; exact advance_inRing hs i
      have hstep := @scan_step crc jsb log (capacity jsb) st hcur (by rw [hst.walked]; exact hi)
      by_cases hr : HeaderAt jsb log sequence i revokeBlock
      · have hcount : (u32beAt (blockAt jsb log i) 12).toNat ≤ usable jsb (blockAt jsb log i) := by
          obtain ht | hc := hu.revokes i hm hi hr
          · exact hb.revokes i hm hi hr ht
          · exact hc
        obtain ⟨st', h1, h2⟩ :=
          (@tail_revoke crc jsb log sequence plan i st hs hst (hlen i) hr).2 hcount
        rw [hstep, h1]
        exact ih (i + 1) st' (by omega) (Meets.revoke i hm hi hr) h2
      · by_cases hd : HeaderAt jsb log sequence i descriptorBlock ∧
            ∃ tags cur, tagsAt jsb log sequence i = .ok (tags, cur)
        · obtain ⟨hd, tags, cur, htags⟩ := hd
          have hfit : i + 1 + tags.length ≤ capacity jsb := by
            obtain ht | ⟨tags', cur', ht', hf⟩ := hu.descriptors i hm hi hd
            · exact hb.descriptors i hm hi hd ht tags cur htags
            · rw [htags] at ht'
              obtain ⟨rfl, -⟩ := Prod.mk.inj (Except.ok.inj ht')
              exact hf
          obtain ⟨st', h1, h2⟩ :=
            (@tail_descriptor crc jsb log sequence plan i st hs hst hd tags cur htags).2 hfit
          rw [hstep, h1]
          exact ih _ st' (by omega) (Meets.descriptor i tags cur hm hi hd htags) h2
        · -- nothing the walk goes on from: a torn descriptor without tags, a torn commit, the end
          have hend := @tail_end crc jsb log sequence plan i st hst (hu.uncommitted i hm hi) (by
            intro hh
            have hnone : ∀ tags cur, tagsAt jsb log sequence i ≠ .ok (tags, cur) :=
              fun tags cur ht => hd ⟨hh, tags, cur, ht⟩
            refine ⟨?_, ?_⟩
            · obtain ht | ⟨tags, cur, ht, -⟩ := hu.descriptors i hm hi hh
              · exact ht
              · exact absurd ht (hnone tags cur)
            · cases htags : tagsAt jsb log sequence i with
              | error e => exact ⟨e, rfl⟩
              | ok r => exact absurd htags (hnone r.1 r.2)) hr
          rw [hstep, hend]
          exact ⟨st.counted, rfl, hst.writes, hst.revokes, hst.nextSequence⟩
    · refine ⟨st, scan_done _ st ?_, hst.writes, hst.revokes, hst.nextSequence⟩
      rw [hst.walked]
      omega

theorem tail_inBounds (hs : InRing jsb jsb.start.toNat)
    (hlen : ∀ i, 16 ≤ (blockAt jsb log i).length) (h₀ : TailState jsb sequence plan origin st₀)
    (st' : WalkState) (hok : scan crc jsb log (capacity jsb) st₀ = .ok st') :
    TornInBounds crc jsb log sequence origin := by
  have harrive : ∀ i, Meets jsb log sequence origin i → i < capacity jsb →
      ∃ st, TailState jsb sequence plan i st ∧
        ∀ e, scanStep crc jsb log (capacity jsb) st ≠ .error e := by
    intro i hm hi
    obtain ⟨e, he⟩ | ⟨st, hst, hscan⟩ :=
      @tail_arrives crc jsb log sequence plan origin st₀ hs hlen h₀ i hm
    · exact absurd (hok.symm.trans he) (by simp)
    · refine ⟨st, hst, ?_⟩
      intro e he
      have hcur : InRing jsb st.cur := by rw [hst.cur]; exact advance_inRing hs i
      rw [scan_step _ st hcur (by rw [hst.walked]; exact hi), he] at hscan
      exact absurd (hok.symm.trans hscan) (by simp)
  constructor
  · intro i hm hi hh _ tags cur htags
    by_contra hover
    obtain ⟨st, hst, hne⟩ := harrive i hm hi
    obtain ⟨e, he⟩ :=
      (@tail_descriptor crc jsb log sequence plan i st hs hst hh tags cur htags).1 (by omega)
    exact hne e he
  · intro i hm hi hh _
    by_contra hover
    obtain ⟨st, hst, hne⟩ := harrive i hm hi
    obtain ⟨e, he⟩ :=
      (@tail_revoke crc jsb log sequence plan i st hs hst (hlen i) hh).1 (by omega)
    exact hne e he

end Tail

def committedPlan (jsb : JournalSuperblock) (ts : List LogTransaction) : ReplayPlan where
  writes := logEntries jsb jsb.sequence jsb.start.toNat ts
  revokes := logRevokes jsb.sequence ts
  nextSequence := if ts = [] then none else some (sequenceAfterAll jsb.sequence ts)

/-- The walk succeeds with the writes and revokes of the committed transactions. -/
def RecoversCommitted (crc : Crc) (fs : Filesystem) (jsb : JournalSuperblock) (d : Disk)
    (ts : List LogTransaction) : Prop :=
  ∃ plan, (walk crc fs jsb).exec d = (.ok plan, d) ∧
    plan.writes = (committedPlan jsb ts).filterRevoked.writes ∧
    plan.revokes = (committedPlan jsb ts).revokes ∧
    plan.nextSequence = (committedPlan jsb ts).nextSequence

theorem LogOnDisk.length {fs : Filesystem} {jsb : JournalSuperblock} {d : Disk} {log : Nat → Bytes}
    (h : LogOnDisk fs jsb d log) (j : Nat) (hj : InRing jsb j) :
    (log j).length = jsb.blockSize.toNat := by
  obtain ⟨jinode, -, hrd⟩ := h
  have hr := hrd j hj
  unfold readJournalBlock at hr
  rw [Io.exec_bind] at hr
  split at hr
  · rename_i r d' _
    cases r with
    | none => exact absurd (congrArg Prod.fst hr) (by simp)
    | some phys =>
      dsimp only at hr
      by_cases hfit : phys * jsb.blockSize.toNat + jsb.blockSize.toNat ≤ d'.size
      · rw [exec_readAt _ _ _ hfit] at hr
        rw [← Except.ok.inj (congrArg Prod.fst hr), Image.length_read]
      · rw [exec_readAt_past _ _ _ hfit] at hr
        exact absurd (congrArg Prod.fst hr) (by simp)
  · exact absurd (congrArg Prod.fst hr) (by simp)

theorem tailState_start {crc : Crc} {jsb : JournalSuperblock} {log : Nat → Bytes}
    (hg : Geometry jsb) (ts : List LogTransaction) (ht : AllCommitted crc jsb jsb.sequence ts)
    (hlog : Holds jsb log jsb.start.toNat (logBlocks ts))
    (hfit : (logBlocks ts).length ≤ capacity jsb) :
    ∃ st, scan crc jsb log (capacity jsb) (WalkState.start jsb) =
        scan crc jsb log (capacity jsb) st ∧
      TailState jsb (sequenceAfterAll jsb.sequence ts) (committedPlan jsb ts)
        (logBlocks ts).length st := by
  have hcur : InRing jsb (WalkState.start jsb).cur := hg.start_inRing
  obtain ⟨h1, h2, h3, h4, h5, h6⟩ := foldl_transaction ts (WalkState.start jsb) hcur
  have hrun := scan_of_turns hcur <| turns_transactions (capacity jsb) ts (WalkState.start jsb) hcur
    ⟨rfl, rfl, rfl⟩ ht hlog (by simpa [WalkState.start] using hfit)
  refine ⟨_, hrun, ?_⟩
  constructor
  · rw [h4]
    simp [WalkState.start]
  · rw [h5]
    rfl
  · rw [h6]
    rfl
  · rw [h1]
    simp [WalkState.start, committedPlan]
  · rw [h2]
    simp [WalkState.start, committedPlan]
  · rw [h3]
    rfl

section Recovers

variable {crc : Crc} {fs : Filesystem} {jsb : JournalSuperblock} {d : Disk} {log : Nat → Bytes}
  (ts : List LogTransaction) (hw : Walkable fs jsb) (hlog : LogOnDisk fs jsb d log)
  (ht : AllCommitted crc jsb jsb.sequence ts)
  (hholds : Holds jsb log jsb.start.toNat (logBlocks ts))
  (hfit : (logBlocks ts).length ≤ capacity jsb)

theorem blockAt_length (hw : Walkable fs jsb) (hlog : LogOnDisk fs jsb d log) (i : Nat) :
    16 ≤ (blockAt jsb log i).length := by
  have hl := hlog.length _ (advance_inRing hw.geometry.start_inRing i)
  have hbs := blockSize_ge fs.sb
  rw [← hw.blockSize] at hbs
  unfold blockAt
  omega

include hw hlog ht hholds hfit

theorem inBounds_of_recovers (h : RecoversCommitted crc fs jsb d ts) :
    TornInBounds crc jsb log (sequenceAfterAll jsb.sequence ts) (logBlocks ts).length := by
  obtain ⟨st, hst, htail⟩ := tailState_start hw.geometry ts ht hholds hfit
  obtain ⟨plan, hok, -⟩ := h
  rw [walk_exec crc fs jsb d log hw hlog, hst] at hok
  cases hscan : scan crc jsb log (capacity jsb) st with
  | error e =>
    rw [hscan] at hok
    exact absurd (congrArg Prod.fst hok) (by simp [Except.map])
  | ok st' =>
    exact tail_inBounds hw.geometry.start_inRing (blockAt_length hw hlog) htail st' hscan

theorem recovers_of_inBounds
    (hu : Unfinished crc jsb log (sequenceAfterAll jsb.sequence ts) (logBlocks ts).length)
    (hb : TornInBounds crc jsb log (sequenceAfterAll jsb.sequence ts) (logBlocks ts).length) :
    RecoversCommitted crc fs jsb d ts := by
  obtain ⟨st, hst, htail⟩ := tailState_start hw.geometry ts ht hholds hfit
  obtain ⟨st', hscan, h1, h2, h3⟩ := tail_runs_out hw.geometry.start_inRing
    (blockAt_length hw hlog) hu hb (capacity jsb) _ st (by omega) Meets.first htail
  refine ⟨st'.plan.filterRevoked, ?_, ?_, ?_, ?_⟩
  · rw [walk_exec crc fs jsb d log hw hlog, hst, hscan]
    rfl
  · rw [ReplayPlan.filterRevoked_writes, ReplayPlan.filterRevoked_writes, h1, h2]
  · rw [ReplayPlan.filterRevoked_revokes, h2]
  · rw [ReplayPlan.filterRevoked_nextSequence, h3]

end Recovers

/-- A torn tail is only the end of the log just when what its torn blocks hold stays in bounds. -/
theorem torn_tail_ends_log_iff (crc : Crc) (fs : Filesystem) (jsb : JournalSuperblock) (d : Disk)
    (log : Nat → Bytes) (ts : List LogTransaction) (hw : Walkable fs jsb)
    (hlog : LogOnDisk fs jsb d log) (ht : AllCommitted crc jsb jsb.sequence ts)
    (hholds : Holds jsb log jsb.start.toNat (logBlocks ts))
    (hfit : (logBlocks ts).length ≤ capacity jsb)
    (hu : Unfinished crc jsb log (sequenceAfterAll jsb.sequence ts) (logBlocks ts).length) :
    RecoversCommitted crc fs jsb d ts ↔
      TornInBounds crc jsb log (sequenceAfterAll jsb.sequence ts) (logBlocks ts).length := by
  constructor
  · exact inBounds_of_recovers ts hw hlog ht hholds hfit
  · exact recovers_of_inBounds ts hw hlog ht hholds hfit hu

def tornRevoke (sequence count : UInt32) : Bytes :=
  u32be magicNumber ++ u32be revokeBlock ++ u32be sequence ++ u32be count ++ List.replicate 1008 0

def tornLog (prior : List Bytes) (sequence count : UInt32) : Nat → Bytes :=
  ringLog 1 (prior ++ [tornRevoke sequence count])

theorem zeros_header : tryParseHeader (List.replicate 1024 0) = none := by decide +kernel

theorem tornRevoke_count (sequence count : UInt32) : u32beAt (tornRevoke sequence count)
    12 = count := by
  have hfront : (u32be magicNumber ++ u32be revokeBlock ++ u32be sequence).length = 12 := by simp
  apply u32beAt_of_slice
  rw [tornRevoke, List.append_assoc _ (u32be count), slice_append_right _ _ _ _
    (Nat.le_of_eq hfront), hfront, slice_append_left _ _ _ _ (by simp)]
  exact slice_zero_of_length_le _ _ (by simp)

theorem length_tornRevoke (sequence count : UInt32) : (tornRevoke sequence count).length =
    1024 := by
  simp only [tornRevoke, List.length_append, length_u32be, List.length_replicate]

section TornRevoke

variable {prior : List Bytes} {sequence count : UInt32}
  (hc : sequence = 2 ∧ count = 20 ∨ sequence = 1 ∧ count = 0xFFFF) (hp : prior.length < 6)

theorem blockAt_ringLog (blocks : List Bytes) {i : Nat} (hi : i < 7) :
    blockAt (smallJsb 0x10 1 1) (ringLog 1 blocks) i = blocks.getD i (List.replicate 1024 0) := by
  have hidx : (1 + (1 - 1 + i) % 7 + 7 - 1) % 7 = i := by omega
  change ringLog 1 blocks (advance 1 i (smallJsb 0x10 1 1)) = _
  rw [smallJsb_advance, ringLog, hidx]

include hp in
theorem blockAt_tornLog :
    blockAt (smallJsb 0x10 1 1) (tornLog prior sequence count) prior.length =
      tornRevoke sequence count ∧
      blockAt (smallJsb 0x10 1 1) (tornLog prior sequence count) (prior.length + 1) =
        List.replicate 1024 0 := by
  unfold tornLog
  rw [blockAt_ringLog _ (by omega), blockAt_ringLog _ (by omega), List.getD_append_right _ _ _ _
    (Nat.le_refl _),
    List.getD_append_right _ _ _ _ (Nat.le_add_right _ _), Nat.sub_self, Nat.add_sub_cancel_left]
  exact ⟨rfl, rfl⟩

include hc

theorem tornRevoke_header : tryParseHeader (tornRevoke sequence count) =
    some ⟨revokeBlock, sequence⟩ := by
  obtain ⟨rfl, rfl⟩ | ⟨rfl, rfl⟩ := hc <;> decide +kernel

theorem tornRevoke_torn : torn linuxCrc32c (smallJsb 0x10 1 1)
    (tornRevoke sequence count) = true := by
  obtain ⟨rfl, rfl⟩ | ⟨rfl, rfl⟩ := hc <;> decide +kernel

include hp

theorem tornLog_meets (i : Nat)
    (hm : Meets (smallJsb 0x10 1 1) (tornLog prior sequence count) sequence prior.length i) :
    i = prior.length ∧ blockAt (smallJsb 0x10 1 1) (tornLog prior sequence count) i =
      tornRevoke sequence count ∨
      i = prior.length + 1 ∧
        tryParseHeader (blockAt (smallJsb 0x10 1 1) (tornLog prior sequence count) i) = none := by
  obtain ⟨h0, h1⟩ := @blockAt_tornLog prior sequence count hp
  have hnone : tryParseHeader (blockAt (smallJsb 0x10 1 1) (tornLog prior sequence count)
    (prior.length + 1)) =
      none := by rw [h1, zeros_header]
  induction hm with
  | first => exact .inl ⟨rfl, h0⟩
  | descriptor i tags cur _ hi hh htags ih =>
    unfold HeaderAt at hh
    obtain ⟨rfl, hb⟩ | ⟨rfl, hb⟩ := ih
    · rw [hb, tornRevoke_header hc] at hh
      have htype : revokeBlock = descriptorBlock := congrArg JournalHeader.blockType
        (Option.some.inj hh)
      exact absurd htype (by decide)
    · rw [hb] at hh
      cases hh
  | revoke i _ hi hh ih =>
    unfold HeaderAt at hh
    obtain ⟨rfl, -⟩ | ⟨rfl, hb⟩ := ih
    · exact .inr ⟨rfl, hnone⟩
    · rw [hb] at hh
      cases hh

theorem tornLog_header {i : Nat} {blockType : UInt32}
    (hm : Meets (smallJsb 0x10 1 1) (tornLog prior sequence count) sequence prior.length i)
    (hh : HeaderAt (smallJsb 0x10 1 1) (tornLog prior sequence count) sequence i blockType) :
    blockType = revokeBlock ∧
      blockAt (smallJsb 0x10 1 1) (tornLog prior sequence count) i = tornRevoke sequence count := by
  unfold HeaderAt at hh
  obtain ⟨-, hb⟩ | ⟨-, hb⟩ := tornLog_meets hc hp i hm
  · rw [hb, tornRevoke_header hc] at hh
    exact ⟨(congrArg JournalHeader.blockType (Option.some.inj hh)).symm, hb⟩
  · rw [hb] at hh
    cases hh

theorem tornLog_unfinished :
    Unfinished linuxCrc32c (smallJsb 0x10 1 1) (tornLog prior sequence count) sequence
      prior.length := by
  constructor
  · intro i hm _ hh
    exact absurd (tornLog_header hc hp hm hh).1 (by decide)
  · intro i hm _ hh
    exact absurd (tornLog_header hc hp hm hh).1 (by decide)
  · intro i hm _ hh
    rw [(tornLog_header hc hp hm hh).2]
    exact .inl (tornRevoke_torn hc)

omit hc hp in
theorem tornLog_onDisk (hlen : ∀ b ∈ prior, b.length = 1024) :
    LogOnDisk smallVolume (smallJsb 0x10 1 1) (smallDisk (tornLog prior sequence count))
      (tornLog prior sequence count) := by
  apply smallVolume_logOnDisk
  · rfl
  · decide
  · apply ringLog_length
    intro b hb
    obtain hb | hb := List.mem_append.mp hb
    · exact hlen b hb
    · rw [List.mem_singleton.mp hb, length_tornRevoke]

end TornRevoke

theorem smallJsb_walkable : Walkable smallVolume (smallJsb 0x10 1 1) :=
  ⟨by decide, by decide, by decide, by decide, by decide, by decide, by decide⟩

def priorTransaction : Transaction where
  sequence := 1
  blockSize := 1024
  uses64bit := false
  usesCsumV3 := true
  writes := [⟨30, List.replicate 1024 9⟩]
  revokes := [28]

def priorBlocks : List Bytes := serialized linuxCrc32c (smallJsb 0x10 1 1) priorTransaction

theorem priorBlocks_length : priorBlocks.length = 4 ∧ ∀ b ∈ priorBlocks, b.length = 1024 := by
  decide +kernel

/-- The transaction before the torn one is replayed. -/
theorem tornLog_recovers : ∃ t : LogTransaction, t.writes = [(30, List.replicate 1024 9)] ∧
    t.revokes = [28] ∧
    t.Committed linuxCrc32c (smallJsb 0x10 1 1) 1 ∧
    RecoversCommitted linuxCrc32c smallVolume (smallJsb 0x10 1 1)
      (smallDisk (tornLog priorBlocks 2 20)) [t] := by
  have hc : (2 : UInt32) = 2 ∧ (20 : UInt32) = 20 ∨ (2 : UInt32) = 1 ∧ (20 : UInt32) = 0xFFFF :=
    .inl ⟨rfl, rfl⟩
  obtain ⟨hl, hlen⟩ := priorBlocks_length
  have hp : priorBlocks.length < 6 := by omega
  obtain ⟨blocks, hs⟩ := Transaction.serialize_ok linuxCrc32c (smallJsb 0x10 1 1)
    priorTransaction (by decide)
  have hblocks : blocks = priorBlocks := by
    unfold priorBlocks serialized
    rw [Transaction.commitFor_accepted _ _ _ (by constructor <;> decide), hs]
  obtain ⟨t, htb, htc, htw, htr⟩ := Transaction.serialize_committed linuxCrc32c (smallJsb 0x10 1 1)
    priorTransaction (by decide) blocks hs
  have hlog : logBlocks [t] = priorBlocks := by simp [logBlocks, htb, hblocks]
  have hafter : sequenceAfterAll (smallJsb 0x10 1 1).sequence [t] = 2 := rfl
  refine ⟨t, htw, htr, htc,
    (torn_tail_ends_log_iff linuxCrc32c smallVolume _ _ (tornLog priorBlocks 2 20) [t]
    smallJsb_walkable (tornLog_onDisk hlen) ⟨htc, trivial⟩ ?_ ?_ ?_).mpr ?_⟩
  · rw [hlog]
    have hall := ringLog_holds 0x10 1 1 (priorBlocks ++ [tornRevoke 2 20]) (by decide)
      (by simp [hl])
    intro i b hb
    apply hall i b
    rw [List.getElem?_append_left (List.getElem?_eq_some_iff.mp hb).1, hb]
  · rw [hlog, hl]
    decide
  · rw [hlog, hafter]
    exact tornLog_unfinished hc hp
  · rw [hlog, hafter]
    constructor
    · intro i hm _ hh
      exact absurd (tornLog_header hc hp hm hh).1 (by decide)
    · intro i hm _ hh _
      rw [(tornLog_header hc hp hm hh).2, tornRevoke_count, usable, length_tornRevoke]
      decide

/-- A torn revoke block whose byte count is past its end makes the walk fail. -/
theorem torn_revoke_refuses_log :
    Walkable smallVolume (smallJsb 0x10 1 1) ∧
    LogOnDisk smallVolume (smallJsb 0x10 1 1) (smallDisk (tornLog [] 1 0xFFFF))
      (tornLog [] 1 0xFFFF) ∧
    Unfinished linuxCrc32c (smallJsb 0x10 1 1) (tornLog [] 1 0xFFFF) 1 0 ∧
    ¬ RecoversCommitted linuxCrc32c smallVolume (smallJsb 0x10 1 1)
      (smallDisk (tornLog [] 1 0xFFFF)) [] := by
  have hc : (1 : UInt32) = 2 ∧ (0xFFFF : UInt32) = 20 ∨ (1 : UInt32) = 1 ∧
      (0xFFFF : UInt32) = 0xFFFF :=
    .inr ⟨rfl, rfl⟩
  have hp : ([] : List Bytes).length < 6 := by decide
  have hdisk := @tornLog_onDisk [] 1 0xFFFF (fun b hb => absurd hb List.not_mem_nil)
  refine ⟨smallJsb_walkable, hdisk, tornLog_unfinished hc hp, ?_⟩
  intro h
  have hb := inBounds_of_recovers [] smallJsb_walkable hdisk trivial
    (fun i b h => by simp [logBlocks] at h) (by decide) h
  have h0 : blockAt (smallJsb 0x10 1 1) (tornLog [] 1 0xFFFF) 0 = tornRevoke 1 0xFFFF :=
    (blockAt_tornLog hp).1
  have hh : HeaderAt (smallJsb 0x10 1 1) (tornLog [] 1 0xFFFF) 1 0 revokeBlock := by
    unfold HeaderAt
    rw [h0, tornRevoke_header hc]
  have hcount := hb.revokes 0 Meets.first (by decide) hh (by rw [h0, tornRevoke_torn hc])
  rw [h0, tornRevoke_count, usable, length_tornRevoke] at hcount
  exact absurd hcount (by decide)

end FsExt4.Journal
