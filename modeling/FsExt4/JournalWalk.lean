import FsExt4.Journal
import Mathlib.Data.Nat.ModEq
import Mathlib.Logic.Relation

namespace FsExt4.Journal

open Lib Jbd2

structure Geometry (jsb : JournalSuperblock) : Prop where
  first_pos : 1 ≤ jsb.first.toNat
  first_le : jsb.first.toNat ≤ jsb.start.toNat
  start_lt : jsb.start.toNat < jsb.maxLen.toNat

def InRing (jsb : JournalSuperblock) (j : Nat) : Prop :=
  jsb.first.toNat ≤ j ∧ j < jsb.maxLen.toNat

instance (jsb : JournalSuperblock) (j : Nat) : Decidable (InRing jsb j) :=
  inferInstanceAs (Decidable (jsb.first.toNat ≤ j ∧ j < jsb.maxLen.toNat))

def capacity (jsb : JournalSuperblock) : Nat := jsb.maxLen.toNat - jsb.first.toNat

section Ring

variable {jsb : JournalSuperblock} {cur : Nat}

theorem InRing.capacity_pos (h : InRing jsb cur) : 0 < capacity jsb := by
  have h1 := h.1
  have h2 := h.2
  unfold capacity
  omega

theorem advance_eq (h : InRing jsb cur) (n : Nat) :
    advance cur n jsb = jsb.first.toNat + (cur - jsb.first.toNat + n) % capacity jsb := by
  have hc := h.capacity_pos
  unfold capacity at hc
  unfold advance capacity
  dsimp only
  rw [if_neg (by omega)]

theorem advance_inRing (h : InRing jsb cur) (n : Nat) : InRing jsb (advance cur n jsb) := by
  have hlt := Nat.mod_lt (cur - jsb.first.toNat + n) h.capacity_pos
  have h2 := h.2
  have h1 := h.1
  unfold InRing
  rw [advance_eq h]
  unfold capacity at hlt ⊢
  omega

theorem advance_zero (h : InRing jsb cur) : advance cur 0 jsb = cur := by
  have h1 := h.1
  have h2 := h.2
  rw [advance_eq h, Nat.add_zero, Nat.mod_eq_of_lt (by unfold capacity; omega)]
  omega

theorem advance_advance (h : InRing jsb cur) (m n : Nat) :
    advance (advance cur m jsb) n jsb = advance cur (m + n) jsb := by
  rw [advance_eq (advance_inRing h m), advance_eq h, advance_eq h, Nat.add_sub_cancel_left,
    Nat.mod_add_mod, Nat.add_assoc]

theorem advance_inj (h : InRing jsb cur) (m n : Nat) (hm : m < capacity jsb) (hn : n < capacity jsb)
    (he : advance cur m jsb = advance cur n jsb) : m = n := by
  rw [advance_eq h, advance_eq h, Nat.add_left_cancel_iff] at he
  have hmod : m % capacity jsb = n % capacity jsb := Nat.ModEq.add_left_cancel' _ he
  rwa [Nat.mod_eq_of_lt hm, Nat.mod_eq_of_lt hn] at hmod

end Ring

section Log

variable (crc : Crc) (jsb : JournalSuperblock) (log : Nat → Bytes)

/-- The tag's checksum as the walk compares it: all of it, or its low half. -/
def storedChecksum (c : UInt32) : UInt32 := if jsb.usesCsumV3 then c else c &&& 0xFFFF

def dataCorrupt (sequence : UInt32) (tag : ReplayEntry × UInt32) : Bool :=
  match jsb.seed crc with
  | none => false
  | some seed => storedChecksum jsb (tagChecksum crc seed sequence (log tag.1.journalBlock)) !=
      tag.2

def checkTag (st : WalkState) (tag : ReplayEntry × UInt32) : WalkState :=
  let st := if dataCorrupt crc jsb log st.expectSeq tag then
      { st with pendingCorrupt := some "journal data block of a committed transaction" }
    else st
  { st with pendingWrites := st.pendingWrites ++ [tag.1] }

def scanDescriptor (limit : Nat) (block : Bytes) (st : WalkState) : Result (Option WalkState) :=
  match parseDescriptorTags jsb block st.cur st.expectSeq with
  | .error e => if torn crc jsb block then .ok none else .error e
  | .ok (tags, cur) =>
    let walked := st.plan.blocksWalked + tags.length
    let st := st.noteTorn (torn crc jsb block) "journal descriptor block of a committed transaction"
    let st := { st with cur, plan := { st.plan with blocksWalked := walked } }
    if limit < walked then .error (.corrupt "journal transaction exceeds ring")
    else .ok (some (tags.foldl (checkTag crc jsb log) st))

def scanArm (limit : Nat) (blockType : UInt32) (block : Bytes) (st : WalkState) :
    Result (Option WalkState) :=
  if blockType = descriptorBlock then scanDescriptor crc jsb log limit block st
  else if blockType = commitBlock then walkCommit crc jsb block st
  else if blockType = revokeBlock then walkRevoke crc jsb block st
  else .ok none

def scanStep (limit : Nat) (st : WalkState) : Result (WalkState × Bool) :=
  let block := log st.cur
  let st := st.counted
  match tryParseHeader block with
  | none => .ok (st, false)
  | some hdr =>
    if hdr.sequence ≠ st.expectSeq then .ok (st, false)
    else
      match scanArm crc jsb log limit hdr.blockType block st with
      | .error e => .error e
      | .ok none => .ok (st, false)
      | .ok (some st) => .ok ({ st with cur := advance st.cur 1 jsb }, true)

def scanLoop (limit : Nat) : Nat → WalkState → Result WalkState
  | 0, st => .ok st
  | fuel + 1, st =>
    if st.plan.blocksWalked < limit then
      match scanStep crc jsb log limit st with
      | .error e => .error e
      | .ok (st, more) => if more then scanLoop limit fuel st else .ok st
    else .ok st

def scan (limit : Nat) (st : WalkState) : Result WalkState :=
  scanLoop crc jsb log limit (limit - st.plan.blocksWalked) st

/-- The data blocks of these tags that the walk reads: all of them if it checks them, else none. -/
def tagReads (tags : List (ReplayEntry × UInt32)) : List Nat :=
  if (jsb.seed crc).isSome then tags.map (·.1.journalBlock) else []

def descriptorReads (limit : Nat) (block : Bytes) (st : WalkState) : List Nat :=
  match parseDescriptorTags jsb block st.cur st.expectSeq with
  | .error _ => []
  | .ok (tags, _) => if limit < st.plan.blocksWalked + tags.length
      then [] else tagReads crc jsb tags

def stepReads (limit : Nat) (st : WalkState) : List Nat :=
  st.cur :: match tryParseHeader (log st.cur) with
    | none => []
    | some hdr =>
      if hdr.sequence = st.expectSeq ∧ hdr.blockType = descriptorBlock then
        descriptorReads crc jsb limit (log st.cur) st.counted
      else []

def loopReads (limit : Nat) : Nat → WalkState → List Nat
  | 0, _ => []
  | fuel + 1, st =>
    if st.plan.blocksWalked < limit then
      stepReads crc jsb log limit st ++ match scanStep crc jsb log limit st with
        | .ok (st, true) => loopReads limit fuel st
        | _ => []
    else []

variable {crc jsb log}

theorem parseTags_inRing (block : Bytes) (transaction : UInt32) (fuel pos cur : Nat)
    (tags : List (ReplayEntry × UInt32)) (cur' : Nat) (hcur : InRing jsb cur)
    (h : parseTags jsb block transaction fuel pos cur = .ok (tags, cur')) :
    InRing jsb cur' ∧ ∀ tag ∈ tags, InRing jsb tag.1.journalBlock := by
  induction fuel generalizing pos cur tags cur' with
  | zero =>
    obtain ⟨rfl, rfl⟩ := Prod.mk.inj (Except.ok.inj h)
    exact ⟨hcur, by simp⟩
  | succ fuel ih =>
    have hnext := advance_inRing hcur 1
    unfold parseTags at h
    split at h
    · exact absurd h (by simp)
    dsimp only at h
    generalize (if hasFlag (tagAt jsb block pos).2.1 tagSameUuid then 0 else 16) = skip at h
    split at h
    · obtain ⟨rfl, rfl⟩ := Prod.mk.inj (Except.ok.inj h)
      refine ⟨hnext, ?_⟩
      intro tag htag
      rw [List.mem_singleton.mp htag]
      exact hnext
    · generalize hp : parseTags jsb block transaction fuel _ _ = r at h
      cases r with
      | error e => exact absurd h (by simp [bind, Except.bind])
      | ok r =>
        obtain ⟨rest, cur''⟩ := r
        obtain ⟨h1, h2⟩ := ih _ _ rest cur'' hnext hp
        obtain ⟨rfl, rfl⟩ := Prod.mk.inj (Except.ok.inj h)
        refine ⟨h1, ?_⟩
        intro tag htag
        obtain rfl | htag := List.mem_cons.mp htag
        · exact hnext
        · exact h2 tag htag

def positionsAfter (jsb : JournalSuperblock) (cur n : Nat) : List Nat :=
  (List.range n).map (fun i => advance cur (i + 1) jsb)

theorem positionsAfter_succ {cur n : Nat} (h : InRing jsb cur) : positionsAfter jsb cur (n + 1) =
    advance cur 1 jsb :: positionsAfter jsb (advance cur 1 jsb) n := by
  unfold positionsAfter
  rw [List.range_succ_eq_map, List.map_cons, List.map_map]
  congr 1
  apply List.map_congr_left
  intro i _
  rw [advance_advance h, Nat.add_comm 1]
  rfl

theorem parseTags_positions {block : Bytes} {transaction : UInt32} {fuel pos cur cur' : Nat}
    {tags : List (ReplayEntry × UInt32)}
    (hcur : InRing jsb cur) (h : parseTags jsb block transaction fuel pos cur = .ok (tags, cur')) :
    tags.map (·.1.journalBlock) = positionsAfter jsb cur tags.length ∧ tags.length ≤ fuel := by
  induction fuel generalizing pos cur tags cur' with
  | zero =>
    obtain ⟨rfl, rfl⟩ := Prod.mk.inj (Except.ok.inj h)
    exact ⟨rfl, Nat.le_refl 0⟩
  | succ fuel ih =>
    unfold parseTags at h
    split at h
    · exact absurd h (by simp)
    dsimp only at h
    generalize (if hasFlag (tagAt jsb block pos).2.1 tagSameUuid then 0 else 16) = skip at h
    split at h
    · obtain ⟨rfl, rfl⟩ := Prod.mk.inj (Except.ok.inj h)
      exact ⟨rfl, Nat.succ_le_succ (Nat.zero_le fuel)⟩
    · generalize hp : parseTags jsb block transaction fuel _ _ = r at h
      cases r with
      | error e => exact absurd h (by simp [bind, Except.bind])
      | ok r =>
        obtain ⟨rest, cur''⟩ := r
        obtain ⟨hrest, hle⟩ := ih (advance_inRing hcur 1) hp
        obtain ⟨rfl, rfl⟩ := Prod.mk.inj (Except.ok.inj h)
        refine ⟨?_, Nat.succ_le_succ hle⟩
        rw [List.map_cons, hrest, List.length_cons, positionsAfter_succ hcur]

theorem parseTags_cursor {sequence : UInt32} (block : Bytes) (fuel pos cur : Nat)
    (tags : List (ReplayEntry × UInt32)) (cur' : Nat) (hcur : InRing jsb cur)
    (h : parseTags jsb block sequence fuel pos cur = .ok (tags, cur')) :
    cur' = advance cur tags.length jsb := by
  induction fuel generalizing pos cur tags cur' with
  | zero =>
    obtain ⟨rfl, rfl⟩ := Prod.mk.inj (Except.ok.inj h)
    exact (advance_zero hcur).symm
  | succ fuel ih =>
    unfold parseTags at h
    split at h
    · exact absurd h (by simp)
    dsimp only at h
    generalize (if hasFlag (tagAt jsb block pos).2.1 tagSameUuid then 0 else 16) = skip at h
    split at h
    · obtain ⟨rfl, rfl⟩ := Prod.mk.inj (Except.ok.inj h)
      rfl
    · generalize hp : parseTags jsb block sequence fuel _ _ = r at h
      cases r with
      | error e => exact absurd h (by simp [bind, Except.bind])
      | ok r =>
        obtain ⟨rest, cur''⟩ := r
        have hc := ih _ _ rest cur'' (advance_inRing hcur 1) hp
        obtain ⟨rfl, rfl⟩ := Prod.mk.inj (Except.ok.inj h)
        rw [hc, advance_advance hcur, List.length_cons, Nat.add_comm]

theorem foldl_checkTag_cur (tags : List (ReplayEntry × UInt32)) (st : WalkState) :
    (tags.foldl (checkTag crc jsb log) st).cur = st.cur ∧
      (tags.foldl (checkTag crc jsb log) st).plan = st.plan ∧
      (tags.foldl (checkTag crc jsb log) st).expectSeq = st.expectSeq ∧
      (tags.foldl (checkTag crc jsb log) st).pendingRevokes = st.pendingRevokes ∧
      (tags.foldl (checkTag crc jsb log) st).pendingWrites =
        st.pendingWrites ++ tags.map Prod.fst := by
  induction tags generalizing st with
  | nil => simp
  | cons tag rest ih =>
    obtain ⟨h1, h2, h3, h4, h5⟩ := ih (checkTag crc jsb log st tag)
    rw [List.foldl_cons, h1, h2, h3, h4, h5]
    unfold checkTag
    dsimp only
    split <;> simp

@[simp] theorem noteTorn_cur (st : WalkState) (t : Bool) (what : String) :
    (st.noteTorn t what).cur = st.cur := by
  cases t <;> rfl

@[simp] theorem noteTorn_plan (st : WalkState) (t : Bool) (what : String) :
    (st.noteTorn t what).plan = st.plan := by
  cases t <;> rfl

@[simp] theorem noteTorn_expectSeq (st : WalkState) (t : Bool) (what : String) :
    (st.noteTorn t what).expectSeq = st.expectSeq := by
  cases t <;> rfl

@[simp] theorem noteTorn_pendingWrites (st : WalkState) (t : Bool) (what : String) :
    (st.noteTorn t what).pendingWrites = st.pendingWrites := by
  cases t <;> rfl

@[simp] theorem noteTorn_pendingRevokes (st : WalkState) (t : Bool) (what : String) :
    (st.noteTorn t what).pendingRevokes = st.pendingRevokes := by
  cases t <;> rfl

theorem scanArm_progress (limit : Nat) (blockType : UInt32) (block : Bytes) (st st' : WalkState)
    (hcur : InRing jsb st.cur)
    (h : scanArm crc jsb log limit blockType block st = .ok (some st')) :
    InRing jsb st'.cur ∧ st.plan.blocksWalked ≤ st'.plan.blocksWalked := by
  unfold scanArm at h
  split at h
  · unfold scanDescriptor at h
    split at h
    · split at h <;> simp at h
    · rename_i tags cur hp
      obtain ⟨hin, -⟩ := parseTags_inRing _ _ _ _ _ _ _ hcur hp
      dsimp only at h
      split at h
      · exact absurd h (by simp)
      · rw [← Option.some_inj.mp (Except.ok.inj h), (foldl_checkTag_cur tags _).1,
          (foldl_checkTag_cur tags _).2.1]
        exact ⟨hin, Nat.le_add_right _ _⟩
  · split at h
    · unfold walkCommit at h
      split at h
      · exact absurd h (by simp)
      · split at h
        · exact absurd h (by simp)
        · rw [← Option.some_inj.mp (Except.ok.inj h)]
          exact ⟨hcur, Nat.le_refl _⟩
    · split at h
      · unfold walkRevoke at h
        dsimp only at h
        split at h
        · exact absurd h (by simp)
        · rw [← Option.some_inj.mp (Except.ok.inj h)]
          simp [hcur]
      · exact absurd h (by simp)

theorem scanStep_progress (limit : Nat) (st st' : WalkState) (more : Bool)
    (hcur : InRing jsb st.cur) (h : scanStep crc jsb log limit st = .ok (st', more)) :
    InRing jsb st'.cur ∧ st.plan.blocksWalked + 1 ≤ st'.plan.blocksWalked := by
  unfold scanStep at h
  dsimp only at h
  have hcur1 : InRing jsb st.counted.cur := hcur
  have hw1 : st.counted.plan.blocksWalked = st.plan.blocksWalked + 1 := rfl
  split at h
  · obtain ⟨rfl, -⟩ := Prod.mk.inj (Except.ok.inj h)
    exact ⟨hcur1, Nat.le_of_eq hw1.symm⟩
  · split at h
    · obtain ⟨rfl, -⟩ := Prod.mk.inj (Except.ok.inj h)
      exact ⟨hcur1, Nat.le_of_eq hw1.symm⟩
    · split at h
      · exact absurd h (by simp)
      · obtain ⟨rfl, -⟩ := Prod.mk.inj (Except.ok.inj h)
        exact ⟨hcur1, Nat.le_of_eq hw1.symm⟩
      · rename_i st2 harm
        obtain ⟨h1, h2⟩ := scanArm_progress limit _ _ st.counted st2 hcur1 harm
        obtain ⟨rfl, -⟩ := Prod.mk.inj (Except.ok.inj h)
        exact ⟨advance_inRing h1 1, by dsimp only; omega⟩

theorem loopReads_inRing (limit fuel : Nat) (st : WalkState) (hcur : InRing jsb st.cur) :
    ∀ j ∈ loopReads crc jsb log limit fuel st, InRing jsb j := by
  induction fuel generalizing st with
  | zero => nofun
  | succ fuel ih =>
    intro j hj
    unfold loopReads at hj
    split at hj
    · obtain hj | hj := List.mem_append.mp hj
      · obtain rfl | hj := List.mem_cons.mp hj
        · exact hcur
        split at hj
        · cases hj
        · split at hj
          · unfold descriptorReads at hj
            split at hj
            · cases hj
            · rename_i tags cur hp
              split at hj
              · cases hj
              · unfold tagReads at hj
                split at hj
                · obtain ⟨tag, htag, rfl⟩ := List.mem_map.mp hj
                  exact (parseTags_inRing _ _ _ _ _ _ _ hcur hp).2 tag htag
                · cases hj
          · cases hj
      · split at hj
        · rename_i st' hr
          exact ih st' (scanStep_progress limit st st' true hcur hr).1 j hj
        · cases hj
    · cases hj

section Reads

variable {rd : Nat → DevIo Bytes} {d : Disk} {good : Nat → Bool} {e : Error}

theorem checkTags_reads (tags : List (ReplayEntry × UInt32)) (st : WalkState)
    (hrd : ∀ j ∈ tagReads crc jsb tags, (rd j).exec d =
      (bif good j then .ok (log j) else .error e, d)) :
    (checkTags crc jsb rd tags st).exec d =
      (bif (tagReads crc jsb tags).all good
        then .ok (tags.foldl (checkTag crc jsb log) st) else .error e, d) := by
  induction tags generalizing st with
  | nil =>
    have hnone : tagReads crc jsb [] = [] := by
      unfold tagReads
      split <;> rfl
    rw [hnone]
    rfl
  | cons tag rest ih =>
    obtain ⟨entry, stored⟩ := tag
    rw [List.foldl_cons, checkTags]
    cases hs : jsb.seed crc with
    | none =>
      have hnone : ∀ tags, tagReads crc jsb tags = [] := fun tags => by
        rw [tagReads, hs]
        rfl
      have hst : checkTag crc jsb log st (entry, stored) =
          { st with pendingWrites := st.pendingWrites ++ [entry] } := by
        simp only [checkTag, dataCorrupt, hs, Bool.false_eq_true, if_false]
      have hih := ih (checkTag crc jsb log st (entry, stored)) (by rw [hnone]; nofun)
      rw [hnone] at hih ⊢
      rw [← hih, hst]
      rfl
    | some seed =>
      have hreads : ∀ tags : List (ReplayEntry × UInt32),
          tagReads crc jsb tags = tags.map (·.1.journalBlock) := fun tags => by
        rw [tagReads, hs]
        rfl
      have hst : checkTag crc jsb log st (entry, stored) =
          { (if storedChecksum jsb (tagChecksum crc seed st.expectSeq (log entry.journalBlock)) ≠
              stored then
            { st with pendingCorrupt := some "journal data block of a committed transaction" }
          else st) with
            pendingWrites := (if storedChecksum jsb (tagChecksum crc seed st.expectSeq
              (log entry.journalBlock)) ≠ stored then
            { st with pendingCorrupt := some "journal data block of a committed transaction" }
          else st).pendingWrites ++ [entry] } := by
        simp only [checkTag, dataCorrupt, hs, bne_iff_ne]
      have hih := ih (checkTag crc jsb log st (entry, stored)) (fun j hj => hrd j (by
        rw [hreads] at hj ⊢
        exact List.mem_cons_of_mem _ hj))
      have hread := hrd entry.journalBlock (by
        rw [hreads]
        exact List.mem_cons_self)
      rw [hreads, List.map_cons, List.all_cons]
      rw [hreads] at hih
      dsimp only
      cases hgood : good entry.journalBlock with
      | false =>
        rw [hgood] at hread
        rw [Io.exec_bind_error _ _ _ _ e hread]
        rfl
      | true =>
        rw [hgood] at hread
        rw [Io.exec_bind_ok _ _ _ _ _ hread, Bool.true_and, ← hih, hst]
        rfl

theorem walkDescriptor_reads (limit : Nat) (block : Bytes) (st : WalkState)
    (hrd : ∀ j ∈ descriptorReads crc jsb limit block st,
      (rd j).exec d = (bif good j then .ok (log j) else .error e, d)) :
    (walkDescriptor crc jsb rd limit block st).exec d =
      (bif (descriptorReads crc jsb limit block st).all good then scanDescriptor crc jsb log
        limit block st
        else .error e, d) := by
  unfold walkDescriptor scanDescriptor
  unfold descriptorReads at hrd ⊢
  cases hp : parseDescriptorTags jsb block st.cur st.expectSeq with
  | error err =>
    dsimp only
    split <;> rfl
  | ok r =>
    obtain ⟨tags, cur⟩ := r
    rw [hp] at hrd
    dsimp only at hrd ⊢
    rw [noteTorn_plan]
    by_cases hlimit : limit < st.plan.blocksWalked + tags.length
    · rw [if_pos hlimit, if_pos hlimit, if_pos hlimit]
      rfl
    · rw [if_neg hlimit] at hrd
      rw [if_neg hlimit, if_neg hlimit, if_neg hlimit]
      have htags := checkTags_reads tags { st.noteTorn (torn crc jsb block)
          "journal descriptor block of a committed transaction" with
        cur := cur
        plan := { st.plan with blocksWalked := st.plan.blocksWalked + tags.length } } hrd
      cases hgood : (tagReads crc jsb tags).all good with
      | false =>
        rw [hgood] at htags
        rw [Io.exec_bind_error _ _ _ _ e htags]
        rfl
      | true =>
        rw [hgood] at htags
        rw [Io.exec_bind_ok _ _ _ _ _ htags]
        rfl

theorem walkStep_reads (limit : Nat) (st : WalkState)
    (hrd : ∀ j ∈ stepReads crc jsb log limit st,
      (rd j).exec d = (bif good j then .ok (log j) else .error e, d)) :
    (walkStep crc jsb rd limit st).exec d =
      (bif (stepReads crc jsb log limit st).all good then scanStep crc jsb log limit
        st else .error e, d) := by
  have hread := hrd st.cur List.mem_cons_self
  unfold walkStep
  cases hgood : good st.cur with
  | false =>
    rw [hgood] at hread
    rw [Io.exec_bind_error _ _ _ _ e hread, stepReads, List.all_cons, hgood]
    rfl
  | true =>
    rw [hgood] at hread
    rw [Io.exec_bind_ok _ _ _ _ _ hread]
    unfold scanStep
    unfold stepReads at hrd ⊢
    rw [List.all_cons, hgood, Bool.true_and]
    have hrest := fun j hj => hrd j (List.mem_cons_of_mem _ hj)
    dsimp only at hrest ⊢
    cases hhdr : tryParseHeader (log st.cur) with
    | none => rfl
    | some hdr =>
      rw [hhdr] at hrest
      dsimp only at hrest ⊢
      by_cases hseq : hdr.sequence = st.expectSeq
      · have hcounted : hdr.sequence = st.counted.expectSeq := hseq
        rw [if_neg (not_not.mpr hcounted), if_neg (not_not.mpr hcounted)]
        unfold walkArm scanArm
        by_cases hdesc : hdr.blockType = descriptorBlock
        · have hboth : hdr.sequence = st.expectSeq ∧ hdr.blockType = descriptorBlock :=
            ⟨hseq, hdesc⟩
          rw [if_pos hboth] at hrest
          rw [if_pos hdesc, if_pos hdesc, if_pos hboth]
          have harm := walkDescriptor_reads limit (log st.cur) st.counted hrest
          cases hall : (descriptorReads crc jsb limit (log st.cur) st.counted).all good with
          | false =>
            rw [hall] at harm
            rw [Io.exec_bind_error _ _ _ _ e harm]
            rfl
          | true =>
            rw [hall] at harm
            cases hr : scanDescriptor crc jsb log limit (log st.cur) st.counted with
            | error err =>
              rw [hr] at harm
              rw [Io.exec_bind_error _ _ _ _ err harm]
              rfl
            | ok next =>
              rw [hr] at harm
              rw [Io.exec_bind_ok _ _ _ _ _ harm]
              cases next <;> rfl
        · have hnot : ¬ (hdr.sequence = st.expectSeq ∧ hdr.blockType = descriptorBlock) :=
            fun h => hdesc h.2
          rw [if_neg hdesc, if_neg hdesc, if_neg hnot]
          by_cases hcommit : hdr.blockType = commitBlock
          · rw [if_pos hcommit, if_pos hcommit]
            cases walkCommit crc jsb (log st.cur) st.counted with
            | error err => rfl
            | ok next => cases next <;> rfl
          · rw [if_neg hcommit, if_neg hcommit]
            by_cases hrevoke : hdr.blockType = revokeBlock
            · rw [if_pos hrevoke, if_pos hrevoke]
              cases walkRevoke crc jsb (log st.cur) st.counted with
              | error err => rfl
              | ok next => cases next <;> rfl
            · rw [if_neg hrevoke, if_neg hrevoke]
              rfl
      · have hcounted : hdr.sequence ≠ st.counted.expectSeq := hseq
        have hnot : ¬ (hdr.sequence = st.expectSeq ∧ hdr.blockType = descriptorBlock) :=
          fun h => hseq h.1
        rw [if_pos hcounted, if_pos hcounted, if_neg hnot]
        rfl

/-- The loop does what it does with the whole log at hand as long as every block it reads can be
read, and fails with the first that cannot. -/
theorem walkLoop_reads (limit fuel : Nat) (st : WalkState)
    (hrd : ∀ j ∈ loopReads crc jsb log limit fuel st,
      (rd j).exec d = (bif good j then .ok (log j) else .error e, d)) :
    (walkLoop crc jsb rd limit fuel st).exec d =
      (bif (loopReads crc jsb log limit fuel st).all good then scanLoop crc jsb log limit fuel st
        else .error e, d) := by
  induction fuel generalizing st with
  | zero => rfl
  | succ fuel ih =>
    unfold walkLoop scanLoop
    unfold loopReads at hrd ⊢
    by_cases hwalked : st.plan.blocksWalked < limit
    · rw [if_pos hwalked] at hrd
      rw [if_pos hwalked, if_pos hwalked, if_pos hwalked, List.all_append]
      have hstep := walkStep_reads limit st (fun j hj => hrd j (List.mem_append_left _ hj))
      cases hgood : (stepReads crc jsb log limit st).all good with
      | false =>
        rw [hgood] at hstep
        rw [Io.exec_bind_error _ _ _ _ e hstep]
        rfl
      | true =>
        rw [hgood] at hstep
        cases hr : scanStep crc jsb log limit st with
        | error err =>
          rw [hr] at hstep
          rw [Io.exec_bind_error _ _ _ _ err hstep]
          rfl
        | ok r =>
          obtain ⟨st', more⟩ := r
          rw [hr] at hstep hrd
          rw [Io.exec_bind_ok _ _ _ _ _ hstep]
          cases more with
          | true => exact ih st' (fun j hj => hrd j (List.mem_append_right _ hj))
          | false => rfl
    · rw [if_neg hwalked, if_neg hwalked, if_neg hwalked]
      rfl

end Reads

theorem scanLoop_fuel (limit fuel fuel' : Nat) (st : WalkState) (hcur : InRing jsb st.cur)
    (h : limit ≤ fuel + st.plan.blocksWalked) (h' : limit ≤ fuel' + st.plan.blocksWalked) :
    scanLoop crc jsb log limit fuel st = scanLoop crc jsb log limit fuel' st := by
  induction fuel generalizing fuel' st with
  | zero =>
    cases fuel' with
    | zero => rfl
    | succ fuel' => rw [scanLoop, scanLoop, if_neg (by omega)]
  | succ fuel ih =>
    cases fuel' with
    | zero => rw [scanLoop, scanLoop, if_neg (by omega)]
    | succ fuel' =>
      rw [scanLoop, scanLoop]
      split
      · cases hr : scanStep crc jsb log limit st with
        | error e => rfl
        | ok r =>
          obtain ⟨st', more⟩ := r
          obtain ⟨h1, h2⟩ := scanStep_progress limit st st' more hcur hr
          dsimp only
          rw [ih fuel' st' h1 (by omega) (by omega)]
      · rfl

theorem scan_done (limit : Nat) (st : WalkState) (h : limit ≤ st.plan.blocksWalked) :
    scan crc jsb log limit st = .ok st := by
  rw [scan, Nat.sub_eq_zero_of_le h, scanLoop]

theorem scan_step (limit : Nat) (st : WalkState) (hcur : InRing jsb st.cur)
    (h : st.plan.blocksWalked < limit) :
    scan crc jsb log limit st =
      match scanStep crc jsb log limit st with
      | .error e => .error e
      | .ok (st', more) => if more then scan crc jsb log limit st' else .ok st' := by
  obtain ⟨fuel, hfuel⟩ : ∃ fuel, limit - st.plan.blocksWalked = fuel + 1 :=
    ⟨limit - st.plan.blocksWalked - 1, by omega⟩
  rw [scan, hfuel, scanLoop, if_pos h]
  cases hr : scanStep crc jsb log limit st with
  | error e => rfl
  | ok r =>
    obtain ⟨st', more⟩ := r
    obtain ⟨h1, h2⟩ := scanStep_progress limit st st' more hcur hr
    dsimp only
    rw [scan, scanLoop_fuel limit fuel (limit - st'.plan.blocksWalked) st' h1 (by omega) (by omega)]

def GoesRound (crc : Crc) (jsb : JournalSuperblock) (log : Nat → Bytes) (limit : Nat)
    (st st' : WalkState) : Prop :=
  st.plan.blocksWalked < limit ∧ scanStep crc jsb log limit st = .ok (st', true)

theorem scan_of_turns {limit : Nat} {st st' : WalkState} (hcur : InRing jsb st.cur)
    (h : Relation.ReflTransGen (GoesRound crc jsb log limit) st st') :
    scan crc jsb log limit st = scan crc jsb log limit st' := by
  induction h using Relation.ReflTransGen.head_induction_on with
  | refl => rfl
  | head hturn _ ih =>
    rw [scan_step limit _ hcur hturn.1, hturn.2]
    exact ih (scanStep_progress limit _ _ true hcur hturn.2).1

theorem loopReads_fuel (limit fuel fuel' : Nat) (st : WalkState) (hcur : InRing jsb st.cur)
    (h : limit ≤ fuel + st.plan.blocksWalked) (h' : limit ≤ fuel' + st.plan.blocksWalked) :
    loopReads crc jsb log limit fuel st = loopReads crc jsb log limit fuel' st := by
  induction fuel generalizing fuel' st with
  | zero =>
    cases fuel' with
    | zero => rfl
    | succ fuel' => rw [loopReads, loopReads, if_neg (by omega)]
  | succ fuel ih =>
    cases fuel' with
    | zero => rw [loopReads, loopReads, if_neg (by omega)]
    | succ fuel' =>
      rw [loopReads, loopReads]
      split
      · congr 1
        split
        · rename_i st' hr
          obtain ⟨h1, h2⟩ := scanStep_progress limit st st' true hcur hr
          exact ih fuel' st' h1 (by omega) (by omega)
        · rfl
      · rfl

def scanReads (crc : Crc) (jsb : JournalSuperblock) (log : Nat → Bytes) (limit : Nat)
    (st : WalkState) : List Nat :=
  loopReads crc jsb log limit (limit - st.plan.blocksWalked) st

theorem scanReads_turn {limit : Nat} {st st' : WalkState} (hcur : InRing jsb st.cur)
    (h : GoesRound crc jsb log limit st st') :
    scanReads crc jsb log limit st = stepReads crc jsb log limit st ++ scanReads crc jsb log
      limit st' := by
  obtain ⟨hwalked, hstep⟩ := h
  obtain ⟨h1, h2⟩ := scanStep_progress limit st st' true hcur hstep
  obtain ⟨fuel, hfuel⟩ : ∃ fuel, limit - st.plan.blocksWalked = fuel + 1 :=
    ⟨limit - st.plan.blocksWalked - 1, by omega⟩
  rw [scanReads, hfuel, loopReads, if_pos hwalked, hstep]
  dsimp only
  rw [scanReads, loopReads_fuel limit fuel (limit - st'.plan.blocksWalked) st' h1
    (by omega) (by omega)]

theorem stepReads_of_turn {limit : Nat} {st st' : WalkState} (hcur : InRing jsb st.cur)
    (h : GoesRound crc jsb log limit st st') : ∃ n, st'.plan.blocksWalked =
      st.plan.blocksWalked + n ∧
      st'.cur = advance st.cur n jsb ∧ ∀ j ∈ stepReads crc jsb log limit st, ∃ i < n,
      j = advance st.cur i jsb := by
  have hstep := h.2
  have hhead : st.cur = advance st.cur 0 jsb := (advance_zero hcur).symm
  unfold scanStep at hstep
  dsimp only at hstep
  unfold stepReads
  split at hstep
  · cases hstep
  rename_i hdr hhdr
  split at hstep
  · cases hstep
  rename_i hseq
  rw [ne_eq, not_not] at hseq
  have hseq' : hdr.sequence = st.expectSeq := hseq
  split at hstep
  · cases hstep
  · cases hstep
  rename_i next harm
  obtain ⟨rfl, -⟩ := Prod.mk.inj (Except.ok.inj hstep)
  dsimp only
  unfold scanArm at harm
  split at harm
  · rename_i hdesc
    rw [if_pos ⟨hseq', hdesc⟩]
    unfold scanDescriptor at harm
    unfold descriptorReads
    cases hp : parseDescriptorTags jsb (log st.cur) st.counted.cur st.counted.expectSeq with
    | error e =>
      rw [hp] at harm
      dsimp only at harm
      split at harm <;> cases harm
    | ok r =>
      obtain ⟨tags, cur⟩ := r
      rw [hp] at harm
      dsimp only at harm ⊢
      split at harm
      · cases harm
      obtain rfl := Option.some.inj (Except.ok.inj harm)
      have hcursor : cur = advance st.cur tags.length jsb := parseTags_cursor _ _ _ _ _ _ hcur hp
      have hpositions := (parseTags_positions hcur hp).1
      refine ⟨tags.length + 1, ?_, ?_, ?_⟩
      · rw [(foldl_checkTag_cur tags _).2.1]
        change st.plan.blocksWalked + 1 + tags.length = _
        omega
      · rw [(foldl_checkTag_cur tags _).1]
        dsimp only
        rw [hcursor, advance_advance hcur]
      · intro j hj
        obtain rfl | hj := List.mem_cons.mp hj
        · exact ⟨0, by omega, hhead⟩
        split at hj
        · cases hj
        unfold tagReads at hj
        split at hj
        · rw [hpositions] at hj
          obtain ⟨i, hi, rfl⟩ := List.mem_map.mp hj
          exact ⟨i + 1, by have := List.mem_range.mp hi; omega, rfl⟩
        · cases hj
  · rename_i hdesc
    rw [if_neg (fun hc => hdesc hc.2)]
    have hkept : next.cur = st.cur ∧ next.plan.blocksWalked = st.plan.blocksWalked + 1 := by
      split at harm
      · unfold walkCommit at harm
        split at harm
        · cases harm
        split at harm
        · cases harm
        obtain rfl := Option.some.inj (Except.ok.inj harm)
        exact ⟨rfl, rfl⟩
      · split at harm
        · unfold walkRevoke at harm
          dsimp only at harm
          split at harm
          · cases harm
          obtain rfl := Option.some.inj (Except.ok.inj harm)
          exact ⟨noteTorn_cur _ _ _, congrArg (·.blocksWalked) (noteTorn_plan _ _ _)⟩
        · cases harm
    refine ⟨1, hkept.2, by rw [hkept.1], ?_⟩
    intro j hj
    obtain rfl := List.mem_singleton.mp hj
    exact ⟨0, by omega, hhead⟩

theorem scanReads_of_turns {limit : Nat} {st st' : WalkState} (hcur : InRing jsb st.cur)
    (h : Relation.ReflTransGen (GoesRound crc jsb log limit) st st') :
    ∃ n, st'.plan.blocksWalked = st.plan.blocksWalked + n ∧ st'.cur = advance st.cur n jsb ∧
      ∀ j ∈ scanReads crc jsb log limit st, (∃ i < n, j = advance st.cur i jsb) ∨
        j ∈ scanReads crc jsb log limit st' := by
  induction h using Relation.ReflTransGen.head_induction_on with
  | refl => exact ⟨0, rfl, (advance_zero hcur).symm, fun j hj => .inr hj⟩
  | @head st mid hturn _ ih =>
    have hmid := (scanStep_progress limit _ _ true hcur hturn.2).1
    obtain ⟨n, hwalked, hcursor, hreads⟩ := ih hmid
    obtain ⟨k, hwalked', hcursor', hstep⟩ := stepReads_of_turn hcur hturn
    refine ⟨k + n, by omega, by rw [hcursor, hcursor', advance_advance hcur], ?_⟩
    intro j hj
    rw [scanReads_turn hcur hturn] at hj
    obtain hj | hj := List.mem_append.mp hj
    · obtain ⟨i, hi, rfl⟩ := hstep j hj
      exact .inl ⟨i, by omega, rfl⟩
    · obtain ⟨i, hi, rfl⟩ | hj := hreads j hj
      · exact .inl ⟨k + i, by omega, by rw [hcursor', advance_advance hcur]⟩
      · exact .inr hj

end Log

def LogOnDisk (fs : Filesystem) (jsb : JournalSuperblock) (d : Disk) (log : Nat → Bytes) : Prop :=
  ∃ jinode, fs.journalInode.exec d = (.ok jinode, d) ∧ ∀ j, InRing jsb j →
    (readJournalBlock fs jinode jsb.blockSize.toNat j).exec d = (.ok (log j), d)

/-- The journal inode can be read and maps each journal block of `dom` to `map`. -/
def Mapped (fs : Filesystem) (dom : Nat → Prop) (map : Nat → Nat) (jinode : Inode) (d : Disk) :
    Prop :=
  fs.journalInode.exec d = (.ok jinode, d) ∧
    ∀ j, dom j → (fs.journalBlockToPhysical jinode j).exec d = (.ok (some (map j)), d)

def logOf (fs : Filesystem) (map : Nat → Nat) (d : Disk) (j : Nat) : Bytes :=
  d.img.block fs.sb.blockSize (map j)

theorem Mapped.logOnDisk {fs : Filesystem} {jsb : JournalSuperblock} {map : Nat → Nat}
    {jinode : Inode} {d : Disk} (hm : Mapped fs (InRing jsb) map jinode d)
    (hbs : jsb.blockSize.toNat = fs.sb.blockSize)
    (hdev : ∀ j, InRing jsb j → map j * fs.sb.blockSize + fs.sb.blockSize ≤ d.size) :
    LogOnDisk fs jsb d (logOf fs map d) := by
  refine ⟨jinode, hm.1, ?_⟩
  intro j hj
  unfold readJournalBlock
  rw [Io.exec_bind_ok _ _ _ _ _ (hm.2 j hj), hbs]
  exact exec_readAt d _ _ (hdev j hj)

structure Walkable (fs : Filesystem) (jsb : JournalSuperblock) : Prop where
  dirty : jsb.start ≠ 0
  supported : jsb.unsupportedIncompat = 0
  declared : jsb.checksumDeclarationError = none
  blockSize : jsb.blockSize.toNat = fs.sb.blockSize
  geometry : Geometry jsb

theorem geometry_iff {jsb : JournalSuperblock} : Geometry jsb ↔
    ¬ (jsb.first = 0 ∨ jsb.maxLen ≤ jsb.first ∨ jsb.start < jsb.first ∨
    jsb.maxLen ≤ jsb.start) := by
  have hzero : jsb.first = 0 ↔ jsb.first.toNat = 0 := by
    rw [← UInt32.toNat_inj]
    rfl
  rw [hzero, UInt32.le_iff_toNat_le, UInt32.lt_iff_toNat_lt, UInt32.le_iff_toNat_le]
  constructor
  · rintro ⟨h1, h2, h3⟩
    omega
  · intro h
    exact ⟨by omega, by omega, by omega⟩

theorem Geometry.start_inRing {jsb : JournalSuperblock} (h : Geometry jsb) :
    InRing jsb jsb.start.toNat := ⟨h.first_le, h.start_lt⟩

def logReads (crc : Crc) (jsb : JournalSuperblock) (log : Nat → Bytes) : List Nat :=
  loopReads crc jsb log (capacity jsb) (capacity jsb) (WalkState.start jsb)

theorem logReads_inRing {crc : Crc} {jsb : JournalSuperblock} {log : Nat → Bytes}
    (hg : Geometry jsb) :
    ∀ j ∈ logReads crc jsb log, InRing jsb j :=
  loopReads_inRing _ _ _ hg.start_inRing

theorem walk_reads (crc : Crc) (fs : Filesystem) (jsb : JournalSuperblock) (d : Disk)
    (log : Nat → Bytes)
    (hw : Walkable fs jsb) {jinode : Inode} (hj : fs.journalInode.exec d = (.ok jinode, d))
      {good : Nat → Bool}
    {e : Error} (hrd : ∀ j ∈ logReads crc jsb log,
      (readJournalBlock fs jinode jsb.blockSize.toNat j).exec d =
        (bif good j then .ok (log j) else .error e, d)) :
    (walk crc fs jsb).exec d = (bif (logReads crc jsb log).all good then
      (scan crc jsb log (capacity jsb) (WalkState.start jsb)).map
          (·.plan.filterRevoked) else .error e, d) := by
  have hg := hw.geometry
  have hclean : jsb.isClean = false := by
    simp [JournalSuperblock.isClean, hw.dirty]
  have hloop := @walkLoop_reads crc jsb log _ d good e (capacity jsb) (capacity jsb)
    (WalkState.start jsb) hrd
  unfold walk
  rw [hclean, if_neg (by simp), if_neg (by simp [hw.supported]), hw.declared]
  dsimp only
  rw [if_neg (by simp [hw.blockSize]), if_neg (geometry_iff.mp hg), Io.exec_bind_ok _ _ _ _ _ hj]
  change (walkLoop crc jsb _ (capacity jsb) (capacity jsb) (WalkState.start jsb) >>= _).exec d = _
  have hscan : scan crc jsb log (capacity jsb) (WalkState.start jsb) =
      scanLoop crc jsb log (capacity jsb) (capacity jsb) (WalkState.start jsb) := rfl
  rw [hscan]
  change _ = (bif (loopReads crc jsb log _ _ _).all good then _ else _, d)
  cases hall : (loopReads crc jsb log (capacity jsb) (capacity jsb) (WalkState.start jsb)).all
    good with
  | false =>
    rw [hall] at hloop
    rw [Io.exec_bind_error _ _ _ _ e hloop]
    rfl
  | true =>
    rw [hall] at hloop
    cases hr : scanLoop crc jsb log (capacity jsb) (capacity jsb) (WalkState.start jsb) with
    | error err =>
      rw [hr] at hloop
      rw [Io.exec_bind_error _ _ _ _ err hloop]
      rfl
    | ok st =>
      rw [hr] at hloop
      rw [Io.exec_bind_ok _ _ _ _ _ hloop]
      rfl

theorem walk_exec (crc : Crc) (fs : Filesystem) (jsb : JournalSuperblock) (d : Disk)
    (log : Nat → Bytes) (hw : Walkable fs jsb) (hlog : LogOnDisk fs jsb d log) :
    (walk crc fs jsb).exec d =
      ((scan crc jsb log (capacity jsb) (WalkState.start jsb)).map (·.plan.filterRevoked), d) := by
  obtain ⟨jinode, hj, hrd⟩ := hlog
  have hwalk := @walk_reads crc fs jsb d log hw jinode hj (fun _ => true) .io
    (fun j hmem => hrd j (logReads_inRing hw.geometry j hmem))
  rwa [List.all_eq_true.mpr (fun _ _ => rfl)] at hwalk

/-- A 32-block volume of 1024-byte blocks; its journal is blocks 16 to 23. -/
def smallVolume : Filesystem where
  sb := {
    inodesCount := 16
    blocksCount := 32
    firstDataBlock := 1
    logBlockSize := 0
    blocksPerGroup := 8192
    inodesPerGroup := 16
    inodeSize := 128
    featureIncompat := 0
    descSize := 32
    reservedGdtBlocks := 0
    journalInode := 8
    featureCompat := 0x4
    featureRoCompat := 0
    firstInode := 11
    metaBgField := 0
    backupBgs := [0, 0]
    uuid := List.replicate 16 0 }
  groups := [{
    blockBitmap := 3
    inodeBitmap := 4
    inodeTable := 5
    freeBlocksCount := 16
    freeInodesCount := 5
    usedDirsCount := 1
    flags := 0 }]
  sizeBytes := 32768
  isWritable := true

def smallJournalInode : Inode where
  mode := 0
  size := 8192
  linksCount := 1
  blocks := 0
  flags := 0
  block := (List.range 8).flatMap (fun j => u32le (UInt32.ofNat (16 + j))) ++ List.replicate 28 0
  generation := 0
  fileAcl := 0

def smallInodeTable : Bytes :=
  copyAt (copyAt (copyAt (List.replicate 1024 0) 900 (u32le 8192)) 922 (u16le 1)) 936
    smallJournalInode.block

theorem length_smallInodeTable : smallInodeTable.length = 1024 := by decide +kernel

def smallDisk (journal : Nat → Bytes) : Disk where
  size := 32768
  img := Image.ofBlocks 1024 (fun b =>
    if b = 5 then smallInodeTable else if 16 ≤ b ∧ b < 24 then journal (b - 16)
    else List.replicate 1024 0)

theorem smallVolume_journalInode (d : Disk) (hd : d.size = 32768)
    (ht : d.img.read 5120 1024 = smallInodeTable) :
    smallVolume.journalInode.exec d = (.ok smallJournalInode, d) := by
  have hloc : locateInode smallVolume.sb smallVolume.groups smallVolume.sb.journalInode =
      .ok (5, 896) := rfl
  have hparse : Inode.parse (slice smallInodeTable 896 128) = .ok smallJournalInode := by
    decide +kernel
  have hraw : (smallVolume.readInodeRaw smallVolume.sb.journalInode).exec d =
      (.ok (slice smallInodeTable 896 128), d) := by
    unfold Filesystem.readInodeRaw
    rw [hloc]
    have hread : (smallVolume.readBlock 5).exec d = (.ok smallInodeTable, d) := by
      have hr := exec_readAt d 5120 1024 (by omega)
      rw [ht] at hr
      exact hr
    rw [Io.exec_bind_ok _ _ _ _ _ (Io.exec_liftM _ _)]
    dsimp only
    rw [Io.exec_bind_ok _ _ _ _ _ hread, if_neg]
    · rfl
    · rw [length_smallInodeTable]
      decide
  unfold Filesystem.journalInode
  rw [Io.exec_bind_ok _ _ _ _ _ hraw, hparse]
  rfl

theorem smallVolume_journalBlock (d : Disk) (j : Nat) (hj : j < 8) :
    (smallVolume.journalBlockToPhysical smallJournalInode j).exec d = (.ok (some (16 + j)), d) := by
  have hptr : ∀ j, j < 8 → Indirect.ptrAt smallJournalInode.block j = 16 + j := by decide
  have hfollow : smallVolume.journalBlockToPhysical smallJournalInode j =
      Indirect.follow 1024 [] (Indirect.ptrAt smallJournalInode.block j) := by
    change Indirect.lookup smallJournalInode.block 1024 j = _
    have hp : Nat.isPowerOfTwo 1024 := ⟨10, rfl⟩
    unfold Indirect.lookup
    rw [if_neg (by simp [hp]), if_pos (by unfold Indirect.directCount; omega)]
  rw [hfollow, hptr j hj]
  simp [Indirect.follow, Indirect.present]

theorem smallVolume_mapped (d : Disk) (hd : d.size = 32768)
    (ht : d.img.read 5120 1024 = smallInodeTable) :
    Mapped smallVolume (· < 8) (16 + ·) smallJournalInode d :=
  ⟨smallVolume_journalInode d hd ht, fun j hj => smallVolume_journalBlock d j hj⟩

theorem Mapped.mono {fs : Filesystem} {dom dom' : Nat → Prop} {map : Nat → Nat} {jinode : Inode}
    {d : Disk} (hm : Mapped fs dom map jinode d) (h : ∀ j, dom' j → dom j) :
    Mapped fs dom' map jinode d :=
  ⟨hm.1, fun j hj => hm.2 j (h j hj)⟩

theorem smallDisk_inodeTable (journal : Nat → Bytes) :
    (smallDisk journal).img.read 5120 1024 = smallInodeTable := by
  unfold smallDisk
  dsimp only
  rw [Image.read_ofBlocks 1024 _ 5 (by rw [if_pos rfl]; exact length_smallInodeTable), if_pos rfl]

theorem smallDisk_mapped (journal : Nat → Bytes) :
    Mapped smallVolume (· < 8) (16 + ·) smallJournalInode (smallDisk journal) :=
  smallVolume_mapped _ rfl (smallDisk_inodeTable journal)

theorem smallDisk_logOf (journal : Nat → Bytes) (j : Nat) (hj : j < 8)
    (hlen : (journal j).length = 1024) :
    logOf smallVolume (16 + ·) (smallDisk journal) j = journal j := by
  have hb : (if 16 + j = 5 then smallInodeTable else if 16 ≤ 16 + j ∧ 16 + j < 24 then
      journal (16 + j - 16) else List.replicate 1024 0) = journal j := by
    rw [if_neg (by omega), if_pos (by omega), Nat.add_sub_cancel_left]
  change (smallDisk journal).img.read ((16 + j) * 1024) 1024 = journal j
  unfold smallDisk
  dsimp only
  rw [Image.read_ofBlocks, hb]
  rw [hb, hlen]

theorem smallVolume_logOnDisk (jsb : JournalSuperblock) (hbs : jsb.blockSize = 1024)
    (hmax : jsb.maxLen.toNat ≤ 8) (journal : Nat → Bytes)
    (hlen : ∀ j, (journal j).length = 1024) :
    LogOnDisk smallVolume jsb (smallDisk journal) journal := by
  have hin : ∀ j, InRing jsb j → j < 8 := fun j hj => Nat.lt_of_lt_of_le hj.2 hmax
  have hbs' : jsb.blockSize.toNat = smallVolume.sb.blockSize := by rw [hbs]; rfl
  obtain ⟨jinode, h1, h2⟩ := ((smallDisk_mapped journal).mono hin).logOnDisk hbs' (by
    intro j hj
    have hj8 := hin j hj
    change (16 + j) * 1024 + 1024 ≤ 32768
    omega)
  refine ⟨jinode, h1, ?_⟩
  intro j hj
  rw [h2 j hj, smallDisk_logOf journal j (hin j hj) (hlen j)]

def smallJsb (featureIncompat start sequence : UInt32) : JournalSuperblock where
  blockType := superblockV2
  headerSequence := 0
  blockSize := 1024
  maxLen := 8
  first := 1
  sequence := sequence
  start := start
  errno := 0
  featureCompat := 0
  featureIncompat := featureIncompat
  featureRoCompat := 0
  uuid := List.replicate 16 0
  nrUsers := 0
  checksumType := crc32cChksum
  numFcBlocks := 0
  checksum := 0

def smallJsbBlock (featureIncompat start sequence : UInt32) : Bytes :=
  u32be magicNumber ++ u32be superblockV2 ++ u32be 0 ++ u32be 1024 ++ u32be 8 ++ u32be 1 ++
    u32be sequence ++ u32be start ++ u32be 0 ++ u32be 0 ++ u32be featureIncompat ++
    List.replicate 36 0 ++ [crc32cChksum] ++ List.replicate 943 0

def withJsb (featureIncompat start sequence : UInt32) (log : Nat → Bytes) (j : Nat) : Bytes :=
  if j = 0 then smallJsbBlock featureIncompat start sequence else log j

theorem smallVolume_readSuperblock (d : Disk) (hd : d.size = 32768)
    (ht : d.img.read 5120 1024 = smallInodeTable) (jsb : JournalSuperblock)
    (hparse : JournalSuperblock.parse (logOf smallVolume (16 + ·) d 0) = .ok jsb) :
    smallVolume.readSuperblock.exec d = (.ok (some jsb), d) := by
  obtain ⟨hj, hm⟩ := smallVolume_mapped d hd ht
  have hread : (readAt ((16 + 0) * smallVolume.sb.blockSize) smallVolume.sb.blockSize).exec d =
      (.ok (logOf smallVolume (16 + ·) d 0), d) := by
    apply exec_readAt
    change (16 + 0) * 1024 + 1024 ≤ d.size
    omega
  unfold Filesystem.readSuperblock
  rw [if_neg (by decide), Io.exec_bind_ok _ _ _ _ _ hj, Io.exec_bind_ok _ _ _ _ _
    (hm 0 (by decide))]
  dsimp only
  rw [Io.exec_bind_ok _ _ _ _ _ hread, hparse]
  rfl

end FsExt4.Journal
