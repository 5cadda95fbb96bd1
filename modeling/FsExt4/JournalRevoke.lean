import Mathlib.Data.List.Forall2
import FsExt4.JournalApply
import FsExt4.JournalLog

namespace FsExt4.Journal

open Lib Jbd2

theorem sequenceAfter_add (s : UInt32) (i j : Nat) (hi : i < 2 ^ 31) (hj : j < 2 ^ 31) :
    sequenceAfter (s + UInt32.ofNat i) (s + UInt32.ofNat j) = decide (j < i) := by
  have hn : (s + UInt32.ofNat i - (s + UInt32.ofNat j)).toBitVec.toNat =
      (2 ^ 32 - j + i) % 2 ^ 32 := by
    have hs := s.toNat_lt
    change (s + UInt32.ofNat i - (s + UInt32.ofNat j)).toNat = _
    rw [UInt32.toNat_sub, UInt32.toNat_add, UInt32.toNat_add, UInt32.toNat_ofNat',
      UInt32.toNat_ofNat']
    omega
  unfold sequenceAfter
  rw [BitVec.toInt_eq_toNat_cond, hn]
  apply decide_eq_decide.mpr
  by_cases hji : j < i
  · have hm : (2 ^ 32 - j + i) % 2 ^ 32 = i - j := by omega
    rw [hm, if_pos (by omega)]
    omega
  · by_cases he : i = j
    · subst he
      have hm : (2 ^ 32 - i + i) % 2 ^ 32 = 0 := by omega
      rw [hm, if_pos (by omega)]
      omega
    · have hm : (2 ^ 32 - j + i) % 2 ^ 32 = 2 ^ 32 - j + i := by omega
      rw [hm, if_neg (by omega)]
      omega

def higher (fsBlock : UInt64) (e : Option UInt32) (r : RevokeEntry) : Option UInt32 :=
  if r.fsBlock = fsBlock then
    match e with
    | none => some r.transaction
    | some t => some (if sequenceAfter r.transaction t then r.transaction else t)
  else e

def Latest (ks : List Nat) : Option Nat → Prop
  | none => ks = []
  | some m => m ∈ ks ∧ ∀ k ∈ ks, k ≤ m

def distancesOf (fsBlock : UInt64) (rs : List (Nat × UInt64)) : List Nat :=
  (rs.filter (fun r => r.2 = fsBlock)).map Prod.fst

theorem foldl_higher (s : UInt32) (fsBlock : UInt64) (rs : List (Nat × UInt64))
    (hrs : ∀ r ∈ rs, r.1 < 2 ^ 31) (seen : List Nat) (m : Option Nat) (hm : Latest seen m)
    (hseen : ∀ k ∈ seen, k < 2 ^ 31) :
    ∃ m', (rs.map (fun r => (⟨s + UInt32.ofNat r.1, r.2⟩ : RevokeEntry))).foldl (higher fsBlock)
      (m.map (fun k => s + UInt32.ofNat k)) = m'.map (fun k => s + UInt32.ofNat k) ∧
      Latest (seen ++ distancesOf fsBlock rs) m' := by
  induction rs generalizing seen m with
  | nil => exact ⟨m, rfl, by simpa [distancesOf] using hm⟩
  | cons r rest ih =>
    have hrest := fun r' h' => hrs r' (List.mem_cons_of_mem _ h')
    have hr := hrs r List.mem_cons_self
    rw [List.map_cons, List.foldl_cons]
    by_cases hb : r.2 = fsBlock
    · have hd : distancesOf fsBlock (r :: rest) = r.1 :: distancesOf fsBlock rest := by
        simp [distancesOf, hb]
      have hseen' : ∀ k ∈ seen ++ [r.1], k < 2 ^ 31 := by
        intro k hk
        obtain hk | hk := List.mem_append.mp hk
        · exact hseen k hk
        · rw [List.mem_singleton.mp hk]
          exact hr
      cases m with
      | none =>
        have hs0 : seen = [] := hm
        obtain ⟨m', h1, h2⟩ := ih hrest (seen ++ [r.1]) (some r.1) (by simp [Latest, hs0]) hseen'
        refine ⟨m', ?_, ?_⟩
        · rw [← h1]
          simp [higher, hb]
        · rw [hd]
          simpa using h2
      | some t =>
        obtain ⟨ht, hmax⟩ := hm
        have hord := sequenceAfter_add s r.1 t hr (hseen t ht)
        by_cases hlt : t < r.1
        · obtain ⟨m', h1, h2⟩ := ih hrest (seen ++ [r.1]) (some r.1) (by
            refine ⟨by simp, ?_⟩
            intro k hk
            obtain hk | hk := List.mem_append.mp hk
            · exact Nat.le_trans (hmax k hk) (Nat.le_of_lt hlt)
            · rw [List.mem_singleton.mp hk]) hseen'
          refine ⟨m', ?_, ?_⟩
          · rw [← h1]
            simp [higher, hb, hord, hlt]
          · rw [hd]
            simpa using h2
        · obtain ⟨m', h1, h2⟩ := ih hrest (seen ++ [r.1]) (some t) (by
            refine ⟨by simp [ht], ?_⟩
            intro k hk
            obtain hk | hk := List.mem_append.mp hk
            · exact hmax k hk
            · rw [List.mem_singleton.mp hk]
              omega) hseen'
          refine ⟨m', ?_, ?_⟩
          · rw [← h1]
            simp [higher, hb, hord, hlt]
          · rw [hd]
            simpa using h2
    · have hd : distancesOf fsBlock (r :: rest) = distancesOf fsBlock rest := by
        simp [distancesOf, hb]
      obtain ⟨m', h1, h2⟩ := ih hrest seen m hm hseen
      refine ⟨m', ?_, ?_⟩
      · rw [← h1]
        simp [higher, hb]
      · rw [hd]
        exact h2

theorem survives_iff (s : UInt32) (rs : List (Nat × UInt64)) (hrs : ∀ r ∈ rs, r.1 < 2 ^ 31)
    (w : ReplayEntry) (k : Nat) (hk : k < 2 ^ 31) (hw : w.transaction = s + UInt32.ofNat k) :
    survives (rs.map (fun r => (⟨s + UInt32.ofNat r.1, r.2⟩ : RevokeEntry))) w = true ↔
      ∀ r ∈ rs, r.2 = w.fsBlock → r.1 < k := by
  obtain ⟨m, h1, h2⟩ := foldl_higher s w.fsBlock rs hrs [] none rfl (by simp)
  rw [List.nil_append] at h2
  have hhigh : highest (rs.map (fun r => (⟨s + UInt32.ofNat r.1, r.2⟩ : RevokeEntry))) w.fsBlock =
      m.map (fun k => s + UInt32.ofNat k) := h1
  have hmem : ∀ r, r ∈ rs → r.2 = w.fsBlock → r.1 ∈ distancesOf w.fsBlock rs := by
    intro r hr hb
    simp only [distancesOf, List.mem_map, List.mem_filter, decide_eq_true_eq]
    exact ⟨r, ⟨hr, hb⟩, rfl⟩
  unfold survives
  rw [hhigh]
  cases m with
  | none =>
    have hnone : distancesOf w.fsBlock rs = [] := h2
    simp only [Option.map_none, true_iff]
    intro r hr hb
    have hin := hmem r hr hb
    rw [hnone] at hin
    simp at hin
  | some t =>
    obtain ⟨ht, hmax⟩ := h2
    obtain ⟨r, hr, hrt⟩ := List.mem_map.mp ht
    obtain ⟨hr, hb⟩ := List.mem_filter.mp hr
    simp only [decide_eq_true_eq] at hb
    simp only [Option.map_some]
    rw [hw, sequenceAfter_add s k t hk (by rw [← hrt]; exact hrs r hr), decide_eq_true_eq]
    constructor
    · intro hlt r' hr' hb'
      exact Nat.lt_of_le_of_lt (hmax _ (hmem r' hr' hb')) hlt
    · intro hall
      rw [← hrt]
      exact hall r hr hb

theorem ReplayPlan.filterRevoked_writes (plan : ReplayPlan) :
    plan.filterRevoked.writes = plan.writes.filter (survives plan.revokes) := by
  unfold ReplayPlan.filterRevoked
  split
  · rename_i h
    rw [List.isEmpty_iff] at h
    symm
    apply List.filter_eq_self.mpr
    intro w _
    simp [survives, highest, h]
  · rfl

@[simp] theorem ReplayPlan.filterRevoked_revokes (plan : ReplayPlan) :
    plan.filterRevoked.revokes = plan.revokes := by
  unfold ReplayPlan.filterRevoked
  split <;> rfl

@[simp] theorem ReplayPlan.filterRevoked_nextSequence (plan : ReplayPlan) :
    plan.filterRevoked.nextSequence = plan.nextSequence := by
  unfold ReplayPlan.filterRevoked
  split <;> rfl

/-- The writes of the transactions, each with its transaction's place in the log. -/
def indexedWrites : Nat → List LogTransaction → List (Nat × UInt64 × Bytes)
  | _, [] => []
  | k, t :: rest => t.writes.map (k, ·) ++ indexedWrites (k + 1) rest

def indexedRevokes : Nat → List LogTransaction → List (Nat × UInt64)
  | _, [] => []
  | k, t :: rest => t.revokes.map (k, ·) ++ indexedRevokes (k + 1) rest

def Unrevoked (ts : List LogTransaction) (w : Nat × UInt64 × Bytes) : Prop :=
  ∀ r ∈ indexedRevokes 0 ts, r.2 = w.2.1 → r.1 < w.1

instance (ts : List LogTransaction) (w : Nat × UInt64 × Bytes) : Decidable (Unrevoked ts w) :=
  inferInstanceAs (Decidable (∀ r ∈ indexedRevokes 0 ts, r.2 = w.2.1 → r.1 < w.1))

def survivors (ts : List LogTransaction) : List (Nat × UInt64 × Bytes) :=
  (indexedWrites 0 ts).filter (fun w => Unrevoked ts w)

structure Stands (jsb : JournalSuperblock) (log : Nat → Bytes) (e : ReplayEntry)
    (w : Nat × UInt64 × Bytes) : Prop where
  transaction : e.transaction = jsb.sequence + UInt32.ofNat w.1
  fsBlock : e.fsBlock = w.2.1
  content : JournalApply.unescape e (log e.journalBlock) = w.2.2
  inRing : InRing jsb e.journalBlock

section Plan

variable {crc : Crc} {jsb : JournalSuperblock} {log : Nat → Bytes}

theorem ofNat_succ (s : UInt32) (k : Nat) :
    s + UInt32.ofNat k + 1 = s + UInt32.ofNat (k + 1) := by
  rw [UInt32.add_assoc]
  congr 1
  exact (UInt32.ofNat_add k 1).symm

theorem place_stands (k cur : Nat) (hcur : InRing jsb cur) (tags : List LogTag)
    (data : List Bytes) (hl : tags.length = data.length)
    (hlog : Holds jsb log (advance cur 1 jsb) data) :
    List.Forall₂ (Stands jsb log)
      ((place jsb (jsb.sequence + UInt32.ofNat k) cur tags).map Prod.fst)
      ((tags.zip data).map (fun p => (k, p.1.fsBlock, p.1.content p.2))) := by
  induction tags generalizing cur data with
  | nil => exact List.Forall₂.nil
  | cons tag rest ih =>
    cases data with
    | nil => simp at hl
    | cons b data =>
      obtain ⟨h0, hr⟩ := (holds_cons (advance_inRing hcur 1) b data).mp hlog
      have hih := ih (advance cur 1 jsb) (advance_inRing hcur 1) data (by simpa using hl) hr
      refine List.Forall₂.cons ⟨rfl, rfl, ?_, advance_inRing hcur 1⟩ hih
      dsimp only
      rw [h0]
      rfl

theorem record_stands (k cur : Nat) (hcur : InRing jsb cur) (r : LogRecord)
    (hr : r.Intact crc jsb (jsb.sequence + UInt32.ofNat k)) (hlog : Holds jsb log cur r.blocks) :
    List.Forall₂ (Stands jsb log) (r.entries jsb (jsb.sequence + UInt32.ofNat k) cur)
      (r.writes.map (k, ·)) := by
  cases r with
  | descriptor block tags data =>
    obtain ⟨-, -, hl, -⟩ := hr
    obtain ⟨-, hdata⟩ := (holds_cons hcur block data).mp hlog
    have hp := place_stands k cur hcur tags data hl hdata
    simpa only [LogRecord.entries, LogRecord.writes, List.map_map, Function.comp_def] using hp
  | revoke block revoked => exact List.Forall₂.nil

theorem records_stand (k cur : Nat) (hcur : InRing jsb cur) (records : List LogRecord)
    (hr : ∀ r ∈ records, r.Intact crc jsb (jsb.sequence + UInt32.ofNat k))
    (hlog : Holds jsb log cur (records.flatMap LogRecord.blocks)) :
    List.Forall₂ (Stands jsb log) (recordEntries jsb (jsb.sequence + UInt32.ofNat k) cur records)
      ((records.flatMap LogRecord.writes).map (k, ·)) := by
  induction records generalizing cur with
  | nil => exact List.Forall₂.nil
  | cons r rest ih =>
    rw [List.flatMap_cons, holds_append hcur] at hlog
    rw [List.flatMap_cons, List.map_append]
    apply List.rel_append (record_stands k cur hcur r (hr r List.mem_cons_self) hlog.1)
    exact ih _ (advance_inRing hcur _) (fun r' h' => hr r' (List.mem_cons_of_mem _ h')) hlog.2

theorem log_stands (ts : List LogTransaction) (k cur : Nat) (hcur : InRing jsb cur)
    (ht : AllCommitted crc jsb (jsb.sequence + UInt32.ofNat k) ts)
    (hlog : Holds jsb log cur (logBlocks ts)) :
    List.Forall₂ (Stands jsb log) (logEntries jsb (jsb.sequence + UInt32.ofNat k) cur ts)
      (indexedWrites k ts) := by
  induction ts generalizing k cur with
  | nil => exact List.Forall₂.nil
  | cons t rest ih =>
    obtain ⟨h1, h2⟩ := ht
    unfold logBlocks at hlog
    rw [List.flatMap_cons, holds_append hcur] at hlog
    rw [ofNat_succ] at h2
    have hrec := hlog.1
    rw [LogTransaction.blocks, holds_append hcur] at hrec
    unfold logEntries indexedWrites
    rw [ofNat_succ]
    apply List.rel_append (records_stand k cur hcur t.records h1.records hrec.1)
    exact ih (k + 1) _ (advance_inRing hcur _) h2 hlog.2

theorem logRevokes_eq (s : UInt32) (ts : List LogTransaction) (k : Nat) :
    logRevokes (s + UInt32.ofNat k) ts =
      (indexedRevokes k ts).map (fun r => (⟨s + UInt32.ofNat r.1, r.2⟩ : RevokeEntry)) := by
  induction ts generalizing k with
  | nil => rfl
  | cons t rest ih =>
    rw [logRevokes, indexedRevokes, ofNat_succ, ih, List.map_append, List.map_map]
    rfl

theorem indexed_lt (ts : List LogTransaction) (k : Nat) :
    (∀ r ∈ indexedRevokes k ts, r.1 < k + ts.length) ∧
      ∀ w ∈ indexedWrites k ts, w.1 < k + ts.length := by
  induction ts generalizing k with
  | nil => simp [indexedRevokes, indexedWrites]
  | cons t rest ih =>
    obtain ⟨h1, h2⟩ := ih (k + 1)
    rw [List.length_cons]
    refine ⟨?_, ?_⟩
    · intro r hr
      obtain hr | hr := List.mem_append.mp hr
      · obtain ⟨b, -, rfl⟩ := List.mem_map.mp hr
        dsimp only
        omega
      · have := h1 r hr
        omega
    · intro w hw
      obtain hw | hw := List.mem_append.mp hw
      · obtain ⟨b, -, rfl⟩ := List.mem_map.mp hw
        dsimp only
        omega
      · have := h2 w hw
        omega

theorem forall₂_filter {α β : Type} {R : α → β → Prop} (p : α → Bool) (q : β → Bool)
    (as : List α) (bs : List β) (h : List.Forall₂ R as bs)
    (hpq : ∀ a b, R a b → b ∈ bs → p a = q b) : List.Forall₂ R (as.filter p) (bs.filter q) := by
  induction h with
  | nil => exact List.Forall₂.nil
  | cons hab hrest ih =>
    rename_i a b as bs
    have hp := hpq a b hab List.mem_cons_self
    have hih := ih (fun a' b' h' hb' => hpq a' b' h' (List.mem_cons_of_mem _ hb'))
    rw [List.filter_cons, List.filter_cons, hp]
    split
    · exact List.Forall₂.cons hab hih
    · exact hih

theorem filterRevoked_stands (ts : List LogTransaction) (cur : Nat) (hcur : InRing jsb cur)
    (ht : AllCommitted crc jsb jsb.sequence ts) (hlog : Holds jsb log cur (logBlocks ts))
    (hcount : ts.length < 2 ^ 31) (plan : ReplayPlan)
    (hw : plan.writes = logEntries jsb jsb.sequence cur ts)
    (hr : plan.revokes = logRevokes jsb.sequence ts) :
    List.Forall₂ (Stands jsb log) plan.filterRevoked.writes (survivors ts) := by
  have hs0 : jsb.sequence + UInt32.ofNat 0 = jsb.sequence := by simp
  have hst := log_stands ts 0 cur hcur (by rw [hs0]; exact ht) hlog
  have hrv := logRevokes_eq jsb.sequence ts 0
  rw [hs0] at hst hrv
  obtain ⟨hrk, hwk⟩ := indexed_lt ts 0
  have hsurv : ∀ e w, Stands jsb log e w → w ∈ indexedWrites 0 ts →
      survives plan.revokes e = decide (Unrevoked ts w) := by
    intro e w hew hw'
    have hk := hwk w hw'
    rw [Bool.eq_iff_iff, decide_eq_true_iff, hr, hrv,
      survives_iff jsb.sequence (indexedRevokes 0 ts) (fun r h' => by have := hrk r h'; omega) e w.1
        (by omega) hew.transaction, hew.fsBlock]
    rfl
  unfold survivors
  rw [ReplayPlan.filterRevoked_writes, hw]
  exact forall₂_filter _ _ _ _ hst hsurv

/-- The journal holds the committed transactions, within one lap and fewer than half the sequence
space, and no header of the next sequence follows them. -/
structure CommittedLog (crc : Crc) (jsb : JournalSuperblock) (log : Nat → Bytes)
    (ts : List LogTransaction) : Prop where
  committed : AllCommitted crc jsb jsb.sequence ts
  count : ts.length < 2 ^ 31
  holds : Holds jsb log jsb.start.toNat (logBlocks ts)
  fits : (logBlocks ts).length ≤ capacity jsb
  ends : (logBlocks ts).length < capacity jsb →
    NoHeader log (advance jsb.start.toNat (logBlocks ts).length jsb)
      (sequenceAfterAll jsb.sequence ts)

theorem CommittedLog.congr {ts : List LogTransaction} {log' : Nat → Bytes} (hg : Geometry jsb)
    (h : CommittedLog crc jsb log ts) (he : ∀ j, InRing jsb j → log' j = log j) :
    CommittedLog crc jsb log' ts := by
  have hr := fun i => advance_inRing hg.start_inRing i
  refine ⟨h.committed, h.count, ?_, h.fits, ?_⟩
  · intro i b hb
    rw [he _ (hr i)]
    exact h.holds i b hb
  · intro hlt hdr hh
    rw [he _ (hr _)] at hh
    exact h.ends hlt hdr hh

theorem scan_committed {ts : List LogTransaction} (hg : Geometry jsb)
    (hlog : CommittedLog crc jsb log ts) :
    ∃ plan, (scan crc jsb log (capacity jsb) (WalkState.start jsb)).map
      (·.plan.filterRevoked) = .ok plan ∧
      List.Forall₂ (Stands jsb log) plan.writes (survivors ts) ∧
      plan.revokes = logRevokes jsb.sequence ts ∧
      plan.nextSequence = if ts = [] then none else some (sequenceAfterAll jsb.sequence ts) := by
  obtain ⟨st, hst, hpw, hpr, hpn⟩ := scan_log ts hg hlog.committed hlog.holds hlog.fits hlog.ends
  refine ⟨st.plan.filterRevoked, by rw [hst]; rfl, ?_, ?_, ?_⟩
  · exact filterRevoked_stands ts jsb.start.toNat hg.start_inRing hlog.committed
      hlog.holds hlog.count st.plan hpw hpr
  · rw [ReplayPlan.filterRevoked_revokes, hpr]
  · rw [ReplayPlan.filterRevoked_nextSequence, hpn]

theorem walk_committed {fs : Filesystem} {ts : List LogTransaction} (hw : Walkable fs jsb)
    (hlog : CommittedLog crc jsb log ts) :
    ∃ plan, (∀ d, LogOnDisk fs jsb d log → (walk crc fs jsb).exec d = (.ok plan, d)) ∧
      List.Forall₂ (Stands jsb log) plan.writes (survivors ts) ∧
      plan.revokes = logRevokes jsb.sequence ts ∧
      plan.nextSequence = if ts = [] then none else some (sequenceAfterAll jsb.sequence ts) := by
  obtain ⟨plan, hscan, hplan⟩ := scan_committed hw.geometry hlog
  refine ⟨plan, fun d hd => ?_, hplan⟩
  rw [walk_exec crc fs jsb d log hw hd, hscan]

theorem survives_append (rs rs' : List RevokeEntry) (e : ReplayEntry)
    (h : ∀ r ∈ rs', r.fsBlock ≠ e.fsBlock) :
    survives (rs ++ rs') e = survives rs e := by
  have hkeep : ∀ latest : Option UInt32, rs'.foldl (higher e.fsBlock) latest = latest := by
    intro latest
    induction rs' generalizing latest with
    | nil => rfl
    | cons r rest ih =>
      have hr : higher e.fsBlock latest r = latest := if_neg (h r List.mem_cons_self)
      rw [List.foldl_cons, hr]
      exact ih (fun r' h' => h r' (List.mem_cons_of_mem _ h')) latest
  have hhighest : highest (rs ++ rs') e.fsBlock = highest rs e.fsBlock := by
    change (rs ++ rs').foldl (higher e.fsBlock) none = rs.foldl (higher e.fsBlock) none
    rw [List.foldl_append]
    exact hkeep _
  unfold survives
  rw [hhighest]

end Plan

end FsExt4.Journal
