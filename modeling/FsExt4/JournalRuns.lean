import FsExt4.JournalCrash

namespace FsExt4

open Lib Jbd2 Journal JournalApply

namespace JournalWriter

theorem prepare_lengths {crc : Crc} {w : JournalWriter} {isWritable : Bool} {tx tx' : Transaction}
    {blocks : List Bytes} (h : w.prepare crc isWritable tx = .ok (tx', blocks)) :
    ∀ v ∈ tx.writes, v.bytes.length = w.blockSize := by
  unfold prepare at h
  split at h
  · exact absurd h (by simp)
  split at h
  · exact absurd h (by simp)
  split at h
  · exact absurd h (by simp)
  split at h
  · exact absurd h (by simp)
  rename_i hlen
  intro v hv
  by_contra hne
  apply hlen
  rw [List.any_eq_true]
  exact ⟨v, hv, by simpa using hne⟩

theorem jsb_of_open {fs : Filesystem} {d d' : Disk} {w : JournalWriter} {jsb : JournalSuperblock}
    (ho : (openWriter fs).exec d = (.ok (some w), d'))
      (hr : fs.readSuperblock.exec d = (.ok (some jsb), d)) :
    w.jsb = jsb := by
  unfold openWriter at ho
  rw [Io.exec_bind_ok _ _ _ _ _ hr] at ho
  dsimp only at ho
  obtain ⟨jinode, d₁, -, ho⟩ := Io.exec_bind_eq_ok _ _ _ _ _ ho
  split at ho
  · exact absurd (Prod.mk.inj ho).1 (by simp)
  obtain ⟨_, d₂, -, ho⟩ := Io.exec_bind_eq_ok _ _ _ _ _ ho
  obtain ⟨pm, d₃, -, ho⟩ := Io.exec_bind_eq_ok _ _ _ _ _ ho
  have hw := Option.some.inj (Except.ok.inj (Prod.mk.inj ho).1)
  rw [← hw]

end JournalWriter

namespace Journaled

variable {crc : Crc} {v : Journaled}

theorem Resting.mono {s : UInt32} {m m' : Nat} {img : Image} {d : Disk} (h : v.Resting s m img d)
    (hm : m' ≤ m) : v.Resting s m' img d :=
  ⟨h.size, h.steady, h.shows, h.journal, h.unused.mono hm⟩

theorem Resting.trans {s : UInt32} {m : Nat} {img img' : Image} {d : Disk} (h : v.Resting s m img d)
    (hs : v.Shows img img') : v.Resting s m img' d :=
  ⟨h.size, h.steady, h.shows.trans hs, h.journal, h.unused⟩

theorem Awaiting.trans {s : UInt32} {m : Nat} {tx : Transaction} {img img' : Image} {d : Disk}
    (h : v.Awaiting crc s m tx img d) (hs : v.Shows img img') : v.Awaiting crc s m tx img' d :=
  ⟨h.size, h.steady, h.shows.trans hs, h.journal, h.unused, h.admits, h.lengths⟩

theorem Recoverable.trans {m : Nat} {img img' : Image} {d : Disk} (h : Recoverable crc v m img d)
    (hs : v.Shows img img') : Recoverable crc v m img' d := by
  obtain ⟨s, h⟩ | ⟨s, tx, h⟩ := h
  · exact Or.inl ⟨s, h.trans hs⟩
  · exact Or.inr ⟨s, tx, h.trans hs⟩

/-- A commit that runs to its end: the writer goes on, the volume shows the transaction, and a crash
leaves either image to be had. -/
structure Lands (crc : Crc) (v : Journaled) (s : UInt32) (m : Nat) (img img' : Image)
    (w w' : JournalWriter) (tx : Transaction) (d : Disk) (evs : List Ev) : Prop where
  runs : (w.commit crc v.fs.sizeBytes v.fs.isWritable tx).Runs d (.ok (), w') evs
  held : v.Held (s + 1) w'
  rests : v.Resting (s + 1) m img' (d.after evs)
  crash : ∀ c, CrashImage d.img [] evs c →
    Recoverable crc v m img { d with img := c } ∨ Recoverable crc v m img' { d with img := c }

theorem Commits.lands {s : UInt32} {m : Nat} {img : Image} {w : JournalWriter}
    {tx tx' : Transaction}
    {blocks : List Bytes} {d : Disk} (h : Commits crc v s m img w tx' blocks d)
    (hp : w.prepare crc v.fs.isWritable tx = .ok (tx', blocks)) : ∃ w' evs,
      Lands crc v s m img (img.writeBlocks v.fs.sb.blockSize tx'.finalWrites) w w' tx d evs := by
  have hatt := h.held.attached h.resting
  obtain ⟨h₁, h₂, h₃, -⟩ := h.sound.runs hatt h.prepared v.writable v.descSize v.sizeFits
  have hwait := h.awaiting
  obtain ⟨hdone, hshows⟩ := hwait.replayed
  obtain ⟨hrest, hpart⟩ := h.cleaning hdone hshows
  obtain ⟨jsb, -, hparse, hfixed, -, -⟩ := hdone.journal
  have hsb : superblockOffset + 1024 ≤ d.size := by
    rw [h.resting.size]
    exact v.device_holds_superblock
  have h₄ := @JournalWriter.cleanStep_runs v.fs w { (JournalWriter.dirtied crc v.fs w blocks d) with
    img := (JournalWriter.dirtied crc v.fs w blocks d).img.writeBlocks v.fs.sb.blockSize
      tx'.finalWrites } crc
    h.held.blockSize hsb hatt.onDevice jsb (by rw [h.held.journalBlock]; exact hparse)
    (hfixed.trans h.held.fixed.symm)
  have hd₁ : d.after (writeEvs (JournalWriter.loggingWrites crc v.fs w blocks d.img) ++ [.flush]) =
      { d with img := d.img.writeAll (JournalWriter.loggingWrites crc v.fs w blocks d.img) } :=
        Disk.after_epoch d _
  have hd₂ : Disk.after { d with img := d.img.writeAll (JournalWriter.loggingWrites crc v.fs w
    blocks d.img) }
      (writeEvs [(w.journalBlock 0 * v.fs.sb.blockSize, JournalWriter.dirtyBlock crc v.fs w d.img)] ++
        [.flush]) = JournalWriter.dirtied crc v.fs w blocks d := by
    rw [Disk.after_epoch, JournalWriter.loggingWrites, Image.writeAll_append]
    rfl
  have hd₃ : (JournalWriter.dirtied crc v.fs w blocks d).after
      (writeEvs (atOffsets v.fs.sb.blockSize tx'.finalWrites) ++ [.flush]) =
      { (JournalWriter.dirtied crc v.fs w blocks d) with
        img := (JournalWriter.dirtied crc v.fs w blocks d).img.writeBlocks v.fs.sb.blockSize
          tx'.finalWrites } :=
    Disk.after_epoch _ _
  have hdirtied : (d.img.writeAll (JournalWriter.loggingWrites crc v.fs w blocks d.img)).writeAll
      [(w.journalBlock 0 * v.fs.sb.blockSize, JournalWriter.dirtyBlock crc v.fs w d.img)] =
      (JournalWriter.dirtied crc v.fs w blocks d).img := by
    rw [JournalWriter.loggingWrites, Image.writeAll_append]
    rfl
  have hrun := JournalWriter.publish_runs crc w v.fs.sizeBytes tx' blocks d _ _ _ _ h₁
    (by rw [hd₁]; exact h₂) (by rw [hd₁, hd₂]; exact h₃) (by rw [hd₁, hd₂, hd₃]; exact h₄)
  rw [← JournalWriter.commit_eq crc w v.fs.sizeBytes v.fs.isWritable tx tx' blocks h.held.healthy hp
    h.prepared.nonempty] at hrun
  refine ⟨_, _, hrun, ?_, ?_, ?_⟩
  · exact ⟨rfl, h.held.physicalMap, h.held.blockSize, h.held.blocksCount, h.held.fixed,
      congrArg (· + 1) h.held.sequence, rfl⟩
  · rw [Disk.after_append, Disk.after_append, Disk.after_append, hd₁, hd₂, hd₃, Disk.after_epoch]
    exact hrest
  · intro c hc
    obtain ⟨kept, hk, rfl⟩ | hc := hc.closed_cases
    · exact Or.inl (Or.inl ⟨s, (h.logged hk).mono (by omega)⟩)
    obtain ⟨kept, hk, rfl⟩ | hc := hc.closed_cases
    · obtain rfl | rfl := List.sublist_singleton.mp hk
      · exact Or.inl (Or.inl ⟨s, (h.logged (List.Sublist.refl _)).mono (by omega)⟩)
      · right
        rw [hdirtied]
        exact Or.inr ⟨s, tx', hwait⟩
    right
    rw [hdirtied] at hc
    obtain ⟨kept, hk, rfl⟩ | hc := hc.closed_cases
    · exact Or.inr ⟨s, tx', hwait.partly hk⟩
    · rw [← List.append_nil (writeEvs _ ++ [Ev.flush])] at hc
      obtain ⟨kept, hk, rfl⟩ | hc := hc.closed_cases
      · exact hpart kept hk
      · obtain ⟨kept, hk, rfl⟩ := hc.nil_cases
        rw [List.sublist_nil.mp hk]
        exact Or.inl ⟨s + 1, hrest⟩

theorem Held.commit_cases (crc : Crc) {s : UInt32} {m : Nat} {img : Image} {w : JournalWriter}
    {tx : Transaction} {d : Disk}
    (h : v.Held s w) (hd : v.Resting s (m + 2) img d) (hm : m + 2 < 2 ^ 32) (ha : v.Admits tx) :
    (∃ e, (w.commit crc v.fs.sizeBytes v.fs.isWritable tx).Runs d (.error e, w) []) ∨
      ∃ w' evs, Lands crc v s m img (img.writeBlocks v.fs.sb.blockSize tx.finalWrites) w w'
        tx d evs := by
  cases hp : w.prepare crc v.fs.isWritable tx with
  | error e =>
    left
    refine ⟨e, ?_⟩
    unfold JournalWriter.commit
    simp only [h.healthy, hp, Bool.not_true, Bool.false_eq_true, if_false]
    exact Io.Runs.pure _ d
  | ok p =>
    obtain ⟨tx', blocks⟩ := p
    right
    obtain ⟨-, rfl, hprep⟩ := JournalWriter.prepared_of_prepare crc v.fs w h.blockSize
      v.fs.isWritable tx tx' blocks hp
    have hlens := JournalWriter.prepare_lengths hp
    have hc : Commits crc v s m img w (w.patchSuperblock crc tx) blocks d :=
      ⟨h, hd, hm, hprep, h.admits_patched hlens ha⟩
    obtain ⟨w', evs, hl⟩ := hc.lands hp
    have hs := @Held.shows_patched crc v s w h tx hlens img img (Shows.refl img)
    refine ⟨w', evs, hl.runs, hl.held, hl.rests.trans hs, ?_⟩
    intro c hc
    exact (hl.crash c hc).imp id fun hr => hr.trans hs

theorem Resting.reopens {s : UInt32} {m : Nat} {img : Image} {d d' : Disk} (h : v.Resting s m img d)
    {incompat : UInt32} {w : JournalWriter}
    (ho : (JournalWriter.openWriter (v.fs.withIncompat incompat)).exec d = (.ok (some w), d'))
      (hold : Bool) :
    d' = d ∧ v.Held s { w with holdNeedsRecovery := hold } := by
  have h0 : 0 < v.writer.jsb.maxLen.toNat := Nat.lt_of_succ_lt v.hasLog
  obtain ⟨jsb, hparse, hfixed, hseq, hstart⟩ := h.journal
  obtain ⟨jinode, hm⟩ := v.mapped h.size h.steady incompat
  have hdev : v.writer.journalBlock 0 * v.fs.sb.blockSize + v.fs.sb.blockSize ≤ d.size := by
    rw [h.size]
    exact v.onDevice _ (v.journalBlock_mem 0 h0)
  have hread := JournalWriter.readSuperblock_runs (v.fs.withIncompat incompat)
    v.writer.journalBlock jinode d _ h0 (attached_base (v := v)).2.hasJournal hm hdev jsb hparse
  have hjsb : w.jsb = jsb := JournalWriter.jsb_of_open ho hread.exec
  have hmax : w.jsb.maxLen = v.writer.jsb.maxLen := by
    rw [hjsb]
    exact congrArg (·.maxLen) hfixed
  obtain ⟨rfl, hh, hatt⟩ := JournalWriter.attached_of_open (v.fs.withIncompat incompat) d d' w ho
    (h.size.trans v.size) (by rw [hmax]; exact h0)
  obtain ⟨jinode', hj', hm'⟩ := hatt.mapped
  obtain rfl : jinode' = jinode := Except.ok.inj (Prod.mk.inj (hj'.symm.trans hm.1)).1
  have hmap : w.physicalMap = v.writer.physicalMap := by
    have hl := (attached_base (v := v)).2.mapLength
    have hl' := hatt.mapLength
    rw [hmax] at hl'
    apply List.ext_getElem (hl'.trans hl.symm)
    intro j h1 h2
    have hj : j < v.writer.jsb.maxLen.toNat := by omega
    have he := (hm' j (by rw [hmax]; exact hj)).symm.trans (hm.2 j hj)
    have he' : w.journalBlock j = v.writer.journalBlock j :=
      Option.some.inj (Except.ok.inj (Prod.mk.inj he).1)
    unfold JournalWriter.journalBlock at he'
    rwa [List.getD_eq_getElem _ _ h1, List.getD_eq_getElem _ _ h2] at he'
  refine ⟨rfl, hh, hmap, hatt.blockSize, hatt.blocksCount, ?_, ?_, ?_⟩
  · rw [hjsb]
    exact hfixed
  · rw [hjsb]
    exact hseq
  · rw [hjsb]
    exact hstart

def contents (v : Journaled) (kept : List Transaction) : Image :=
  v.base.img.writeBlocks v.fs.sb.blockSize (kept.flatMap Transaction.finalWrites)

theorem contents_concat (kept : List Transaction) (tx : Transaction) :
    v.contents (kept ++ [tx]) = (v.contents kept).writeBlocks v.fs.sb.blockSize tx.finalWrites := by
  unfold contents Image.writeBlocks atOffsets
  rw [List.flatMap_append, List.map_append, Image.writeAll_append, List.flatMap_singleton]

/-- A run of commits, crashes, recoveries and mounts. The history has every transaction whose commit
succeeded, marked as acknowledged, and every one whose commit was cut off. -/
inductive Run (crc : Crc) (v : Journaled) : List (Transaction × Bool) → Option JournalWriter →
    Disk → Prop where
  | mounted : Run crc v [] (some v.writer) v.base
  | committed (history : List (Transaction × Bool)) (w w' : JournalWriter) (d d' : Disk)
      (tx : Transaction) (h : Run crc v history (some w) d) (ha : v.Admits tx)
      (hc : (w.commit crc v.fs.sizeBytes v.fs.isWritable tx).exec d = (.ok (.ok (), w'), d')) :
      Run crc v (history ++ [(tx, true)]) (some w') d'
  | refused (history : List (Transaction × Bool)) (w w' : JournalWriter) (d d' : Disk)
      (tx : Transaction) (e : Error) (h : Run crc v history (some w) d) (ha : v.Admits tx)
      (hc : (w.commit crc v.fs.sizeBytes v.fs.isWritable tx).exec d = (.ok (.error e, w'), d')) :
      Run crc v history (some w') d'
  | cutCommit (history : List (Transaction × Bool)) (w : JournalWriter) (d : Disk)
      (tx : Transaction) (img : Image) (h : Run crc v history (some w) d) (ha : v.Admits tx)
      (hc : CrashImage d.img [] ((w.commit crc v.fs.sizeBytes v.fs.isWritable tx).trace d) img) :
      Run crc v (history ++ [(tx, false)]) none { d with img := img }
  | stopped (history : List (Transaction × Bool)) (w : JournalWriter) (d : Disk)
      (h : Run crc v history (some w) d) : Run crc v history none d
  | cutRecovery (history : List (Transaction × Bool)) (d : Disk) (incompat : UInt32) (img : Image)
      (h : Run crc v history none d) (hx : writeBreakingIncompat incompat = 0)
      (hc : CrashImage d.img [] ((replayIfDirty crc (v.fs.withIncompat incompat)).trace d) img) :
      Run crc v history none { d with img := img }
  | remounted (history : List (Transaction × Bool)) (d d' d'' : Disk) (incompat : UInt32) (n : Nat)
      (w : JournalWriter) (hold : Bool) (h : Run crc v history none d)
      (hx : writeBreakingIncompat incompat = 0)
      (hr : (replayIfDirty crc (v.fs.withIncompat incompat)).exec d = (.ok n, d'))
      (ho : (JournalWriter.openWriter (v.fs.withIncompat incompat)).exec d' = (.ok (some w), d'')) :
      Run crc v history (some { w with holdNeedsRecovery := hold }) d''

/-- What every state of a run keeps: a mounted volume is at rest, any other one can be recovered. -/
def Sound (crc : Crc) (v : Journaled) (m : Nat) (img : Image) : Option JournalWriter → Disk → Prop
  | some w, d => ∃ s, v.Held s w ∧ v.Resting s m img d
  | none, d => Recoverable crc v m img d

theorem Run.sound {history : List (Transaction × Bool)} {o : Option JournalWriter} {d : Disk}
    (hrun : Run crc v history o d) {n : Nat} (hn : history.length < n) (hwindow : 2 * n < 2 ^ 32)
    (hfresh : v.Unused v.writer.jsb.sequence (2 * n) v.base) :
    ∃ kept, Kept history kept ∧ Sound crc v (2 * (n - history.length)) (v.contents kept) o d := by
  induction hrun with
  | mounted =>
    obtain ⟨hh, hatt⟩ := attached_base (v := v)
    obtain ⟨jsb, hparse, hfixed, hseq, hstart⟩ := hatt.superblock
    exact ⟨[], Kept.nil, v.writer.jsb.sequence, ⟨hh, rfl, hatt.blockSize, hatt.blocksCount, rfl,
      rfl, v.clean⟩,
      ⟨rfl, fun _ _ => rfl, Shows.refl _, ⟨jsb, hparse, hfixed, hseq, hstart.trans v.clean⟩,
      hfresh⟩⟩
  | committed history w w' d d' tx h ha hc ih =>
    rw [List.length_append, List.length_singleton] at hn ⊢
    obtain ⟨kept, hk, s, hheld, hrest⟩ := ih (by omega)
    rw [show 2 * (n - history.length) = 2 * (n - (history.length + 1)) + 2 by omega] at hrest
    obtain ⟨e, hl⟩ | ⟨w₁, evs, hl⟩ := hheld.commit_cases crc hrest (by omega) ha
    · rw [hl.exec] at hc
      exact absurd (Prod.mk.inj (Except.ok.inj (Prod.mk.inj hc).1)).1 (by simp)
    · have he := hl.runs.exec.symm.trans hc
      obtain rfl := (Prod.mk.inj (Except.ok.inj (Prod.mk.inj he).1)).2
      obtain rfl := (Prod.mk.inj he).2
      refine ⟨kept ++ [tx], hk.append tx true, s + 1, hl.held, ?_⟩
      rw [contents_concat]
      exact hl.rests
  | refused history w w' d d' tx e h ha hc ih =>
    obtain ⟨kept, hk, s, hheld, hrest⟩ := ih hn
    have hrest' := hrest
    rw [show 2 * (n - history.length) = 2 * (n - (history.length + 1)) + 2 by omega] at hrest'
    obtain ⟨e, hl⟩ | ⟨w₁, evs, hl⟩ := hheld.commit_cases crc hrest' (by omega) ha
    · have he := hl.exec.symm.trans hc
      obtain rfl := (Prod.mk.inj (Except.ok.inj (Prod.mk.inj he).1)).2
      obtain rfl := (Prod.mk.inj he).2
      exact ⟨kept, hk, s, hheld, hrest⟩
    · rw [hl.runs.exec] at hc
      exact absurd (Prod.mk.inj (Except.ok.inj (Prod.mk.inj hc).1)).1 (by simp)
  | cutCommit history w d tx img h ha hc ih =>
    rw [List.length_append, List.length_singleton] at hn ⊢
    obtain ⟨kept, hk, s, hheld, hrest⟩ := ih (by omega)
    rw [show 2 * (n - history.length) = 2 * (n - (history.length + 1)) + 2 by omega] at hrest
    obtain ⟨e, hl⟩ | ⟨w₁, evs, hl⟩ := hheld.commit_cases crc hrest (by omega) ha
    · rw [hl.trace] at hc
      obtain ⟨l, hl', rfl⟩ := hc.nil_cases
      rw [List.sublist_nil.mp hl']
      exact ⟨kept, hk.lost tx, Or.inl ⟨s, hrest.mono (by omega)⟩⟩
    · rw [hl.runs.trace] at hc
      obtain hr | hr := hl.crash img hc
      · exact ⟨kept, hk.lost tx, hr⟩
      · refine ⟨kept ++ [tx], hk.append tx false, ?_⟩
        rw [contents_concat]
        exact hr
  | stopped history w d h ih =>
    obtain ⟨kept, hk, s, -, hrest⟩ := ih hn
    exact ⟨kept, hk, Or.inl ⟨s, hrest⟩⟩
  | cutRecovery history d incompat img h hx hc ih =>
    obtain ⟨kept, hk, hr⟩ := ih hn
    obtain ⟨evs, hrec⟩ := Recoverable.recovers hr incompat hx
    obtain ⟨k, hruns⟩ := hrec.runs
    rw [hruns.trace] at hc
    exact ⟨kept, hk, hrec.crash img hc⟩
  | remounted history d d' d'' incompat k w hold h hx hr ho ih =>
    obtain ⟨kept, hk, hrec⟩ := ih hn
    obtain ⟨evs, hrec⟩ := Recoverable.recovers hrec incompat hx
    obtain ⟨k', hruns⟩ := hrec.runs
    obtain ⟨s, hrest⟩ := hrec.rests
    have he := hruns.exec.symm.trans hr
    obtain rfl := (Prod.mk.inj he).2
    obtain ⟨rfl, hheld⟩ := hrest.reopens ho hold
    exact ⟨kept, hk, s, hheld, hrest⟩

theorem Sound.shows {m : Nat} {img : Image} {w : JournalWriter} {d : Disk}
    (h : Sound crc v m img (some w) d) :
    v.Shows d.img img := by
  obtain ⟨s, -, h⟩ := h
  exact h.shows

theorem Sound.recoverable {m : Nat} {img : Image} {o : Option JournalWriter} {d : Disk}
    (h : Sound crc v m img o d) : Recoverable crc v m img d := by
  cases o with
  | none => exact h
  | some w =>
    obtain ⟨s, -, h⟩ := h
    exact Or.inl ⟨s, h⟩

/-- Every run of commits, crashes and recoveries keeps the transactions whose commits succeeded and
some of those that were cut off, whole and in order: a mounted volume shows them, and recovery of
any other one ends with it showing them. -/
theorem runs_keep_acknowledged_transactions (crc : Crc) (v : Journaled)
    (history : List (Transaction × Bool))
    (o : Option JournalWriter) (d : Disk) (hrun : Run crc v history o d)
    (hwindow : 2 * (history.length + 1) < 2 ^ 32)
    (hfresh : v.Unused v.writer.jsb.sequence (2 * (history.length + 1)) v.base) :
    ∃ kept, Kept history kept ∧ (o ≠ none → v.Shows d.img (v.contents kept)) ∧
      ∀ incompat, writeBreakingIncompat incompat = 0 →
        ∃ n d', (replayIfDirty crc (v.fs.withIncompat incompat)).exec d = (.ok n, d') ∧
          v.Shows d'.img (v.contents kept) := by
  obtain ⟨kept, hk, hs⟩ := hrun.sound (Nat.lt_succ_self _) hwindow hfresh
  refine ⟨kept, hk, ?_, ?_⟩
  · intro ho
    cases o with
    | none => exact absurd rfl ho
    | some w => exact hs.shows
  · intro incompat hx
    obtain ⟨evs, hrec⟩ := Recoverable.recovers hs.recoverable incompat hx
    obtain ⟨n, hruns⟩ := hrec.runs
    obtain ⟨s, hrest⟩ := hrec.rests
    exact ⟨n, _, hruns.exec, hrest.shows⟩

open JournalWriter

theorem small_mapping (d : Disk) (hd : d.size = smallClean.size)
    (hsame : ∀ p, 5120 ≤ p ∧ p < 6144 → d.img p = smallClean.img p) :
    ∃ jinode, Mapped smallVolume (· < (smallWriter 0 0 7).jsb.maxLen.toNat)
      (smallWriter 0 0 7).journalBlock jinode d := by
  refine ⟨_, smallWriter_mapped 0 0 7 d hd ?_⟩
  rw [← smallDisk_inodeTable (withJsb 0 0 7 zeroLog)]
  apply Image.read_congr
  intro p hp1 hp2
  exact hsame p ⟨hp1, by omega⟩

theorem small_apart (p : Nat) (hp : 5120 ≤ p ∧ p < 6144) :
    ¬ (superblockOffset ≤ p ∧ p < superblockOffset + 1024) ∧
      ∀ b ∈ (smallWriter 0 0 7).physicalMap, ¬ (b * 1024 ≤ p ∧ p < b * 1024 + 1024) := by
  constructor
  · unfold superblockOffset
    omega
  · intro b hb
    have h16 : ∀ b ∈ (smallWriter 0 0 7).physicalMap, 16 ≤ b := by decide
    have := h16 b hb
    omega

def smallJournaled : Journaled where
  fs := smallVolume
  writer := smallWriter 0 0 7
  base := smallClean
  steady p := 5120 ≤ p ∧ p < 6144
  opens := smallClean_opens
  size := rfl
  sizeFits := by decide
  descSize := by decide
  writable := rfl
  hasLog := by decide
  first := rfl
  clean := rfl
  distinct := by decide
  onDevice := by decide
  apart := small_apart
  mapping := small_mapping

theorem smallJournaled_steady (p : Nat) : smallJournaled.steady p ↔ 5120 ≤ p ∧ p < 6144 := Iff.rfl

theorem smallCommitted_admitted : smallJournaled.Admits smallCommitted := by
  refine ⟨smallCommitted_replayable, ?_⟩
  intro w hw i hi hp
  have hb : ∀ w ∈ smallCommitted.writes, 30 ≤ w.fsBlock.toNat := by decide
  have h30 := hb w hw
  have hbs : smallJournaled.fs.sb.blockSize = 1024 := by decide
  rw [hbs] at hp
  obtain ⟨-, hlt⟩ := (smallJournaled_steady _).mp hp
  omega

def smallAfter : Disk :=
  (((smallWriter 0 0 7).commit linuxCrc32c smallVolume.sizeBytes smallVolume.isWritable
    smallCommitted).exec smallClean).2

theorem smallJournaled_commits :
    ((smallWriter 0 0 7).commit linuxCrc32c smallVolume.sizeBytes smallVolume.isWritable
      smallCommitted).exec smallClean = (.ok (.ok (), smallWriter 0 0 8), smallAfter) := by
  have h : (((smallWriter 0 0 7).commit linuxCrc32c smallVolume.sizeBytes smallVolume.isWritable
      smallCommitted).exec smallClean).1 = .ok (.ok (), smallWriter 0 0 8) := by decide +kernel
  unfold smallAfter
  rw [← h]

theorem smallJournaled_run :
    Run linuxCrc32c smallJournaled [(smallCommitted, true)] none smallAfter :=
  Run.stopped _ (smallWriter 0 0 8) _ (Run.committed [] (smallWriter 0 0 7) _ smallClean _
    smallCommitted Run.mounted smallCommitted_admitted smallJournaled_commits)

theorem smallJournaled_fresh : smallJournaled.Unused 7 4 smallClean := by
  intro j h1 h8 hdr hh
  have hnone : tryParseHeader (List.replicate 1024 0) = none := by decide +kernel
  have hl := smallClean_log j h1 h8
  change logOf smallVolume (smallWriter 0 0 7).journalBlock smallClean j = _ at hl
  change tryParseHeader (logOf smallVolume (smallWriter 0 0 7).journalBlock smallClean j) =
    some hdr at hh
  rw [hl, hnone] at hh
  exact absurd hh (by simp)

/-- A commit that succeeded before the machine stopped is there after the next mount. -/
theorem smallJournaled_keeps_commit :
    ∃ kept, Kept [(smallCommitted, true)] kept ∧
      ((none : Option JournalWriter) ≠ none →
        smallJournaled.Shows smallAfter.img (smallJournaled.contents kept)) ∧
      ∀ incompat, writeBreakingIncompat incompat = 0 →
        ∃ n d', (replayIfDirty linuxCrc32c (smallJournaled.fs.withIncompat incompat)).exec
          smallAfter = (.ok n, d') ∧ smallJournaled.Shows d'.img (smallJournaled.contents kept) :=
  runs_keep_acknowledged_transactions linuxCrc32c smallJournaled [(smallCommitted, true)]
    none smallAfter smallJournaled_run (by decide) smallJournaled_fresh

end Journaled

end FsExt4
