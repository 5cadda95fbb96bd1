import FsExt4.JournalRoundTrip
import FsExt4.JournalReads

namespace FsExt4.JournalApply

open Lib Jbd2 Journal

def InVolume (fs : Filesystem) (block : Nat) : Prop :=
  block < fs.sb.blocksCount ∧ block * fs.sb.blockSize + fs.sb.blockSize ≤ fs.sizeBytes

instance (fs : Filesystem) (block : Nat) : Decidable (InVolume fs block) :=
  inferInstanceAs (Decidable (_ ∧ _))

theorem byteOffsetOf_ok (fs : Filesystem) (h64 : fs.sizeBytes < 2 ^ 64) (block : Nat)
    (h : InVolume fs block) : byteOffsetOf fs block = .ok (block * fs.sb.blockSize) := by
  have h1 := h.1
  have h2 := h.2
  unfold byteOffsetOf byteOffsetIn
  rw [if_neg (by omega), if_neg (by omega), if_neg (by omega), if_neg (by omega)]

theorem byteOffsetOf_error (fs : Filesystem) (block : Nat) (h : ¬ InVolume fs block) :
    ∃ e, byteOffsetOf fs block = .error e := by
  unfold byteOffsetOf byteOffsetIn
  unfold InVolume at h
  split
  · exact ⟨_, rfl⟩
  · split
    · exact ⟨_, rfl⟩
    · split
      · exact ⟨_, rfl⟩
      · split
        · exact ⟨_, rfl⟩
        · omega

section Volume

variable {fs : Filesystem} {jsb : JournalSuperblock} {map : Nat → Nat} {jinode : Inode} {d : Disk}

def offsets (fs : Filesystem) (map : Nat → Nat) (e : ReplayEntry) : Nat × Nat :=
  (map e.journalBlock * fs.sb.blockSize, e.fsBlock.toNat * fs.sb.blockSize)

def EntryInVolume (fs : Filesystem) (map : Nat → Nat) (e : ReplayEntry) : Prop :=
  InVolume fs (map e.journalBlock) ∧ InVolume fs e.fsBlock.toNat

instance (fs : Filesystem) (map : Nat → Nat) (e : ReplayEntry) :
    Decidable (EntryInVolume fs map e) := inferInstanceAs (Decidable (_ ∧ _))

theorem resolveEntry_ok (h64 : fs.sizeBytes < 2 ^ 64) (hm : Mapped fs (InRing jsb) map jinode d)
    (e : ReplayEntry) (he : InRing jsb e.journalBlock) (hin : EntryInVolume fs map e) :
    (resolveEntry fs jinode e).exec d = (.ok (offsets fs map e), d) := by
  unfold resolveEntry
  rw [Io.exec_bind_ok _ _ _ _ _ (hm.2 _ he)]
  dsimp only
  rw [byteOffsetOf_ok fs h64 _ hin.1, byteOffsetOf_ok fs h64 _ hin.2]
  rfl

theorem resolveEntry_error (h64 : fs.sizeBytes < 2 ^ 64) (hm : Mapped fs (InRing jsb) map jinode d)
    (e : ReplayEntry) (he : InRing jsb e.journalBlock) (hout : ¬ EntryInVolume fs map e) :
    ∃ err, (resolveEntry fs jinode e).exec d = (.error err, d) := by
  unfold resolveEntry
  rw [Io.exec_bind_ok _ _ _ _ _ (hm.2 _ he)]
  dsimp only
  by_cases hs : InVolume fs (map e.journalBlock)
  · obtain ⟨err, h⟩ := byteOffsetOf_error fs e.fsBlock.toNat (fun h => hout ⟨hs, h⟩)
    refine ⟨err, ?_⟩
    rw [byteOffsetOf_ok fs h64 _ hs, h]
    rfl
  · obtain ⟨err, h⟩ := byteOffsetOf_error fs (map e.journalBlock) hs
    refine ⟨err, ?_⟩
    rw [h]
    rfl

theorem resolveEntries_ok (h64 : fs.sizeBytes < 2 ^ 64) (hm : Mapped fs (InRing jsb) map jinode d)
    (es : List ReplayEntry) (hring : ∀ e ∈ es, InRing jsb e.journalBlock)
    (hin : ∀ e ∈ es, EntryInVolume fs map e) :
    (resolveEntries fs jinode es).exec d = (.ok (es.map (offsets fs map)), d) := by
  induction es with
  | nil => rfl
  | cons e rest ih =>
    have h1 := resolveEntry_ok h64 hm e (hring e List.mem_cons_self) (hin e List.mem_cons_self)
    have h2 := ih (fun e' h' => hring e' (List.mem_cons_of_mem _ h'))
      (fun e' h' => hin e' (List.mem_cons_of_mem _ h'))
    rw [resolveEntries, Io.exec_bind_ok _ _ _ _ _ h1, Io.exec_bind_ok _ _ _ _ _ h2]
    rfl

theorem resolveEntries_error (h64 : fs.sizeBytes < 2 ^ 64)
    (hm : Mapped fs (InRing jsb) map jinode d) (es : List ReplayEntry)
    (hring : ∀ e ∈ es, InRing jsb e.journalBlock) (hout : ∃ e ∈ es, ¬ EntryInVolume fs map e) :
    ∃ err, (resolveEntries fs jinode es).exec d = (.error err, d) := by
  induction es with
  | nil => simp at hout
  | cons e rest ih =>
    have he := hring e List.mem_cons_self
    rw [resolveEntries]
    by_cases hin : EntryInVolume fs map e
    · obtain ⟨e', he', hbad⟩ := hout
      obtain rfl | he' := List.mem_cons.mp he'
      · exact absurd hin hbad
      · obtain ⟨err, h⟩ := ih (fun e' h' => hring e' (List.mem_cons_of_mem _ h')) ⟨e', he', hbad⟩
        refine ⟨err, ?_⟩
        rw [Io.exec_bind_ok _ _ _ _ _ (resolveEntry_ok h64 hm e he hin),
          Io.exec_bind_error _ _ _ _ _ h]
    · obtain ⟨err, h⟩ := resolveEntry_error h64 hm e he hin
      exact ⟨err, by rw [Io.exec_bind_error _ _ _ _ _ h]⟩

@[simp] theorem length_unescape (e : ReplayEntry) (buf : Bytes) (h : 4 ≤ buf.length) :
    (unescape e buf).length = buf.length := by
  unfold unescape
  split
  · exact length_copyAt _ _ _ (by simpa using h)
  · rfl

theorem applyEntries_runs (bs : Nat) (hbs : 4 ≤ bs) (rs : List (ReplayEntry × Nat × Nat)) (d : Disk)
    (hsrc : ∀ r ∈ rs, r.2.1 + bs ≤ d.size) (hdst : ∀ r ∈ rs, r.2.2 + bs ≤ d.size)
    (hdisj : rs.Pairwise (fun r r' => r'.2.1 + bs ≤ r.2.2 ∨ r.2.2 + bs ≤ r'.2.1)) :
    (applyEntries bs rs).Runs d ()
      (writeEvs (rs.map (fun r => (r.2.2, unescape r.1 (d.img.read r.2.1 bs))))) := by
  induction rs generalizing d with
  | nil => exact Io.Runs.pure () d
  | cons r rest ih =>
    obtain ⟨e, source, destination⟩ := r
    have hs := hsrc (e, source, destination) List.mem_cons_self
    have ht := hdst (e, source, destination) List.mem_cons_self
    dsimp only at hs ht
    have hlen : (unescape e (d.img.read source bs)).length = bs := by
      rw [length_unescape _ _ (by simpa using hbs), Image.length_read]
    have hih := ih { d with img := d.img.write destination (unescape e (d.img.read source bs)) }
      (fun r hr => hsrc r (List.mem_cons_of_mem _ hr))
      (fun r hr => hdst r (List.mem_cons_of_mem _ hr)) (List.pairwise_cons.mp hdisj).2
    have hsame : rest.map (fun r => (r.2.2, unescape r.1
          ((d.img.write destination (unescape e (d.img.read source bs))).read r.2.1 bs))) =
        rest.map (fun r => (r.2.2, unescape r.1 (d.img.read r.2.1 bs))) := by
      apply List.map_congr_left
      intro r hr
      have hd := (List.pairwise_cons.mp hdisj).1 r hr
      rw [Image.read_write_disjoint _ _ _ _ _ (by rw [hlen]; exact hd)]
    rw [hsame] at hih
    exact (readAt_runs d source bs hs).bind_silent
      ((writeAt_runs d destination _ (by rwa [hlen])).bind hih)

def entryWrites (fs : Filesystem) (map : Nat → Nat) (d : Disk) (es : List ReplayEntry) :
    List (Nat × Bytes) :=
  es.map (fun e => (e.fsBlock.toNat, unescape e (logOf fs map d e.journalBlock)))

theorem entryWrites_length (es : List ReplayEntry) (w : Nat × Bytes)
    (h : w ∈ entryWrites fs map d es) : w.2.length = fs.sb.blockSize := by
  have hbs := blockSize_ge fs.sb
  obtain ⟨e, -, rfl⟩ := List.mem_map.mp h
  have hl : (logOf fs map d e.journalBlock).length = fs.sb.blockSize := Image.length_read _ _ _
  dsimp only
  rw [length_unescape _ _ (by omega), hl]

theorem apply_resolved (plan : ReplayPlan) (hwr : fs.isWritable = true) (hne : plan.writes ≠ [])
    (offs : List (Nat × Nat)) (hres : (resolve fs plan).Runs d offs []) (evs : List Ev)
    (happly : (applyEntries fs.sb.blockSize (plan.writes.zip offs)).Runs d () evs) :
    (apply fs plan).Runs d plan.writes.length (evs ++ [.flush]) := by
  have hne' : plan.writes.isEmpty = false := by
    rw [Bool.eq_false_iff, ne_eq, List.isEmpty_iff]
    exact hne
  unfold apply
  rw [hne', hwr]
  simp only [Bool.false_eq_true, if_false, Bool.not_true]
  exact hres.bind_silent (happly.bind ((flush_runs _).bind (Io.Runs.pure _ _)))

section Apply

variable (h64 : fs.sizeBytes < 2 ^ 64) (hwr : fs.isWritable = true)
  (hm : Mapped fs (InRing jsb) map jinode d) (plan : ReplayPlan)
  (hring : ∀ e ∈ plan.writes, InRing jsb e.journalBlock)

include h64 hwr hm hring

theorem apply_refuses (hout : ∃ e ∈ plan.writes, ¬ EntryInVolume fs map e) :
    ∃ err, (apply fs plan).exec d = (.error err, d) := by
  obtain ⟨err, hr⟩ := resolveEntries_error h64 hm plan.writes hring hout
  have hne : plan.writes.isEmpty = false := by
    obtain ⟨e, he, -⟩ := hout
    cases hp : plan.writes with
    | nil => simp [hp] at he
    | cons _ _ => rfl
  refine ⟨err, ?_⟩
  unfold apply resolve
  rw [hne, hwr]
  simp only [Bool.false_eq_true, if_false, Bool.not_true]
  rw [Io.exec_bind_error _ _ _ _ err]
  rw [Io.exec_bind_ok _ _ _ _ _ hm.1]
  exact hr

theorem apply_runs (hsize : fs.sizeBytes = d.size) (hin : ∀ e ∈ plan.writes, EntryInVolume fs map e)
    (hfree : plan.writes.Pairwise (fun e e' => map e'.journalBlock ≠ e.fsBlock.toNat))
    (hne : plan.writes ≠ []) :
    (apply fs plan).Runs d plan.writes.length
      (writeEvs (atOffsets fs.sb.blockSize (entryWrites fs map d plan.writes)) ++ [.flush]) := by
  have hbs := blockSize_ge fs.sb
  have hres : (resolve fs plan).exec d = (.ok (plan.writes.map (offsets fs map)), d) := by
    unfold resolve
    rw [Io.exec_bind_ok _ _ _ _ _ hm.1]
    exact resolveEntries_ok h64 hm plan.writes hring hin
  have hzip : plan.writes.zip (plan.writes.map (offsets fs map)) =
      plan.writes.map (fun e => (e, offsets fs map e)) := List.map_prod_left_eq_zip.symm
  have happly := applyEntries_runs fs.sb.blockSize (by omega)
    (plan.writes.map (fun e => (e, offsets fs map e))) d (by
      intro r hr
      obtain ⟨e, he, rfl⟩ := List.mem_map.mp hr
      have h := (hin e he).1.2
      rw [hsize] at h
      exact h) (by
      intro r hr
      obtain ⟨e, he, rfl⟩ := List.mem_map.mp hr
      have h := (hin e he).2.2
      rw [hsize] at h
      exact h) (List.pairwise_map.mpr (hfree.imp (fun hne => block_disjoint _ _ _ hne)))
  have hwrites : (plan.writes.map (fun e => (e, offsets fs map e))).map
      (fun r => (r.2.2, unescape r.1 (d.img.read r.2.1 fs.sb.blockSize))) =
      atOffsets fs.sb.blockSize (entryWrites fs map d plan.writes) := by
    rw [atOffsets, entryWrites, List.map_map, List.map_map]
    rfl
  rw [hwrites, ← hzip] at happly
  exact apply_resolved plan hwr hne _ ((resolve_readsBlocks fs plan).runs hres) _ happly

theorem apply_exec (hsize : fs.sizeBytes = d.size) (hin : ∀ e ∈ plan.writes, EntryInVolume fs map e)
    (hfree : plan.writes.Pairwise (fun e e' => map e'.journalBlock ≠ e.fsBlock.toNat)) :
    (apply fs plan).exec d = (.ok plan.writes.length, { d with
      img := d.img.writeBlocks fs.sb.blockSize (entryWrites fs map d plan.writes) }) := by
  by_cases hne : plan.writes = []
  · unfold apply
    rw [hne]
    rfl
  · have hrun := apply_runs h64 hwr hm plan hring hsize hin hfree hne
    rw [hrun.exec, Disk.after_append, Disk.after_writeEvs]
    rfl

end Apply

end Volume

def replayWrites (ts : List LogTransaction) : List (Nat × Bytes) :=
  (survivors ts).map (fun w => (w.2.1.toNat, w.2.2))

section Replay

variable {crc : Crc} {fs : Filesystem} {jsb : JournalSuperblock} {log : Nat → Bytes}
  {map : Nat → Nat} {jinode : Inode} {d : Disk} {ts : List LogTransaction}

theorem mem_of_forall₂ {α β : Type} {R : α → β → Prop} {as : List α} {bs : List β}
    (h : List.Forall₂ R as bs) (a : α) (ha : a ∈ as) : ∃ b ∈ bs, R a b := by
  induction h with
  | nil => simp at ha
  | cons hab _ ih =>
    obtain rfl | ha := List.mem_cons.mp ha
    · exact ⟨_, List.mem_cons_self, hab⟩
    · obtain ⟨b, hb, hR⟩ := ih ha
      exact ⟨b, List.mem_cons_of_mem _ hb, hR⟩

theorem entryWrites_eq (es : List ReplayEntry) (ws : List (Nat × UInt64 × Bytes))
    (h : List.Forall₂ (Stands jsb (logOf fs map d)) es ws) :
    entryWrites fs map d es = ws.map (fun w => (w.2.1.toNat, w.2.2)) := by
  induction h with
  | nil => rfl
  | cons hew _ ih =>
    unfold entryWrites at ih ⊢
    rw [List.map_cons, List.map_cons, ih, hew.fsBlock, hew.content]

def OnDevice (fs : Filesystem) (map : Nat → Nat) (d : Disk) (j : Nat) : Prop :=
  map j * fs.sb.blockSize + fs.sb.blockSize ≤ d.size

instance (fs : Filesystem) (map : Nat → Nat) (d : Disk) (j : Nat) : Decidable
    (OnDevice fs map d j) :=
  inferInstanceAs (Decidable (_ ≤ _))

theorem logOf_writeBlocks (ws : List (Nat × Bytes)) (hlen : ∀ w ∈ ws, w.2.length = fs.sb.blockSize)
    (j : Nat) (hfree : ∀ w ∈ ws, map j ≠ w.1) :
    logOf fs map { d with img := d.img.writeBlocks fs.sb.blockSize ws } j = logOf fs map d j := by
  have hnone := lastWrite_eq_none ws (map j) (fun w hw h => hfree w hw h.symm)
  have hb := Image.block_writeBlocks d.img fs.sb.blockSize ws hlen (map j)
  rw [hnone, Option.getD_none] at hb
  exact hb

theorem Mapped.reads {crc : Crc} (hm : Mapped fs (InRing jsb) map jinode d) (hw : Walkable fs jsb) :
    ∀ j ∈ logReads crc jsb log, (readJournalBlock fs jinode jsb.blockSize.toNat j).exec d =
      (bif decide (OnDevice fs map d j) then .ok (logOf fs map d j) else .error .io, d) := by
  intro j hj
  unfold readJournalBlock
  rw [Io.exec_bind_ok _ _ _ _ _ (hm.2 j (logReads_inRing hw.geometry j hj)), hw.blockSize]
  dsimp only
  by_cases hdev : OnDevice fs map d j
  · rw [decide_eq_true hdev]
    exact exec_readAt d _ _ hdev
  · rw [decide_eq_false hdev]
    exact exec_readAt_past d _ _ hdev

end Replay

theorem smallDisk_onDevice (features start sequence : UInt32) (journal : Nat → Bytes) (j : Nat)
    (hj : InRing (smallJsb features start sequence) j) :
    (16 + j) * smallVolume.sb.blockSize + smallVolume.sb.blockSize ≤ (smallDisk journal).size := by
  have h8 : j < 8 := hj.2
  change (16 + j) * 1024 + 1024 ≤ 32768
  omega

theorem small_committedLog (features start sequence : UInt32) (tx : Transaction)
    (hacc : tx.Accepted (smallJsb features start sequence)) (hseq : tx.sequence = sequence)
    (hg : Geometry (smallJsb features start sequence))
    (hw : ∀ w ∈ tx.writes, Transaction.Fits (smallJsb features start sequence) w.fsBlock)
    (hr : ∀ b ∈ tx.revokes, Transaction.Fits (smallJsb features start sequence) b)
    (hl : (serialized linuxCrc32c (smallJsb features start sequence) tx).length < 7)
    (hb : ∀ b ∈ serialized linuxCrc32c (smallJsb features start sequence) tx, b.length = 1024)
    (journal : Nat → Bytes) (hj : ∀ j, InRing (smallJsb features start sequence) j → journal j =
      ringLog start.toNat (serialized linuxCrc32c (smallJsb features start sequence) tx) j) :
    ∃ t : LogTransaction, t.writes = tx.writes.map (fun w => (w.fsBlock, w.bytes)) ∧
      t.revokes = tx.revokes ∧
      CommittedLog linuxCrc32c (smallJsb features start sequence)
        (logOf smallVolume (16 + ·) (smallDisk journal)) [t] := by
  have hs : 1 ≤ start.toNat ∧ start.toNat ≤ 7 := by
    have h1 : 1 ≤ start.toNat := hg.first_le
    have h2 : start.toNat < 8 := hg.start_lt
    omega
  have hbs : 1024 ≤ tx.blockSize.toNat := by
    rw [hacc.blockSize]
    exact Nat.le_refl 1024
  obtain ⟨blocks, hc, t, -, htw, htr, hlog⟩ :=
    committedLog_commitFor linuxCrc32c _ tx hbs hacc hseq hw hr
  have hblocks : blocks = serialized linuxCrc32c (smallJsb features start sequence) tx := by
    unfold serialized
    rw [hc]
  rw [hblocks] at hlog
  refine ⟨t, htw, htr, ?_⟩
  apply (hlog _ (ringLog_holds features start sequence _ hs (by omega)) (Nat.le_of_lt hl)
    (fun _ => ringLog_ends features start sequence _ _ hs hl)).congr hg
  intro j hring
  rw [smallDisk_logOf journal j hring.2 (by rw [hj j hring]; exact ringLog_length _ _ hb j),
    hj j hring]

def overlapTransaction : Transaction where
  sequence := 1
  blockSize := 1024
  uses64bit := false
  usesCsumV3 := false
  writes := [⟨19, List.replicate 1024 7⟩, ⟨30, List.replicate 1024 9⟩]
  revokes := []

def overlapLog : Nat → Bytes :=
  ringLog 1 (serialized linuxCrc32c (smallJsb 0 1 1) overlapTransaction)

theorem overlapLog_scan : (scan linuxCrc32c (smallJsb 0 1 1) overlapLog 7
    (WalkState.start (smallJsb 0 1 1))).toOption.map (·.plan.filterRevoked.writes) =
      some [⟨1, 19, 2, 2⟩, ⟨1, 30, 3, 10⟩] := by
  decide +kernel

theorem applyEntries_overlap (bs : Nat) (hbs : 4 ≤ bs) (e e' : ReplayEntry)
    (s t t' : Nat) (d : Disk)
    (he' : hasFlag e'.flags tagEscaped = false) (hs : s + bs ≤ d.size) (ht : t + bs ≤ d.size)
    (ht' : t' + bs ≤ d.size) :
    (applyEntries bs [(e, s, t), (e', t, t')]).Runs d () (writeEvs
      [(t, unescape e (d.img.read s bs)), (t', unescape e (d.img.read s bs))]) := by
  have hlen : (unescape e (d.img.read s bs)).length = bs := by
    rw [length_unescape _ _ (by simpa using hbs), Image.length_read]
  have hread : (d.img.write t (unescape e (d.img.read s bs))).read t bs =
      unescape e (d.img.read s bs) := by
    have hr := Image.read_write_self d.img t (unescape e (d.img.read s bs))
    rwa [hlen] at hr
  have hx' : ∀ x, unescape e' x = x := by
    intro x
    rw [unescape, he']
    rfl
  have hsecond := readAt_runs { d with img := d.img.write t (unescape e (d.img.read s bs)) } t bs ht
  rw [hread] at hsecond
  refine (readAt_runs d s bs hs).bind_silent ?_
  refine (writeAt_runs d t _ (by rwa [hlen])).bind (hsecond.bind_silent ?_)
  rw [hx']
  exact (writeAt_runs _ t' _ (by rwa [hlen])).bind (Io.Runs.pure () _)

end FsExt4.JournalApply
