import FsExt4.BufferView
import FsExt4.JournalCommit

namespace FsExt4

open Lib Jbd2 JournalApply

theorem lastWrite_entries (m : SortedMap Bytes) (b : Nat) : lastWrite m.entries b = m.get? b := by
  cases h : m.get? b with
  | some bytes =>
    exact lastWrite_of_mem m.entries m.nodup_keys (b, bytes) ((m.mem_entries_iff b bytes).mpr h)
  | none => exact lastWrite_eq_none _ _ ((m.get?_eq_none_iff b).mp h)

namespace Mount

variable {crc : Crc} {m m' : Mount} {d d' : Disk} {buf : BlockBuffer}

theorem writeEach_ok {bs : Nat} {stage : List (Nat × Bytes)}
    (h : (writeEach bs stage).exec d = (.ok (), d')) :
    d' = { d with img := d.img.writeBlocks bs stage } := by
  induction stage generalizing d with
  | nil =>
    obtain ⟨-, rfl⟩ := Prod.mk.inj h
    rfl
  | cons e rest ih =>
    obtain ⟨_, d₁, hw, hr⟩ := Io.exec_bind_eq_ok _ _ _ _ _ h
    by_cases hfit : e.1 * bs + e.2.length ≤ d.size
    · rw [exec_writeAt d _ _ hfit] at hw
      obtain ⟨-, rfl⟩ := Prod.mk.inj hw
      exact ih hr
    · rw [exec_writeAt_past d _ _ hfit] at hw
      cases (Prod.mk.inj hw).1

theorem writeStages_ok {bs : Nat} {stages : List (List (Nat × Bytes))}
    (h : (writeStages bs stages).exec d = (.ok (), d')) :
    d' = { d with img := d.img.writeBlocks bs stages.flatten } := by
  induction stages generalizing d with
  | nil =>
    obtain ⟨-, rfl⟩ := Prod.mk.inj h
    rfl
  | cons s rest ih =>
    rw [writeStages] at h
    split at h
    · rename_i hs
      rw [List.flatten_cons, List.isEmpty_iff.mp hs]
      exact ih h
    · obtain ⟨_, d₁, hw, hr⟩ := Io.exec_bind_eq_ok _ _ _ _ _ h
      obtain ⟨_, d₂, hf, hr⟩ := Io.exec_bind_eq_ok _ _ _ _ _ hr
      rw [exec_flush] at hf
      obtain ⟨-, rfl⟩ := Prod.mk.inj hf
      rw [ih hr, writeEach_ok hw, List.flatten_cons]
      unfold Image.writeBlocks atOffsets
      rw [List.map_append, Image.writeAll_append]

theorem lastWrite_directStages (dirty : SortedMap Bytes) (descriptors : List Nat) (b : Nat) :
    lastWrite (m.directStages dirty descriptors).flatten b = dirty.get? b := by
  have hmem : ∀ w, w ∈ (m.directStages dirty descriptors).flatten ↔ w ∈ dirty.entries := by
    intro w
    simp only [directStages, List.flatten_cons, List.flatten_nil, List.append_nil, List.mem_append,
      List.mem_filter, decide_eq_true_eq]
    constructor
    · rintro (h | h | h) <;> exact h.1
    · intro h
      by_cases h1 : w.1 = superblockOffset / m.fs.sb.blockSize
      · exact Or.inr (Or.inr ⟨h, h1⟩)
      · by_cases h2 : w.1 ∈ descriptors
        · exact Or.inr (Or.inl ⟨h, h1, h2⟩)
        · exact Or.inl ⟨h, h1, h2⟩
  cases hl : lastWrite (m.directStages dirty descriptors).flatten b with
  | some bytes =>
    exact ((dirty.mem_entries_iff b bytes).mp ((hmem _).mp (lastWrite_mem hl))).symm
  | none =>
    symm
    rw [dirty.get?_eq_none_iff]
    rintro e he rfl
    obtain ⟨data, hdata⟩ := lastWrite_isSome_of_mem ((hmem e).mpr he)
    rw [hdata] at hl
    cases hl

theorem writeDirect_ok {descriptors : List Nat} (hw : m.WholeBlocks d.img buf)
    (h : (m.writeDirect buf.dirty descriptors).exec d = (.ok (), d')) :
    d'.size = d.size ∧
      ∀ b, d'.img.block m.fs.sb.blockSize b = buf.view d.img m.fs.sb.blockSize b := by
  rw [writeStages_ok h]
  refine ⟨rfl, ?_⟩
  intro b
  have hlen : ∀ w ∈ (m.directStages buf.dirty descriptors).flatten,
      w.2.length = m.fs.sb.blockSize := by
    intro w hmem
    have hget : buf.dirty.get? w.1 = some w.2 := by
      obtain ⟨s, hs, hws⟩ := List.mem_flatten.mp hmem
      simp only [directStages, List.mem_cons, List.not_mem_nil, or_false] at hs
      have hin : w ∈ buf.dirty.entries := by
        obtain rfl | rfl | rfl := hs <;> exact (List.mem_filter.mp hws).1
      exact (buf.dirty.mem_entries_iff w.1 w.2).mp hin
    have hview := hw w.1
    rwa [BlockBuffer.view, hget, Option.getD_some] at hview
  rw [Image.block_writeBlocks _ _ _ hlen, lastWrite_directStages]
  rfl

end Mount

namespace JournalWriter

variable {crc : Crc} {w w' : JournalWriter} {d d' : Disk} {bs b : Nat}

theorem byteOffsetIn_ok {block blocksCount deviceBytes off : Nat}
    (h : byteOffsetIn block blocksCount bs deviceBytes = .ok off) : off = block * bs := by
  unfold byteOffsetIn at h
  split at h
  · cases h
  split at h
  · cases h
  split at h
  · cases h
  split at h
  · cases h
  exact (Except.ok.inj h).symm

theorem writeBlockAt_keeps {sizeBytes phys : Nat} {bytes : Bytes} (hbs : w.blockSize = bs)
    (hlen : bytes.length = bs) (hb : phys ≠ b) :
    (w.writeBlockAt sizeBytes phys bytes).Keeps (b * bs) bs := by
  unfold writeBlockAt
  rw [hbs]
  cases ho : byteOffsetIn phys w.blocksCount bs sizeBytes with
  | error e => exact Io.Keeps.fail e
  | ok off =>
    refine writeAt_keeps off bytes ?_
    rw [byteOffsetIn_ok ho, hlen]
    exact (block_disjoint bs phys b hb).symm

theorem writeLog_keeps {sizeBytes : Nat} (hbs : w.blockSize = bs)
    (hb : ∀ j, w.physicalMap.getD j 0 ≠ b) (blocks : List Bytes)
    (hlen : ∀ v ∈ blocks, v.length = bs) (j : Nat) :
    (w.writeLog sizeBytes blocks j).Keeps (b * bs) bs := by
  induction blocks generalizing j with
  | nil => exact Io.Keeps.pure ()
  | cons v rest ih =>
    exact (writeBlockAt_keeps hbs (hlen v List.mem_cons_self) (hb j)).bind
      (fun _ => ih (fun u hu => hlen u (List.mem_cons_of_mem _ hu)) (j + 1))

theorem writeNeedsRecovery_keeps {on : Bool}
    (hb : b * bs + bs ≤ superblockOffset ∨ superblockOffset + 1024 ≤ b * bs) :
    (writeNeedsRecovery crc on).Keeps (b * bs) bs := by
  apply readAt_bind_keeps
  intro sb hsb
  apply writeAt_keeps
  rw [length_setNeedsRecoveryIn crc sb on hsb]
  exact hb

theorem writeJsb_keeps (hbs : w.blockSize = bs) (h1024 : 1024 ≤ bs)
    (hb : w.physicalMap.getD 0 0 ≠ b) : (w.writeJsb crc).Keeps (b * bs) bs := by
  unfold writeJsb
  rw [hbs]
  apply readAt_bind_keeps
  intro buf hbuf
  split
  · exact Io.Keeps.fail _
  · split
    · exact Io.Keeps.fail _
    · apply writeAt_keeps
      rw [(patchJsb_restamped crc w buf (by omega)).length, hbuf]
      exact (block_disjoint bs _ b hb).symm

theorem writeFinal_ok {sizeBytes : Nat} (hbs : w.blockSize = bs) {ws : List JournaledBlock}
    (h : (w.writeFinal sizeBytes ws).exec d = (.ok (), d')) :
    d' = { d with img := d.img.writeBlocks bs (ws.map (fun v => (v.fsBlock.toNat, v.bytes))) } := by
  induction ws generalizing d with
  | nil =>
    obtain ⟨-, rfl⟩ := Prod.mk.inj h
    rfl
  | cons v rest ih =>
    obtain ⟨_, d₁, hw, hr⟩ := Io.exec_bind_eq_ok _ _ _ _ _ h
    obtain ⟨off, d₂, ho, hw⟩ := Io.exec_bind_eq_ok _ _ _ _ _ hw
    rw [Io.exec_liftM, hbs] at ho
    obtain ⟨hoff, rfl⟩ := Prod.mk.inj ho
    rw [byteOffsetIn_ok hoff] at hw
    by_cases hfit : v.fsBlock.toNat * bs + v.bytes.length ≤ d.size
    · rw [exec_writeAt d _ _ hfit] at hw
      obtain ⟨-, rfl⟩ := Prod.mk.inj hw
      exact ih hr
    · rw [exec_writeAt_past d _ _ hfit] at hw
      cases (Prod.mk.inj hw).1

theorem publish_cons_ok {step : DevIo Unit} {rest : List (JournalWriter × DevIo Unit)}
    {w₀ w₁ : JournalWriter} (h : (publish ((w₁, step) :: rest) w₀).exec d =
      (.ok (.ok (), w'), d')) :
    ∃ d₁, step.exec d = (.ok (), d₁) ∧ (publish rest w₁).exec d₁ = (.ok (.ok (), w'), d') := by
  rw [publish] at h
  obtain ⟨r, d₁, ha, hr⟩ := Io.exec_bind_eq_ok _ _ _ _ _ h
  rw [Io.exec_attempt] at ha
  obtain ⟨hok, rfl⟩ := Prod.mk.inj ha
  cases r with
  | error e => cases (Prod.mk.inj (Except.ok.inj (Prod.mk.inj hr).1)).1
  | ok a => exact ⟨_, Prod.ext (Except.ok.inj hok) rfl, hr⟩

theorem lastWrite_patchSuperblock (crc : Crc) (tx : Transaction) (hb : b ≠ w.sbBlock) :
    lastWrite (w.patchSuperblock crc tx).finalWrites b = lastWrite tx.finalWrites b := by
  unfold Transaction.finalWrites patchSuperblock
  dsimp only
  generalize tx.writes = ws
  induction ws using List.reverseRecOn with
  | nil => rfl
  | append_singleton ws v ih =>
    rw [List.map_append, List.map_append, List.map_append, List.map_singleton, List.map_singleton,
      List.map_singleton, lastWrite_concat, lastWrite_concat, ih, keepNeedsRecovery_fsBlock]
    dsimp only
    by_cases hv : v.fsBlock.toNat = b
    · have hkeep : w.keepNeedsRecovery crc v = v := by
        unfold keepNeedsRecovery
        rw [if_neg (fun h => hb (hv.symm.trans h))]
      rw [hkeep]
    · rw [if_neg hv, if_neg hv]

theorem getD_ne_of_not_mem (hb : b ∉ w.physicalMap) (h0 : b ≠ 0) (j : Nat) :
    w.physicalMap.getD j 0 ≠ b := by
  intro h
  rw [List.getD_eq_getElem?_getD] at h
  cases hj : w.physicalMap[j]? with
  | none =>
    rw [hj] at h
    exact h0 h.symm
  | some p =>
    rw [hj] at h
    exact hb (h ▸ List.mem_of_getElem? hj)

theorem superblock_disjoint (hoff : w.sbOffsetInBlock + 1024 ≤ w.blockSize) (hb : b ≠ w.sbBlock) :
    b * w.blockSize + w.blockSize ≤ superblockOffset ∨ superblockOffset + 1024 ≤
      b * w.blockSize := by
  have hsplit : w.sbBlock * w.blockSize + w.sbOffsetInBlock = superblockOffset := by
    unfold sbBlock sbOffsetInBlock
    rw [Nat.mul_comm]
    exact Nat.div_add_mod _ _
  obtain h | h := block_disjoint w.blockSize b w.sbBlock hb
  · exact Or.inl (by omega)
  · exact Or.inr (by omega)

section Steps

variable (hmap : ∀ j, w.physicalMap.getD j 0 ≠ b)
  (hsb : b * w.blockSize + w.blockSize ≤ superblockOffset ∨ superblockOffset + 1024 ≤
    b * w.blockSize)

include hmap hsb

theorem logStep_keeps (crc : Crc) (sizeBytes : Nat) {blocks : List Bytes}
    (hlen : ∀ v ∈ blocks, v.length = w.blockSize) :
    (w.logStep crc sizeBytes blocks).Keeps (b * w.blockSize) w.blockSize :=
  (writeLog_keeps rfl hmap blocks hlen 1).bind
    (fun _ => (writeNeedsRecovery_keeps hsb).bind (fun _ => flush_keeps))

omit hsb in
theorem dirtyStep_keeps (crc : Crc) (hge : 1024 ≤ w.blockSize) :
    (w.dirtyStep crc).Keeps (b * w.blockSize) w.blockSize := by
  have hjsb : (w.dirty.writeJsb crc).Keeps (b * w.blockSize) w.blockSize :=
    writeJsb_keeps rfl hge (hmap 0)
  exact hjsb.bind (fun _ => flush_keeps)

theorem cleanStep_keeps (crc : Crc) (hge : 1024 ≤ w.blockSize) :
    (w.cleanStep crc).Keeps (b * w.blockSize) w.blockSize := by
  have hjsb : (w.clean.writeJsb crc).Keeps (b * w.blockSize) w.blockSize :=
    writeJsb_keeps rfl hge (hmap 0)
  refine hjsb.bind (fun _ => ?_)
  split
  · exact (Io.Keeps.pure ()).bind (fun _ => flush_keeps)
  · exact (writeNeedsRecovery_keeps hsb).bind (fun _ => flush_keeps)

end Steps

/-- What a successful commit leaves: the transaction in place, outside the journal and the
superblock's block. -/
structure Committed (w w' : JournalWriter) (tx : Transaction) (d d' : Disk) : Prop where
  healthy : w'.healthy = true
  physicalMap : w'.physicalMap = w.physicalMap
  blockSize : w'.blockSize = w.blockSize
  size : d'.size = d.size
  block : ∀ b, b ∉ w.physicalMap → b ≠ 0 → b ≠ w.sbBlock →
    d'.img.block w.blockSize b = (lastWrite tx.finalWrites b).getD (d.img.block w.blockSize b)

theorem commit_committed {fs : Filesystem} {tx : Transaction} {sizeBytes : Nat} {isWritable : Bool}
    (hbs : w.blockSize = fs.sb.blockSize)
    (h : (w.commit crc sizeBytes isWritable tx).exec d = (.ok (.ok (), w'), d')) :
    Committed w w' tx d d' := by
  have hge : 1024 ≤ w.blockSize := by
    rw [hbs]
    exact blockSize_ge fs.sb
  unfold commit at h
  split at h
  · cases (Prod.mk.inj (Except.ok.inj (Prod.mk.inj h).1)).1
  cases hp : w.prepare crc isWritable tx with
  | error e =>
    rw [hp] at h
    cases (Prod.mk.inj (Except.ok.inj (Prod.mk.inj h).1)).1
  | ok r =>
    obtain ⟨tx', blocks⟩ := r
    obtain ⟨-, rfl, hprep⟩ := prepared_of_prepare crc fs w hbs _ _ _ _ hp
    rw [hp] at h
    dsimp only at h
    rw [if_neg (by simpa using hprep.nonempty)] at h
    obtain ⟨d₁, h1, h⟩ := publish_cons_ok h
    obtain ⟨d₂, h2, h⟩ := publish_cons_ok h
    obtain ⟨d₃, h3, h⟩ := publish_cons_ok h
    obtain ⟨d₄, h4, h⟩ := publish_cons_ok h
    obtain ⟨hlast, rfl⟩ := Prod.mk.inj h
    obtain ⟨-, rfl⟩ := Prod.mk.inj (Except.ok.inj hlast)
    obtain ⟨_, d₅, hf, hfl⟩ := Io.exec_bind_eq_ok _ _ _ _ _ h3
    rw [exec_flush] at hfl
    obtain ⟨-, rfl⟩ := Prod.mk.inj hfl
    have hfinal := writeFinal_ok rfl hf
    have hoff : w.sbOffsetInBlock + 1024 ≤ w.blockSize := by
      unfold sbOffsetInBlock
      rw [hbs]
      exact superblock_in_block fs.sb
    have hsize : d₄.size = d.size := by
      have s1 := Io.exec_size (w.logStep crc sizeBytes blocks) d
      have s2 := Io.exec_size (w.dirtyStep crc) d₁
      have s4 := Io.exec_size (w.cleanStep crc) d₅
      rw [h1] at s1
      rw [h2] at s2
      rw [h4] at s4
      have s3 : d₅.size = d₂.size := by rw [hfinal]
      exact s4.trans (s3.trans (s2.trans s1))
    refine ⟨rfl, rfl, rfl, hsize, ?_⟩
    intro b hb h0 hsbb
    have hmap := getD_ne_of_not_mem hb h0
    have hsb := superblock_disjoint hoff hsbb
    have k1 := logStep_keeps hmap hsb crc sizeBytes (fun v hv => (hprep.stamped v hv).length) d
    have k2 := dirtyStep_keeps hmap crc hge d₁
    have k4 := cleanStep_keeps hmap hsb crc hge d₅
    rw [h1] at k1
    rw [h2] at k2
    rw [h4] at k4
    have k3 : d₅.img.block w.blockSize b =
        (lastWrite tx.finalWrites b).getD (d₂.img.block w.blockSize b) := by
      rw [hfinal, ← lastWrite_patchSuperblock crc tx hsbb]
      apply Image.block_writeBlocks
      intro v hv
      obtain ⟨u, hu, rfl⟩ := List.mem_map.mp hv
      exact hprep.lengths u hu
    have k12 : d₂.img.block w.blockSize b = d.img.block w.blockSize b := k2.trans k1
    rw [← k12, ← k3]
    exact k4

end JournalWriter

namespace Mount

variable {crc : Crc} {m m' : Mount} {d d' : Disk} {buf : BlockBuffer}

theorem addWrites_ok {tx tx' : Transaction} {entries : List (Nat × Bytes)}
    (h64 : ∀ e ∈ entries, e.1 < 2 ^ 64) (h : addWrites tx entries = .ok tx') :
    tx'.finalWrites = tx.finalWrites ++ entries := by
  induction entries generalizing tx with
  | nil =>
    obtain rfl := Except.ok.inj h
    exact (List.append_nil _).symm
  | cons e rest ih =>
    obtain ⟨tx₁, h1, h2⟩ := Result.bind_eq_ok h
    have hrest := ih (fun v hv => h64 v (List.mem_cons_of_mem _ hv)) h2
    unfold Transaction.addWrite at h1
    split at h1
    · cases h1
    · obtain rfl := Except.ok.inj h1
      have hblock : (UInt64.ofNat e.1).toNat = e.1 :=
        UInt64.toNat_ofNat_of_lt' (h64 e List.mem_cons_self)
      have hone : (Transaction.finalWrites
          { tx with writes := tx.writes ++ [⟨UInt64.ofNat e.1, e.2⟩] }) =
          tx.finalWrites ++ [e] := by
        unfold Transaction.finalWrites
        rw [List.map_append, List.map_singleton]
        dsimp only
        rw [hblock]
      rw [hrest, hone, List.append_assoc, List.singleton_append]

/-- The blocks a commit leaves as the buffer shows them: all of them, or with a journal those
outside it and the superblock's. -/
def Lands (m : Mount) (b : Nat) : Prop :=
  ∀ jw, m.journal = some jw →
    b ∉ jw.physicalMap ∧ b ≠ 0 ∧ b ≠ superblockOffset / m.fs.sb.blockSize

structure Committed (m m' : Mount) (d d' : Disk) (buf : BlockBuffer) : Prop where
  fs : m'.fs = m.fs
  csum : m'.csum = m.csum
  direct : m'.directCommitFailed = m.directCommitFailed
  cleared : m'.cleared = (m.publish buf.uninitCleared).cleared
  journal : ∀ jw', m'.journal = some jw' → ∃ jw, m.journal = some jw ∧
    jw'.physicalMap = jw.physicalMap ∧ jw'.blockSize = jw.blockSize ∧
      (jw.healthy = true → jw'.healthy = true)
  size : d'.size = d.size
  block : ∀ b, m.Lands b →
    d'.img.block m.fs.sb.blockSize b = buf.view d.img m.fs.sb.blockSize b

theorem commitBlockBuffer_ok (hw : m.WholeBlocks d.img buf) (h64 : ∀ b, buf.Staged b → b < 2 ^ 64)
    (hdesc : ∀ g, (buf.uninitCleared.get? g).isSome → buf.Staged (m.descAt g).1)
    (hbs : ∀ jw, m.journal = some jw → jw.blockSize = m.fs.sb.blockSize)
    (h : (m.commitBlockBuffer crc buf).exec d = (.ok (.ok (), m'), d')) :
    Committed m m' d d' buf := by
  unfold commitBlockBuffer at h
  split at h
  · -- nothing staged, so nothing cleared either
    rename_i hempty
    obtain ⟨h1, rfl⟩ := Prod.mk.inj h
    obtain ⟨-, rfl⟩ := Prod.mk.inj (Except.ok.inj h1)
    have hnone : ∀ b, buf.dirty.get? b = none := by
      intro b
      rw [SortedMap.get?, List.isEmpty_iff.mp hempty]
      rfl
    have hcleared : buf.uninitCleared.entries = [] := by
      cases he : buf.uninitCleared.entries with
      | nil => rfl
      | cons e rest =>
        have hget := (buf.uninitCleared.mem_entries_iff e.1 e.2).mp
          (by rw [he]; exact List.mem_cons_self)
        have hs := hdesc e.1 (by rw [hget]; rfl)
        rw [BlockBuffer.Staged, hnone] at hs
        cases hs
    refine ⟨rfl, rfl, rfl, ?_, fun jw hjw => ⟨jw, hjw, rfl, rfl, id⟩, rfl, ?_⟩
    · rw [publish, hcleared]
      rfl
    · intro b _
      rw [BlockBuffer.view, hnone]
      rfl
  · cases hj : m.journal with
    | none =>
      rw [hj] at h
      dsimp only at h
      rw [Io.exec_bind_ok _ _ _ _ _ (Io.exec_attempt _ _)] at h
      obtain ⟨h1, rfl⟩ := Prod.mk.inj h
      have h2 := Except.ok.inj h1
      cases hr : ((m.writeDirect buf.dirty (m.clearedDescriptors buf)).exec d).1 with
      | error e =>
        rw [hr] at h2
        cases (Prod.mk.inj h2).1
      | ok a =>
        rw [hr] at h2
        obtain ⟨-, rfl⟩ := Prod.mk.inj h2
        obtain ⟨hsize, hblock⟩ := writeDirect_ok hw (Prod.ext hr rfl)
        exact ⟨rfl, rfl, rfl, rfl, fun jw hjw => ⟨jw, hjw, rfl, rfl, id⟩, hsize,
          fun b _ => hblock b⟩
    | some jw =>
      rw [hj] at h
      dsimp only at h
      cases ha : addWrites jw.begin buf.dirty.entries with
      | error e =>
        rw [ha] at h
        cases (Prod.mk.inj (Except.ok.inj (Prod.mk.inj h).1)).1
      | ok tx =>
        rw [ha] at h
        dsimp only at h
        obtain ⟨r, d₁, hc, h1⟩ := Io.exec_bind_eq_ok _ _ _ _ _ h
        obtain ⟨h2, rfl⟩ := Prod.mk.inj h1
        have h3 := Except.ok.inj h2
        obtain ⟨r, jw'⟩ := r
        cases r with
        | error e => cases (Prod.mk.inj h3).1
        | ok a =>
          obtain ⟨-, rfl⟩ := Prod.mk.inj h3
          have hbs' := hbs jw hj
          have hcom := JournalWriter.commit_committed hbs' hc
          have hfinal : tx.finalWrites = buf.dirty.entries := by
            rw [addWrites_ok _ ha]
            · rfl
            · intro e he
              apply h64
              rw [BlockBuffer.Staged, (buf.dirty.mem_entries_iff e.1 e.2).mp he]
              rfl
          refine ⟨rfl, rfl, rfl, rfl, ?_, hcom.size, ?_⟩
          · rintro _ ⟨⟩
            exact ⟨jw, hj, hcom.physicalMap, hcom.blockSize, fun _ => hcom.healthy⟩
          · intro b hb
            obtain ⟨h1, h2, h3⟩ := hb jw hj
            have hblock := hcom.block b h1 h2 (by rw [JournalWriter.sbBlock, hbs']; exact h3)
            rw [hbs', hfinal, lastWrite_entries] at hblock
            exact hblock

/-- A mount that commits nothing more: a direct commit failed, or the journal writer did. -/
def Halted (m : Mount) : Prop :=
  m.directCommitFailed = true ∨ ∃ jw, m.journal = some jw ∧ jw.healthy = false

theorem publish_error {steps : List (JournalWriter × DevIo Unit)} {w w' : JournalWriter} {e : Error}
    (h : (JournalWriter.publish steps w).exec d = (.ok (.error e, w'), d')) :
      w'.healthy = false := by
  induction steps generalizing w d with
  | nil => cases (Prod.mk.inj (Except.ok.inj (Prod.mk.inj h).1)).1
  | cons s rest ih =>
    obtain ⟨w₁, step⟩ := s
    rw [JournalWriter.publish] at h
    obtain ⟨r, d₁, -, hr⟩ := Io.exec_bind_eq_ok _ _ _ _ _ h
    cases r with
    | error e' =>
      obtain ⟨-, rfl⟩ := Prod.mk.inj (Except.ok.inj (Prod.mk.inj hr).1)
      rfl
    | ok a => exact ih hr

theorem commitBlockBuffer_error {e : Error}
    (h : (m.commitBlockBuffer crc buf).exec d = (.ok (.error e, m'), d')) :
    m'.Halted ∨ (m' = m ∧ d' = d) := by
  unfold commitBlockBuffer at h
  split at h
  · cases (Prod.mk.inj (Except.ok.inj (Prod.mk.inj h).1)).1
  · cases hj : m.journal with
    | none =>
      rw [hj] at h
      dsimp only at h
      rw [Io.exec_bind_ok _ _ _ _ _ (Io.exec_attempt _ _)] at h
      have h1 := Except.ok.inj (Prod.mk.inj h).1
      cases hr : ((m.writeDirect buf.dirty (m.clearedDescriptors buf)).exec d).1 with
      | error e' =>
        rw [hr] at h1
        obtain ⟨-, rfl⟩ := Prod.mk.inj h1
        exact Or.inl (Or.inl rfl)
      | ok a =>
        rw [hr] at h1
        cases (Prod.mk.inj h1).1
    | some jw =>
      have hsame : { m with journal := some jw } = m := by rw [← hj]
      rw [hj] at h
      dsimp only at h
      cases ha : addWrites jw.begin buf.dirty.entries with
      | error e' =>
        rw [ha] at h
        obtain ⟨h1, rfl⟩ := Prod.mk.inj h
        obtain ⟨-, rfl⟩ := Prod.mk.inj (Except.ok.inj h1)
        exact Or.inr ⟨rfl, rfl⟩
      | ok tx =>
        rw [ha] at h
        dsimp only at h
        obtain ⟨r, d₁, hc, h1⟩ := Io.exec_bind_eq_ok _ _ _ _ _ h
        obtain ⟨h2, rfl⟩ := Prod.mk.inj h1
        have h3 := Except.ok.inj h2
        obtain ⟨r, jw'⟩ := r
        cases r with
        | ok a => cases (Prod.mk.inj h3).1
        | error e' =>
          obtain ⟨-, rfl⟩ := Prod.mk.inj h3
          unfold JournalWriter.commit at hc
          split at hc
          · obtain ⟨hc1, rfl⟩ := Prod.mk.inj hc
            obtain ⟨-, rfl⟩ := Prod.mk.inj (Except.ok.inj hc1)
            exact Or.inr ⟨hsame, rfl⟩
          · split at hc
            · obtain ⟨hc1, rfl⟩ := Prod.mk.inj hc
              obtain ⟨-, rfl⟩ := Prod.mk.inj (Except.ok.inj hc1)
              exact Or.inr ⟨hsame, rfl⟩
            · split at hc
              · cases (Prod.mk.inj (Except.ok.inj (Prod.mk.inj hc).1)).1
              · exact Or.inl (Or.inr ⟨jw', rfl, publish_error hc⟩)

end Mount

namespace Mount

section Direct

variable {crc : Crc} {m : Mount} {d : Disk} {buf : BlockBuffer} {bs : Nat}

theorem writeEach_succeeds {stage : List (Nat × Bytes)}
    (h : ∀ e ∈ stage, e.1 * bs + e.2.length ≤ d.size) :
    ∃ d', (writeEach bs stage).exec d = (.ok (), d') := by
  induction stage generalizing d with
  | nil => exact ⟨d, rfl⟩
  | cons e rest ih =>
    have hwrite := exec_writeAt d (e.1 * bs) e.2 (h e List.mem_cons_self)
    obtain ⟨d', hrest⟩ := ih (d := { d with img := d.img.write (e.1 * bs) e.2 })
      (fun v hv => h v (List.mem_cons_of_mem _ hv))
    refine ⟨d', ?_⟩
    rw [writeEach, Io.exec_bind_ok _ _ _ _ _ hwrite]
    exact hrest

theorem writeStages_succeeds {stages : List (List (Nat × Bytes))}
    (h : ∀ stage ∈ stages, ∀ e ∈ stage, e.1 * bs + e.2.length ≤ d.size) :
    ∃ d', (writeStages bs stages).exec d = (.ok (), d') := by
  induction stages generalizing d with
  | nil => exact ⟨d, rfl⟩
  | cons stage rest ih =>
    have hrest := fun s hs => h s (List.mem_cons_of_mem stage hs)
    rw [writeStages]
    split
    · exact ih hrest
    · obtain ⟨d₁, h1⟩ := writeEach_succeeds (h stage List.mem_cons_self)
      have hsize := Io.exec_size (writeEach bs stage) d
      rw [h1] at hsize
      dsimp only at hsize
      obtain ⟨d₂, h2⟩ := ih (d := d₁) (by rw [hsize]; exact hrest)
      refine ⟨d₂, ?_⟩
      rw [Io.exec_bind_ok _ _ _ _ _ h1, Io.exec_bind_ok _ _ _ _ _ (exec_flush d₁)]
      exact h2

theorem commitBlockBuffer_succeeds (hj : m.journal = none) (hw : m.WholeBlocks d.img buf)
    (hfit : ∀ b, buf.Staged b → (b + 1) * m.fs.sb.blockSize ≤ d.size) :
    ∃ m' d', (m.commitBlockBuffer crc buf).exec d = (.ok (.ok (), m'), d') ∧
      m'.journal = none ∧ m'.directCommitFailed = m.directCommitFailed := by
  unfold commitBlockBuffer
  split
  · exact ⟨m, d, rfl, hj, rfl⟩
  · have hall : ∀ stage ∈ m.directStages buf.dirty (m.clearedDescriptors buf), ∀ e ∈ stage,
        e.1 * m.fs.sb.blockSize + e.2.length ≤ d.size := by
      intro stage hs e he
      have hin : e ∈ buf.dirty.entries := by
        simp only [directStages, List.mem_cons, List.not_mem_nil, or_false] at hs
        obtain rfl | rfl | rfl := hs <;> exact (List.mem_filter.mp he).1
      have hget := (buf.dirty.mem_entries_iff e.1 e.2).mp hin
      have hlen := hw e.1
      rw [BlockBuffer.view, hget, Option.getD_some] at hlen
      have h1 := hfit e.1 (by rw [BlockBuffer.Staged, hget]; rfl)
      rw [Nat.succ_mul] at h1
      rw [hlen]
      exact h1
    obtain ⟨d', hd⟩ := writeStages_succeeds hall
    rw [hj]
    dsimp only
    refine ⟨m.publish buf.uninitCleared, d', ?_, hj, rfl⟩
    rw [Io.exec_bind_ok _ _ _ _ _ (Io.exec_attempt _ _)]
    unfold writeDirect
    rw [hd]
    rfl

end Direct

end Mount

namespace JournalWriter

section Fails

variable {crc : Crc} {w w' : JournalWriter} {d d' : Disk} {b : Nat} {bytes : Bytes}

/-- The block of the journal superblock is on the device, with what a rewrite checks. -/
structure JsbReady (w : JournalWriter) (d : Disk) : Prop where
  onDevice : w.physicalMap.getD 0 0 * w.blockSize + w.blockSize ≤ d.size
  magic : u32beAt (d.img.block w.blockSize (w.physicalMap.getD 0 0)) 0x00 = magicNumber
  blockType : u32beAt (d.img.block w.blockSize (w.physicalMap.getD 0 0)) 0x04 = w.jsb.blockType

theorem JsbReady.exec (hge : 1024 ≤ w.blockSize) (h : w.JsbReady d) :
    (w.writeJsb crc).exec d = (.ok (), { d with
      img := d.img.write (w.physicalMap.getD 0 0 * w.blockSize)
        (w.patchJsb crc (d.img.block w.blockSize (w.physicalMap.getD 0 0))) }) := by
  have hlen : (d.img.block w.blockSize (w.physicalMap.getD 0 0)).length = w.blockSize :=
    Image.length_read _ _ _
  have hpatch := (patchJsb_restamped crc w (d.img.block w.blockSize (w.physicalMap.getD 0 0))
    (by omega)).length
  have hread := exec_readAt d (w.physicalMap.getD 0 0 * w.blockSize) w.blockSize h.onDevice
  unfold writeJsb
  rw [Io.exec_bind_ok _ _ _ _ _ hread]
  change ((if u32beAt (d.img.block w.blockSize (w.physicalMap.getD 0 0)) 0x00 ≠ magicNumber
    then .fail _
    else _ : DevIo Unit).exec d) = _
  rw [if_neg (not_not.mpr h.magic)]
  change ((if u32beAt (d.img.block w.blockSize (w.physicalMap.getD 0 0)) 0x04 ≠ w.jsb.blockType
    then .fail _
    else writeAt _ (w.patchJsb crc (d.img.block w.blockSize (w.physicalMap.getD 0 0))) :
      DevIo Unit).exec d) = _
  rw [if_neg (not_not.mpr h.blockType), exec_writeAt d _ _ (by rw [hpatch, hlen]; exact h.onDevice)]

theorem JsbReady.of_exec (h : (w.writeJsb crc).exec d = (.ok (), d')) : w.JsbReady d := by
  obtain ⟨buf, d₁, hread, h⟩ := Io.exec_bind_eq_ok _ _ _ _ _ h
  by_cases hfit : w.physicalMap.getD 0 0 * w.blockSize + w.blockSize ≤ d.size
  · rw [exec_readAt d _ _ hfit] at hread
    obtain ⟨hbuf, rfl⟩ := Prod.mk.inj hread
    obtain rfl := Except.ok.inj hbuf
    split at h
    · cases (Prod.mk.inj h).1
    rename_i hmagic
    split at h
    · cases (Prod.mk.inj h).1
    rename_i htype
    exact ⟨hfit, not_not.mp hmagic, not_not.mp htype⟩
  · rw [exec_readAt_past d _ _ hfit] at hread
    cases (Prod.mk.inj hread).1

theorem JsbReady.rewritten (hge : 1024 ≤ w.blockSize) (h : (w.dirty.writeJsb crc).exec d =
    (.ok (), d')) :
    w.clean.JsbReady d' := by
  have hready := JsbReady.of_exec h
  rw [@JsbReady.exec crc w.dirty d hge hready] at h
  obtain ⟨-, rfl⟩ := Prod.mk.inj h
  have hlen : (d.img.block w.blockSize (w.physicalMap.getD 0 0)).length = w.blockSize :=
    Image.length_read _ _ _
  have hrestamped := patchJsb_restamped crc w.dirty
    (d.img.block w.blockSize (w.physicalMap.getD 0 0)) (by omega)
  have hblock : (d.img.write (w.physicalMap.getD 0 0 * w.blockSize)
      (w.dirty.patchJsb crc (d.img.block w.blockSize (w.physicalMap.getD 0 0)))).block w.blockSize
        (w.physicalMap.getD 0 0) =
      w.dirty.patchJsb crc (d.img.block w.blockSize (w.physicalMap.getD 0 0)) := by
    have hself := Image.read_write_self d.img (w.physicalMap.getD 0 0 * w.blockSize)
      (w.dirty.patchJsb crc (d.img.block w.blockSize (w.physicalMap.getD 0 0)))
    rwa [hrestamped.length, hlen] at hself
  refine ⟨hready.onDevice, ?_, ?_⟩
  · refine Eq.trans (congrArg (u32beAt · 0x00) hblock) ?_
    rw [hrestamped.head.u32beAt 0x00 (by decide) (by decide)]
    exact hready.magic
  · refine Eq.trans (congrArg (u32beAt · 0x04) hblock) ?_
    rw [hrestamped.head.u32beAt 0x04 (by decide) (by decide)]
    exact hready.blockType

theorem writeNeedsRecovery_size {on : Bool} (h : (writeNeedsRecovery crc on).exec d =
    (.ok (), d')) :
    superblockOffset + 1024 ≤ d.size := by
  obtain ⟨sb, d₁, hread, -⟩ := Io.exec_bind_eq_ok _ _ _ _ _ h
  by_contra hfit
  rw [exec_readAt_past d _ _ hfit] at hread
  cases (Prod.mk.inj hread).1

theorem writeNeedsRecovery_succeeds (on : Bool) (h : superblockOffset + 1024 ≤ d.size) :
    ∃ d', (writeNeedsRecovery crc on).exec d = (.ok (), d') := by
  have hlen := length_setNeedsRecoveryIn crc (d.img.read superblockOffset 1024) on
    (Image.length_read _ _ _)
  unfold writeNeedsRecovery
  rw [Io.exec_bind_ok _ _ _ _ _ (exec_readAt d _ _ h), exec_writeAt d _ _ (by rw [hlen]; exact h)]
  exact ⟨_, rfl⟩

theorem cleanStep_succeeds (hge : 1024 ≤ w.blockSize) (h : w.clean.JsbReady d)
    (hsize : superblockOffset + 1024 ≤ d.size) : ∃ d', (w.cleanStep crc).exec d = (.ok (), d') := by
  have hjsb := @JsbReady.exec crc w.clean d hge h
  unfold cleanStep
  rw [Io.exec_bind_ok _ _ _ _ _ hjsb]
  split
  · exact ⟨_, rfl⟩
  · let dirty : Disk := { d with
      img := d.img.write (w.clean.physicalMap.getD 0 0 * w.clean.blockSize)
        (w.clean.patchJsb crc (d.img.block w.clean.blockSize (w.clean.physicalMap.getD 0 0))) }
    obtain ⟨d', hd⟩ := @writeNeedsRecovery_succeeds crc dirty false hsize
    rw [Io.exec_bind_ok _ _ _ _ _ hd]
    exact ⟨_, rfl⟩

theorem publish_cons_error {step : DevIo Unit} {rest : List (JournalWriter × DevIo Unit)}
    {w₀ w₁ : JournalWriter} {e : Error}
    (h : (publish ((w₁, step) :: rest) w₀).exec d = (.ok (.error e, w'), d')) :
    (∃ e', step.exec d = (.error e', d')) ∨
      ∃ d₁, step.exec d = (.ok (), d₁) ∧ (publish rest w₁).exec d₁ = (.ok (.error e, w'), d') := by
  rw [publish] at h
  obtain ⟨r, d₁, ha, hr⟩ := Io.exec_bind_eq_ok _ _ _ _ _ h
  rw [Io.exec_attempt] at ha
  obtain ⟨hok, rfl⟩ := Prod.mk.inj ha
  cases r with
  | error e' =>
    obtain ⟨-, rfl⟩ := Prod.mk.inj hr
    exact .inl ⟨e', Prod.ext (Except.ok.inj hok) rfl⟩
  | ok a => exact .inr ⟨_, Prod.ext (Except.ok.inj hok) rfl, hr⟩

theorem finalStep_error {sizeBytes : Nat} {tx : Transaction} {v : JournaledBlock} {e : Error}
    (hone : tx.writes = [v]) (h : (w.finalStep sizeBytes tx).exec d = (.error e, d')) : d' = d := by
  have hsingle : (w.finalStep sizeBytes tx) = (do
      w.writeBlockAt sizeBytes v.fsBlock.toNat v.bytes
      flush : DevIo Unit) := by
    unfold finalStep
    rw [hone]
    unfold writeFinal
    rw [Io.bind_assoc]
    rfl
  rw [hsingle] at h
  unfold writeBlockAt at h
  cases ho : byteOffsetIn v.fsBlock.toNat w.blocksCount w.blockSize sizeBytes with
  | error e' =>
    rw [ho] at h
    exact (Prod.mk.inj h).2.symm
  | ok off =>
    rw [ho] at h
    by_cases hfit : off + v.bytes.length ≤ d.size
    · have hwrite := exec_writeAt d off v.bytes hfit
      change ((writeAt off v.bytes >>= fun _ => flush).exec d) = _ at h
      rw [Io.exec_bind_ok _ _ _ _ _ hwrite] at h
      cases (Prod.mk.inj h).1
    · have hwrite := exec_writeAt_past d off v.bytes hfit
      change ((writeAt off v.bytes >>= fun _ => flush).exec d) = _ at h
      rw [Io.exec_bind_error _ _ _ _ _ hwrite] at h
      exact (Prod.mk.inj h).2.symm

theorem logStep_size {sizeBytes : Nat} {blocks : List Bytes}
    (h : (w.logStep crc sizeBytes blocks).exec d = (.ok (), d')) : superblockOffset + 1024 ≤
      d'.size := by
  have hsize := Io.exec_size (w.logStep crc sizeBytes blocks) d
  rw [h] at hsize
  obtain ⟨_, d₁, hlog, h⟩ := Io.exec_bind_eq_ok _ _ _ _ _ h
  obtain ⟨_, d₂, hmark, -⟩ := Io.exec_bind_eq_ok _ _ _ _ _ h
  have hlogged := Io.exec_size (w.writeLog sizeBytes blocks 1) d
  rw [hlog] at hlogged
  have hin := writeNeedsRecovery_size hmark
  exact Nat.le_trans hin (Nat.le_of_eq (hlogged.trans hsize.symm))

theorem dirtyStep_ready (hge : 1024 ≤ w.blockSize) (h : (w.dirtyStep crc).exec d = (.ok (), d')) :
    w.clean.JsbReady d' := by
  obtain ⟨_, d₁, hjsb, hflush⟩ := Io.exec_bind_eq_ok _ _ _ _ _ h
  obtain ⟨-, rfl⟩ := Prod.mk.inj hflush
  exact JsbReady.rewritten hge hjsb

theorem finalStep_ready {sizeBytes : Nat} {tx : Transaction} (hready : w.clean.JsbReady d)
    (h : (w.finalStep sizeBytes tx).exec d = (.ok (), d'))
    (hother : ∀ u ∈ tx.writes, w.physicalMap.getD 0 0 ≠ u.fsBlock.toNat ∧ u.bytes.length =
      w.blockSize) :
    w.clean.JsbReady d' := by
  obtain ⟨_, d₁, hfinal, hflush⟩ := Io.exec_bind_eq_ok _ _ _ _ _ h
  obtain ⟨-, rfl⟩ := Prod.mk.inj hflush
  obtain rfl := writeFinal_ok rfl hfinal
  have hblock : (d.img.writeBlocks w.blockSize (tx.writes.map fun u =>
    (u.fsBlock.toNat, u.bytes))).block
      w.blockSize (w.physicalMap.getD 0 0) = d.img.block w.blockSize (w.physicalMap.getD 0 0) := by
    rw [Image.block_writeBlocks]
    · rw [lastWrite_eq_none _ _ (fun u hu => ?_), Option.getD_none]
      obtain ⟨x, hx, rfl⟩ := List.mem_map.mp hu
      exact (hother x hx).1.symm
    · intro u hu
      obtain ⟨x, hx, rfl⟩ := List.mem_map.mp hu
      exact (hother x hx).2
  refine ⟨hready.onDevice, ?_, ?_⟩
  · exact (congrArg (u32beAt · 0x00) hblock).trans hready.magic
  · exact (congrArg (u32beAt · 0x04) hblock).trans hready.blockType

theorem commit_one_error {fs : Filesystem} {tx : Transaction} {sizeBytes : Nat} {isWritable : Bool}
    {v : JournaledBlock} {e : Error} (hbs : w.blockSize = fs.sb.blockSize) (hone : tx.writes = [v])
    (hb : b ∉ w.physicalMap) (h0 : b ≠ 0) (hsbb : b ≠ w.sbBlock) (hv : v.fsBlock.toNat = b)
    (h : (w.commit crc sizeBytes isWritable tx).exec d = (.ok (.error e, w'), d')) :
    d'.img.block w.blockSize b = d.img.block w.blockSize b := by
  have hge : 1024 ≤ w.blockSize := by
    rw [hbs]
    exact blockSize_ge fs.sb
  unfold commit at h
  split at h
  · rw [(Prod.mk.inj h).2]
  cases hp : w.prepare crc isWritable tx with
  | error e' =>
    rw [hp] at h
    rw [(Prod.mk.inj h).2]
  | ok r =>
    obtain ⟨tx', blocks⟩ := r
    obtain ⟨-, rfl, hprep⟩ := prepared_of_prepare crc fs w hbs _ _ _ _ hp
    rw [hp] at h
    dsimp only at h
    rw [if_neg (by simpa using hprep.nonempty)] at h
    have hoff : w.sbOffsetInBlock + 1024 ≤ w.blockSize := by
      unfold sbOffsetInBlock
      rw [hbs]
      exact superblock_in_block fs.sb
    have hmap := getD_ne_of_not_mem hb h0
    have hsb := superblock_disjoint hoff hsbb
    have k1 := logStep_keeps hmap hsb crc sizeBytes (fun u hu => (hprep.stamped u hu).length) d
    obtain ⟨e₁, h1⟩ | ⟨d₁, h1, h⟩ := publish_cons_error h
    · rw [h1] at k1
      exact k1
    rw [h1] at k1
    have k2 := dirtyStep_keeps hmap crc hge d₁
    obtain ⟨e₂, h2⟩ | ⟨d₂, h2, h⟩ := publish_cons_error h
    · rw [h2] at k2
      exact k2.trans k1
    rw [h2] at k2
    have hone' : (w.patchSuperblock crc tx).writes = [w.keepNeedsRecovery crc v] := by
      unfold patchSuperblock
      rw [hone]
      rfl
    obtain ⟨e₃, h3⟩ | ⟨d₃, h3, h⟩ := publish_cons_error h
    · obtain rfl := finalStep_error hone' h3
      exact k2.trans k1
    obtain ⟨e₄, h4⟩ | ⟨d₄, -, h⟩ := publish_cons_error h
    · -- the last step has what it needs: the journal's superblock was just rewritten
      exfalso
      have hready := dirtyStep_ready hge h2
      have hready' : w.clean.JsbReady d₃ := finalStep_ready hready h3 (by
        intro u hu
        have hlen := hprep.lengths u hu
        rw [hone'] at hu
        obtain rfl := List.mem_singleton.mp hu
        rw [keepNeedsRecovery_fsBlock, hv]
        exact ⟨hmap 0, hlen⟩)
      obtain ⟨d₅, h5⟩ := @cleanStep_succeeds crc w d₃ hge hready' (by
        have s2 := Io.exec_size (w.dirtyStep crc) d₁
        have s3 := Io.exec_size (w.finalStep sizeBytes (w.patchSuperblock crc tx)) d₂
        rw [h2] at s2
        rw [h3] at s3
        rw [s3, s2]
        exact logStep_size h1)
      have hboth := h4.symm.trans h5
      cases (Prod.mk.inj hboth).1
    · cases (Prod.mk.inj (Except.ok.inj (Prod.mk.inj h).1)).1

end Fails

end JournalWriter

namespace Mount

variable {crc : Crc} {m m' : Mount} {d d' : Disk} {buf : BlockBuffer} {block : Nat} {bytes : Bytes}

theorem commitBlockBuffer_one_error {e : Error} (hone : buf.dirty.entries = [(block, bytes)])
    (hw : m.WholeBlocks d.img buf) (hlands : m.Lands block) (h64 : block < 2 ^ 64)
    (hbs : ∀ jw, m.journal = some jw → jw.blockSize = m.fs.sb.blockSize)
    (hfit : (block + 1) * m.fs.sb.blockSize ≤ d.size)
    (h : (m.commitBlockBuffer crc buf).exec d = (.ok (.error e, m'), d')) :
    d'.img.block m.fs.sb.blockSize block = d.img.block m.fs.sb.blockSize block := by
  cases hj : m.journal with
  | none =>
    obtain ⟨m₁, d₁, hok, -⟩ := @commitBlockBuffer_succeeds crc m d buf hj hw (by
      intro b hb
      obtain ⟨v, hv⟩ := Option.isSome_iff_exists.mp hb
      have hmem := (buf.dirty.mem_entries_iff b v).mpr hv
      rw [hone] at hmem
      obtain ⟨rfl, -⟩ := Prod.mk.inj (List.mem_singleton.mp hmem)
      exact hfit)
    cases (Prod.mk.inj (Except.ok.inj (Prod.mk.inj (h.symm.trans hok)).1)).1
  | some jw =>
    unfold commitBlockBuffer at h
    rw [hone, List.isEmpty_cons, if_neg Bool.false_ne_true, hj] at h
    dsimp only at h
    cases ha : addWrites jw.begin [(block, bytes)] with
    | error e' =>
      rw [ha] at h
      rw [(Prod.mk.inj h).2]
    | ok tx =>
      rw [ha] at h
      dsimp only at h
      obtain ⟨⟨r, jw'⟩, d₁, hc, h1⟩ := Io.exec_bind_eq_ok _ _ _ _ _ h
      obtain ⟨h2, rfl⟩ := Prod.mk.inj h1
      cases r with
      | ok a => cases (Prod.mk.inj (Except.ok.inj h2)).1
      | error e' =>
        obtain ⟨h1, h2, h3⟩ := hlands jw hj
        have hwrites : tx.writes = [⟨UInt64.ofNat block, bytes⟩] := by
          obtain ⟨tx₁, hadd, hrest⟩ := Result.bind_eq_ok ha
          obtain rfl := Except.ok.inj hrest
          unfold Transaction.addWrite at hadd
          split at hadd
          · cases hadd
          · obtain rfl := Except.ok.inj hadd
            rfl
        have hkeep := JournalWriter.commit_one_error (hbs jw hj) hwrites h1 h2
          (by rw [JournalWriter.sbBlock, hbs jw hj]; exact h3) (UInt64.toNat_ofNat_of_lt' h64) hc
        rw [hbs jw hj] at hkeep
        exact hkeep

end Mount

section Answers

variable {crc : Crc}

theorem JournalWriter.publish_answers (steps : List (JournalWriter × DevIo Unit))
    (w : JournalWriter) (d : Disk) :
    ∃ r d', (publish steps w).exec d = (.ok r, d') := by
  induction steps generalizing w d with
  | nil => exact ⟨_, _, rfl⟩
  | cons s rest ih =>
    obtain ⟨w₁, step⟩ := s
    rw [publish, Io.exec_bind_ok _ _ _ _ _ (Io.exec_attempt _ _)]
    cases (step.exec d).1 with
    | error e => exact ⟨_, _, rfl⟩
    | ok a => exact ih _ _

theorem JournalWriter.commit_answers (w : JournalWriter) (sizeBytes : Nat) (isWritable : Bool)
    (tx : Transaction) (d : Disk) : ∃ r d', (w.commit crc sizeBytes isWritable tx).exec d =
      (.ok r, d') := by
  unfold commit
  split
  · exact ⟨_, _, rfl⟩
  · split
    · exact ⟨_, _, rfl⟩
    · split
      · exact ⟨_, _, rfl⟩
      · exact publish_answers _ _ _

theorem Mount.commitBlockBuffer_answers (m : Mount) (buf : BlockBuffer) (d : Disk) :
    ∃ r m' d', (m.commitBlockBuffer crc buf).exec d = (.ok (r, m'), d') ∧ m'.fs = m.fs ∧
    m'.csum = m.csum ∧
      d'.size = d.size := by
  suffices h : ∃ r m' d', (m.commitBlockBuffer crc buf).exec d = (.ok (r, m'), d') ∧ m'.fs = m.fs ∧
      m'.csum = m.csum by
    obtain ⟨r, m', d', hexec, hfs, hcsum⟩ := h
    have hsize := Io.exec_size (m.commitBlockBuffer crc buf) d
    rw [hexec] at hsize
    exact ⟨r, m', d', hexec, hfs, hcsum, hsize⟩
  unfold commitBlockBuffer
  split
  · exact ⟨_, _, _, rfl, rfl, rfl⟩
  · split
    · split
      · exact ⟨_, _, _, rfl, rfl, rfl⟩
      · rename_i _ jw _ _ tx _
        obtain ⟨⟨r, jw'⟩, d', hcommit⟩ :=
          @JournalWriter.commit_answers crc jw m.fs.sizeBytes m.fs.isWritable tx d
        rw [Io.exec_bind_ok _ _ _ _ _ hcommit]
        cases r with
        | error e => exact ⟨_, _, _, rfl, rfl, rfl⟩
        | ok a => exact ⟨_, _, _, rfl, rfl, rfl⟩
    · rw [Io.exec_bind_ok _ _ _ _ _ (Io.exec_attempt _ _)]
      cases ((m.writeDirect buf.dirty (m.clearedDescriptors buf)).exec d).1 with
      | error e => exact ⟨_, _, _, rfl, rfl, rfl⟩
      | ok a => exact ⟨_, _, _, rfl, rfl, rfl⟩

end Answers

end FsExt4
