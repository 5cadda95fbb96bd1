import FsExt4.JournalReplay
import FsExt4.JournalReads
import FsExt4.CacheTransparency

namespace FsExt4

open Lib Jbd2 Journal

namespace CachedDevice

variable {bs : Nat} {dev : CachedDevice}

def PinsInside (bs : Nat) (dev : CachedDevice) : Prop :=
  ∀ b, b ∈ dev.state.pinned → b * bs + bs ≤ dev.inner.size

def shown (dev : CachedDevice) : Disk := { dev.inner with img := dev.view }

theorem shown_readAt (dev : CachedDevice) (offset len : Nat) :
    (BlockDevice.readAt offset len dev.shown).1 =
      if offset + len ≤ dev.inner.size then .ok (dev.view.read offset len)
      else (.error .io : Result Bytes) :=
  innerRead_eq dev.shown offset len

/-- A read that starts in a whole block of the device, or is of one whole block, returns through
the cache what the shown disk returns. -/
theorem readAt_eq_shown (h : Coherent bs dev) (hp : PinsInside bs dev) (offset len : Nat)
    (ho : offset / bs * bs + bs ≤ dev.inner.size ∨ (offset % bs = 0 ∧ len = bs)) :
    (dev.readAt offset len).1 = (BlockDevice.readAt offset len dev.shown).1 := by
  rw [shown_readAt]
  have hdm := Nat.div_add_mod offset bs
  rw [Nat.mul_comm] at hdm
  have hok := fun bytes => readAt_ok h offset len bytes
  by_cases hl : offset % bs + len ≤ bs
  · by_cases hin : offset / bs * bs + bs ≤ dev.inner.size
    · rw [if_pos (by omega)]
      have hsucc : ∃ bytes, (dev.readAt offset len).1 = .ok bytes := by
        unfold readAt
        dsimp only
        rw [h.blockSize, if_pos hl]
        split
        · exact ⟨_, rfl⟩
        · rw [innerRead_eq, if_pos hin]
          exact ⟨_, rfl⟩
      obtain ⟨bytes, hb⟩ := hsucc
      rw [hb, hok bytes hb]
    · obtain hin' | ⟨h0, hlen⟩ := ho
      · exact absurd hin' hin
      · rw [if_neg (by omega)]
        unfold readAt
        dsimp only
        rw [h.blockSize, if_pos hl]
        have hnone : (dev.state.get (offset / bs)).1 = none := by
          cases hg : (dev.state.get (offset / bs)).1 with
          | none => rfl
          | some blk =>
            obtain hpin | ⟨-, slot, hs, -⟩ := CacheState.get_some dev.state _ blk hg
            · have hm : offset / bs ∈ dev.state.pinned := by
                rw [← AList.lookup_isSome, hpin]
                rfl
              exact absurd (hp _ hm) hin
            · exact absurd (h.clean _ slot hs).1 hin
        split
        · rename_i blk state hg
          rw [hg] at hnone
          exact absurd hnone (by simp)
        · rw [innerRead_eq, if_neg hin]
  · by_cases hin : offset + len ≤ dev.inner.size
    · rw [if_pos hin]
      have hsucc : ∃ bytes, (dev.readAt offset len).1 = .ok bytes := by
        unfold readAt
        dsimp only
        rw [h.blockSize, if_neg hl, innerRead_eq, if_pos hin]
        exact ⟨_, rfl⟩
      obtain ⟨bytes, hb⟩ := hsucc
      rw [hb, hok bytes hb]
    · rw [if_neg hin]
      unfold readAt
      dsimp only
      rw [h.blockSize, if_neg hl, innerRead_eq, if_neg hin]

/-- What reading leaves of a cached device: only its clean entries may differ. -/
structure Reread (bs : Nat) (dev dev' : CachedDevice) : Prop where
  coherent : Coherent bs dev'
  inner : dev'.inner = dev.inner
  pinned : dev'.state.pinned = dev.state.pinned

theorem Reread.refl (h : Coherent bs dev) : Reread bs dev dev := ⟨h, rfl, rfl⟩

theorem Reread.trans {dev₁ dev₂ dev₃ : CachedDevice} (h : Reread bs dev₁ dev₂)
    (h' : Reread bs dev₂ dev₃) : Reread bs dev₁ dev₃ :=
  ⟨h'.coherent, h'.inner.trans h.inner, h'.pinned.trans h.pinned⟩

theorem Reread.readAt (h : Coherent bs dev) (offset len : Nat) :
    Reread bs dev (dev.readAt offset len).2 :=
  ⟨h.readAt offset len, (readAt_inner dev offset len).1, readAt_pinned dev offset len⟩

theorem Reread.view {dev' : CachedDevice} (h : Coherent bs dev) (hr : Reread bs dev dev') :
    dev'.view = dev.view := by
  unfold CachedDevice.view
  rw [hr.coherent.blockSize, h.blockSize, hr.inner]
  exact CacheState.view_congr _ _ hr.pinned

theorem Reread.shown {dev' : CachedDevice} (h : Coherent bs dev) (hr : Reread bs dev dev') :
    dev'.shown = dev.shown := by
  unfold CachedDevice.shown
  rw [hr.view h, hr.inner]

theorem Reread.pinsInside {dev' : CachedDevice} (hr : Reread bs dev dev') (hp : PinsInside bs dev) :
    PinsInside bs dev' := by
  intro b hb
  rw [hr.pinned] at hb
  rw [hr.inner]
  exact hp b hb

theorem exec_readsBlocks {α : Type} (x : DevIo α) (hx : x.ReadsBlocks bs) (dev : CachedDevice)
    (h : Coherent bs dev) (hp : PinsInside bs dev) :
    (x.exec dev).1 = (x.exec dev.shown).1 ∧ Reread bs dev (x.exec dev).2 := by
  induction x generalizing dev with
  | done r => exact ⟨rfl, Reread.refl h⟩
  | readAt off len k ih =>
    obtain ⟨h0, hl, hk⟩ := hx
    have hr := Reread.readAt h off len
    have hres := readAt_eq_shown h hp off len (Or.inr ⟨h0, hl⟩)
    obtain ⟨ih1, ih2⟩ := ih (dev.readAt off len).1 (hk _) (dev.readAt off len).2 hr.coherent
      (hr.pinsInside hp)
    have hdisk := @Io.disk_readAt_snd Error _ off len dev.shown
    refine ⟨?_, hr.trans ih2⟩
    change ((k (dev.readAt off len).1).exec (dev.readAt off len).2).1 =
      ((k (BlockDevice.readAt off len dev.shown).1).exec (BlockDevice.readAt off len dev.shown).2).1
    rw [ih1, hdisk, ← hres, hr.shown h]
  | writeAt off data k => exact hx.elim
  | flush k => exact hx.elim
  | populateCache block bytes k => exact hx.elim

end CachedDevice

namespace JournalApply

/-- An entry's offsets are those of whole blocks of the volume. -/
structure Resolved (fs : Filesystem) (e : ReplayEntry) (o : Nat × Nat) : Prop where
  source : ∃ phys, o.1 = phys * fs.sb.blockSize ∧ InVolume fs phys
  destination : o.2 = e.fsBlock.toNat * fs.sb.blockSize
  inside : InVolume fs e.fsBlock.toNat

theorem byteOffsetOf_eq_ok (fs : Filesystem) (block off : Nat)
    (h : byteOffsetOf fs block = .ok off) :
    off = block * fs.sb.blockSize ∧ InVolume fs block := by
  unfold byteOffsetOf byteOffsetIn at h
  split at h
  · exact absurd h (by simp)
  · split at h
    · exact absurd h (by simp)
    · split at h
      · exact absurd h (by simp)
      · split at h
        · exact absurd h (by simp)
        · exact ⟨(Except.ok.inj h).symm, by omega, by omega⟩

theorem resolveEntry_resolved (fs : Filesystem) (jinode : Inode) (e : ReplayEntry) (d : Disk)
    (o : Nat × Nat) (h : ((resolveEntry fs jinode e).exec d).1 = .ok o) : Resolved fs e o := by
  unfold resolveEntry at h
  rw [Io.exec_bind] at h
  split at h
  · rename_i r d' _
    cases r with
    | none => exact absurd h (by simp)
    | some phys =>
      dsimp only at h
      cases hs : byteOffsetOf fs phys with
      | error err =>
        rw [hs] at h
        exact absurd h (by simp [liftM, monadLift, MonadLift.monadLift, bind, Io.bind])
      | ok source =>
        cases ht : byteOffsetOf fs e.fsBlock.toNat with
        | error err =>
          rw [hs, ht] at h
          exact absurd h (by simp [liftM, monadLift, MonadLift.monadLift, bind, Io.bind])
        | ok destination =>
          rw [hs, ht] at h
          obtain ⟨hs1, hs2⟩ := byteOffsetOf_eq_ok fs phys source hs
          obtain ⟨ht1, ht2⟩ := byteOffsetOf_eq_ok fs _ destination ht
          rw [← Except.ok.inj h]
          exact ⟨⟨phys, hs1, hs2⟩, ht1, ht2⟩
  · exact absurd h (by simp)

theorem resolveEntries_resolved (fs : Filesystem) (jinode : Inode)
    (es : List ReplayEntry) (d : Disk)
    (offs : List (Nat × Nat)) (h : ((resolveEntries fs jinode es).exec d).1 = .ok offs) :
    List.Forall₂ (Resolved fs) es offs := by
  induction es generalizing offs d with
  | nil =>
    rw [← Except.ok.inj h]
    exact List.Forall₂.nil
  | cons e rest ih =>
    unfold resolveEntries at h
    rw [Io.exec_bind] at h
    split at h
    · rename_i r d' hr
      rw [Io.exec_bind] at h
      split at h
      · rename_i rs d'' hrs
        rw [← Except.ok.inj h]
        exact List.Forall₂.cons (resolveEntry_resolved fs jinode e d r (by rw [hr]))
          (ih d' rs (by rw [hrs]))
      · exact absurd h (by simp)
    · exact absurd h (by simp)

theorem resolve_resolved (fs : Filesystem) (plan : ReplayPlan) (d : Disk) (offs : List (Nat × Nat))
    (h : ((resolve fs plan).exec d).1 = .ok offs) :
    List.Forall₂ (Resolved fs) plan.writes offs := by
  unfold resolve at h
  rw [Io.exec_bind] at h
  split at h
  · exact resolveEntries_resolved fs _ plan.writes _ offs h
  · exact absurd h (by simp)

def sourceBlocks (fs : Filesystem) (d : Disk) (rs : List (ReplayEntry × Nat × Nat)) :
    List (Nat × Bytes) :=
  rs.map (fun r => (r.1.fsBlock.toNat, unescape r.1 (d.img.read r.2.1 fs.sb.blockSize)))

theorem readSources_readsBlocks (fs : Filesystem) (rs : List (ReplayEntry × Nat × Nat))
    (h : ∀ r ∈ rs, Resolved fs r.1 r.2) :
    (readSources fs.sb.blockSize rs).ReadsBlocks fs.sb.blockSize := by
  induction rs with
  | nil => exact Io.ReadsBlocks.done _
  | cons r rest ih =>
    obtain ⟨e, source, destination⟩ := r
    obtain ⟨⟨phys, hp, -⟩, -, -⟩ := h _ List.mem_cons_self
    dsimp only at hp
    unfold readSources
    rw [hp]
    exact (readAt_readsBlocks _ _).bind fun buf =>
      (ih fun r hr => h r (List.mem_cons_of_mem _ hr)).bind fun blocks => Io.ReadsBlocks.done _

theorem readSources_exec (fs : Filesystem) (d : Disk) (hsize : fs.sizeBytes = d.size)
    (rs : List (ReplayEntry × Nat × Nat)) (h : ∀ r ∈ rs, Resolved fs r.1 r.2) :
    (readSources fs.sb.blockSize rs).exec d = (.ok (sourceBlocks fs d rs), d) := by
  induction rs with
  | nil => rfl
  | cons r rest ih =>
    obtain ⟨e, source, destination⟩ := r
    obtain ⟨⟨phys, hp, hin⟩, -, -⟩ := h _ List.mem_cons_self
    dsimp only at hp
    have hfit : source + fs.sb.blockSize ≤ d.size := by
      rw [hp, ← hsize]
      exact hin.2
    unfold readSources
    rw [Io.exec_bind_ok _ _ _ _ _ (exec_readAt d source _ hfit),
      Io.exec_bind_ok _ _ _ _ _ (ih fun r hr => h r (List.mem_cons_of_mem _ hr))]
    rfl

open CachedDevice in
theorem populateAll_exec (bs : Nat) (blocks : List (Nat × Bytes)) (dev : CachedDevice)
    (h : Coherent bs dev) (hp : PinsInside bs dev) (hlen : ∀ b ∈ blocks, b.2.length = bs)
    (hin : ∀ b ∈ blocks, b.1 * bs + bs ≤ dev.inner.size) :
    ∃ dev', (populateAll blocks).exec dev = (.ok (), dev') ∧ Coherent bs dev' ∧
      PinsInside bs dev' ∧ dev'.inner = dev.inner ∧ dev'.view = dev.view.writeBlocks bs blocks := by
  induction blocks generalizing dev with
  | nil => exact ⟨dev, rfl, h, hp, rfl, rfl⟩
  | cons b rest ih =>
    obtain ⟨block, bytes⟩ := b
    have hl : bytes.length = bs := hlen (block, bytes) List.mem_cons_self
    have hb : block * bs + bs ≤ dev.inner.size := hin (block, bytes) List.mem_cons_self
    have hc : Coherent bs (dev.populateCache block bytes) :=
      ⟨h.blockSize, h.pos, fun b' => (h.shaped b').pin block bytes hl,
        fun b' => (h.clean b').pin block bytes⟩
    have hp' : PinsInside bs (dev.populateCache block bytes) := by
      intro b' hb'
      change b' ∈ (dev.state.pin block bytes).pinned at hb'
      rw [← AList.lookup_isSome, CacheState.lookup_pinned_pin] at hb'
      split at hb'
      · rename_i he
        subst he
        exact hb
      · rw [AList.lookup_isSome] at hb'
        exact hp b' hb'
    have hv : (dev.populateCache block bytes).view = dev.view.write (block * bs) bytes := by
      unfold CachedDevice.view
      rw [hc.blockSize, h.blockSize]
      exact CacheState.view_pin h.pos block bytes hl
    obtain ⟨dev', h1, h2, h3, h4, h5⟩ := ih (dev.populateCache block bytes) hc hp'
      (fun b' hb' => hlen b' (List.mem_cons_of_mem _ hb'))
      (fun b' hb' => hin b' (List.mem_cons_of_mem _ hb'))
    refine ⟨dev', ?_, h2, h3, h4, ?_⟩
    · rw [← h1]
      rfl
    · rw [h5, hv]
      rfl

end JournalApply

namespace CachedDevice

/-- The device after a sequence of reads, each with the order its hash maps happen to have. -/
def afterReads (dev : CachedDevice) : List (HashOrder × Nat × Nat) → CachedDevice
  | [] => dev
  | (order, offset, len) :: rest =>
    afterReads ({ dev with state := { dev.state with order } }.readAt offset len).2 rest

theorem afterReads_reread {bs : Nat} (reads : List (HashOrder × Nat × Nat)) (dev : CachedDevice)
    (h : Coherent bs dev) : Reread bs dev (dev.afterReads reads) := by
  induction reads generalizing dev with
  | nil => exact Reread.refl h
  | cons r rest ih =>
    obtain ⟨order, offset, len⟩ := r
    have hr := Reread.readAt (h.reorder order) offset len
    exact (⟨hr.coherent, hr.inner, hr.pinned⟩ : Reread bs dev _).trans (ih _ hr.coherent)

theorem shown_of_unpinned (dev : CachedDevice) (h : dev.state.pinned = ∅) : dev.shown =
    dev.inner := by
  have hv : dev.view = dev.inner.img := by
    funext p
    unfold view CacheState.view
    rw [h, AList.lookup_empty]
  unfold shown
  rw [hv]

end CachedDevice

namespace JournalApply

open CachedDevice

/-- What read-only replay answers: the walk's or the resolution's refusal, or the block count. -/
def planThenResolve (crc : Crc) (fs : Filesystem) (jsb : JournalSuperblock) : DevIo Nat := do
  let plan ← walk crc fs jsb
  let _ ← resolve fs plan
  return plan.writes.length

theorem resolve_writable (fs : Filesystem) (on : Bool) (plan : ReplayPlan) :
    resolve { fs with isWritable := on } plan = resolve fs plan := by
  have hentries : ∀ jinode es, resolveEntries { fs with isWritable := on } jinode es =
      resolveEntries fs jinode es := by
    intro jinode es
    induction es with
    | nil => rfl
    | cons e rest ih =>
      rw [resolveEntries, resolveEntries, ih]
      rfl
  unfold resolve
  simp only [hentries]
  rfl

section Refines

variable {crc : Crc} {fs : Filesystem} {jsb : JournalSuperblock} {dev : CachedDevice}

theorem walk_ok_journalInode (hdirty : jsb.isClean = false) (d : Disk) (plan : ReplayPlan)
    (h : ((walk crc fs jsb).exec d).1 = .ok plan) :
    ∃ jinode, fs.journalInode.exec d = (.ok jinode, d) := by
  have hsnd := (journalInode_readsBlocks fs).exec_snd d
  unfold walk at h
  rw [hdirty] at h
  simp only [Bool.false_eq_true, if_false] at h
  split at h
  · exact absurd h (by simp)
  · split at h
    · exact absurd h (by simp)
    · split at h
      · exact absurd h (by simp)
      · split at h
        · exact absurd h (by simp)
        · rw [Io.exec_bind] at h
          split at h
          · rename_i jinode d' hj
            rw [hj] at hsnd
            exact ⟨jinode, by rw [hj, ← hsnd]⟩
          · exact absurd h (by simp)

theorem resolve_empty (hdirty : jsb.isClean = false) (d : Disk) (plan : ReplayPlan)
    (h : ((walk crc fs jsb).exec d).1 = .ok plan) (hp : plan.writes = []) :
    (resolve fs plan).exec d = (.ok [], d) := by
  obtain ⟨jinode, hj⟩ := walk_ok_journalInode hdirty d plan h
  unfold resolve
  rw [Io.exec_bind_ok _ _ _ _ _ hj, hp]
  rfl

theorem exec_reread {α : Type} (x : DevIo α) (hx : x.ReadsBlocks fs.sb.blockSize)
    (h : Coherent fs.sb.blockSize dev) (hpin : dev.state.pinned = ∅) :
    ∃ dev', x.exec dev = ((x.exec dev.inner).1, dev') ∧ Reread fs.sb.blockSize dev dev' := by
  have hp : PinsInside fs.sb.blockSize dev := by
    intro b hb
    rw [hpin] at hb
    exact absurd hb (AList.notMem_empty b)
  obtain ⟨h1, h2⟩ := exec_readsBlocks x hx dev h hp
  rw [shown_of_unpinned dev hpin] at h1
  exact ⟨(x.exec dev).2, Prod.ext h1 rfl, h2⟩

variable (h : Coherent fs.sb.blockSize dev) (hpin : dev.state.pinned = ∅)
  (hjsb : fs.readSuperblock.exec dev.inner = (.ok (some jsb), dev.inner))
  (hdirty : jsb.isClean = false)

include h hpin hjsb hdirty

theorem replayIntoCache_refused (e : Error)
    (he : ((planThenResolve crc fs jsb).exec dev.inner).1 = .error e) :
    ∃ dev', (replayIntoCache crc fs).exec dev = (.error e, dev') ∧
    Reread fs.sb.blockSize dev dev' := by
  obtain ⟨dev₁, h1, hr1⟩ := exec_reread fs.readSuperblock (readSuperblock_readsBlocks fs) h hpin
  rw [hjsb] at h1
  obtain ⟨dev₂, h2, hr2⟩ := exec_reread (walk crc fs jsb) (walk_readsBlocks fs crc jsb) hr1.coherent
    (hr1.pinned.trans hpin)
  rw [hr1.inner] at h2
  have hwsnd := (walk_readsBlocks fs crc jsb).exec_snd dev.inner
  unfold planThenResolve at he
  unfold replayIntoCache
  rw [Io.exec_bind_ok _ _ _ _ _ h1]
  dsimp only
  rw [hdirty]
  simp only [Bool.false_eq_true, if_false]
  cases hw : ((walk crc fs jsb).exec dev.inner).1 with
  | error e' =>
    rw [Io.exec_bind_error _ _ _ _ e' (Prod.ext hw rfl)] at he
    rw [hw] at h2
    rw [Io.exec_bind_error _ _ _ _ _ h2, Except.error.inj he]
    exact ⟨dev₂, rfl, hr1.trans hr2⟩
  | ok plan =>
    rw [Io.exec_bind_ok _ _ _ _ plan (Prod.ext hw hwsnd)] at he
    rw [hw] at h2
    rw [Io.exec_bind_ok _ _ _ _ _ h2]
    have hne : plan.writes ≠ [] := by
      intro hnil
      rw [Io.exec_bind_ok _ _ _ _ _ (resolve_empty hdirty dev.inner plan hw hnil)] at he
      exact absurd he (by simp)
    rw [if_neg (by rw [List.isEmpty_iff]; exact hne)]
    obtain ⟨dev₃, h3, hr3⟩ := exec_reread (resolve fs plan) (resolve_readsBlocks fs plan)
      hr2.coherent (hr2.pinned.trans (hr1.pinned.trans hpin))
    rw [hr2.inner, hr1.inner] at h3
    cases hres : ((resolve fs plan).exec dev.inner).1 with
    | error e' =>
      rw [Io.exec_bind_error _ _ _ _ e' (Prod.ext hres rfl)] at he
      rw [hres] at h3
      rw [Io.exec_bind_error _ _ _ _ _ h3, Except.error.inj he]
      exact ⟨dev₃, rfl, (hr1.trans hr2).trans hr3⟩
    | ok offs =>
      rw [Io.exec_bind_ok _ _ _ _ offs (Prod.ext hres rfl)] at he
      exact absurd he (by simp)

theorem replayIntoCache_pins (hsize : fs.sizeBytes = dev.inner.size) (plan : ReplayPlan)
    (offs : List (Nat × Nat)) (hw : (walk crc fs jsb).exec dev.inner = (.ok plan, dev.inner))
    (hres : (resolve fs plan).exec dev.inner = (.ok offs, dev.inner)) :
    ∃ dev', (replayIntoCache crc fs).exec dev = (.ok plan.writes.length, dev') ∧
      Coherent fs.sb.blockSize dev' ∧ PinsInside fs.sb.blockSize dev' ∧ dev'.inner = dev.inner ∧
      dev'.view = dev.inner.img.writeBlocks fs.sb.blockSize
        (sourceBlocks fs dev.inner (plan.writes.zip offs)) := by
  have hbs := blockSize_ge fs.sb
  obtain ⟨dev₁, h1, hr1⟩ := exec_reread fs.readSuperblock (readSuperblock_readsBlocks fs) h hpin
  rw [hjsb] at h1
  obtain ⟨dev₂, h2, hr2⟩ := exec_reread (walk crc fs jsb) (walk_readsBlocks fs crc jsb) hr1.coherent
    (hr1.pinned.trans hpin)
  rw [hr1.inner, hw] at h2
  have hpin2 : dev₂.state.pinned = ∅ := hr2.pinned.trans (hr1.pinned.trans hpin)
  have hin2 : dev₂.inner = dev.inner := hr2.inner.trans hr1.inner
  have hresolved := resolve_resolved fs plan dev.inner offs (by rw [hres])
  unfold replayIntoCache
  rw [Io.exec_bind_ok _ _ _ _ _ h1]
  dsimp only
  rw [hdirty]
  simp only [Bool.false_eq_true, if_false]
  rw [Io.exec_bind_ok _ _ _ _ _ h2]
  have hview : ∀ dev' : CachedDevice, dev'.state.pinned = ∅ → dev'.inner = dev.inner →
      PinsInside fs.sb.blockSize dev' ∧ dev'.view = dev.inner.img := by
    intro dev' hp' hi'
    refine ⟨?_, ?_⟩
    · intro b hb
      rw [hp'] at hb
      exact absurd hb (AList.notMem_empty b)
    · rw [← hi', ← shown_of_unpinned dev' hp']
      rfl
  by_cases hne : plan.writes = []
  · rw [if_pos (by rw [List.isEmpty_iff]; exact hne), hne]
    exact ⟨dev₂, rfl, hr2.coherent, (hview dev₂ hpin2 hin2).1, hin2, (hview dev₂ hpin2 hin2).2⟩
  · rw [if_neg (by rw [List.isEmpty_iff]; exact hne)]
    obtain ⟨dev₃, h3, hr3⟩ := exec_reread (resolve fs plan) (resolve_readsBlocks fs plan)
      hr2.coherent hpin2
    rw [hin2, hres] at h3
    have hpin3 : dev₃.state.pinned = ∅ := hr3.pinned.trans hpin2
    have hin3 : dev₃.inner = dev.inner := hr3.inner.trans hin2
    have hzip : ∀ r ∈ plan.writes.zip offs, Resolved fs r.1 r.2 := by
      intro r hr
      exact List.forall₂_iff_zip.mp hresolved |>.2 hr
    obtain ⟨dev₄, h4, hr4⟩ := exec_reread (readSources fs.sb.blockSize (plan.writes.zip offs))
      (readSources_readsBlocks fs _ hzip) hr3.coherent hpin3
    rw [hin3, readSources_exec fs dev.inner hsize _ hzip] at h4
    have hpin4 : dev₄.state.pinned = ∅ := hr4.pinned.trans hpin3
    have hin4 : dev₄.inner = dev.inner := hr4.inner.trans hin3
    obtain ⟨dev₅, h5, hc5, hp5, hi5, hv5⟩ := populateAll_exec fs.sb.blockSize
      (sourceBlocks fs dev.inner (plan.writes.zip offs)) dev₄ hr4.coherent (hview dev₄ hpin4 hin4).1
      (by
        intro b hb
        obtain ⟨r, -, rfl⟩ := List.mem_map.mp hb
        dsimp only
        rw [length_unescape _ _ (by rw [Image.length_read]; omega), Image.length_read])
      (by
        intro b hb
        obtain ⟨r, hr, rfl⟩ := List.mem_map.mp hb
        rw [hin4, ← hsize]
        exact (hzip r hr).inside.2)
    refine ⟨dev₅, ?_, hc5, hp5, hi5.trans hin4, ?_⟩
    · have hlen : (sourceBlocks fs dev.inner (plan.writes.zip offs)).length =
          plan.writes.length := by
        have hl := hresolved.length_eq
        simp only [sourceBlocks, List.length_map, List.length_zip]
        omega
      rw [Io.exec_bind_ok _ _ _ _ _ h3, Io.exec_bind_ok _ _ _ _ _ h4,
        Io.exec_bind_ok _ _ _ _ _ h5, hlen]
      rfl
    · rw [hv5, (hview dev₄ hpin4 hin4).2]

omit h hpin hjsb hdirty in
theorem apply_writes_sources (d : Disk) (hsize : fs.sizeBytes = d.size) (plan : ReplayPlan)
    (offs : List (Nat × Nat)) (hres : (resolve fs plan).exec d = (.ok offs, d))
    (hfree : ∀ o ∈ offs, ∀ o' ∈ offs, o.1 ≠ o'.2) :
    (apply { fs with isWritable := true } plan).exec d = (.ok plan.writes.length, { d with
      img := d.img.writeBlocks fs.sb.blockSize (sourceBlocks fs d (plan.writes.zip offs)) }) := by
  have hbs := blockSize_ge fs.sb
  have hresolved := resolve_resolved fs plan d offs (by rw [hres])
  have hzip : ∀ r ∈ plan.writes.zip offs, Resolved fs r.1 r.2 := by
    intro r hr
    exact List.forall₂_iff_zip.mp hresolved |>.2 hr
  by_cases hne : plan.writes = []
  · unfold apply
    rw [hne]
    rfl
  · have hmap : (plan.writes.zip offs).map
        (fun r => (r.2.2, unescape r.1 (d.img.read r.2.1 fs.sb.blockSize))) =
        atOffsets fs.sb.blockSize (sourceBlocks fs d (plan.writes.zip offs)) := by
      rw [atOffsets, sourceBlocks, List.map_map]
      apply List.map_congr_left
      intro r hr
      rw [(hzip r hr).destination]
      rfl
    have hrun := applyEntries_runs fs.sb.blockSize (Nat.le_trans (by decide) hbs)
      (plan.writes.zip offs) d (by
        intro r hr
        obtain ⟨phys, hp, hin⟩ := (hzip r hr).source
        rw [hp, ← hsize]
        exact hin.2) (by
        intro r hr
        rw [(hzip r hr).destination, ← hsize]
        exact (hzip r hr).inside.2) (by
        apply List.pairwise_of_forall_mem_list
        intro r' hr' r hr
        obtain ⟨phys, hp, -⟩ := (hzip r hr).source
        have hne' := hfree r.2 (List.of_mem_zip hr).2 r'.2 (List.of_mem_zip hr').2
        have hd := (hzip r' hr').destination
        rw [hp, hd] at hne' ⊢
        exact block_disjoint _ _ _ (fun he => hne' (by rw [he])))
    rw [hmap] at hrun
    have happly := @apply_resolved { fs with isWritable := true } d plan rfl hne offs
      (by rw [resolve_writable]; exact (resolve_readsBlocks fs plan).runs hres) _ hrun
    rw [happly.exec, Disk.after_append, Disk.after_writeEvs]
    rfl

end Refines

theorem planThenResolve_cases (crc : Crc) (fs : Filesystem) (jsb : JournalSuperblock) (d : Disk) :
    (∃ e, ((planThenResolve crc fs jsb).exec d).1 = .error e) ∨
      ∃ plan offs, (walk crc fs jsb).exec d = (.ok plan, d) ∧
        (resolve fs plan).exec d = (.ok offs, d) ∧
        ((planThenResolve crc fs jsb).exec d).1 = .ok plan.writes.length := by
  have hsndw := (walk_readsBlocks fs crc jsb).exec_snd d
  unfold planThenResolve
  cases hw : ((walk crc fs jsb).exec d).1 with
  | error e =>
    rw [Io.exec_bind_error _ _ _ _ _ (Prod.ext hw hsndw)]
    exact Or.inl ⟨e, rfl⟩
  | ok plan =>
    have hsndr := (resolve_readsBlocks fs plan).exec_snd d
    rw [Io.exec_bind_ok _ _ _ _ _ (Prod.ext hw hsndw)]
    cases hr : ((resolve fs plan).exec d).1 with
    | error e =>
      rw [Io.exec_bind_error _ _ _ _ _ (Prod.ext hr hsndr)]
      exact Or.inl ⟨e, rfl⟩
    | ok offs =>
      rw [Io.exec_bind_ok _ _ _ _ _ (Prod.ext hr hsndr)]
      exact Or.inr ⟨plan, offs, Prod.ext hw hsndw, Prod.ext hr hsndr, rfl⟩

/-- A read-only replay into the cache answers as the walk and the resolution do, never writes the
device, and shows every reader what a writable replay would have left on it. -/
theorem read_only_replay_refines (crc : Crc) (fs : Filesystem) (jsb : JournalSuperblock)
    (dev : CachedDevice) (h : Coherent fs.sb.blockSize dev) (hpin : dev.state.pinned = ∅)
    (hsize : fs.sizeBytes = dev.inner.size)
    (hjsb : fs.readSuperblock.exec dev.inner = (.ok (some jsb), dev.inner))
    (hdirty : jsb.isClean = false) :
    ((replayIntoCache crc fs).exec dev).1 = ((planThenResolve crc fs jsb).exec dev.inner).1 ∧
    ((replayIntoCache crc fs).exec dev).2.inner = dev.inner ∧
    (∀ e, ((replayIntoCache crc fs).exec dev).1 = .error e →
      Reread fs.sb.blockSize dev ((replayIntoCache crc fs).exec dev).2) ∧
    ∀ plan offs, (walk crc fs jsb).exec dev.inner = (.ok plan, dev.inner) →
      (resolve fs plan).exec dev.inner = (.ok offs, dev.inner) →
      (∀ o ∈ offs, ∀ o' ∈ offs, o.1 ≠ o'.2) →
      ∃ d', (apply { fs with isWritable := true } plan).exec dev.inner =
          (.ok plan.writes.length, d') ∧
        ∀ reads offset len,
          offset / fs.sb.blockSize * fs.sb.blockSize + fs.sb.blockSize ≤ dev.inner.size →
          ((((replayIntoCache crc fs).exec dev).2.afterReads reads).readAt offset len).1 =
              (BlockDevice.readAt offset len d').1 ∧
            (((replayIntoCache crc fs).exec dev).2.afterReads reads).inner = dev.inner := by
  have hsplit := planThenResolve_cases crc fs jsb dev.inner
  refine ⟨?_, ?_, ?_, ?_⟩
  · obtain ⟨e, he⟩ | ⟨plan, offs, hw, hres, hn⟩ := hsplit
    · obtain ⟨dev', hr, -⟩ := replayIntoCache_refused h hpin hjsb hdirty e he
      rw [hr, he]
    · obtain ⟨dev', hr, -⟩ := replayIntoCache_pins h hpin hjsb hdirty hsize plan offs hw hres
      rw [hr, hn]
  · obtain ⟨e, he⟩ | ⟨plan, offs, hw, hres, hn⟩ := hsplit
    · obtain ⟨dev', hr, hre⟩ := replayIntoCache_refused h hpin hjsb hdirty e he
      rw [hr]
      exact hre.inner
    · obtain ⟨dev', hr, -, -, hi, -⟩ := replayIntoCache_pins h hpin hjsb hdirty hsize plan
        offs hw hres
      rw [hr]
      exact hi
  · intro e₀ he₀
    obtain ⟨e, he⟩ | ⟨plan, offs, hw, hres, hn⟩ := hsplit
    · obtain ⟨dev', hr, hre⟩ := replayIntoCache_refused h hpin hjsb hdirty e he
      rw [hr]
      exact hre
    · obtain ⟨dev', hr, -⟩ := replayIntoCache_pins h hpin hjsb hdirty hsize plan offs hw hres
      rw [hr] at he₀
      exact absurd he₀ (by simp)
  · intro plan offs hw hres hfree
    obtain ⟨dev', hr, hc, hp, hi, hv⟩ :=
      replayIntoCache_pins h hpin hjsb hdirty hsize plan offs hw hres
    refine ⟨_, apply_writes_sources dev.inner hsize plan offs hres hfree, ?_⟩
    intro reads offset len ho
    rw [hr]
    have hre := afterReads_reread reads dev' hc
    have hin : (dev'.afterReads reads).inner = dev.inner := hre.inner.trans hi
    refine ⟨?_, hin⟩
    rw [readAt_eq_shown hre.coherent (hre.pinsInside hp) offset len
      (Or.inl (by rw [hin]; exact ho)), hre.shown hc]
    congr 2
    unfold CachedDevice.shown
    rw [hv, hi]

/-- The small volume with `smallTransaction` in its dirty journal, behind a cache of two blocks. -/
def smallCached : CachedDevice :=
  CachedDevice.new (smallDisk (withJsb 0 6 0xFFFFFFFF (ringLog 6 smallBlocks))) 1024 2
    insertionOrder

theorem smallCached_replays : ∃ plan d',
    (walk linuxCrc32c smallVolume (smallJsb 0 6 0xFFFFFFFF)).exec smallCached.inner =
      (.ok plan, smallCached.inner) ∧
    (apply { smallVolume with isWritable := true } plan).exec smallCached.inner = (.ok 1, d') ∧
    ((replayIntoCache linuxCrc32c smallVolume).exec smallCached).1 = .ok 1 ∧
    ((((replayIntoCache linuxCrc32c smallVolume).exec smallCached).2.afterReads
      [(insertionOrder, 0, 3000)]).readAt 30000 2000).1 = (BlockDevice.readAt 30000 2000 d').1 := by
  have hg : Geometry (smallJsb 0 6 0xFFFFFFFF) := by constructor <;> decide
  have hw : Walkable smallVolume (smallJsb 0 6 0xFFFFFFFF) :=
    ⟨by decide, by decide, by decide, by decide, hg⟩
  have hlen : ∀ j, j < 8 → (withJsb 0 6 0xFFFFFFFF (ringLog 6 smallBlocks) j).length = 1024 := by
    decide +kernel
  have hring : ∀ j, InRing (smallJsb 0 6 0xFFFFFFFF) j → j < 8 := fun j hj => hj.2
  obtain ⟨t, htw, htr, hlog⟩ := small_committedLog 0 6 0xFFFFFFFF smallTransaction
    (by constructor <;> decide) rfl hg (by decide) (List.forall_mem_singleton.2 (by decide))
    (by decide +kernel) (by decide +kernel) (withJsb 0 6 0xFFFFFFFF (ringLog 6 smallBlocks))
    (fun j hj => if_neg (Nat.ne_of_gt hj.1))
  have hm : Mapped smallVolume (InRing (smallJsb 0 6 0xFFFFFFFF)) (16 + ·) smallJournalInode
      smallCached.inner := (smallDisk_mapped _).mono hring
  obtain ⟨plan, hplan, hst, -, -⟩ := walk_committed hw hlog
  have hwalk := hplan smallCached.inner (hm.logOnDisk rfl (smallDisk_onDevice 0 6 0xFFFFFFFF _))
  have hkept : replayWrites [t] = [(30, u32be magicNumber ++ List.replicate 1020 7)] := by
    unfold replayWrites
    rw [survivors_single, htw, htr]
    decide +kernel
  have hentry : ∀ e ∈ plan.writes, InRing (smallJsb 0 6 0xFFFFFFFF) e.journalBlock ∧
      e.fsBlock.toNat = 30 := by
    intro e he
    obtain ⟨w, hw', h⟩ := mem_of_forall₂ hst e he
    have hmem : (w.2.1.toNat, w.2.2) ∈ replayWrites [t] := List.mem_map.mpr ⟨w, hw', rfl⟩
    rw [hkept, List.mem_singleton] at hmem
    exact ⟨h.inRing, by rw [h.fsBlock, (Prod.mk.inj hmem).1]⟩
  have hcount : plan.writes.length = 1 := by
    have hl := congrArg List.length hkept
    simp only [replayWrites, List.length_map, List.length_singleton] at hl
    rw [hst.length_eq, hl]
  have hres : (resolve smallVolume plan).exec smallCached.inner =
      (.ok (plan.writes.map (offsets smallVolume (16 + ·))), smallCached.inner) := by
    unfold resolve
    rw [Io.exec_bind_ok _ _ _ _ _ hm.1]
    refine resolveEntries_ok (by decide) hm plan.writes (fun e he => (hentry e he).1) ?_
    intro e he
    obtain ⟨hj, hb⟩ := hentry e he
    have h8 := hring _ hj
    unfold EntryInVolume InVolume
    rw [hb]
    refine ⟨⟨?_, ?_⟩, by decide⟩
    · change 16 + e.journalBlock < 32
      omega
    · change (16 + e.journalBlock) * 1024 + 1024 ≤ 32768
      omega
  have hjsb : smallVolume.readSuperblock.exec smallCached.inner =
      (.ok (some (smallJsb 0 6 0xFFFFFFFF)), smallCached.inner) := by
    apply smallVolume_readSuperblock _ rfl (smallDisk_inodeTable _)
    rw [smallDisk_logOf _ 0 (by decide) (hlen 0 (by decide))]
    decide +kernel
  obtain ⟨h1, -, -, h4⟩ := read_only_replay_refines linuxCrc32c smallVolume
    (smallJsb 0 6 0xFFFFFFFF) smallCached (coherent_new _ _ _ (by decide)) rfl rfl hjsb rfl
  obtain ⟨d', happly, hreads⟩ := h4 plan _ hwalk hres (by
    intro o ho o' ho'
    obtain ⟨e, he, rfl⟩ := List.mem_map.mp ho
    obtain ⟨e', he', rfl⟩ := List.mem_map.mp ho'
    have h8 := hring _ (hentry e he).1
    unfold offsets
    dsimp only
    rw [(hentry e' he').2]
    change (16 + e.journalBlock) * 1024 ≠ 30 * 1024
    omega)
  refine ⟨plan, d', hwalk, ?_, ?_, (hreads _ 30000 2000 (by decide)).1⟩
  · rw [happly, hcount]
  · rw [h1]
    unfold planThenResolve
    rw [Io.exec_bind_ok _ _ _ _ _ hwalk, Io.exec_bind_ok _ _ _ _ _ hres, hcount]
    rfl

def badGeometry : CachedDevice :=
  CachedDevice.new (smallDisk (withJsb 0 9 1 (fun _ => List.replicate 1024 0))) 1024 4
    insertionOrder

/-- The small volume of `smallCached` on a device with half a block behind its last one. -/
def partialVolume : Filesystem := { smallVolume with sizeBytes := 33280 }

def partialCached : CachedDevice :=
  CachedDevice.new { smallDisk (withJsb 0 6 0xFFFFFFFF (ringLog 6 smallBlocks)) with size :=
    33280 } 1024 2 insertionOrder

theorem partialCached_replays :
    ((replayIntoCache linuxCrc32c partialVolume).exec partialCached).1 = .ok 1 := by decide +kernel

theorem partialCached_refuses :
    (((replayIntoCache linuxCrc32c partialVolume).exec partialCached).2.readAt 32768 100).1 =
      .error .io := by
  decide +kernel

theorem partialVolume_replays : ∃ d',
    (walk linuxCrc32c partialVolume (smallJsb 0 6 0xFFFFFFFF) >>= apply partialVolume).exec
      partialCached.inner = (.ok 1, d') ∧ d'.size = 33280 := by
  have hone : ((walk linuxCrc32c partialVolume (smallJsb 0 6 0xFFFFFFFF) >>=
    apply partialVolume).exec
      partialCached.inner).1 = .ok 1 := by decide +kernel
  have hsize := Io.exec_size (walk linuxCrc32c partialVolume (smallJsb 0 6 0xFFFFFFFF) >>=
    apply partialVolume)
    partialCached.inner
  revert hone hsize
  generalize (walk linuxCrc32c partialVolume (smallJsb 0 6 0xFFFFFFFF) >>= apply partialVolume).exec
    partialCached.inner = res
  intro hone hsize
  exact ⟨res.2, Prod.ext hone rfl, hsize⟩

/-- A refused replay has filled the cache with the blocks it read; and after a replay that is not
refused, a read that starts in the partial last block of the device is refused where the device has
the bytes. -/
theorem refused_replay_fills_cache :
    (((walk linuxCrc32c smallVolume (smallJsb 0 9 1)).exec badGeometry.inner).1 =
        .error (.corrupt "invalid journal geometry") ∧
      ((replayIntoCache linuxCrc32c smallVolume).exec badGeometry).1 =
        .error (.corrupt "invalid journal geometry") ∧
      ((replayIntoCache linuxCrc32c smallVolume).exec badGeometry).2.state.entries ≠
        badGeometry.state.entries) ∧
    ((replayIntoCache linuxCrc32c partialVolume).exec partialCached).1 = .ok 1 ∧
    (((replayIntoCache linuxCrc32c partialVolume).exec partialCached).2.readAt 32768 100).1 =
      .error .io ∧
    ∃ d', (walk linuxCrc32c partialVolume (smallJsb 0 6 0xFFFFFFFF) >>= apply partialVolume).exec
        partialCached.inner = (.ok 1, d') ∧
      (BlockDevice.readAt 32768 100 d').1 = (.ok (d'.img.read 32768 100) : Result Bytes) := by
  have hfilled : ((replayIntoCache linuxCrc32c smallVolume).exec badGeometry).2.state.entries ≠
      badGeometry.state.entries := by
    intro h
    have hkeys : ((replayIntoCache linuxCrc32c smallVolume).exec badGeometry).2.state.entries.keys ≠
        [] := by decide +kernel
    rw [h] at hkeys
    exact hkeys rfl
  obtain ⟨d', hreplay, hsize⟩ := partialVolume_replays
  refine ⟨⟨rfl, by decide +kernel, hfilled⟩, partialCached_replays, partialCached_refuses, d',
    hreplay, ?_⟩
  change (if 32768 + 100 ≤ d'.size then (.ok (d'.img.read 32768 100), d') else _ :
    Result Bytes × Disk).1 = _
  rw [if_pos (by rw [hsize]; decide)]

end JournalApply

end FsExt4
