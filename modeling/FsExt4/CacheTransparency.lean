import FsExt4.CacheCoherence

namespace FsExt4

open Lib

namespace CacheState

variable {bs size b' : Nat} {img : Image} {s : CacheState}

theorem lookup_entries_pin (s : CacheState) (b b' : Nat) (bytes : Bytes) :
    (s.pin b bytes).entries.lookup b' = if b' = b then none else s.entries.lookup b' := by
  by_cases hb : b' = b
  · subst hb
    simp [pin]
  · simp [pin, hb, AList.lookup_erase_ne hb]

theorem lookup_pinned_pin (s : CacheState) (b b' : Nat) (bytes : Bytes) :
    (s.pin b bytes).pinned.lookup b' = if b' = b then some bytes else s.pinned.lookup b' := by
  by_cases hb : b' = b
  · subst hb
    simp [pin]
  · simp [pin, hb, AList.lookup_insert_ne hb]

theorem Shaped.pin (h : Shaped bs s b') (b : Nat) (bytes : Bytes) (hl : bytes.length = bs) :
    Shaped bs (s.pin b bytes) b' := by
  refine ⟨?_, ?_, ?_⟩
  · intro x hx
    rw [lookup_pinned_pin] at hx
    split at hx
    · rw [← Option.some_inj.mp hx]
      exact hl
    · exact h.sized x hx
  · intro hm
    rw [lookup_entries_pin]
    split
    · rfl
    · rename_i hb
      rw [← AList.lookup_isSome, lookup_pinned_pin, if_neg hb, AList.lookup_isSome] at hm
      exact h.disjoint hm
  · intro hc
    rw [lookup_entries_pin]
    split
    · rfl
    · exact h.uncached hc

theorem Clean.pin (h : Clean bs size img s b') (b : Nat) (bytes : Bytes) :
    Clean bs size img (s.pin b bytes) b' := by
  intro slot hslot
  rw [lookup_entries_pin] at hslot
  split at hslot
  · exact absurd hslot (by simp)
  · exact h slot hslot

theorem view_pin (hbs : 0 < bs) (b : Nat) (bytes : Bytes) (hl : bytes.length = bs) :
    view bs img (s.pin b bytes) = (view bs img s).write (b * bs) bytes := by
  funext p
  simp only [view, lookup_pinned_pin, Image.write, hl]
  by_cases hp : p / bs = b
  · have hin := block_bounds bs hbs p b hp
    have hm := (div_eq_of_bounds bs p b hin.1 hin.2).2
    rw [if_pos hp, if_pos hin, hm]
  · have hout : ¬ (b * bs ≤ p ∧ p < b * bs + bs) :=
      fun h => hp (div_eq_of_bounds bs p b h.1 h.2).1
    rw [if_neg hp, if_neg hout]

theorem Clean.insertClean (h : Clean bs size img s b') (b : Nat) (bytes : Bytes)
    (hr : b * bs + bs ≤ size) (hb : bytes = img.read (b * bs) bs) :
    Clean bs size img (s.insertClean b bytes) b' := by
  intro slot hslot
  obtain ⟨rfl, hs, -⟩ | ⟨-, hs⟩ := lookup_insertClean s b b' bytes slot hslot
  · exact ⟨hr, hs.trans hb⟩
  · exact h slot hs

/-- Every pinned block is on the device already, as it is when a journal has been replayed. -/
def Checkpointed (bs size : Nat) (img : Image) (s : CacheState) : Prop :=
  ∀ b bytes, s.pinned.lookup b = some bytes → b * bs + bs ≤ size ∧ bytes = img.read (b * bs) bs

def insertAll (s : CacheState) (blocks : List (Nat × Bytes)) : CacheState :=
  blocks.foldl (fun s e => s.insertClean e.1 e.2) s

theorem insertAll_pinned (s : CacheState) (blocks : List (Nat × Bytes)) :
    (s.insertAll blocks).pinned = s.pinned := by
  unfold insertAll
  induction blocks generalizing s with
  | nil => rfl
  | cons e rest ih => rw [List.foldl_cons, ih, insertClean_pinned]

theorem insertAll_uncached (s : CacheState) (blocks : List (Nat × Bytes)) (b : Nat)
    (hu : s.capacity = 0 → s.entries.lookup b = none) :
    (s.insertAll blocks).capacity = 0 → (s.insertAll blocks).entries.lookup b = none := by
  unfold insertAll
  induction blocks generalizing s with
  | nil => exact hu
  | cons e rest ih =>
    rw [List.foldl_cons]
    apply ih
    intro hc
    rw [insertClean_capacity] at hc
    rw [insertClean, if_pos hc]
    exact hu hc

theorem Clean.insertAll (h : Clean bs size img s b') (blocks : List (Nat × Bytes))
    (hb : ∀ e ∈ blocks, e.1 * bs + bs ≤ size ∧ e.2 = img.read (e.1 * bs) bs) :
    Clean bs size img (s.insertAll blocks) b' := by
  unfold CacheState.insertAll
  induction blocks generalizing s with
  | nil => exact h
  | cons e rest ih =>
    have he := hb e List.mem_cons_self
    rw [List.foldl_cons]
    exact ih (h.insertClean e.1 e.2 he.1 he.2) (fun e' h' => hb e' (List.mem_cons_of_mem _ h'))

theorem mem_drain (s : CacheState) (e : Nat × Bytes) (h : e ∈ s.drain) :
    s.pinned.lookup e.1 = some e.2 := by
  obtain ⟨b, -, hb⟩ := List.mem_filterMap.mp h
  obtain ⟨bytes, hl, rfl⟩ := Option.map_eq_some_iff.mp hb
  exact hl

theorem Shaped.unpinAll (h : Shaped bs s b') : Shaped bs s.unpinAll b' := by
  have hp : s.unpinAll.pinned = ∅ := insertAll_pinned { s with pinned := ∅ } s.drain
  refine ⟨?_, ?_, insertAll_uncached { s with pinned := ∅ } s.drain b' h.uncached⟩
  · intro bytes hb
    rw [hp] at hb
    simp at hb
  · intro hm
    rw [hp] at hm
    simp at hm

theorem Clean.unpinAll (h : Clean bs size img s b') (hc : Checkpointed bs size img s) :
    Clean bs size img s.unpinAll b' := by
  have h0 : Clean bs size img { s with pinned := ∅ } b' := h
  apply h0.insertAll s.drain
  intro e he
  exact hc e.1 e.2 (mem_drain s e he)

theorem view_unpinAll (hbs : 0 < bs) (hc : Checkpointed bs size img s) :
    view bs img s.unpinAll = view bs img s := by
  have hp : s.unpinAll.pinned = ∅ := insertAll_pinned { s with pinned := ∅ } s.drain
  funext p
  rw [view, view, hp, AList.lookup_empty]
  cases hl : s.pinned.lookup (p / bs) with
  | none => rfl
  | some blk =>
    obtain ⟨h1, h2⟩ := block_bounds bs hbs p (p / bs) rfl
    obtain ⟨-, hm⟩ := div_eq_of_bounds bs p (p / bs) h1 h2
    have hpos : p / bs * bs + (p - p / bs * bs) = p := by omega
    dsimp only
    rw [(hc _ blk hl).2, hm, Image.getD_read _ _ _ _ (by omega), hpos]

end CacheState

/-- The calls on a cached device; a populated block is a block of the volume. -/
inductive CacheOp (bs : Nat) where
  | readAt (offset len : Nat)
  | writeAt (offset : Nat) (buf : Bytes)
  | populateCache (block : Nat) (bytes : { bytes : Bytes // bytes.length = bs })
  | unpinAll
  | invalidateCache

namespace CachedDevice

variable {bs : Nat} {self : CachedDevice}

structure Coherent (bs : Nat) (dev : CachedDevice) : Prop where
  blockSize : dev.blockSize = bs
  pos : 0 < bs
  shaped : ∀ b, dev.state.Shaped bs b
  clean : ∀ b, dev.state.Clean bs dev.inner.size dev.inner.img b

def view (self : CachedDevice) : Image := self.state.view self.blockSize self.inner.img

def step (self : CachedDevice) : CacheOp bs → CachedDevice
  | .readAt offset len => (self.readAt offset len).2
  | .writeAt offset buf => (self.writeAt offset buf).2
  | .populateCache block bytes => self.populateCache block bytes
  | .unpinAll => self.unpinAll
  | .invalidateCache => self.invalidateCache.2

/-- A run of calls, each with the order its hash maps happen to have. -/
def run (self : CachedDevice) : List (HashOrder × CacheOp bs) → CachedDevice
  | [] => self
  | (order, op) :: rest => run (step { self with state := { self.state with order } } op) rest

/-- `unpin_all` is called only when the device holds the pinned bytes. -/
def Admissible (self : CachedDevice) : List (HashOrder × CacheOp bs) → Prop
  | [] => True
  | (order, op) :: rest =>
    (op = .unpinAll → self.state.Checkpointed bs self.inner.size self.inner.img) ∧
      Admissible (step { self with state := { self.state with order } } op) rest

/-- The reference model: one image, which a populated block is laid over and every write that
the device accepts goes on top of. -/
def refStep (size : Nat) (img : Image) : CacheOp bs → Image
  | .writeAt offset buf => if offset + buf.length ≤ size then img.write offset buf else img
  | .populateCache block bytes => img.write (block * bs) bytes
  | .readAt .. | .unpinAll | .invalidateCache => img

def refRun (size : Nat) (img : Image) : List (HashOrder × CacheOp bs) → Image
  | [] => img
  | (_, op) :: rest => refRun size (refStep size img op) rest

theorem innerRead_eq (d : Disk) (off len : Nat) :
    innerRead d off len = if off + len ≤ d.size then .ok (d.img.read off len) else .error .io := by
  unfold innerRead BlockDevice.readAt
  simp only [instBlockDeviceDiskOfIoFault]
  split <;> rfl

theorem get_eq_view (h : Coherent bs self) (b : Nat) (blk : Bytes)
    (hg : (self.state.get b).1 = some blk) : blk = self.view.read (b * bs) bs := by
  obtain hp | ⟨hn, slot, hs, rfl⟩ := CacheState.get_some self.state b blk hg
  · apply CacheState.read_block_eq _ _ _ ((h.shaped b).sized blk hp)
    intro p hp'
    rw [view, h.blockSize]
    exact CacheState.view_of_pinned b blk p hp hp'
  · rw [(h.clean b slot hs).2]
    apply Image.read_congr
    intro p h1 h2
    rw [view, h.blockSize]
    exact (CacheState.view_eq_of_not_pinned b p hn
      (CacheState.div_eq_of_bounds bs p b h1 h2).1).symm

theorem read_view_of_not_pinned (h : Coherent bs self) (b : Nat) (hn : b ∉ self.state.pinned) :
    self.inner.img.read (b * bs) bs = self.view.read (b * bs) bs := by
  apply Image.read_congr
  intro p h1 h2
  rw [view, h.blockSize]
  exact (CacheState.view_eq_of_not_pinned b p hn (CacheState.div_eq_of_bounds bs p b h1 h2).1).symm

theorem slice_block (img : Image) (offset len : Nat) (hl : offset % bs + len ≤ bs) :
    slice (img.read (offset / bs * bs) bs) (offset % bs) len = img.read offset len := by
  have hdm := Nat.div_add_mod offset bs
  rw [Nat.mul_comm] at hdm
  rw [Image.slice_read _ _ _ _ _ hl, hdm]

theorem readAt_ok (h : Coherent bs self) (offset len : Nat) (bytes : Bytes)
    (hr : (self.readAt offset len).1 = .ok bytes) : bytes = self.view.read offset len := by
  unfold readAt at hr
  dsimp only at hr
  rw [h.blockSize] at hr
  split at hr
  · rename_i hl
    split at hr
    · rename_i blk state hg
      have hb := get_eq_view h (offset / bs) blk (by rw [hg])
      rw [← Except.ok.inj hr, hb, slice_block _ _ _ hl]
    · rename_i state hg
      rw [innerRead_eq] at hr
      have hn := CacheState.get_none self.state (offset / bs) (by rw [hg])
      split at hr
      · simp at hr
      · rename_i blk hblk
        split at hblk
        · rw [← Except.ok.inj hr, ← Except.ok.inj hblk, read_view_of_not_pinned h _ hn,
            slice_block _ _ _ hl]
        · simp at hblk
  · rw [innerRead_eq] at hr
    split at hr
    · simp at hr
    · rename_i buf hbuf
      split at hbuf
      · rw [← Except.ok.inj hr, ← Except.ok.inj hbuf, CacheState.overlayPinned_eq_view
          h.pos h.shaped, view, h.blockSize]
      · simp at hbuf

theorem readAt_succeeds (h : Coherent bs self) (hdvd : bs ∣ self.inner.size) (offset len : Nat)
    (ho : offset < self.inner.size) (hr : offset + len ≤ self.inner.size) :
    ∃ bytes, (self.readAt offset len).1 = .ok bytes := by
  unfold readAt
  dsimp only
  rw [h.blockSize]
  split
  · split
    · exact ⟨_, rfl⟩
    · have hin : offset / bs * bs + bs ≤ self.inner.size := by
        obtain ⟨n, hn⟩ := hdvd
        rw [hn] at ho ⊢
        have hlt : offset / bs < n := Nat.div_lt_of_lt_mul ho
        have hmul := Nat.mul_le_mul_right bs (Nat.succ_le_of_lt hlt)
        rw [Nat.succ_mul] at hmul
        rw [Nat.mul_comm bs n]
        exact hmul
      rw [innerRead_eq, if_pos hin]
      exact ⟨_, rfl⟩
  · rw [innerRead_eq, if_pos hr]
    exact ⟨_, rfl⟩

theorem readAt_inner (self : CachedDevice) (offset len : Nat) :
    (self.readAt offset len).2.inner = self.inner ∧
      (self.readAt offset len).2.blockSize = self.blockSize := by
  unfold readAt
  dsimp only
  split
  · split
    · exact ⟨rfl, rfl⟩
    · split <;> exact ⟨rfl, rfl⟩
  · split <;> exact ⟨rfl, rfl⟩

theorem readAt_pinned (self : CachedDevice) (offset len : Nat) :
    (self.readAt offset len).2.state.pinned = self.state.pinned := by
  unfold readAt
  dsimp only
  split
  · have hp := CacheState.get_pinned self.state (offset / self.blockSize)
    split
    · rename_i hg
      rw [hg] at hp
      exact hp
    · rename_i state hg
      have hn := CacheState.get_none self.state _ (by rw [hg])
      rw [hg] at hp
      dsimp only at hp
      split
      · exact hp
      · rw [← hp] at hn
        dsimp only
        rw [CacheState.put_of_not_pinned _ _ _ hn, CacheState.insertClean_pinned, hp]
  · split <;> rfl

theorem Coherent.readAt (h : Coherent bs self) (offset len : Nat) :
    Coherent bs (self.readAt offset len).2 := by
  have hin := readAt_inner self offset len
  have hbs : (self.readAt offset len).2.blockSize = bs := hin.2.trans h.blockSize
  suffices hs : (∀ b, (self.readAt offset len).2.state.Shaped bs b) ∧
      ∀ b, (self.readAt offset len).2.state.Clean bs self.inner.size self.inner.img b from
    ⟨hbs, h.pos, hs.1, by rw [hin.1]; exact hs.2⟩
  have hshape := fun b => (h.shaped b).get (offset / bs)
  have hclean := fun b => (h.clean b).get (offset / bs)
  unfold CachedDevice.readAt
  dsimp only
  rw [h.blockSize, innerRead_eq, innerRead_eq]
  split
  · split
    · rename_i hg
      rw [hg] at hshape hclean
      exact ⟨hshape, hclean⟩
    · rename_i state hg
      rw [hg] at hshape hclean
      by_cases hr : offset / bs * bs + bs ≤ self.inner.size
      · rw [if_pos hr]
        refine ⟨fun b => (hshape b).put _ _ (Image.length_read _ _ _), fun b => ?_⟩
        by_cases hb : b = offset / bs
        · subst hb
          exact CacheState.clean_put_self _ _ (hshape _) hr rfl
        · exact (hclean b).put_ne _ _ hb
      · rw [if_neg hr]
        exact ⟨hshape, hclean⟩
  · split <;> exact ⟨h.shaped, h.clean⟩

theorem writeAt_eq (self : CachedDevice) (offset : Nat) (buf : Bytes) :
    (self.writeAt offset buf).2 =
      if offset + buf.length ≤ self.inner.size then
        { self with
          inner := { self.inner with img := self.inner.img.write offset buf }
          state := self.state.finishWrite self.blockSize offset buf }
      else self := by
  unfold writeAt BlockDevice.writeAt
  simp only [instBlockDeviceDiskOfIoFault]
  by_cases h : offset + buf.length ≤ self.inner.size
  · rw [if_pos h, if_pos h]
  · rw [if_neg h, if_neg h]

theorem Coherent.writeAt (h : Coherent bs self) (offset : Nat) (buf : Bytes) :
    Coherent bs (self.writeAt offset buf).2 := by
  rw [writeAt_eq, h.blockSize]
  split
  · rename_i hr
    refine ⟨rfl, h.pos, fun b => (h.shaped b).finishWrite h.pos offset buf, fun b => ?_⟩
    by_cases hb : b ∈ CacheState.touched bs offset buf
    · apply CacheState.clean_finishWrite (h.shaped b) offset buf hb
      intro hw
      rw [hw.2] at hr
      have hrw := Image.read_write_self self.inner.img offset buf
      rw [hw.2] at hrw
      exact ⟨hr, hrw.symm⟩
    · apply CacheState.Clean.finishWrite_of_not_mem _ offset buf hb
      intro slot hslot
      obtain ⟨h1, h2⟩ := h.clean b slot hslot
      refine ⟨h1, h2.trans ?_⟩
      apply Image.read_congr
      intro p hp1 hp2
      have hdiv := (CacheState.div_eq_of_bounds bs p b hp1 hp2).1
      symm
      apply Image.write_of_not_mem
      intro hin
      exact hb (hdiv ▸ CacheState.mem_touched offset buf p hin.1 hin.2)
  · exact h

theorem view_writeAt (h : Coherent bs self) (offset : Nat) (buf : Bytes) :
    (self.writeAt offset buf).2.view = refStep self.inner.size self.view
      (.writeAt offset buf : CacheOp bs) := by
  rw [writeAt_eq, refStep]
  split
  · rw [view, view, h.blockSize]
    exact CacheState.view_finishWrite h.pos offset buf h.shaped
  · rfl

theorem writeAt_size (self : CachedDevice) (offset : Nat) (buf : Bytes) :
    (self.writeAt offset buf).2.inner.size = self.inner.size := by
  rw [writeAt_eq]
  split <;> rfl

theorem Coherent.invalidateCache (h : Coherent bs self) : Coherent bs self.invalidateCache.2 := by
  unfold CachedDevice.invalidateCache
  split
  · exact h
  · refine ⟨h.blockSize, h.pos, fun b => ⟨(h.shaped b).sized, ?_, ?_⟩, fun b => ?_⟩
    · exact fun _ => AList.lookup_empty b
    · exact fun _ => AList.lookup_empty b
    · intro slot hslot
      simp at hslot

theorem step_coherent (h : Coherent bs self) (op : CacheOp bs)
    (hop : op = .unpinAll → self.state.Checkpointed bs self.inner.size self.inner.img) :
    Coherent bs (self.step op) ∧ (self.step op).inner.size = self.inner.size ∧
      (self.step op).view = refStep self.inner.size self.view op := by
  cases op with
  | readAt offset len =>
    have hin := readAt_inner self offset len
    refine ⟨h.readAt offset len, by rw [step, hin.1], ?_⟩
    rw [step, view, hin.1, hin.2]
    exact CacheState.view_congr _ _ (readAt_pinned self offset len)
  | writeAt offset buf =>
    exact ⟨h.writeAt offset buf, writeAt_size self offset buf, view_writeAt h offset buf⟩
  | populateCache block bytes =>
    refine ⟨⟨h.blockSize, h.pos, ?_, ?_⟩, rfl, ?_⟩
    · exact fun b => (h.shaped b).pin block bytes bytes.2
    · exact fun b => (h.clean b).pin block bytes
    · rw [refStep, view, view]
      change CacheState.view self.blockSize self.inner.img (self.state.pin block bytes) = _
      rw [h.blockSize]
      exact CacheState.view_pin h.pos block bytes bytes.2
  | unpinAll =>
    refine ⟨⟨h.blockSize, h.pos, ?_, ?_⟩, rfl, ?_⟩
    · exact fun b => (h.shaped b).unpinAll
    · exact fun b => (h.clean b).unpinAll (hop rfl)
    · rw [refStep, view, view]
      change CacheState.view self.blockSize self.inner.img self.state.unpinAll = _
      rw [h.blockSize]
      exact CacheState.view_unpinAll h.pos (hop rfl)
  | invalidateCache =>
    refine ⟨h.invalidateCache, ?_, ?_⟩
    · unfold step CachedDevice.invalidateCache
      dsimp only
      split <;> rfl
    · unfold step CachedDevice.invalidateCache
      dsimp only
      split <;> rfl

theorem Coherent.reorder (h : Coherent bs self) (order : HashOrder) :
    Coherent bs { self with state := { self.state with order } } :=
  ⟨h.blockSize, h.pos, fun b => ⟨(h.shaped b).sized, (h.shaped b).disjoint, (h.shaped b).uncached⟩,
    h.clean⟩

theorem run_coherent (h : Coherent bs self) (ops : List (HashOrder × CacheOp bs))
    (hadm : self.Admissible ops) :
    Coherent bs (self.run ops) ∧ (self.run ops).inner.size = self.inner.size ∧
      (self.run ops).view = refRun self.inner.size self.view ops := by
  induction ops generalizing self with
  | nil => exact ⟨h, rfl, rfl⟩
  | cons op rest ih =>
    obtain ⟨order, op⟩ := op
    obtain ⟨h1, h2⟩ := hadm
    obtain ⟨hc, hs, hv⟩ := step_coherent (h.reorder order) op h1
    obtain ⟨ihc, ihs, ihv⟩ := ih hc h2
    refine ⟨ihc, ihs.trans hs, ?_⟩
    rw [run, ihv, hs, hv]
    rfl

theorem coherent_new (inner : Disk) (capacity : Nat) (order : HashOrder) (hbs : 0 < bs) :
    Coherent bs (new inner bs capacity order) := by
  refine ⟨rfl, hbs, fun b => ⟨?_, ?_, ?_⟩, fun b => ?_⟩
  · intro bytes hb
    simp [new, CacheState.new] at hb
  · exact fun _ => AList.lookup_empty b
  · exact fun _ => AList.lookup_empty b
  · intro slot hslot
    simp [new, CacheState.new] at hslot

/-- After any run of calls on a fresh cache, a read returns the reference model's bytes, a read
inside the device succeeds, and every clean entry is the device's block. -/
theorem read_returns_reference_bytes (inner : Disk) (capacity : Nat) (order : HashOrder)
    (hbs : 0 < bs) (hdvd : bs ∣ inner.size) (ops : List (HashOrder × CacheOp bs))
    (hadm : (new inner bs capacity order).Admissible ops) :
    (∀ offset len bytes, (((new inner bs capacity order).run ops).readAt offset len).1 = .ok bytes →
      bytes = (refRun inner.size inner.img ops).read offset len) ∧
    (∀ offset len, offset < inner.size → offset + len ≤ inner.size →
      ∃ bytes, (((new inner bs capacity order).run ops).readAt offset len).1 = .ok bytes) ∧
    ∀ b slot, ((new inner bs capacity order).run ops).state.entries.lookup b = some slot →
      b * bs + bs ≤ inner.size ∧
        slot.1 = ((new inner bs capacity order).run ops).inner.img.read (b * bs) bs := by
  obtain ⟨hc, hs, hv⟩ := run_coherent (coherent_new inner capacity order hbs) ops hadm
  have hv0 : (new inner bs capacity order).view = inner.img := by
    funext p
    simp [view, new, CacheState.new, CacheState.view]
  have hs0 : (new inner bs capacity order).inner.size = inner.size := rfl
  rw [hv0, hs0] at hv
  rw [hs0] at hs
  refine ⟨?_, ?_, ?_⟩
  · intro offset len bytes hr
    rw [← hv]
    exact readAt_ok hc offset len bytes hr
  · intro offset len ho hr
    exact readAt_succeeds hc (by rw [hs]; exact hdvd) offset len (by omega) (by omega)
  · intro b slot hslot
    rw [← hs]
    exact hc.clean b slot hslot

def insertionOrder : HashOrder := ⟨id, fun _ => List.Perm.refl _⟩

/-- A block written and pinned, unpinned, then overwritten across its end. -/
def pinnedThenWritten : List (HashOrder × CacheOp 4) :=
  [(insertionOrder, .writeAt 0 [1, 2, 3, 4]),
    (insertionOrder, .populateCache 0 ⟨[1, 2, 3, 4], rfl⟩),
    (insertionOrder, .unpinAll), (insertionOrder, .writeAt 3 [9, 9])]

theorem admissible_pinnedThenWritten :
    (new ⟨8, fun _ => 0⟩ 4 1 insertionOrder).Admissible pinnedThenWritten := by
  refine ⟨by simp, by simp, ?_, by simp, trivial⟩
  intro _ b bytes hb
  have hp : b = 0 ∧ bytes = [1, 2, 3, 4] := by
    by_cases h0 : b = 0
    · subst h0
      refine ⟨rfl, ?_⟩
      exact (Option.some_inj.mp hb).symm
    · have hne : ∀ s : CacheState, (s.pin 0 [1, 2, 3, 4]).pinned.lookup b = s.pinned.lookup b := by
        intro s
        rw [CacheState.lookup_pinned_pin, if_neg h0]
      have hn := (hne _).symm.trans hb
      exact absurd hn (by simp [step, writeAt_eq, new, CacheState.new, CacheState.finishWrite,
        CacheState.put, CacheState.insertClean, CacheState.evict])
  obtain ⟨rfl, rfl⟩ := hp
  decide

theorem read_pinnedThenWritten :
    ∃ bytes, (((new ⟨8, fun _ => 0⟩ 4 1 insertionOrder).run pinnedThenWritten).readAt 0 8).1 =
      .ok bytes ∧ bytes = [1, 2, 3, 9, 9, 0, 0, 0] := by
  obtain ⟨h1, h2, -⟩ := read_returns_reference_bytes ⟨8, fun _ => 0⟩ 1 insertionOrder (by decide)
    (by decide) pinnedThenWritten admissible_pinnedThenWritten
  obtain ⟨bytes, hb⟩ := h2 0 8 (by decide) (by decide)
  exact ⟨bytes, hb, (h1 0 8 bytes hb).trans (by decide)⟩

end CachedDevice

end FsExt4
