import FsExt4.CacheTransparency

namespace FsExt4.Interleaving

open Lib CacheState CachedDevice

/-- Where a call stands between two of its atomic steps. -/
inductive Call where
  /-- A single-block read that missed; the inner read is next. -/
  | readMissed (offset len : Nat)
  /-- It has the block; the lock-held `put` is next. -/
  | readInsert (offset len : Nat) (blk : Bytes)
  /-- A multi-block read that has the device's bytes; the lock-held overlay is next. -/
  | readOverlay (offset len : Nat) (buf : Bytes)
  /-- A write that has reached the device; its lock-held section is next. -/
  | writeFinish (offset : Nat) (buf : Bytes)

/-- A cached device and what each of its callers is doing. -/
structure Shared where
  dev : CachedDevice
  calls : Nat → Option Call

/-- One atomic step: the first of a call, or the next of the caller's call. -/
inductive Act where
  | startRead (c offset len : Nat)
  | startWrite (c offset : Nat) (buf : Bytes)
  | resume (c : Nat)

namespace Shared

def setCall (s : Shared) (c : Nat) (call : Option Call) : Shared :=
  { s with calls := Function.update s.calls c call }

def withState (s : Shared) (state : CacheState) : Shared := { s with dev := { s.dev with state } }

@[simp] theorem withState_calls (s : Shared) (state : CacheState) :
    (s.withState state).calls = s.calls := rfl

/-- The first step of `read_at`: the lookup, or a multi-block read's inner read. -/
def beginRead (s : Shared) (c offset len : Nat) : Shared × Option (Result Bytes) :=
  let bs := s.dev.blockSize
  if offset % bs + len ≤ bs then
    match s.dev.state.get (offset / bs) with
    | (some blk, state) => (s.withState state, some (.ok (slice blk (offset % bs) len)))
    | (none, state) => ((s.withState state).setCall c (some (.readMissed offset len)), none)
  else
    match innerRead s.dev.inner offset len with
    | .error e => (s, some (.error e))
    | .ok buf => (s.setCall c (some (.readOverlay offset len buf)), none)

/-- The first step of `write_at`: the inner write. -/
def beginWrite (s : Shared) (c offset : Nat) (buf : Bytes) : Shared × Option (Result Bytes) :=
  match (BlockDevice.writeAt offset buf s.dev.inner : Result Unit × Disk) with
  | (.error e, _) => (s, some (.error e))
  | (.ok (), disk) =>
    (setCall { s with dev := { s.dev with inner := disk } } c (some (.writeFinish offset buf)),
      none)

def continueCall (s : Shared) (c : Nat) : Call → Shared × Option (Result Bytes)
  | .readMissed offset len =>
    let bs := s.dev.blockSize
    match innerRead s.dev.inner (offset / bs * bs) bs with
    | .error e => (s.setCall c none, some (.error e))
    | .ok blk => (s.setCall c (some (.readInsert offset len blk)), none)
  | .readInsert offset len blk =>
    let bs := s.dev.blockSize
    ((s.withState (s.dev.state.put (offset / bs) blk)).setCall c none,
      some (.ok (slice blk (offset % bs) len)))
  | .readOverlay offset len buf =>
    let bs := s.dev.blockSize
    let blocks := blockRange (offset / bs) ((offset + len + bs - 1) / bs)
    (s.setCall c none, some (.ok (s.dev.state.overlayPinned bs offset blocks buf)))
  | .writeFinish offset buf =>
    ((s.withState (s.dev.state.finishWrite s.dev.blockSize offset buf)).setCall c none,
      some (.ok []))

def act (s : Shared) : Act → Option (Shared × Option (Result Bytes))
  | .startRead c offset len =>
    match s.calls c with
    | none => some (s.beginRead c offset len)
    | some _ => none
  | .startWrite c offset buf =>
    match s.calls c with
    | none => some (s.beginWrite c offset buf)
    | some _ => none
  | .resume c => (s.calls c).map (s.continueCall c)

def step (s : Shared) (a : HashOrder × Act) : Option (Shared × Option (Result Bytes)) :=
  act (s.withState { s.dev.state with order := a.1 }) a.2

end Shared

def Shared.goOn (c : Nat) : Shared × Option (Result Bytes) → Shared × Option (Result Bytes)
  | (s, some r) => (s, some r)
  | (s, none) => ((s.calls c).map (s.continueCall c)).getD (s, none)

theorem read_uninterrupted (s : Shared) (c offset len : Nat) :
    (Shared.goOn c (Shared.goOn c (s.beginRead c offset len))).2 =
      some (s.dev.readAt offset len).1 ∧
    (Shared.goOn c (Shared.goOn c (s.beginRead c offset len))).1.dev =
      (s.dev.readAt offset len).2 := by
  unfold Shared.beginRead CachedDevice.readAt
  dsimp only
  by_cases hl : offset % s.dev.blockSize + len ≤ s.dev.blockSize
  · rw [if_pos hl, if_pos hl]
    cases hg : s.dev.state.get (offset / s.dev.blockSize) with
    | mk found state =>
      cases found with
      | some blk => exact ⟨rfl, rfl⟩
      | none =>
        simp only [Shared.goOn, Shared.setCall, Function.update_self, Option.map_some,
          Option.getD_some, Shared.continueCall, Shared.withState]
        cases innerRead s.dev.inner (offset / s.dev.blockSize * s.dev.blockSize)
          s.dev.blockSize with
        | error e => exact ⟨rfl, rfl⟩
        | ok blk => simp [Shared.continueCall, Shared.setCall, Shared.withState]
  · rw [if_neg hl, if_neg hl]
    cases innerRead s.dev.inner offset len with
    | error e => exact ⟨rfl, rfl⟩
    | ok buf => simp [Shared.goOn, Shared.setCall, Shared.continueCall]

theorem write_uninterrupted (s : Shared) (c offset : Nat) (buf : Bytes) :
    (Shared.goOn c (s.beginWrite c offset buf)).2 =
      some ((s.dev.writeAt offset buf).1.map (fun _ => [])) ∧
    (Shared.goOn c (s.beginWrite c offset buf)).1.dev = (s.dev.writeAt offset buf).2 := by
  unfold Shared.beginWrite CachedDevice.writeAt
  cases (BlockDevice.writeAt offset buf s.dev.inner : Result Unit × Disk) with
  | mk r inner =>
    cases r with
    | error e => exact ⟨rfl, rfl⟩
    | ok _ => simp [Shared.goOn, Shared.setCall, Shared.continueCall, Shared.withState, Except.map]

/-- The steps of a run, each of them `allowed` in the state it is taken in. -/
inductive Path (allowed : Shared → Act → Prop) : Shared → List Act → Shared → Prop where
  | nil (s : Shared) : Path allowed s [] s
  | cons (s s' t : Shared) (order : HashOrder) (a : Act) (acts : List Act)
      (r : Option (Result Bytes)) (ha : allowed s a) (hs : s.step (order, a) = some (s', r))
      (hp : Path allowed s' acts t) : Path allowed s (a :: acts) t

def Act.StartsWrite (bs b : Nat) : Act → Prop
  | .startWrite _ offset buf => b ∈ touched bs offset buf
  | _ => False

def Act.StartedBy (c : Nat) : Act → Prop
  | .startRead c' _ _ => c' = c
  | .startWrite c' _ _ => c' = c
  | .resume _ => False

def Quiet (bs b c : Nat) (acts : List Act) : Prop :=
  ∀ a ∈ acts, ¬ a.StartsWrite bs b ∧ ¬ a.StartedBy c

/-- The read's bytes agree with the written ones at every byte of block `b` in both. -/
def Agree (bs b offset : Nat) (buf : Bytes) (offset' len : Nat) (bytes : Bytes) : Prop :=
  ∀ p, p / bs = b → offset ≤ p → p < offset + buf.length → offset' ≤ p → p < offset' + len →
    bytes.getD (p - offset') 0 = buf.getD (p - offset) 0

/-- The law of the shared cache over the allowed runs from `s₀`: once a write has returned, a
read that starts before any later write to the block returns the written bytes, whether at its
first step or at a later one; and with no call in progress every clean entry is the device's. -/
structure NoLostWrite (bs : Nat) (allowed : Shared → Act → Prop) (s₀ : Shared) : Prop where
  read_sees : ∀ b pre s₁ o₁ c offset buf s₂ mid s₃ o₃ s₄ r₄ mid' s₅ o₅ c' offset' len s₆ r₆,
    Path allowed s₀ pre s₁ →
    allowed s₁ (.startWrite c offset buf) →
    s₁.step (o₁, .startWrite c offset buf) = some (s₂, none) →
    Path allowed s₂ mid s₃ → Quiet bs b c mid →
    s₃.step (o₃, .resume c) = some (s₄, some r₄) →
    Path allowed s₄ mid' s₅ → (∀ a ∈ mid', ¬ a.StartsWrite bs b) →
    s₅.step (o₅, .startRead c' offset' len) = some (s₆, r₆) →
    (∀ bytes, r₆ = some (.ok bytes) → Agree bs b offset buf offset' len bytes) ∧
    ∀ mid'' s₇ o₇ s₈ bytes, r₆ = none →
      Path allowed s₆ mid'' s₇ → Quiet bs b c' mid'' →
      s₇.step (o₇, .resume c') = some (s₈, some (.ok bytes)) →
      Agree bs b offset buf offset' len bytes
  idle_clean : ∀ acts s, Path allowed s₀ acts s → (∀ c, s.calls c = none) →
    ∀ b, Clean bs s.dev.inner.size s.dev.inner.img s.dev.state b

/-- Caller `c` holds bytes that its next step will lay into the cached image of block `b`. -/
def Holding (bs : Nat) (s : Shared) (c b : Nat) : Prop :=
  match s.calls c with
  | some (.readInsert offset _ _) => offset / bs = b
  | some (.writeFinish offset buf) =>
    b ∈ touched bs offset buf ∧ (Whole bs offset buf ∨ b ∈ s.dev.state.pinned)
  | _ => False

/-- A write reaches the device only when no caller holds bytes for a block it touches. -/
def Orderly (bs : Nat) (s : Shared) : Act → Prop
  | .startWrite _ offset buf => ∀ c b, b ∈ touched bs offset buf → ¬ Holding bs s c b
  | _ => True

structure Inv (bs : Nat) (s : Shared) : Prop where
  blockSize : s.dev.blockSize = bs
  pos : 0 < bs
  shaped : ∀ b, s.dev.state.Shaped bs b
  clean : ∀ b, Clean bs s.dev.inner.size s.dev.inner.img s.dev.state b ∨
    ∃ c offset buf, s.calls c = some (.writeFinish offset buf) ∧ b ∈ touched bs offset buf
  missed : ∀ c offset len, s.calls c = some (.readMissed offset len) →
    offset / bs ∉ s.dev.state.pinned
  insert : ∀ c offset len blk, s.calls c = some (.readInsert offset len blk) →
    offset / bs ∉ s.dev.state.pinned ∧ offset / bs * bs + bs ≤ s.dev.inner.size ∧
      blk = s.dev.inner.img.read (offset / bs * bs) bs
  overlay : ∀ c offset len buf, s.calls c = some (.readOverlay offset len buf) → buf.length = len
  finish : ∀ c offset buf, s.calls c = some (.writeFinish offset buf) →
    Whole bs offset buf → offset + bs ≤ s.dev.inner.size ∧ buf = s.dev.inner.img.read offset bs

/-- What one atomic step can do, with its result when the call returns. -/
inductive Step (bs : Nat) (s : Shared) : Act → Shared → Option (Result Bytes) → Prop where
  | hit (c offset len : Nat) (blk : Bytes) (hidle : s.calls c = none)
      (hl : offset % bs + len ≤ bs) (hg : (s.dev.state.get (offset / bs)).1 = some blk) :
      Step bs s (.startRead c offset len) (s.withState (s.dev.state.get (offset / bs)).2)
        (some (.ok (slice blk (offset % bs) len)))
  | miss (c offset len : Nat) (hidle : s.calls c = none) (hl : offset % bs + len ≤ bs)
      (hg : (s.dev.state.get (offset / bs)).1 = none) :
      Step bs s (.startRead c offset len)
        ((s.withState (s.dev.state.get (offset / bs)).2).setCall c (some (.readMissed offset len)))
        none
  | multi (c offset len : Nat) (hidle : s.calls c = none) :
      Step bs s (.startRead c offset len)
        (s.setCall c (some (.readOverlay offset len (s.dev.inner.img.read offset len)))) none
  | readPast (c offset len : Nat) : Step bs s (.startRead c offset len) s (some (.error .io))
  | write (c offset : Nat) (buf : Bytes) (hidle : s.calls c = none)
      (hr : offset + buf.length ≤ s.dev.inner.size) :
      Step bs s (.startWrite c offset buf)
        (Shared.setCall { s with dev := { s.dev with
          inner := { s.dev.inner with img := s.dev.inner.img.write offset buf } } } c
            (some (.writeFinish offset buf))) none
  | writePast (c offset : Nat) (buf : Bytes) :
      Step bs s (.startWrite c offset buf) s (some (.error .io))
  | block (c offset len : Nat) (hcall : s.calls c = some (.readMissed offset len))
      (hr : offset / bs * bs + bs ≤ s.dev.inner.size) :
      Step bs s (.resume c) (s.setCall c (some (.readInsert offset len
        (s.dev.inner.img.read (offset / bs * bs) bs)))) none
  | blockPast (c offset len : Nat) (hcall : s.calls c = some (.readMissed offset len)) :
      Step bs s (.resume c) (s.setCall c none) (some (.error .io))
  | insert (c offset len : Nat) (blk : Bytes)
      (hcall : s.calls c = some (.readInsert offset len blk)) :
      Step bs s (.resume c) ((s.withState (s.dev.state.put (offset / bs) blk)).setCall c none)
        (some (.ok (slice blk (offset % bs) len)))
  | overlay (c offset len : Nat) (buf : Bytes)
      (hcall : s.calls c = some (.readOverlay offset len buf)) :
      Step bs s (.resume c) (s.setCall c none) (some (.ok (s.dev.state.overlayPinned bs offset
        (blockRange (offset / bs) ((offset + len + bs - 1) / bs)) buf)))
  | finish (c offset : Nat) (buf : Bytes) (hcall : s.calls c = some (.writeFinish offset buf)) :
      Step bs s (.resume c)
        ((s.withState (s.dev.state.finishWrite bs offset buf)).setCall c none) (some (.ok []))

section Steps

variable {bs : Nat} {s : Shared}

theorem beginRead_step (c offset len : Nat) (hb : s.dev.blockSize = bs) (hidle : s.calls c = none) :
    Step bs s (.startRead c offset len) (s.beginRead c offset len).1
      (s.beginRead c offset len).2 := by
  unfold Shared.beginRead
  dsimp only
  rw [hb, innerRead_eq]
  by_cases hl : offset % bs + len ≤ bs
  · have hhit := fun blk => @Step.hit bs s c offset len blk hidle hl
    have hmiss := @Step.miss bs s c offset len hidle hl
    rw [if_pos hl]
    cases hg : s.dev.state.get (offset / bs) with
    | mk found state =>
      rw [hg] at hhit hmiss
      cases found with
      | some blk => exact hhit blk rfl
      | none => exact hmiss rfl
  · rw [if_neg hl]
    by_cases hr : offset + len ≤ s.dev.inner.size
    · rw [if_pos hr]
      exact Step.multi c offset len hidle
    · rw [if_neg hr]
      exact Step.readPast c offset len

theorem beginWrite_step (bs c offset : Nat) (buf : Bytes) (hidle : s.calls c = none) :
    Step bs s (.startWrite c offset buf) (s.beginWrite c offset buf).1
      (s.beginWrite c offset buf).2 := by
  by_cases hr : offset + buf.length ≤ s.dev.inner.size
  · simp only [Shared.beginWrite, BlockDevice.writeAt, hr, if_true]
    exact Step.write c offset buf hidle hr
  · simp only [Shared.beginWrite, BlockDevice.writeAt, hr, if_false]
    exact Step.writePast c offset buf

theorem continueCall_step (c : Nat) (call : Call) (hb : s.dev.blockSize = bs)
    (hcall : s.calls c = some call) :
    Step bs s (.resume c) (s.continueCall c call).1 (s.continueCall c call).2 := by
  cases call with
  | readMissed offset len =>
    unfold Shared.continueCall
    dsimp only
    rw [hb, innerRead_eq]
    by_cases hr : offset / bs * bs + bs ≤ s.dev.inner.size
    · rw [if_pos hr]
      exact Step.block c offset len hcall hr
    · rw [if_neg hr]
      exact Step.blockPast c offset len hcall
  | readInsert offset len blk =>
    unfold Shared.continueCall
    rw [hb]
    exact Step.insert c offset len blk hcall
  | readOverlay offset len buf =>
    unfold Shared.continueCall
    rw [hb]
    exact Step.overlay c offset len buf hcall
  | writeFinish offset buf =>
    unfold Shared.continueCall
    rw [hb]
    exact Step.finish c offset buf hcall

theorem act_step (a : Act) (s' : Shared) (r : Option (Result Bytes)) (hb : s.dev.blockSize = bs)
    (hs : s.act a = some (s', r)) : Step bs s a s' r := by
  cases a with
  | startRead c offset len =>
    cases hc : s.calls c with
    | some call => simp [Shared.act, hc] at hs
    | none =>
      simp only [Shared.act, hc, Option.some_inj] at hs
      have hst := beginRead_step c offset len hb hc
      rwa [hs] at hst
  | startWrite c offset buf =>
    cases hc : s.calls c with
    | some call => simp [Shared.act, hc] at hs
    | none =>
      simp only [Shared.act, hc, Option.some_inj] at hs
      have hst := beginWrite_step bs c offset buf hc
      rwa [hs] at hst
  | resume c =>
    obtain ⟨call, hc, he⟩ := Option.map_eq_some_iff.mp hs
    have hst := continueCall_step c call hb hc
    rwa [he] at hst

theorem mem_pinned_finishWrite (state : CacheState) (offset : Nat) (buf : Bytes) (b : Nat) :
    b ∈ (state.finishWrite bs offset buf).pinned ↔ b ∈ state.pinned := by
  by_cases hw : Whole bs offset buf
  · rw [finishWrite_of_whole state offset buf hw, mem_pinned_put]
  · rw [finishWrite_of_not_whole state offset buf hw, ← AList.lookup_isSome, ← AList.lookup_isSome,
      lookup_pinned_patchBlocks bs state offset buf _ (nodup_touched offset buf)]
    split <;> simp

theorem calls_setCall (s : Shared) (c c' : Nat) (call call' : Option Call)
    (h : (s.setCall c call).calls c' = call') :
    (c' = c ∧ call = call') ∨ (c' ≠ c ∧ s.calls c' = call') := by
  by_cases hc : c' = c
  · subst hc
    left
    exact ⟨rfl, by simpa [Shared.setCall] using h⟩
  · right
    exact ⟨hc, by simpa [Shared.setCall, hc] using h⟩

theorem Inv.reorder (h : Inv bs s) (order : HashOrder) :
    Inv bs (s.withState { s.dev.state with order }) :=
  ⟨h.blockSize, h.pos, fun b => ⟨(h.shaped b).sized, (h.shaped b).disjoint, (h.shaped b).uncached⟩,
    h.clean, h.missed, h.insert, h.overlay, h.finish⟩

theorem Inv.get (h : Inv bs s) (b : Nat) : Inv bs (s.withState (s.dev.state.get b).2) := by
  refine ⟨h.blockSize, h.pos, fun b' => (h.shaped b').get b, fun b' => ?_, ?_, ?_, h.overlay,
    h.finish⟩
  · exact (h.clean b').imp_left (fun hc => hc.get b)
  · intro c offset len hc
    change offset / bs ∉ (s.dev.state.get b).2.pinned
    rw [get_pinned]
    exact h.missed c offset len hc
  · intro c offset len blk hc
    change offset / bs ∉ (s.dev.state.get b).2.pinned ∧ _
    rw [get_pinned]
    exact h.insert c offset len blk hc

theorem Inv.setCall (h : Inv bs s) (c : Nat) (call : Option Call)
    (hold : ∀ offset buf, s.calls c ≠ some (.writeFinish offset buf))
    (hm : ∀ offset len, call = some (.readMissed offset len) → offset / bs ∉ s.dev.state.pinned)
    (hi : ∀ offset len blk, call = some (.readInsert offset len blk) →
      offset / bs ∉ s.dev.state.pinned ∧ offset / bs * bs + bs ≤ s.dev.inner.size ∧
        blk = s.dev.inner.img.read (offset / bs * bs) bs)
    (ho : ∀ offset len buf, call = some (.readOverlay offset len buf) → buf.length = len)
    (hf : ∀ offset buf, call ≠ some (.writeFinish offset buf)) : Inv bs (s.setCall c call) := by
  refine ⟨h.blockSize, h.pos, h.shaped, ?_, ?_, ?_, ?_, ?_⟩
  · intro b
    obtain hc | ⟨c', offset, buf, hc', hb⟩ := h.clean b
    · exact Or.inl hc
    · right
      have hne : c' ≠ c := fun he => hold offset buf (he ▸ hc')
      exact ⟨c', offset, buf, by simpa [Shared.setCall, hne] using hc', hb⟩
  · intro c' offset len hc
    obtain ⟨-, he⟩ | ⟨-, he⟩ := calls_setCall s c c' call _ hc
    · exact hm offset len he
    · exact h.missed c' offset len he
  · intro c' offset len blk hc
    obtain ⟨-, he⟩ | ⟨-, he⟩ := calls_setCall s c c' call _ hc
    · exact hi offset len blk he
    · exact h.insert c' offset len blk he
  · intro c' offset len buf hc
    obtain ⟨-, he⟩ | ⟨-, he⟩ := calls_setCall s c c' call _ hc
    · exact ho offset len buf he
    · exact h.overlay c' offset len buf he
  · intro c' offset buf hc
    obtain ⟨-, he⟩ | ⟨-, he⟩ := calls_setCall s c c' call _ hc
    · exact absurd he (hf offset buf)
    · exact h.finish c' offset buf he

theorem Inv.withState (h : Inv bs s) (state : CacheState)
    (hp : ∀ b, b ∈ state.pinned ↔ b ∈ s.dev.state.pinned)
    (hs : ∀ b, state.Shaped bs b)
    (hc : ∀ b, Clean bs s.dev.inner.size s.dev.inner.img state b ∨
      ∃ c offset buf, s.calls c = some (.writeFinish offset buf) ∧ b ∈ touched bs offset buf) :
    Inv bs (s.withState state) := by
  refine ⟨h.blockSize, h.pos, hs, hc, ?_, ?_, h.overlay, h.finish⟩
  · intro c offset len hcall
    change offset / bs ∉ state.pinned
    rw [hp]
    exact h.missed c offset len hcall
  · intro c offset len blk hcall
    change offset / bs ∉ state.pinned ∧ _
    rw [hp]
    exact h.insert c offset len blk hcall

theorem read_block_write (img : Image) (offset : Nat) (buf : Bytes) (b : Nat)
    (hb : b ∉ touched bs offset buf) :
    (img.write offset buf).read (b * bs) bs = img.read (b * bs) bs := by
  apply Image.read_congr
  intro p h1 h2
  have hdiv := (div_eq_of_bounds bs p b h1 h2).1
  apply Image.write_of_not_mem
  intro hin
  exact hb (hdiv ▸ mem_touched offset buf p hin.1 hin.2)

theorem write_inv (h : Inv bs s) (c offset : Nat) (buf : Bytes) (hidle : s.calls c = none)
    (hr : offset + buf.length ≤ s.dev.inner.size)
    (ho : Orderly bs s (.startWrite c offset buf)) :
    Inv bs (Shared.setCall { s with dev := { s.dev with
      inner := { s.dev.inner with img := s.dev.inner.img.write offset buf } } } c
        (some (.writeFinish offset buf))) := by
  refine ⟨h.blockSize, h.pos, h.shaped, ?_, ?_, ?_, ?_, ?_⟩
  · intro b
    by_cases hb : b ∈ touched bs offset buf
    · right
      exact ⟨c, offset, buf, by simp [Shared.setCall], hb⟩
    · obtain hc | ⟨c', offset', buf', hc', hb'⟩ := h.clean b
      · left
        intro slot hslot
        obtain ⟨h1, h2⟩ := hc slot hslot
        exact ⟨h1, h2.trans (read_block_write _ offset buf b hb).symm⟩
      · right
        have hne : c' ≠ c := by
          intro he
          rw [he, hidle] at hc'
          exact absurd hc' (by simp)
        exact ⟨c', offset', buf', by simpa [Shared.setCall, hne] using hc', hb'⟩
  · intro c' o l hc
    obtain ⟨-, he⟩ | ⟨-, he⟩ := calls_setCall _ c c' _ _ hc
    · exact absurd he (by simp)
    · exact h.missed c' o l he
  · intro c' o l blk hc
    obtain ⟨-, he⟩ | ⟨-, he⟩ := calls_setCall _ c c' _ _ hc
    · exact absurd he (by simp)
    · obtain ⟨h1, h2, h3⟩ := h.insert c' o l blk he
      refine ⟨h1, h2, h3.trans (read_block_write _ offset buf _ ?_).symm⟩
      intro hb
      apply ho c' (o / bs) hb
      change s.calls c' = _ at he
      simp [Holding, he]
  · intro c' o l b hc
    obtain ⟨-, he⟩ | ⟨-, he⟩ := calls_setCall _ c c' _ _ hc
    · exact absurd he (by simp)
    · exact h.overlay c' o l b he
  · intro c' o b hc hw
    obtain ⟨-, he⟩ | ⟨-, he⟩ := calls_setCall _ c c' _ _ hc
    · obtain ⟨rfl, rfl⟩ := Call.writeFinish.inj (Option.some_inj.mp he)
      have hrw := Image.read_write_self s.dev.inner.img offset buf
      rw [hw.2] at hr hrw
      exact ⟨hr, hrw.symm⟩
    · obtain ⟨h1, h2⟩ := h.finish c' o b he hw
      refine ⟨h1, h2.trans ?_⟩
      have hdm := Nat.div_add_mod o bs
      rw [Nat.mul_comm, hw.1, Nat.add_zero] at hdm
      have hb : o / bs ∉ touched bs offset buf := by
        intro hb
        apply ho c' (o / bs) hb
        change s.calls c' = _ at he
        simp [Holding, he, touched, hw]
      have hrb := read_block_write s.dev.inner.img offset buf (o / bs) hb
      rw [hdm] at hrb
      exact hrb.symm

theorem finish_inv (h : Inv bs s) (c offset : Nat) (buf : Bytes)
    (hcall : s.calls c = some (.writeFinish offset buf)) :
    Inv bs ((s.withState (s.dev.state.finishWrite bs offset buf)).setCall c none) := by
  refine ⟨h.blockSize, h.pos, fun b => (h.shaped b).finishWrite h.pos offset buf, ?_,
    ?_, ?_, ?_, ?_⟩
  · intro b
    by_cases hb : b ∈ touched bs offset buf
    · left
      exact clean_finishWrite (h.shaped b) offset buf hb (h.finish c offset buf hcall)
    · obtain hc | ⟨c', o, b', hc', hb'⟩ := h.clean b
      · left
        exact hc.finishWrite_of_not_mem offset buf hb
      · right
        have hne : c' ≠ c := by
          rintro rfl
          rw [hcall] at hc'
          obtain ⟨rfl, rfl⟩ := Call.writeFinish.inj (Option.some_inj.mp hc')
          exact hb hb'
        exact ⟨c', o, b', by simpa [Shared.setCall, hne] using hc', hb'⟩
  · intro c' o l hc
    obtain ⟨-, he⟩ | ⟨-, he⟩ := calls_setCall _ c c' _ _ hc
    · exact absurd he (by simp)
    · have hm := h.missed c' o l he
      exact fun hin => hm ((mem_pinned_finishWrite _ _ _ _).mp hin)
  · intro c' o l blk hc
    obtain ⟨-, he⟩ | ⟨-, he⟩ := calls_setCall _ c c' _ _ hc
    · exact absurd he (by simp)
    · obtain ⟨h1, h2⟩ := h.insert c' o l blk he
      exact ⟨fun hin => h1 ((mem_pinned_finishWrite _ _ _ _).mp hin), h2⟩
  · intro c' o l b hc
    obtain ⟨-, he⟩ | ⟨-, he⟩ := calls_setCall _ c c' _ _ hc
    · exact absurd he (by simp)
    · exact h.overlay c' o l b he
  · intro c' o b hc
    obtain ⟨-, he⟩ | ⟨-, he⟩ := calls_setCall _ c c' _ _ hc
    · exact absurd he (by simp)
    · exact h.finish c' o b he

theorem insert_inv (h : Inv bs s) (c offset len : Nat) (blk : Bytes)
    (hcall : s.calls c = some (.readInsert offset len blk)) :
    Inv bs ((s.withState (s.dev.state.put (offset / bs) blk)).setCall c none) := by
  obtain ⟨hn, hr, hblk⟩ := h.insert c offset len blk hcall
  have hlen : blk.length = bs := by rw [hblk, Image.length_read]
  have hput : Inv bs (s.withState (s.dev.state.put (offset / bs) blk)) := by
    apply h.withState
    · exact fun b => mem_pinned_put _ _ _ _
    · exact fun b => (h.shaped b).put _ _ hlen
    · intro b
      by_cases hb : b = offset / bs
      · subst hb
        left
        exact clean_put_self _ _ (h.shaped _) hr hblk
      · exact (h.clean b).imp_left (fun hc => hc.put_ne _ _ hb)
  apply hput.setCall c none
  · intro o b he
    rw [Shared.withState_calls, hcall] at he
    exact absurd he (by simp)
  all_goals simp

theorem act_inv (h : Inv bs s) (a : Act) (ha : Orderly bs s a) (s' : Shared)
    (r : Option (Result Bytes)) (hs : Step bs s a s' r) : Inv bs s' := by
  cases hs with
  | hit c offset len blk hidle hl hg => exact h.get (offset / bs)
  | miss c offset len hidle hl hg =>
    apply (h.get (offset / bs)).setCall c
    · simp [hidle]
    · intro o l he
      obtain ⟨rfl, rfl⟩ := Call.readMissed.inj (Option.some_inj.mp he)
      have hn := get_none s.dev.state (offset / bs) hg
      rwa [← get_pinned s.dev.state (offset / bs)] at hn
    all_goals simp
  | multi c offset len hidle =>
    apply h.setCall c
    · simp [hidle]
    · simp
    · simp
    · intro o l b he
      obtain ⟨rfl, rfl, rfl⟩ := Call.readOverlay.inj (Option.some_inj.mp he)
      exact Image.length_read _ _ _
    · simp
  | readPast c offset len => exact h
  | write c offset buf hidle hr => exact write_inv h c offset buf hidle hr ha
  | writePast c offset buf => exact h
  | block c offset len hcall hr =>
    apply h.setCall c
    · simp [hcall]
    · simp
    · intro o l blk he
      obtain ⟨rfl, rfl, rfl⟩ := Call.readInsert.inj (Option.some_inj.mp he)
      exact ⟨h.missed c offset len hcall, hr, rfl⟩
    all_goals simp
  | blockPast c offset len hcall =>
    apply h.setCall c none
    · simp [hcall]
    all_goals simp
  | insert c offset len blk hcall => exact insert_inv h c offset len blk hcall
  | overlay c offset len buf hcall =>
    apply h.setCall c none
    · simp [hcall]
    all_goals simp
  | finish c offset buf hcall => exact finish_inv h c offset buf hcall

theorem orderly_reorder (a : Act) (order : HashOrder) (ha : Orderly bs s a) :
    Orderly bs (s.withState { s.dev.state with order }) a := by
  cases a with
  | startRead c offset len => trivial
  | startWrite c offset buf => exact ha
  | resume c => trivial

theorem step_inv (h : Inv bs s) (a : HashOrder × Act) (ha : Orderly bs s a.2) (s' : Shared)
    (r : Option (Result Bytes)) (hs : s.step a = some (s', r)) : Inv bs s' :=
  act_inv (h.reorder a.1) a.2 (orderly_reorder a.2 a.1 ha) s' r (act_step a.2 s' r h.blockSize hs)

theorem path_inv (h : Inv bs s) (acts : List Act) (t : Shared)
    (hp : Path (Orderly bs) s acts t) : Inv bs t := by
  induction hp with
  | nil s => exact h
  | cons s s' t order a acts r ha hs hp ih => exact ih (step_inv h (order, a) ha s' r hs)

/-- Byte `p` is `v` wherever a reader can get it from, and no pending write will change that. -/
structure Settled (bs p : Nat) (v : UInt8) (s : Shared) : Prop where
  device : s.dev.inner.img p = v
  entry : ∀ slot, s.dev.state.entries.lookup (p / bs) = some slot → slot.1.getD (p % bs) 0 = v
  pin : ∀ blk, s.dev.state.pinned.lookup (p / bs) = some blk → blk.getD (p % bs) 0 = v
  pending : ∀ c offset buf, s.calls c = some (.writeFinish offset buf) →
    p / bs ∈ touched bs offset buf → ¬ Whole bs offset buf ∧ p / bs ∉ s.dev.state.pinned

variable {p : Nat} {v : UInt8}

theorem Settled.setCall (h : Settled bs p v s) (c : Nat) (call : Option Call)
    (hf : ∀ offset buf, call = some (.writeFinish offset buf) → p / bs ∉ touched bs offset buf) :
    Settled bs p v (s.setCall c call) := by
  refine ⟨h.device, h.entry, h.pin, ?_⟩
  intro c' offset buf hc hb
  obtain ⟨-, he⟩ | ⟨-, he⟩ := calls_setCall s c c' call _ hc
  · exact absurd hb (hf offset buf he)
  · exact h.pending c' offset buf he hb

theorem Settled.get (h : Settled bs p v s) (b : Nat) :
    Settled bs p v (s.withState (s.dev.state.get b).2) := by
  refine ⟨h.device, ?_, ?_, ?_⟩
  · intro slot hslot
    have hl := lookup_get s.dev.state b (p / bs)
    change (s.dev.state.get b).2.entries.lookup (p / bs) = some slot at hslot
    rw [hslot] at hl
    obtain ⟨slot', hs, he⟩ := Option.map_eq_some_iff.mp hl.symm
    rw [← he]
    exact h.entry slot' hs
  · intro blk hblk
    change (s.dev.state.get b).2.pinned.lookup (p / bs) = some blk at hblk
    rw [get_pinned] at hblk
    exact h.pin blk hblk
  · intro c offset buf hc hb
    change _ ∧ p / bs ∉ (s.dev.state.get b).2.pinned
    rw [get_pinned]
    exact h.pending c offset buf hc hb

theorem insert_getD (hi : Inv bs s) (hd : s.dev.inner.img p = v) (c offset len : Nat) (blk : Bytes)
    (hcall : s.calls c = some (.readInsert offset len blk)) (hb : offset / bs = p / bs) :
    blk.getD (p % bs) 0 = v := by
  obtain ⟨-, -, hblk⟩ := hi.insert c offset len blk hcall
  obtain ⟨h1, h2⟩ := block_bounds bs hi.pos p (p / bs) rfl
  obtain ⟨-, hm⟩ := div_eq_of_bounds bs p (p / bs) h1 h2
  rw [hblk, hb, hm, Image.getD_read _ _ _ _ (by omega), Nat.add_sub_cancel' h1, hd]

theorem finish_settled (h : Settled bs p v s) (c offset : Nat) (buf : Bytes)
    (hcall : s.calls c = some (.writeFinish offset buf)) :
    Settled bs p v ((s.withState (s.dev.state.finishWrite bs offset buf)).setCall c none) := by
  apply Settled.setCall
  · by_cases hb : p / bs ∈ touched bs offset buf
    · obtain ⟨hw, hp⟩ := h.pending c offset buf hcall hb
      refine ⟨h.device, ?_, ?_, ?_⟩
      · intro slot hslot
        have hn := lookup_entries_finishWrite s.dev.state offset buf (p / bs) hw hb
        exact absurd (hn.symm.trans hslot) (by simp)
      · intro blk hblk
        exfalso
        apply hp
        rw [← mem_pinned_finishWrite s.dev.state offset buf, ← AList.lookup_isSome]
        exact Option.isSome_iff_exists.mpr ⟨blk, hblk⟩
      · intro c' o b hc' hb'
        obtain ⟨h1, h2⟩ := h.pending c' o b hc' hb'
        exact ⟨h1, fun hin => h2 ((mem_pinned_finishWrite _ _ _ _).mp hin)⟩
    · refine ⟨h.device, ?_, ?_, ?_⟩
      · intro slot hslot
        exact h.entry slot (lookup_entries_finishWrite_ne _ offset buf _ hb slot hslot)
      · intro blk hblk
        exact h.pin blk ((lookup_pinned_finishWrite_ne _ offset buf _ hb).symm.trans hblk)
      · intro c' o b hc' hb'
        obtain ⟨h1, h2⟩ := h.pending c' o b hc' hb'
        exact ⟨h1, fun hin => h2 ((mem_pinned_finishWrite _ _ _ _).mp hin)⟩
  · simp

theorem insert_settled (hi : Inv bs s) (h : Settled bs p v s) (c offset len : Nat) (blk : Bytes)
    (hcall : s.calls c = some (.readInsert offset len blk)) :
    Settled bs p v ((s.withState (s.dev.state.put (offset / bs) blk)).setCall c none) := by
  have hn := (hi.insert c offset len blk hcall).1
  apply Settled.setCall
  · refine ⟨h.device, ?_, ?_, ?_⟩
    · intro slot hslot
      obtain ⟨hb, -, hs, -⟩ | ⟨-, hs⟩ := lookup_put _ _ _ _ slot hslot
      · rw [hs]
        exact insert_getD hi h.device c offset len blk hcall hb.symm
      · exact h.entry slot hs
    · intro x hx
      have hl := lookup_pinned_put s.dev.state (offset / bs) (p / bs) blk
      rw [if_neg (fun hc => hn hc.2)] at hl
      exact h.pin x (hl.symm.trans hx)
    · intro c' o b hc' hb
      obtain ⟨h1, h2⟩ := h.pending c' o b hc' hb
      exact ⟨h1, fun hin => h2 ((mem_pinned_put _ _ _ _).mp hin)⟩
  · simp

theorem act_settled (hi : Inv bs s) (h : Settled bs p v s) (a : Act)
    (ha : ¬ a.StartsWrite bs (p / bs)) (s' : Shared) (r : Option (Result Bytes))
    (hs : Step bs s a s' r) : Settled bs p v s' := by
  cases hs with
  | hit c offset len blk hidle hl hg => exact h.get (offset / bs)
  | miss c offset len hidle hl hg => exact (h.get (offset / bs)).setCall c _ (by simp)
  | multi c offset len hidle => exact h.setCall c _ (by simp)
  | readPast c offset len => exact h
  | write c offset buf hidle hr =>
    apply Settled.setCall
    · refine ⟨?_, h.entry, h.pin, h.pending⟩
      rw [← h.device]
      apply Image.write_of_not_mem
      intro hin
      exact ha (mem_touched offset buf p hin.1 hin.2)
    · intro o b he
      obtain ⟨rfl, rfl⟩ := Call.writeFinish.inj (Option.some_inj.mp he)
      exact ha
  | writePast c offset buf => exact h
  | block c offset len hcall hr => exact h.setCall c _ (by simp)
  | blockPast c offset len hcall => exact h.setCall c none (by simp)
  | insert c offset len blk hcall => exact insert_settled hi h c offset len blk hcall
  | overlay c offset len buf hcall => exact h.setCall c none (by simp)
  | finish c offset buf hcall => exact finish_settled h c offset buf hcall

theorem Settled.reorder (h : Settled bs p v s) (order : HashOrder) :
    Settled bs p v (s.withState { s.dev.state with order }) :=
  ⟨h.device, h.entry, h.pin, h.pending⟩

theorem path_settled (hi : Inv bs s) (h : Settled bs p v s) (acts : List Act) (t : Shared)
    (hp : Path (Orderly bs) s acts t) (hq : ∀ a ∈ acts, ¬ a.StartsWrite bs (p / bs)) :
    Settled bs p v t := by
  induction hp with
  | nil s => exact h
  | cons s s' t order a acts r ha hs hp ih =>
    have hst := act_step a s' r (hi.reorder order).blockSize hs
    have hs' := act_settled (hi.reorder order) (h.reorder order) a
      (hq a List.mem_cons_self) s' r hst
    exact ih (step_inv hi (order, a) ha s' r hs) hs'
      (fun b hb => hq b (List.mem_cons_of_mem _ hb))

/-- The write of `c` has reached the device, and no other pending write will change byte `p`. -/
structure Written (bs c offset : Nat) (buf : Bytes) (p : Nat) (s : Shared) : Prop where
  call : s.calls c = some (.writeFinish offset buf)
  device : s.dev.inner.img p = buf.getD (p - offset) 0
  pending : ∀ c' o b, c' ≠ c → s.calls c' = some (.writeFinish o b) → p / bs ∈ touched bs o b →
    ¬ Whole bs o b ∧ p / bs ∉ s.dev.state.pinned

variable {c₀ offset₀ : Nat} {buf₀ : Bytes}

theorem setCall_calls_ne (s : Shared) (c c' : Nat) (call : Option Call) (h : c' ≠ c) :
    (s.setCall c call).calls c' = s.calls c' := by
  simp [Shared.setCall, h]

theorem Written.setCall (h : Written bs c₀ offset₀ buf₀ p s) (c : Nat) (call : Option Call)
    (hc : c ≠ c₀) (hf : ∀ o b, call = some (.writeFinish o b) → p / bs ∉ touched bs o b) :
    Written bs c₀ offset₀ buf₀ p (s.setCall c call) := by
  refine ⟨(setCall_calls_ne s c c₀ call (Ne.symm hc)).trans h.call, h.device, ?_⟩
  intro c' o b hne hc' hb
  obtain ⟨-, he⟩ | ⟨-, he⟩ := calls_setCall s c c' call _ hc'
  · exact absurd hb (hf o b he)
  · exact h.pending c' o b hne he hb

theorem Written.withState (h : Written bs c₀ offset₀ buf₀ p s) (state : CacheState)
    (hp : p / bs ∈ state.pinned ↔ p / bs ∈ s.dev.state.pinned) :
    Written bs c₀ offset₀ buf₀ p (s.withState state) := by
  refine ⟨h.call, h.device, ?_⟩
  intro c' o b hne hc' hb
  obtain ⟨h1, h2⟩ := h.pending c' o b hne hc' hb
  exact ⟨h1, fun hin => h2 (hp.mp hin)⟩

theorem caller_ne (c c' : Nat) (call call' : Option Call) (h : s.calls c = call)
    (h' : s.calls c' = call') (hne : call ≠ call') : c ≠ c' := by
  rintro rfl
  exact hne (h.symm.trans h')

theorem act_written (h : Written bs c₀ offset₀ buf₀ p s) (a : Act)
    (ha : ¬ a.StartsWrite bs (p / bs)) (s' : Shared) (r : Option (Result Bytes))
    (hs : Step bs s a s' r) : Written bs c₀ offset₀ buf₀ p s' ∨ s'.calls c₀ = none := by
  have hget := fun b => h.withState (s.dev.state.get b).2 (by rw [get_pinned])
  cases hs with
  | hit c offset len blk hidle hl hg => exact Or.inl (hget _)
  | miss c offset len hidle hl hg =>
    exact Or.inl ((hget _).setCall c _ (caller_ne c c₀ _ _ hidle h.call (by simp)) (by simp))
  | multi c offset len hidle =>
    exact Or.inl (h.setCall c _ (caller_ne c c₀ _ _ hidle h.call (by simp)) (by simp))
  | readPast c offset len => exact Or.inl h
  | write c offset buf hidle hr =>
    left
    apply Written.setCall
    · refine ⟨h.call, ?_, h.pending⟩
      rw [← h.device]
      apply Image.write_of_not_mem
      intro hin
      exact ha (mem_touched offset buf p hin.1 hin.2)
    · exact caller_ne c c₀ _ _ hidle h.call (by simp)
    · intro o b he
      obtain ⟨rfl, rfl⟩ := Call.writeFinish.inj (Option.some_inj.mp he)
      exact ha
  | writePast c offset buf => exact Or.inl h
  | block c offset len hcall hr =>
    exact Or.inl (h.setCall c _ (caller_ne c c₀ _ _ hcall h.call (by simp)) (by simp))
  | blockPast c offset len hcall =>
    exact Or.inl (h.setCall c none (caller_ne c c₀ _ _ hcall h.call (by simp)) (by simp))
  | insert c offset len blk hcall =>
    left
    apply Written.setCall _ c none (caller_ne c c₀ _ _ hcall h.call (by simp)) (by simp)
    exact h.withState _ (mem_pinned_put _ _ _ _)
  | overlay c offset len buf hcall =>
    exact Or.inl (h.setCall c none (caller_ne c c₀ _ _ hcall h.call (by simp)) (by simp))
  | finish c offset buf hcall =>
    by_cases hc : c = c₀
    · right
      simp [Shared.setCall, hc]
    · left
      apply Written.setCall _ c none hc (by simp)
      exact h.withState _ (mem_pinned_finishWrite _ _ _ _)

theorem act_idle (a : Act) (s' : Shared) (r : Option (Result Bytes)) (hs : Step bs s a s' r)
    (hc : s.calls c₀ = none) (ha : ¬ a.StartedBy c₀) : s'.calls c₀ = none := by
  cases hs with
  | hit c offset len blk hidle hl hg => exact hc
  | miss c offset len hidle hl hg =>
    rw [setCall_calls_ne _ _ _ _ (fun he => ha he.symm)]
    exact hc
  | multi c offset len hidle =>
    rw [setCall_calls_ne _ _ _ _ (fun he => ha he.symm)]
    exact hc
  | readPast c offset len => exact hc
  | write c offset buf hidle hr =>
    rw [setCall_calls_ne _ _ _ _ (fun he => ha he.symm)]
    exact hc
  | writePast c offset buf => exact hc
  | block c offset len hcall hr =>
    rw [setCall_calls_ne _ _ _ _ (caller_ne c₀ c _ _ hc hcall (by simp))]
    exact hc
  | blockPast c offset len hcall =>
    rw [setCall_calls_ne _ _ _ _ (caller_ne c₀ c _ _ hc hcall (by simp))]
    exact hc
  | insert c offset len blk hcall =>
    rw [setCall_calls_ne _ _ _ _ (caller_ne c₀ c _ _ hc hcall (by simp))]
    exact hc
  | overlay c offset len buf hcall =>
    rw [setCall_calls_ne _ _ _ _ (caller_ne c₀ c _ _ hc hcall (by simp))]
    exact hc
  | finish c offset buf hcall =>
    rw [setCall_calls_ne _ _ _ _ (caller_ne c₀ c _ _ hc hcall (by simp))]
    exact hc

theorem Written.reorder (h : Written bs c₀ offset₀ buf₀ p s) (order : HashOrder) :
    Written bs c₀ offset₀ buf₀ p (s.withState { s.dev.state with order }) :=
  ⟨h.call, h.device, h.pending⟩

theorem path_written (hi : Inv bs s) (h : Written bs c₀ offset₀ buf₀ p s ∨ s.calls c₀ = none)
    (acts : List Act) (t : Shared) (hp : Path (Orderly bs) s acts t)
    (hq : Quiet bs (p / bs) c₀ acts) : Written bs c₀ offset₀ buf₀ p t ∨ t.calls c₀ = none := by
  induction hp with
  | nil s => exact h
  | cons s s' t order a acts r ha hs hp ih =>
    have hst := act_step a s' r (hi.reorder order).blockSize hs
    obtain ⟨hq1, hq2⟩ := hq a List.mem_cons_self
    have hrest : Quiet bs (p / bs) c₀ acts := fun b hb => hq b (List.mem_cons_of_mem _ hb)
    apply ih (step_inv hi (order, a) ha s' r hs) _ hrest
    obtain hw | hc := h
    · exact act_written (hw.reorder order) a hq1 s' r hst
    · exact Or.inr (act_idle a s' r hst hc hq2)

theorem written_of_write (c offset : Nat) (buf : Bytes) (s' : Shared)
    (ho : Orderly bs s (.startWrite c offset buf))
    (hs : Step bs s (.startWrite c offset buf) s' none) (h1 : offset ≤ p)
    (h2 : p < offset + buf.length) : Written bs c offset buf p s' := by
  cases hs with
  | write _ _ _ hidle hr =>
    refine ⟨by simp [Shared.setCall], Image.write_of_mem _ _ _ _ h1 h2, ?_⟩
    intro c' o b hne hc' hb
    have hc'' : s.calls c' = some (.writeFinish o b) := by
      rwa [setCall_calls_ne _ _ _ _ hne] at hc'
    have hno := ho c' (p / bs) (mem_touched offset buf p h1 h2)
    simp only [Holding, hc''] at hno
    exact ⟨fun hw => hno ⟨hb, Or.inl hw⟩, fun hp => hno ⟨hb, Or.inr hp⟩⟩

theorem settled_of_finish (hi : Inv bs s) (h : Written bs c₀ offset₀ buf₀ p s) (h1 : offset₀ ≤ p)
    (h2 : p < offset₀ + buf₀.length) (s' : Shared) (r : Option (Result Bytes))
    (hs : Step bs s (.resume c₀) s' r) : Settled bs p (buf₀.getD (p - offset₀) 0) s' := by
  have hb : p / bs ∈ touched bs offset₀ buf₀ := mem_touched offset₀ buf₀ p h1 h2
  have hs' : s' = (s.withState (s.dev.state.finishWrite bs offset₀ buf₀)).setCall c₀ none := by
    have hcall := h.call
    cases hs <;> simp_all
  subst hs'
  refine ⟨h.device, ?_, ?_, ?_⟩
  · intro slot hslot
    change (s.dev.state.finishWrite bs offset₀ buf₀).entries.lookup (p / bs) = some slot at hslot
    by_cases hw : Whole bs offset₀ buf₀
    · obtain ⟨-, hdev⟩ := hi.finish c₀ offset₀ buf₀ h.call hw
      obtain ⟨-, hclean⟩ := clean_finishWrite (hi.shaped _) offset₀ buf₀ hb
        (hi.finish c₀ offset₀ buf₀ h.call) slot hslot
      obtain ⟨hb1, hb2⟩ := block_bounds bs hi.pos p (p / bs) rfl
      obtain ⟨-, hm⟩ := div_eq_of_bounds bs p (p / bs) hb1 hb2
      rw [hclean, hm, Image.getD_read _ _ _ _ (by omega), Nat.add_sub_cancel' hb1, h.device]
    · rw [lookup_entries_finishWrite _ offset₀ buf₀ _ hw hb] at hslot
      exact absurd hslot (by simp)
  · intro blk hblk
    change (s.dev.state.finishWrite bs offset₀ buf₀).pinned.lookup (p / bs) = some blk at hblk
    have hv := congrFun (@view_finishWrite bs s.dev.inner.img s.dev.state hi.pos offset₀ buf₀
      hi.shaped) p
    rw [view_of_pinned (p / bs) blk p hblk rfl, Image.write_of_mem _ _ _ _ h1 h2] at hv
    exact hv
  · intro c' o b hc' hb'
    obtain ⟨-, he⟩ | ⟨hne, he⟩ := calls_setCall _ c₀ c' none _ hc'
    · exact absurd he (by simp)
    · obtain ⟨h3, h4⟩ := h.pending c' o b hne he hb'
      exact ⟨h3, fun hin => h4 ((mem_pinned_finishWrite _ _ _ _).mp hin)⟩

def Reading (bs p : Nat) (v : UInt8) (c offset len : Nat) (s : Shared) : Prop :=
  match s.calls c with
  | none => True
  | some (.readMissed o n) => o = offset ∧ n = len ∧ offset % bs + len ≤ bs
  | some (.readInsert o n blk) => o = offset ∧ n = len ∧ offset % bs + len ≤ bs ∧
      (offset / bs = p / bs → blk.getD (p % bs) 0 = v)
  | some (.readOverlay o n buf) => o = offset ∧ n = len ∧
      (offset ≤ p → p < offset + len → buf.getD (p - offset) 0 = v)
  | some (.writeFinish ..) => False

variable {len₀ : Nat}

theorem reading_of_calls_eq (h : Reading bs p v c₀ offset₀ len₀ s) (s' : Shared)
    (hc : s'.calls c₀ = s.calls c₀) : Reading bs p v c₀ offset₀ len₀ s' := by
  unfold Reading
  rw [hc]
  exact h

theorem act_reading (hd : s.dev.inner.img p = v) (hpos : 0 < bs)
    (h : Reading bs p v c₀ offset₀ len₀ s) (a : Act)
    (ha : ¬ a.StartedBy c₀) (s' : Shared) (r : Option (Result Bytes)) (hs : Step bs s a s' r) :
    Reading bs p v c₀ offset₀ len₀ s' := by
  have hdone : ∀ t : Shared, Reading bs p v c₀ offset₀ len₀ (t.setCall c₀ none) := by
    intro t
    simp [Reading, Shared.setCall]
  cases hs with
  | hit c offset len blk hidle hl hg => exact h
  | miss c offset len hidle hl hg =>
    exact reading_of_calls_eq h _ (setCall_calls_ne _ _ _ _ (fun he => ha he.symm))
  | multi c offset len hidle =>
    exact reading_of_calls_eq h _ (setCall_calls_ne _ _ _ _ (fun he => ha he.symm))
  | readPast c offset len => exact h
  | write c offset buf hidle hr =>
    exact reading_of_calls_eq h _ (setCall_calls_ne _ _ _ _ (fun he => ha he.symm))
  | writePast c offset buf => exact h
  | block c offset len hcall hr =>
    by_cases hc : c₀ = c
    · subst hc
      rw [Reading, hcall] at h
      obtain ⟨rfl, rfl, hl⟩ := h
      have hcalls : (s.setCall c₀ (some (.readInsert offset len
          (s.dev.inner.img.read (offset / bs * bs) bs)))).calls c₀ =
          some (.readInsert offset len (s.dev.inner.img.read (offset / bs * bs) bs)) := by
        simp [Shared.setCall]
      rw [Reading, hcalls]
      refine ⟨rfl, rfl, hl, ?_⟩
      intro hb
      obtain ⟨h1, h2⟩ := block_bounds bs hpos p (p / bs) rfl
      obtain ⟨-, hm⟩ := div_eq_of_bounds bs p (p / bs) h1 h2
      rw [hb, hm, Image.getD_read _ _ _ _ (by omega), Nat.add_sub_cancel' h1, hd]
    · exact reading_of_calls_eq h _ (setCall_calls_ne _ _ _ _ hc)
  | blockPast c offset len hcall =>
    by_cases hc : c₀ = c
    · subst hc
      exact hdone _
    · exact reading_of_calls_eq h _ (setCall_calls_ne _ _ _ _ hc)
  | insert c offset len blk hcall =>
    by_cases hc : c₀ = c
    · subst hc
      exact hdone _
    · exact reading_of_calls_eq h _ (setCall_calls_ne _ _ _ _ hc)
  | overlay c offset len buf hcall =>
    by_cases hc : c₀ = c
    · subst hc
      exact hdone _
    · exact reading_of_calls_eq h _ (setCall_calls_ne _ _ _ _ hc)
  | finish c offset buf hcall =>
    by_cases hc : c₀ = c
    · subst hc
      exact hdone _
    · exact reading_of_calls_eq h _ (setCall_calls_ne _ _ _ _ hc)

theorem path_reading (hi : Inv bs s) (h : Settled bs p v s) (hr : Reading bs p v c₀ offset₀ len₀ s)
    (acts : List Act) (t : Shared) (hp : Path (Orderly bs) s acts t)
    (hq : Quiet bs (p / bs) c₀ acts) : Reading bs p v c₀ offset₀ len₀ t := by
  induction hp with
  | nil s => exact hr
  | cons s s' t order a acts r ha hs hp ih =>
    have hst := act_step a s' r (hi.reorder order).blockSize hs
    obtain ⟨hq1, hq2⟩ := hq a List.mem_cons_self
    have hrest : Quiet bs (p / bs) c₀ acts := fun b hb => hq b (List.mem_cons_of_mem _ hb)
    apply ih (step_inv hi (order, a) ha s' r hs) _ _ hrest
    · exact act_settled (hi.reorder order) (h.reorder order) a hq1 s' r hst
    · have hr' : Reading bs p v c₀ offset₀ len₀ (s.withState { s.dev.state with order }) :=
        reading_of_calls_eq hr _ rfl
      exact act_reading (h.reorder order).device hi.pos hr' a hq2 s' r hst

theorem getD_slice_block (blk : Bytes) (offset len : Nat)
    (hl : offset % bs + len ≤ bs) (h1 : offset ≤ p) (h2 : p < offset + len) :
    offset / bs = p / bs ∧ (slice blk (offset % bs) len).getD (p - offset) 0 =
      blk.getD (p % bs) 0 := by
  have hdm := Nat.div_add_mod offset bs
  rw [Nat.mul_comm] at hdm
  obtain ⟨hd, hm⟩ := div_eq_of_bounds bs p (offset / bs) (by omega) (by omega)
  refine ⟨hd.symm, ?_⟩
  rw [getD_slice _ _ _ _ (by omega), hm]
  congr 1
  omega

theorem read_returns_settled (hi : Inv bs s) (h : Settled bs p v s)
    (hr : Reading bs p v c₀ offset₀ len₀ s) (s' : Shared) (bytes : Bytes)
    (hs : Step bs s (.resume c₀) s' (some (.ok bytes))) (h1 : offset₀ ≤ p)
    (h2 : p < offset₀ + len₀) : bytes.getD (p - offset₀) 0 = v := by
  cases hs with
  | insert _ offset len blk hcall =>
    rw [Reading, hcall] at hr
    obtain ⟨rfl, rfl, hl, hb⟩ := hr
    obtain ⟨hd, hg⟩ := getD_slice_block blk offset len hl h1 h2
    rw [hg]
    exact hb hd
  | overlay _ offset len buf hcall =>
    rw [Reading, hcall] at hr
    obtain ⟨rfl, rfl, hb⟩ := hr
    have hlen := hi.overlay c₀ offset len buf hcall
    obtain ⟨-, hg⟩ := getD_overlayPinned_range hi.pos hi.shaped offset buf
    have hp : offset + (p - offset) = p := by omega
    have hgp := hg (p - offset) (by omega)
    rw [hp, hlen] at hgp
    rw [hgp]
    cases hl : s.dev.state.pinned.lookup (p / bs) with
    | some blk => exact h.pin blk hl
    | none => exact hb h1 h2
  | finish _ offset buf hcall =>
    rw [Reading, hcall] at hr
    exact hr.elim

theorem startRead_settled (h : Settled bs p v s) (c offset len : Nat) (s' : Shared)
    (r : Option (Result Bytes)) (hs : Step bs s (.startRead c offset len) s' r) :
    (∀ bytes, r = some (.ok bytes) → offset ≤ p → p < offset + len →
      bytes.getD (p - offset) 0 = v) ∧
    (r = none → Reading bs p v c offset len s') := by
  cases hs with
  | hit _ _ _ blk hidle hl hg =>
    refine ⟨?_, by simp⟩
    intro bytes hb h1 h2
    obtain ⟨hd, hgb⟩ := getD_slice_block blk offset len hl h1 h2
    rw [← Except.ok.inj (Option.some_inj.mp hb), hgb]
    rw [hd] at hg
    obtain hp | ⟨-, slot, hslot, rfl⟩ := get_some _ _ _ hg
    · exact h.pin blk hp
    · exact h.entry slot hslot
  | miss _ _ _ hidle hl hg =>
    refine ⟨by simp, fun _ => ?_⟩
    simp [Reading, Shared.setCall, hl]
  | multi _ _ _ hidle =>
    refine ⟨by simp, fun _ => ?_⟩
    simp only [Reading, Shared.setCall, Function.update_self]
    refine ⟨trivial, trivial, ?_⟩
    intro h1 h2
    have hp : offset + (p - offset) = p := by omega
    rw [Image.getD_read _ _ _ _ (by omega), hp, h.device]
  | readPast _ _ _ => exact ⟨by simp, by simp⟩

def Idle (bs : Nat) (s : Shared) : Prop := s.dev.Coherent bs ∧ ∀ c, s.calls c = none

theorem inv_of_idle (h : Idle bs s) : Inv bs s := by
  obtain ⟨hc, hn⟩ := h
  refine ⟨hc.blockSize, hc.pos, hc.shaped, fun b => Or.inl (hc.clean b), ?_, ?_, ?_, ?_⟩
  all_goals
    intro c
    simp [hn c]

/-- In every run in which a write reaches the device only when no caller holds bytes for a block
it touches, no write is lost. -/
theorem orderly_runs_lose_no_write (s₀ : Shared) (h₀ : Idle bs s₀) :
    NoLostWrite bs (Orderly bs) s₀ := by
  have hi₀ := inv_of_idle h₀
  refine ⟨?_, ?_⟩
  · intro b pre s₁ o₁ c offset buf s₂ mid s₃ o₃ s₄ r₄ mid' s₅ o₅ c' offset' len s₆ r₆
      hp₁ ha hw hp₃ hq₃ hf hp₅ hq₅ hrd
    have hi₁ := path_inv hi₀ pre s₁ hp₁
    have hi₂ := step_inv hi₁ (o₁, .startWrite c offset buf) ha s₂ none hw
    have hi₃ := path_inv hi₂ mid s₃ hp₃
    have hi₄ := step_inv hi₃ (o₃, .resume c) trivial s₄ _ hf
    have hi₅ := path_inv hi₄ mid' s₅ hp₅
    have hi₆ := step_inv hi₅ (o₅, .startRead c' offset' len) trivial s₆ r₆ hrd
    have hsettled : ∀ p, p / bs = b → offset ≤ p → p < offset + buf.length →
        Settled bs p (buf.getD (p - offset) 0) s₅ := by
      intro p hpb h1 h2
      subst hpb
      have hw₂ := written_of_write c offset buf s₂ (orderly_reorder _ o₁ ha)
        (act_step (.startWrite c offset buf) s₂ none (hi₁.reorder o₁).blockSize hw) h1 h2
      obtain hw₃ | hidle := path_written hi₂ (Or.inl hw₂) mid s₃ hp₃ hq₃
      · have hs₄ := settled_of_finish (hi₃.reorder o₃) (hw₃.reorder o₃) h1 h2 s₄ _
          (act_step (.resume c) s₄ _ (hi₃.reorder o₃).blockSize hf)
        exact path_settled hi₄ hs₄ mid' s₅ hp₅ hq₅
      · simp [Shared.step, Shared.act, hidle] at hf
    have hst := act_step (.startRead c' offset' len) s₆ r₆ (hi₅.reorder o₅).blockSize hrd
    refine ⟨?_, ?_⟩
    · intro bytes hb p hpb h1 h2 h3 h4
      have hs₅ := (hsettled p hpb h1 h2).reorder o₅
      exact (startRead_settled hs₅ c' offset' len s₆ r₆ hst).1 bytes hb h3 h4
    · intro mid'' s₇ o₇ s₈ bytes hnone hp₇ hq₇ hfin p hpb h1 h2 h3 h4
      have hs₅ := (hsettled p hpb h1 h2).reorder o₅
      have hr₆ := (startRead_settled hs₅ c' offset' len s₆ r₆ hst).2 hnone
      subst hpb
      have hs₆ := act_settled (hi₅.reorder o₅) hs₅ (.startRead c' offset' len) id s₆ r₆ hst
      have hi₇ := path_inv hi₆ mid'' s₇ hp₇
      have hr₇ := path_reading hi₆ hs₆ hr₆ mid'' s₇ hp₇ hq₇
      have hs₇ := path_settled hi₆ hs₆ mid'' s₇ hp₇ (fun a ha => (hq₇ a ha).1)
      exact read_returns_settled (hi₇.reorder o₇) (hs₇.reorder o₇) (reading_of_calls_eq hr₇ _ rfl)
        s₈ bytes (act_step (.resume c') s₈ _ (hi₇.reorder o₇).blockSize hfin) h3 h4
  · intro acts s hp hn b
    obtain hc | ⟨c, o, buf, hc, -⟩ := (path_inv hi₀ acts s hp).clean b
    · exact hc
    · rw [hn c] at hc
      exact absurd hc (by simp)

end Steps

def oneBlock : Shared := ⟨new ⟨4, fun _ => 0⟩ 4 1 insertionOrder, fun _ => none⟩

theorem oneBlock_idle : Idle 4 oneBlock :=
  ⟨coherent_new ⟨4, fun _ => 0⟩ 1 insertionOrder (by decide), fun _ => rfl⟩

theorem oneBlock_loses_no_write : Idle 4 oneBlock ∧ NoLostWrite 4 (Orderly 4) oneBlock :=
  ⟨oneBlock_idle, orderly_runs_lose_no_write oneBlock oneBlock_idle⟩

/-- A read that missed holds the old block while a write goes through, then inserts it: the next
read returns the old bytes. -/
theorem stale_insert_loses_write : ¬ NoLostWrite 4 (fun _ _ => True) oneBlock := by
  intro h
  have hread := (h.read_sees 0 [.startRead 0 0 4, .resume 0] _ insertionOrder 1 0 [1, 1, 1, 1] _ []
    _ insertionOrder _ _ [.resume 0] _ insertionOrder 2 0 4 _ _
    (.cons _ _ _ insertionOrder _ _ _ trivial rfl
      (.cons _ _ _ insertionOrder _ _ _ trivial rfl (.nil _)))
    trivial rfl (.nil _) (by simp [Quiet]) rfl
    (.cons _ _ _ insertionOrder _ _ _ trivial rfl (.nil _)) (by simp [Act.StartsWrite]) rfl).1
  have hbyte := hread [0, 0, 0, 0] rfl 0 (by decide) (by decide) (by decide) (by decide) (by decide)
  exact absurd hbyte (by decide)

end FsExt4.Interleaving
