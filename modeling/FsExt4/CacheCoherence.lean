import FsExt4.BlockCache

namespace FsExt4.CacheState

open Lib

variable {bs size b' : Nat} {img : Image} {s : CacheState}

/-- What the cache shows a reader: the pinned blocks laid over the device. -/
def view (bs : Nat) (img : Image) (s : CacheState) : Image := fun p =>
  match s.pinned.lookup (p / bs) with
  | some blk => blk.getD (p % bs) 0
  | none => img p

/-- What holds of block `b` in every state, whatever the device holds. -/
structure Shaped (bs : Nat) (s : CacheState) (b : Nat) : Prop where
  sized : ∀ bytes, s.pinned.lookup b = some bytes → bytes.length = bs
  disjoint : b ∈ s.pinned → s.entries.lookup b = none
  uncached : s.capacity = 0 → s.entries.lookup b = none

def Clean (bs size : Nat) (img : Image) (s : CacheState) (b : Nat) : Prop :=
  ∀ slot, s.entries.lookup b = some slot → b * bs + bs ≤ size ∧ slot.1 = img.read (b * bs) bs

theorem view_eq_of_not_pinned (b : Nat) (p : Nat) (h : b ∉ s.pinned) (hp : p / bs = b) :
    view bs img s p = img p := by
  rw [view, hp, AList.lookup_eq_none.mpr h]

theorem view_of_pinned (b : Nat) (blk : Bytes) (p : Nat) (h : s.pinned.lookup b = some blk)
    (hp : p / bs = b) : view bs img s p = blk.getD (p % bs) 0 := by
  rw [view, hp, h]

theorem view_congr (s s' : CacheState) (h : s'.pinned = s.pinned) :
    view bs img s' = view bs img s := by
  funext p
  rw [view, view, h]

theorem read_block_eq (img : Image) (b : Nat) (blk : Bytes) (hl : blk.length = bs)
    (h : ∀ p, p / bs = b → img p = blk.getD (p % bs) 0) : blk = img.read (b * bs) bs := by
  apply ext_getD
  · rw [hl, Image.length_read]
  · intro i hi
    rw [hl] at hi
    have hpos : 0 < bs := by omega
    have hdiv : (b * bs + i) / bs = b := by
      rw [Nat.mul_comm, Nat.mul_add_div hpos, Nat.div_eq_of_lt hi, Nat.add_zero]
    have hmod : (b * bs + i) % bs = i := by
      rw [Nat.mul_comm, Nat.mul_add_mod, Nat.mod_eq_of_lt hi]
    rw [Image.getD_read _ _ _ _ hi, h _ hdiv, hmod]

theorem block_bounds (bs : Nat) (hbs : 0 < bs) (p b : Nat) (h : p / bs = b) : b * bs ≤ p ∧
    p < b * bs + bs := by
  subst h
  have h1 := Nat.div_add_mod p bs
  have h2 := Nat.mod_lt p hbs
  rw [Nat.mul_comm] at h1
  omega

theorem div_eq_of_bounds (bs p b : Nat) (h1 : b * bs ≤ p) (h2 : p < b * bs + bs) :
    p / bs = b ∧ p % bs = p - b * bs := by
  have hi : p - b * bs < bs := by omega
  have hpos : 0 < bs := by omega
  have hp : p = bs * b + (p - b * bs) := by rw [Nat.mul_comm]; omega
  constructor
  · rw [hp, Nat.mul_add_div hpos, Nat.div_eq_of_lt hi, Nat.add_zero]
  · rw [hp, Nat.mul_add_mod, Nat.mod_eq_of_lt hi, Nat.mul_comm]
    omega

@[simp] theorem get_pinned (s : CacheState) (b : Nat) : (s.get b).2.pinned = s.pinned := by
  unfold get
  split
  · rfl
  · dsimp only
    split <;> rfl

@[simp] theorem get_capacity (s : CacheState) (b : Nat) : (s.get b).2.capacity = s.capacity := by
  unfold get
  split
  · rfl
  · dsimp only
    split <;> rfl

theorem lookup_get (s : CacheState) (b b' : Nat) :
    ((s.get b).2.entries.lookup b').map Prod.fst = (s.entries.lookup b').map Prod.fst := by
  unfold get
  split
  · rfl
  · dsimp only
    split
    · rename_i slot hslot
      by_cases h : b' = b
      · subst h
        rw [AList.lookup_insert, hslot]
        rfl
      · rw [AList.lookup_insert_ne h]
    · rfl

theorem get_none (s : CacheState) (b : Nat) (h : (s.get b).1 = none) : b ∉ s.pinned := by
  unfold get at h
  cases hp : s.pinned.lookup b with
  | some bytes => simp [hp] at h
  | none => exact AList.lookup_eq_none.mp hp

theorem get_some (s : CacheState) (b : Nat) (blk : Bytes) (h : (s.get b).1 = some blk) :
    s.pinned.lookup b = some blk ∨
      (b ∉ s.pinned ∧ ∃ slot, s.entries.lookup b = some slot ∧ slot.1 = blk) := by
  unfold get at h
  cases hp : s.pinned.lookup b with
  | some bytes =>
    rw [hp] at h
    exact Or.inl h
  | none =>
    right
    refine ⟨AList.lookup_eq_none.mp hp, ?_⟩
    rw [hp] at h
    dsimp only at h
    cases he : s.entries.lookup b with
    | none => simp [he] at h
    | some slot =>
      rw [he] at h
      exact ⟨slot, rfl, Option.some_inj.mp h⟩

@[simp] theorem evict_pinned (s : CacheState) : s.evict.pinned = s.pinned := by
  unfold evict
  split
  · split <;> rfl
  · rfl

@[simp] theorem evict_capacity (s : CacheState) : s.evict.capacity = s.capacity := by
  unfold evict
  split
  · split <;> rfl
  · rfl

theorem lookup_evict (s : CacheState) (b : Nat) (slot : Bytes × UInt64)
    (h : s.evict.entries.lookup b = some slot) : s.entries.lookup b = some slot := by
  unfold evict at h
  split at h
  · split at h
    · rename_i v _
      by_cases hb : b = v
      · subst hb
        simp at h
      · rwa [AList.lookup_erase_ne hb] at h
    · exact h
  · exact h

@[simp] theorem insertClean_pinned (s : CacheState) (b : Nat) (bytes : Bytes) :
    (s.insertClean b bytes).pinned = s.pinned := by
  unfold insertClean
  split
  · rfl
  · simp

@[simp] theorem insertClean_capacity (s : CacheState) (b : Nat) (bytes : Bytes) :
    (s.insertClean b bytes).capacity = s.capacity := by
  unfold insertClean
  split
  · rfl
  · simp

theorem lookup_insertClean (s : CacheState) (b b' : Nat) (bytes : Bytes) (slot : Bytes × UInt64)
    (h : (s.insertClean b bytes).entries.lookup b' = some slot) :
    (b' = b ∧ slot.1 = bytes ∧ s.capacity ≠ 0) ∨
      ((b' = b → s.capacity = 0) ∧ s.entries.lookup b' = some slot) := by
  unfold insertClean at h
  split at h
  · rename_i hc
    exact Or.inr ⟨fun _ => hc, h⟩
  · rename_i hc
    dsimp only at h
    by_cases hb : b' = b
    · subst hb
      rw [AList.lookup_insert] at h
      left
      exact ⟨rfl, by rw [← Option.some_inj.mp h], hc⟩
    · rw [AList.lookup_insert_ne hb] at h
      right
      exact ⟨fun h' => absurd h' hb, lookup_evict s b' slot h⟩

theorem put_of_pinned (s : CacheState) (b : Nat) (bytes : Bytes) (h : b ∈ s.pinned) :
    s.put b bytes = { s with pinned := s.pinned.insert b bytes } := if_pos h

theorem put_of_not_pinned (s : CacheState) (b : Nat) (bytes : Bytes) (h : b ∉ s.pinned) :
    s.put b bytes = s.insertClean b bytes := if_neg h

@[simp] theorem put_capacity (s : CacheState) (b : Nat) (bytes : Bytes) :
    (s.put b bytes).capacity = s.capacity := by
  unfold put
  split
  · rfl
  · simp

theorem mem_pinned_put (s : CacheState) (b b' : Nat) (bytes : Bytes) :
    b' ∈ (s.put b bytes).pinned ↔ b' ∈ s.pinned := by
  by_cases h : b ∈ s.pinned
  · rw [put_of_pinned s b bytes h, AList.mem_insert]
    constructor
    · rintro (rfl | h')
      · exact h
      · exact h'
    · exact Or.inr
  · rw [put_of_not_pinned s b bytes h, insertClean_pinned]

theorem lookup_put (s : CacheState) (b b' : Nat) (bytes : Bytes) (slot : Bytes × UInt64)
    (h : (s.put b bytes).entries.lookup b' = some slot) :
    (b' = b ∧ b ∉ s.pinned ∧ slot.1 = bytes ∧ s.capacity ≠ 0) ∨
      ((b' = b → b ∈ s.pinned ∨ s.capacity = 0) ∧ s.entries.lookup b' = some slot) := by
  by_cases hp : b ∈ s.pinned
  · rw [put_of_pinned s b bytes hp] at h
    exact Or.inr ⟨fun _ => Or.inl hp, h⟩
  · rw [put_of_not_pinned s b bytes hp] at h
    obtain ⟨hb, hs, hc⟩ | ⟨hb, hs⟩ := lookup_insertClean s b b' bytes slot h
    · exact Or.inl ⟨hb, hp, hs, hc⟩
    · exact Or.inr ⟨fun h' => Or.inr (hb h'), hs⟩

theorem lookup_pinned_put (s : CacheState) (b b' : Nat) (bytes : Bytes) :
    (s.put b bytes).pinned.lookup b' =
      if b' = b ∧ b ∈ s.pinned then some bytes else s.pinned.lookup b' := by
  by_cases hp : b ∈ s.pinned
  · rw [put_of_pinned s b bytes hp]
    by_cases hb : b' = b
    · subst hb
      rw [AList.lookup_insert, if_pos ⟨rfl, hp⟩]
    · rw [AList.lookup_insert_ne hb, if_neg (fun h => hb h.1)]
  · rw [put_of_not_pinned s b bytes hp, insertClean_pinned, if_neg (fun h => hp h.2)]

theorem Shaped.get (h : Shaped bs s b') (b : Nat) : Shaped bs (s.get b).2 b' := by
  have hl := lookup_get s b b'
  refine ⟨?_, ?_, ?_⟩
  · rw [get_pinned]
    exact h.sized
  · rw [get_pinned]
    intro hp
    rw [h.disjoint hp] at hl
    simpa using hl
  · rw [get_capacity]
    intro hc
    rw [h.uncached hc] at hl
    simpa using hl

theorem Clean.get (h : Clean bs size img s b') (b : Nat) : Clean bs size img (s.get b).2 b' := by
  intro slot hslot
  have hl := lookup_get s b b'
  rw [hslot] at hl
  obtain ⟨slot', hs, he⟩ := Option.map_eq_some_iff.mp hl.symm
  rw [← he]
  exact h slot' hs

theorem Shaped.put (h : Shaped bs s b') (b : Nat) (bytes : Bytes) (hl : bytes.length = bs) :
    Shaped bs (s.put b bytes) b' := by
  refine ⟨?_, ?_, ?_⟩
  · intro x hx
    rw [lookup_pinned_put] at hx
    split at hx
    · rw [← Option.some_inj.mp hx]
      exact hl
    · exact h.sized x hx
  · intro hp
    rw [mem_pinned_put] at hp
    apply Option.eq_none_iff_forall_ne_some.mpr
    intro slot hslot
    obtain ⟨rfl, hn, -⟩ | ⟨-, hs⟩ := lookup_put s b b' bytes slot hslot
    · exact hn hp
    · rw [h.disjoint hp] at hs
      exact absurd hs (by simp)
  · rw [put_capacity]
    intro hc
    apply Option.eq_none_iff_forall_ne_some.mpr
    intro slot hslot
    obtain ⟨-, -, -, hn⟩ | ⟨-, hs⟩ := lookup_put s b b' bytes slot hslot
    · exact hn hc
    · rw [h.uncached hc] at hs
      exact absurd hs (by simp)

theorem clean_put_self (b : Nat) (bytes : Bytes) (h : Shaped bs s b) (hr : b * bs + bs ≤ size)
    (hb : bytes = img.read (b * bs) bs) : Clean bs size img (s.put b bytes) b := by
  intro slot hslot
  obtain ⟨-, -, hs, -⟩ | ⟨hn, hs⟩ := lookup_put s b b bytes slot hslot
  · exact ⟨hr, hs.trans hb⟩
  · obtain hp | hc := hn rfl
    · rw [h.disjoint hp] at hs
      exact absurd hs (by simp)
    · rw [h.uncached hc] at hs
      exact absurd hs (by simp)

theorem Clean.put_ne (h : Clean bs size img s b') (b : Nat) (bytes : Bytes) (hb : b' ≠ b) :
    Clean bs size img (s.put b bytes) b' := by
  intro slot hslot
  obtain ⟨rfl, -⟩ | ⟨-, hs⟩ := lookup_put s b b' bytes slot hslot
  · exact absurd rfl hb
  · exact h slot hs

/-- The pinned image of block `b` with the part of a write that falls in it. -/
def patched (bs offset : Nat) (buf : Bytes) (b : Nat) (img : Bytes) : Bytes :=
  let writeStart := max offset (b * bs)
  let writeEnd := min (offset + buf.length) (b * bs + bs)
  copyAt img (writeStart - b * bs) (slice buf (writeStart - offset) (writeEnd - writeStart))

theorem lookup_pinned_patchBlock (s : CacheState) (offset : Nat) (buf : Bytes) (b b' : Nat) :
    (s.patchBlock bs offset buf b).pinned.lookup b' =
      if b' = b then (s.pinned.lookup b).map (patched bs offset buf b) else s.pinned.lookup b' := by
  unfold patchBlock
  dsimp only
  cases hp : s.pinned.lookup b with
  | none =>
    by_cases hb : b' = b
    · subst hb
      simp [hp]
    · simp [hb]
  | some img =>
    by_cases hb : b' = b
    · subst hb
      simp [patched]
    · simp [hb, AList.lookup_insert_ne hb]

theorem lookup_entries_patchBlock (s : CacheState) (offset : Nat) (buf : Bytes) (b b' : Nat) :
    (s.patchBlock bs offset buf b).entries.lookup b' =
      if b' = b then none else s.entries.lookup b' := by
  unfold patchBlock
  by_cases hb : b' = b
  · subst hb
    simp
  · simp [hb, AList.lookup_erase_ne hb]

@[simp] theorem patchBlock_capacity (s : CacheState) (offset : Nat) (buf : Bytes) (b : Nat) :
    (s.patchBlock bs offset buf b).capacity = s.capacity := rfl

def patchBlocks (s : CacheState) (bs offset : Nat) (buf : Bytes) (blocks : List Nat) : CacheState :=
  blocks.foldl (fun s b => s.patchBlock bs offset buf b) s

@[simp] theorem patchBlocks_capacity (s : CacheState) (offset : Nat) (buf : Bytes)
    (blocks : List Nat) : (s.patchBlocks bs offset buf blocks).capacity = s.capacity := by
  unfold patchBlocks
  induction blocks generalizing s with
  | nil => rfl
  | cons b rest ih => exact ih (s.patchBlock bs offset buf b)

theorem lookup_entries_patchBlocks (bs : Nat) (s : CacheState) (offset : Nat) (buf : Bytes)
    (blocks : List Nat) (b : Nat) : (s.patchBlocks bs offset buf blocks).entries.lookup b =
      if b ∈ blocks then none else s.entries.lookup b := by
  unfold patchBlocks
  induction blocks generalizing s with
  | nil => simp
  | cons c rest ih =>
    rw [List.foldl_cons, ih, lookup_entries_patchBlock]
    by_cases hc : b = c
    · simp [hc]
    · by_cases hr : b ∈ rest <;> simp [hc, hr]

theorem lookup_pinned_patchBlocks (bs : Nat) (s : CacheState) (offset : Nat) (buf : Bytes)
    (blocks : List Nat) (hn : blocks.Nodup) (b : Nat) :
    (s.patchBlocks bs offset buf blocks).pinned.lookup b =
      if b ∈ blocks then (s.pinned.lookup b).map (patched bs offset buf b)
      else s.pinned.lookup b := by
  unfold patchBlocks
  induction blocks generalizing s with
  | nil => simp
  | cons c rest ih =>
    obtain ⟨hc, hrest⟩ := List.nodup_cons.mp hn
    rw [List.foldl_cons, ih _ hrest, lookup_pinned_patchBlock]
    by_cases hb : b = c
    · subst hb
      simp [hc]
    · by_cases hr : b ∈ rest <;> simp [hb, hr]

theorem mem_blockRange (first stop b : Nat) : b ∈ blockRange first stop ↔ first ≤ b ∧ b < stop := by
  simp only [blockRange, List.mem_range'_1]
  omega

theorem nodup_blockRange (first stop : Nat) : (blockRange first stop).Nodup := List.nodup_range'

def Whole (bs offset : Nat) (buf : Bytes) : Prop := offset % bs = 0 ∧ buf.length = bs

instance (offset : Nat) (buf : Bytes) : Decidable (Whole bs offset buf) :=
  inferInstanceAs (Decidable (_ ∧ _))

/-- The blocks a write touches, as `write_at` enumerates them. -/
def touched (bs offset : Nat) (buf : Bytes) : List Nat :=
  if Whole bs offset buf then [offset / bs]
  else blockRange (offset / bs) ((offset + buf.length - 1) / bs + 1)

theorem nodup_touched (offset : Nat) (buf : Bytes) : (touched bs offset buf).Nodup := by
  unfold touched
  split
  · exact List.nodup_singleton _
  · exact nodup_blockRange _ _

theorem finishWrite_of_whole (s : CacheState) (offset : Nat) (buf : Bytes)
    (h : Whole bs offset buf) : s.finishWrite bs offset buf = s.put (offset / bs) buf := if_pos h

theorem finishWrite_of_not_whole (s : CacheState) (offset : Nat) (buf : Bytes)
    (h : ¬ Whole bs offset buf) :
    s.finishWrite bs offset buf = s.patchBlocks bs offset buf (touched bs offset buf) := by
  rw [touched, if_neg h]
  exact if_neg h

theorem mem_touched (offset : Nat) (buf : Bytes) (p : Nat) (h1 : offset ≤ p)
    (h2 : p < offset + buf.length) : p / bs ∈ touched bs offset buf := by
  unfold touched
  split
  · rename_i hw
    have hdm := Nat.div_add_mod offset bs
    rw [Nat.mul_comm, hw.1] at hdm
    rw [hw.2] at h2
    have hp := div_eq_of_bounds bs p (offset / bs) (by omega) (by omega)
    simp [hp.1]
  · rw [mem_blockRange]
    have ha := Nat.div_le_div_right (c := bs) h1
    have hb := Nat.div_le_div_right (c := bs) (show p ≤ offset + buf.length - 1 by omega)
    omega

theorem le_of_mem_touched (hbs : 0 < bs) (offset : Nat) (buf : Bytes) (b : Nat)
    (hb : b ∈ touched bs offset buf) : offset < b * bs + bs := by
  have hdo := Nat.div_add_mod offset bs
  have hlt := Nat.mod_lt offset hbs
  rw [Nat.mul_comm] at hdo
  have hle : offset / bs ≤ b := by
    unfold touched at hb
    split at hb
    · simp only [List.mem_singleton] at hb
      omega
    · exact ((mem_blockRange _ _ _).mp hb).1
  have hmul := Nat.mul_le_mul_right bs hle
  omega

theorem patch_fits (offset : Nat) (buf : Bytes) (start : Nat) (img : Bytes)
    (hl : img.length = bs) (ho : offset < start + bs) :
    max offset start - start + (slice buf (max offset start - offset)
      (min (offset + buf.length) (start + bs) - max offset start)).length ≤ img.length := by
  rw [length_slice]
  omega

theorem length_patched (hbs : 0 < bs) (offset : Nat) (buf : Bytes) (b : Nat) (img : Bytes)
    (hl : img.length = bs) (hb : b ∈ touched bs offset buf) :
    (patched bs offset buf b img).length = bs := by
  have hfit := patch_fits offset buf (b * bs) img hl (le_of_mem_touched hbs offset buf b hb)
  exact (length_copyAt _ _ _ hfit).trans hl

theorem getD_patched (hbs : 0 < bs) (offset : Nat) (buf : Bytes) (p : Nat) (img : Bytes)
    (hl : img.length = bs) (hb : p / bs ∈ touched bs offset buf) :
    (patched bs offset buf (p / bs) img).getD (p % bs) 0 =
      if offset ≤ p ∧ p < offset + buf.length then buf.getD (p - offset) 0
      else img.getD (p % bs) 0 := by
  obtain ⟨h1, h2⟩ := block_bounds bs hbs p (p / bs) rfl
  obtain ⟨-, hm⟩ := div_eq_of_bounds bs p (p / bs) h1 h2
  have ho := le_of_mem_touched hbs offset buf _ hb
  unfold patched
  dsimp only
  generalize p / bs * bs = start at *
  have hfit := patch_fits offset buf start img hl ho
  rw [getD_copyAt _ _ _ _ hfit, hm]
  by_cases hin : offset ≤ p ∧ p < offset + buf.length
  · rw [if_pos hin, if_pos (by rw [length_slice]; omega), getD_slice _ _ _ _ (by omega)]
    congr 1
    omega
  · rw [if_neg hin, if_neg (by rw [length_slice]; omega)]

theorem view_finishWrite (hbs : 0 < bs) (offset : Nat) (buf : Bytes)
    (hs : ∀ b, Shaped bs s b) :
    view bs (img.write offset buf) (s.finishWrite bs offset buf) =
      (view bs img s).write offset buf := by
  funext p
  by_cases hw : Whole bs offset buf
  · rw [finishWrite_of_whole s offset buf hw]
    have hdm := Nat.div_add_mod offset bs
    rw [Nat.mul_comm, hw.1, Nat.add_zero] at hdm
    simp only [view, lookup_pinned_put, Image.write]
    by_cases hp : p / bs = offset / bs
    · obtain ⟨h1, h2⟩ := block_bounds bs hbs p _ hp
      obtain ⟨-, hm⟩ := div_eq_of_bounds bs p _ h1 h2
      rw [hdm] at h1 h2 hm
      have hin : offset ≤ p ∧ p < offset + buf.length := ⟨h1, by rw [hw.2]; exact h2⟩
      rw [if_pos hin, if_pos hin]
      by_cases hpin : offset / bs ∈ s.pinned
      · rw [if_pos ⟨hp, hpin⟩, hm]
      · rw [if_neg (fun h => hpin h.2), hp, AList.lookup_eq_none.mpr hpin]
    · have hin : ¬ (offset ≤ p ∧ p < offset + buf.length) := by
        rw [hw.2]
        intro h
        exact hp (div_eq_of_bounds bs p (offset / bs) (by omega) (by omega)).1
      rw [if_neg hin, if_neg hin, if_neg (fun h => hp h.1)]
  · rw [finishWrite_of_not_whole s offset buf hw]
    simp only [view, lookup_pinned_patchBlocks bs s offset buf _ (nodup_touched offset buf),
      Image.write]
    by_cases hb : p / bs ∈ touched bs offset buf
    · rw [if_pos hb]
      cases hl : s.pinned.lookup (p / bs) with
      | none => simp
      | some blk =>
        simp only [Option.map_some]
        rw [getD_patched hbs offset buf p blk ((hs _).sized _ hl) hb]
    · have hin : ¬ (offset ≤ p ∧ p < offset + buf.length) :=
        fun h => hb (mem_touched offset buf p h.1 h.2)
      rw [if_neg hb, if_neg hin, if_neg hin]

theorem Shaped.patchBlocks (hbs : 0 < bs) (h : Shaped bs s b') (offset : Nat) (buf : Bytes) :
    Shaped bs (s.patchBlocks bs offset buf (touched bs offset buf)) b' := by
  have hp := lookup_pinned_patchBlocks bs s offset buf (touched bs offset buf)
    (nodup_touched offset buf) b'
  refine ⟨?_, ?_, ?_⟩
  · intro x hx
    rw [hp] at hx
    split at hx
    · rename_i hb
      obtain ⟨y, hy, rfl⟩ := Option.map_eq_some_iff.mp hx
      exact length_patched hbs offset buf b' y (h.sized y hy) hb
    · exact h.sized x hx
  · intro hm
    rw [lookup_entries_patchBlocks]
    split
    · rfl
    · rename_i hb
      rw [← AList.lookup_isSome, hp, if_neg hb, AList.lookup_isSome] at hm
      exact h.disjoint hm
  · rw [patchBlocks_capacity]
    intro hc
    rw [lookup_entries_patchBlocks]
    split
    · rfl
    · exact h.uncached hc

theorem Shaped.finishWrite (hbs : 0 < bs) (h : Shaped bs s b') (offset : Nat) (buf : Bytes) :
    Shaped bs (s.finishWrite bs offset buf) b' := by
  by_cases hw : Whole bs offset buf
  · rw [finishWrite_of_whole s offset buf hw]
    exact h.put _ buf hw.2
  · rw [finishWrite_of_not_whole s offset buf hw]
    exact h.patchBlocks hbs offset buf

theorem lookup_entries_finishWrite (s : CacheState) (offset : Nat) (buf : Bytes) (b : Nat)
    (hw : ¬ Whole bs offset buf) (hb : b ∈ touched bs offset buf) :
    (s.finishWrite bs offset buf).entries.lookup b = none := by
  rw [finishWrite_of_not_whole s offset buf hw, lookup_entries_patchBlocks, if_pos hb]

theorem lookup_entries_finishWrite_ne (s : CacheState) (offset : Nat) (buf : Bytes) (b : Nat)
    (hb : b ∉ touched bs offset buf) (slot : Bytes × UInt64)
    (h : (s.finishWrite bs offset buf).entries.lookup b = some slot) :
    s.entries.lookup b = some slot := by
  by_cases hw : Whole bs offset buf
  · rw [finishWrite_of_whole s offset buf hw] at h
    rw [touched, if_pos hw, List.mem_singleton] at hb
    obtain ⟨he, -⟩ | ⟨-, hs⟩ := lookup_put s _ b buf slot h
    · exact absurd he hb
    · exact hs
  · rwa [finishWrite_of_not_whole s offset buf hw, lookup_entries_patchBlocks, if_neg hb] at h

theorem lookup_pinned_finishWrite_ne (s : CacheState) (offset : Nat) (buf : Bytes) (b : Nat)
    (hb : b ∉ touched bs offset buf) :
    (s.finishWrite bs offset buf).pinned.lookup b = s.pinned.lookup b := by
  by_cases hw : Whole bs offset buf
  · rw [finishWrite_of_whole s offset buf hw, lookup_pinned_put]
    rw [touched, if_pos hw, List.mem_singleton] at hb
    rw [if_neg (fun h => hb h.1)]
  · rw [finishWrite_of_not_whole s offset buf hw,
      lookup_pinned_patchBlocks bs s offset buf _ (nodup_touched offset buf), if_neg hb]

theorem Clean.finishWrite_of_not_mem (h : Clean bs size img s b') (offset : Nat) (buf : Bytes)
    (hb : b' ∉ touched bs offset buf) : Clean bs size img (s.finishWrite bs offset buf) b' := by
  intro slot hslot
  exact h slot (lookup_entries_finishWrite_ne s offset buf b' hb slot hslot)

theorem clean_finishWrite (h : Shaped bs s b') (offset : Nat) (buf : Bytes)
    (hb : b' ∈ touched bs offset buf)
    (hdev : Whole bs offset buf → offset + bs ≤ size ∧ buf = img.read offset bs) :
    Clean bs size img (s.finishWrite bs offset buf) b' := by
  by_cases hw : Whole bs offset buf
  · rw [finishWrite_of_whole s offset buf hw]
    rw [touched, if_pos hw, List.mem_singleton] at hb
    subst hb
    have hdm := Nat.div_add_mod offset bs
    rw [Nat.mul_comm, hw.1, Nat.add_zero] at hdm
    obtain ⟨hr, hd⟩ := hdev hw
    apply clean_put_self _ buf h
    · rw [hdm]
      exact hr
    · rw [hdm]
      exact hd
  · rw [finishWrite_of_not_whole s offset buf hw]
    intro slot hslot
    rw [lookup_entries_patchBlocks, if_pos hb] at hslot
    exact absurd hslot (by simp)

theorem getD_overlayPinned (hbs : 0 < bs) (hs : ∀ b, Shaped bs s b) (offset : Nat)
    (blocks : List Nat) (buf : Bytes)
    (hb : ∀ b ∈ blocks, offset < b * bs + bs ∧ b * bs < offset + buf.length) :
    (s.overlayPinned bs offset blocks buf).length = buf.length ∧
    ∀ i, i < buf.length → (s.overlayPinned bs offset blocks buf).getD i 0 =
      if (offset + i) / bs ∈ blocks then
        match s.pinned.lookup ((offset + i) / bs) with
        | some blk => blk.getD ((offset + i) % bs) 0
        | none => buf.getD i 0
      else buf.getD i 0 := by
  induction blocks generalizing buf with
  | nil => simp [overlayPinned]
  | cons c rest ih =>
    have hrest : ∀ b ∈ rest, offset < b * bs + bs ∧ b * bs < offset + buf.length :=
      fun b h => hb b (List.mem_cons_of_mem _ h)
    unfold overlayPinned
    cases hl : s.pinned.lookup c with
    | none =>
      obtain ⟨ih1, ih2⟩ := ih buf hrest
      refine ⟨ih1, ?_⟩
      intro i hi
      dsimp only
      rw [ih2 i hi]
      by_cases hc : (offset + i) / bs = c
      · rw [hc, hl]
        simp
      · simp [hc]
    | some img =>
      obtain ⟨ho1, ho2⟩ := hb c List.mem_cons_self
      have himg := (hs c).sized img hl
      dsimp only
      have hfit : max offset (c * bs) - offset + (slice img (max offset (c * bs) - c * bs)
          (min (offset + buf.length) (c * bs + bs) - max offset (c * bs))).length ≤ buf.length := by
        rw [length_slice]
        omega
      have hlen := length_copyAt buf _ _ hfit
      have hget := fun i => getD_copyAt buf _ _ i hfit
      generalize copyAt buf (max offset (c * bs) - offset) _ = buf' at *
      obtain ⟨ih1, ih2⟩ := ih buf' (by rw [hlen]; exact hrest)
      refine ⟨ih1.trans hlen, ?_⟩
      intro i hi
      rw [ih2 i (by omega)]
      by_cases hc : (offset + i) / bs = c
      · obtain ⟨h1, h2⟩ := block_bounds bs hbs (offset + i) c hc
        obtain ⟨-, hm⟩ := div_eq_of_bounds bs (offset + i) c h1 h2
        rw [if_pos (show (offset + i) / bs ∈ c :: rest by simp [hc]), hc, hl]
        simp only [hm]
        by_cases hr : c ∈ rest
        · rw [if_pos hr]
        · rw [if_neg hr, hget i, length_slice, if_pos (by omega), getD_slice _ _ _ _ (by omega)]
          congr 1
          omega
      · have hout : ¬ (c * bs ≤ offset + i ∧ offset + i < c * bs + bs) :=
          fun h => hc (div_eq_of_bounds bs (offset + i) c h.1 h.2).1
        have hgi := hget i
        rw [length_slice, if_neg (by omega)] at hgi
        rw [hgi]
        simp [hc]

theorem getD_overlayPinned_range (hbs : 0 < bs) (hs : ∀ b, Shaped bs s b) (offset : Nat)
    (buf : Bytes) :
    (s.overlayPinned bs offset (blockRange (offset / bs) ((offset + buf.length + bs - 1) / bs))
      buf).length = buf.length ∧
    ∀ i, i < buf.length →
      (s.overlayPinned bs offset (blockRange (offset / bs) ((offset + buf.length + bs - 1) / bs))
        buf).getD i 0 =
      match s.pinned.lookup ((offset + i) / bs) with
      | some blk => blk.getD ((offset + i) % bs) 0
      | none => buf.getD i 0 := by
  have hb : ∀ b ∈ blockRange (offset / bs) ((offset + buf.length + bs - 1) / bs),
      offset < b * bs + bs ∧ b * bs < offset + buf.length := by
    intro b hb
    obtain ⟨h1, h2⟩ := (mem_blockRange _ _ _).mp hb
    rw [Nat.lt_iff_add_one_le, Nat.le_div_iff_mul_le hbs, Nat.add_mul] at h2
    have h3 := Nat.div_lt_iff_lt_mul hbs |>.mp (Nat.lt_succ_of_le h1)
    rw [Nat.succ_mul] at h3
    omega
  obtain ⟨hl, hg⟩ := getD_overlayPinned hbs hs offset _ _ hb
  refine ⟨hl, ?_⟩
  intro i hi
  have hmem : (offset + i) / bs ∈
      blockRange (offset / bs) ((offset + buf.length + bs - 1) / bs) := by
    rw [mem_blockRange]
    refine ⟨Nat.div_le_div_right (by omega), ?_⟩
    rw [Nat.div_lt_iff_lt_mul hbs]
    have h4 := Nat.div_add_mod (offset + buf.length + bs - 1) bs
    have h5 := Nat.mod_lt (offset + buf.length + bs - 1) hbs
    rw [Nat.mul_comm] at h4
    omega
  rw [hg i hi, if_pos hmem]

theorem overlayPinned_eq_view (hbs : 0 < bs) (hs : ∀ b, Shaped bs s b) (offset len : Nat) :
    s.overlayPinned bs offset (blockRange (offset / bs) ((offset + len + bs - 1) / bs))
      (img.read offset len) = (view bs img s).read offset len := by
  obtain ⟨hl, hg⟩ := getD_overlayPinned_range hbs hs offset (img.read offset len)
  rw [Image.length_read] at hl hg
  apply ext_getD
  · rw [hl, Image.length_read]
  · intro i hi
    rw [hl] at hi
    rw [hg i hi, Image.getD_read _ _ _ _ hi, Image.getD_read _ _ _ _ hi, view]

end FsExt4.CacheState
