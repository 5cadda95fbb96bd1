import FsExt4.Htree
import FsExt4.Lib.Routing

namespace FsExt4.Htree

open Lib

/-- Write the entries from the `i`-th on; the hash slot of the first keeps the limit and the
count. -/
def writeDxEntries (clOffset : Nat) : Nat → List DxEntry → Bytes → Bytes
  | _, [], out => out
  | i, e :: rest, out =>
    let off := clOffset + i * dxEntrySize
    let out := if 0 < i then copyAt out off (u32le e.hash) else out
    writeDxEntries clOffset (i + 1) rest (copyAt out (off + 4) (u32le e.block))

def planInsertDxEntryGeneric (block : Bytes) (clOffset : Nat) (newHash newBlock : UInt32) :
    Result Bytes := do
  if block.length < clOffset + dxEntrySize then throw (.corrupt "dx cl_offset out of range")
  let cl ← DxCountLimit.parse (slice block clOffset 4)
  if cl.limit ≤ cl.count then throw (.corruptExtentTree "NEEDS_PARENT_SPLIT: dx node full")
  if cl.count = 0 then throw (.corrupt "dx node has zero entries")
  let entries ← (List.range cl.count).mapM (fun i =>
    let off := clOffset + i * dxEntrySize
    if block.length < off + dxEntrySize then .error (.corrupt "dx entries overrun block")
    else DxEntry.parse (slice block off dxEntrySize))
  let entries := clearFirstHash entries
  if (entries.drop 1).any (fun e => e.hash == newHash) then
    throw (.corruptExtentTree "duplicate dx hash insert")
  let pos := (((entries.drop 1).findIdx? (fun e => decide (newHash < e.hash))).map (· + 1)).getD
    entries.length
  let entries := entries.insertIdx pos ⟨newHash, newBlock⟩
  if block.length < clOffset + entries.length * dxEntrySize then
    throw (.corrupt "dx serialized entries exceed block")
  let out := writeDxEntries clOffset 0 entries block
  return copyAt out (clOffset + 2) (u16le (UInt16.ofNat (cl.count + 1)))

def planInsertDxEntryRoot (rootBytes : Bytes) (clOffset : Nat) (newHash newBlock : UInt32) :
    Result Bytes :=
  planInsertDxEntryGeneric rootBytes clOffset newHash newBlock

def planInsertDxEntryNode (nodeBytes : Bytes) (newHash newBlock : UInt32) : Result Bytes :=
  planInsertDxEntryGeneric nodeBytes 8 newHash newBlock

section Write

variable {off : Nat}

theorem length_writeDxEntries (es : List DxEntry) (i : Nat) (out : Bytes)
    (hfit : off + (i + es.length) * dxEntrySize ≤ out.length) :
    (writeDxEntries off i es out).length = out.length := by
  induction es generalizing i out with
  | nil => rfl
  | cons e rest ih =>
    simp only [List.length_cons, dxEntrySize] at hfit
    have hhash : (if 0 < i then copyAt out (off + i * dxEntrySize) (u32le e.hash) else out).length =
        out.length := by
      split
      · exact length_copyAt _ _ _ (by simp only [length_u32le, dxEntrySize]; omega)
      · rfl
    have hblock : (copyAt (if 0 < i then copyAt out (off + i * dxEntrySize) (u32le e.hash) else out)
        (off + i * dxEntrySize + 4) (u32le e.block)).length = out.length := by
      rw [length_copyAt _ _ _ (by rw [hhash, length_u32le]; simp only [dxEntrySize]; omega), hhash]
    rw [writeDxEntries, ih (i + 1) _ (by rw [hblock]; simp only [dxEntrySize]; omega), hblock]

theorem writeDxEntries_agree (es : List DxEntry) (i : Nat) (out : Bytes)
    (hfit : off + (i + es.length) * dxEntrySize ≤ out.length) {lo hi : Nat}
    (h : hi ≤ off + i * dxEntrySize + (if 0 < i then 0 else 4) ∨
    off + (i + es.length) * dxEntrySize ≤ lo) :
    AgreeOn (writeDxEntries off i es out) out lo hi := by
  induction es generalizing i out with
  | nil => exact AgreeOn.refl _ _ _
  | cons e rest ih =>
    simp only [List.length_cons, dxEntrySize] at hfit h
    rw [writeDxEntries]
    by_cases hi0 : 0 < i
    · rw [if_pos hi0] at h ⊢
      have hlen := length_copyAt out (off + i * dxEntrySize) (u32le e.hash)
        (by simp only [length_u32le, dxEntrySize]; omega)
      have hlen' := length_copyAt (copyAt out (off + i * dxEntrySize) (u32le e.hash))
        (off + i * dxEntrySize + 4)
        (u32le e.block) (by rw [hlen, length_u32le]; simp only [dxEntrySize]; omega)
      refine (ih (i + 1) _ (by rw [hlen', hlen]; simp only [dxEntrySize]; omega) ?_).trans
        ((agreeOn_copyAt _ _ _ _ _ ?_ ?_).trans (agreeOn_copyAt _ _ _ _ _ ?_ ?_))
      · simp only [dxEntrySize]; omega
      · rw [hlen]; simp only [dxEntrySize]; omega
      · simp only [length_u32le, dxEntrySize]; omega
      · simp only [dxEntrySize]; omega
      · simp only [length_u32le, dxEntrySize]; omega
    · rw [if_neg hi0] at h ⊢
      have hlen := length_copyAt out (off + i * dxEntrySize + 4) (u32le e.block)
        (by simp only [length_u32le, dxEntrySize]; omega)
      refine (ih (i + 1) _ (by rw [hlen]; simp only [dxEntrySize]; omega) ?_).trans
        (agreeOn_copyAt _ _ _ _ _ ?_ ?_)
      · simp only [dxEntrySize]; omega
      · simp only [dxEntrySize]; omega
      · simp only [length_u32le, dxEntrySize]; omega

theorem entryAt_writeDxEntries (es : List DxEntry) (i : Nat) (out : Bytes)
    (hfit : off + (i + es.length) * dxEntrySize ≤ out.length) {j : Nat} (hj : j < es.length) :
    entryAt (writeDxEntries off i es out) off (i + j) =
      if 0 < i + j then es[j] else ⟨u32leAt out off, es[j].block⟩ := by
  induction es generalizing i out j with
  | nil => exact absurd hj (Nat.not_lt_zero _)
  | cons e rest ih =>
    simp only [List.length_cons, dxEntrySize] at hfit hj
    rw [writeDxEntries]
    have hhash : (if 0 < i then copyAt out (off + i * dxEntrySize) (u32le e.hash) else out).length =
        out.length := by
      split
      · exact length_copyAt _ _ _ (by simp only [length_u32le, dxEntrySize]; omega)
      · rfl
    have hroom : off + i * dxEntrySize + 4 + (u32le e.block).length ≤
        (if 0 < i then copyAt out (off + i * dxEntrySize) (u32le e.hash) else out).length := by
      rw [hhash, length_u32le]
      simp only [dxEntrySize]
      omega
    have hblock := length_copyAt _ _ _ hroom
    have hfit' : off + (i + 1 + rest.length) * dxEntrySize ≤
        (copyAt (if 0 < i then copyAt out (off + i * dxEntrySize) (u32le e.hash) else out)
          (off + i * dxEntrySize + 4) (u32le e.block)).length := by
      rw [hblock, hhash]
      simp only [dxEntrySize]
      omega
    cases j with
    | zero =>
      have hagree := @writeDxEntries_agree off rest (i + 1) _ hfit' (off + i * dxEntrySize)
        (off + i * dxEntrySize + 8) (Or.inl (by simp only [dxEntrySize]; omega))
      simp only [Nat.add_zero]
      unfold entryAt
      rw [hagree.u32leAt _ (Nat.le_refl _) (by omega), hagree.u32leAt _ (by omega) (by omega),
        u32leAt_copyAt _ _ _ (by rw [length_u32le] at hroom; exact hroom)]
      have hkeep := agreeOn_copyAt (if 0 < i then copyAt out (off + i * dxEntrySize)
        (u32le e.hash) else out) (off + i * dxEntrySize + 4) (u32le e.block) (off + i * dxEntrySize)
          (off + i * dxEntrySize + 4)
        (by rw [hhash]; simp only [dxEntrySize]; omega) (Or.inl (Nat.le_refl _))
      rw [hkeep.u32leAt _ (Nat.le_refl _) (Nat.le_refl _)]
      by_cases hi0 : 0 < i
      · rw [if_pos hi0, if_pos hi0, u32leAt_copyAt _ _ _ (by simp only [dxEntrySize]; omega)]
        rfl
      · obtain rfl : i = 0 := by omega
        rw [if_neg (Nat.lt_irrefl 0), if_neg (Nat.lt_irrefl 0), Nat.zero_mul, Nat.add_zero]
        rfl
    | succ j =>
      have hj' : j < rest.length := Nat.lt_of_succ_lt_succ hj
      have hstep := ih (i + 1) _ hfit' hj'
      rw [Nat.add_right_comm i 1 j, if_pos (Nat.succ_pos _)] at hstep
      rw [← Nat.add_assoc, if_pos (Nat.succ_pos _), hstep]
      rfl

end Write

section Insert

variable {block out : Bytes} {off : Nat} {newHash newBlock : UInt32}

def DxEntry.bound (e : DxEntry) : Nat := e.hash.toNat

theorem chooseEntry_eq (target : UInt32) (chosen : DxEntry) (rest : List DxEntry) :
    chooseEntry target chosen rest = lastReached DxEntry.bound target.toNat chosen rest := by
  induction rest generalizing chosen with
  | nil => rfl
  | cons e rest ih =>
    rw [chooseEntry, lastReached, ih]
    rfl

theorem insertIdx_eq_insertBound (new first : DxEntry) (rest : List DxEntry) :
    (first :: rest).insertIdx
      (((rest.findIdx? (fun e => decide (new.hash < e.hash))).map (· + 1)).getD
      (rest.length + 1)) new = first :: insertBound DxEntry.bound new rest := by
  induction rest generalizing first with
  | nil => rfl
  | cons e rest ih =>
    rw [List.findIdx?_cons, insertBound]
    change _ = first :: if new.hash < e.hash then _ else _
    by_cases hlt : new.hash < e.hash
    · simp [hlt]
    · have hrest := ih e
      cases hfind : rest.findIdx? (fun e => decide (new.hash < e.hash)) with
      | none =>
        rw [hfind] at hrest
        simpa [hlt] using hrest
      | some p =>
        rw [hfind] at hrest
        simpa [hlt] using hrest

def dxEntries (block : Bytes) (off : Nat) : List DxEntry := clearFirstHash (entriesAt block off)

theorem length_dxEntries (block : Bytes) (off : Nat) :
    (dxEntries block off).length = (countLimitAt block off).count := by
  unfold dxEntries entriesAt
  cases hcount : (countLimitAt block off).count with
  | zero => rfl
  | succ n =>
    rw [List.range_succ_eq_map]
    simp [clearFirstHash]

theorem children_eq (block : Bytes) (off : Nat) : children block off = (dxEntries block off).map
    DxEntry.block :=
  (map_block_clearFirstHash _).symm

theorem dxEntries_eq_cons (h : NodeAt block off) : ∃ first rest, dxEntries block off =
    first :: rest := by
  cases hes : dxEntries block off with
  | nil =>
    have hlen := length_dxEntries block off
    rw [hes] at hlen
    exact absurd h.nonempty (by rw [← hlen]; exact Nat.lt_irrefl 0)
  | cons first rest => exact ⟨first, rest, rfl⟩

/-- An index block with an entry more: in front of the first of the others, but for slot 0, whose
hash is greater. -/
structure InsertsEntry (block : Bytes) (off : Nat) (new : DxEntry) (out : Bytes) : Prop where
  length : out.length = block.length
  countLimit : countLimitAt out off = ⟨(countLimitAt block off).limit,
    (countLimitAt block off).count + 1⟩
  room : (countLimitAt block off).count < (countLimitAt block off).limit
  fits : off + ((countLimitAt block off).count + 1) * dxEntrySize ≤ block.length
  entries : ∀ first rest, dxEntries block off = first :: rest →
    dxEntries out off = first :: insertBound DxEntry.bound new rest
  before : AgreeOn out block 0 (off + 2)

theorem InsertsEntry.nodeAt {new : DxEntry} (h : InsertsEntry block off new out) :
    NodeAt out off where
  nonempty := by rw [h.countLimit]; exact Nat.succ_pos _
  le_limit := by rw [h.countLimit]; exact h.room
  fits := by rw [h.countLimit, h.length]; exact h.fits

theorem entryAt_congr {a b : Bytes} {lo hi i : Nat} (h : AgreeOn a b lo hi)
    (hlo : lo ≤ off + i * dxEntrySize)
    (hhi : off + i * dxEntrySize + dxEntrySize ≤ hi) : entryAt a off i = entryAt b off i := by
  simp only [dxEntrySize] at hlo hhi
  unfold entryAt
  rw [h.u32leAt _ (by simpa [dxEntrySize] using hlo) (by simp only [dxEntrySize]; omega),
    h.u32leAt _ (by simp only [dxEntrySize]; omega) (by simp only [dxEntrySize]; omega)]

theorem written_dxEntries {first : DxEntry} {rest : List DxEntry}
    (hcount : rest.length + 1 < 2 ^ 16)
    (hfit : off + (rest.length + 1) * dxEntrySize ≤ block.length)
    (hout : copyAt (writeDxEntries off 0 (first :: rest) block) (off + 2)
      (u16le (UInt16.ofNat (rest.length + 1))) = out) :
    out.length = block.length ∧
      countLimitAt out off = ⟨(countLimitAt block off).limit, rest.length + 1⟩ ∧
      dxEntries out off = { first with hash := 0 } :: rest ∧ AgreeOn out block 0 (off + 2) := by
  have hfit' : off + (0 + (first :: rest).length) * dxEntrySize ≤ block.length := by
    rw [Nat.zero_add]
    exact hfit
  have hlen := length_writeDxEntries (first :: rest) 0 block hfit'
  simp only [dxEntrySize] at hfit
  have hpatch : off + 2 + (u16le (UInt16.ofNat (rest.length + 1))).length ≤
      (writeDxEntries off 0 (first :: rest) block).length := by
    rw [hlen, length_u16le]
    omega
  have hagree := @writeDxEntries_agree off (first :: rest) 0 block hfit'
  have hkeep := agreeOn_copyAt (writeDxEntries off 0 (first :: rest) block) (off + 2)
    (u16le (UInt16.ofNat (rest.length + 1)))
  have hcountAt : u16leAt out (off + 2) = UInt16.ofNat (rest.length + 1) := by
    rw [← hout, u16leAt_copyAt _ _ _ (by rw [length_u16le] at hpatch; exact hpatch)]
  have hcl : countLimitAt out off = ⟨(countLimitAt block off).limit, rest.length + 1⟩ := by
    unfold countLimitAt
    rw [hcountAt, UInt16.toNat_ofNat_of_lt' hcount, ← hout]
    rw [(hkeep off (off + 2) (by omega) (Or.inl (Nat.le_refl _))).u16leAt off (Nat.le_refl _)
      (Nat.le_refl _),
      (@hagree off (off + 2) (Or.inl (by simp [dxEntrySize]))).u16leAt off (Nat.le_refl _)
        (Nat.le_refl _)]
  refine ⟨?_, hcl, ?_, ?_⟩
  · rw [← hout, length_copyAt _ _ _ hpatch, hlen]
  · unfold dxEntries entriesAt
    rw [hcl, List.range_succ_eq_map, List.map_cons, List.map_map, clearFirstHash]
    congr 1
    · have hblock : u32leAt out (off + 4) = first.block := by
        have hfirst := congrArg DxEntry.block
          (entryAt_writeDxEntries (first :: rest) 0 block hfit' (Nat.succ_pos rest.length))
        rw [if_neg (Nat.lt_irrefl 0)] at hfirst
        rw [← hout, (hkeep (off + 4) (off + 8) (by omega) (Or.inr (by rw [length_u16le]))).u32leAt
          (off + 4) (Nat.le_refl _) (by omega)]
        simpa [entryAt] using hfirst
      simp only [entryAt, Nat.zero_mul, Nat.add_zero, hblock]
    · apply List.ext_getElem (by simp)
      intro j hj hj'
      have hslot := entryAt_writeDxEntries (first :: rest) 0 block hfit' (Nat.succ_lt_succ hj')
      rw [Nat.zero_add, if_pos (Nat.succ_pos j), List.getElem_cons_succ] at hslot
      rw [List.getElem_map, List.getElem_range, Function.comp_apply, ← hslot, ← hout]
      apply entryAt_congr (hkeep (off + 8) (off + (rest.length + 1) * dxEntrySize) (by omega)
        (Or.inr (by rw [length_u16le]; omega)))
      · simp only [dxEntrySize]
        omega
      · simp only [dxEntrySize]
        omega
  · rw [← hout]
    refine (hkeep 0 (off + 2) (by omega) (Or.inl (Nat.le_refl _))).trans
      (@hagree 0 (off + 2) (Or.inl ?_))
    simp [dxEntrySize]

theorem planInsertDxEntryGeneric_ok (hnode : NodeAt block off)
    (h : planInsertDxEntryGeneric block off newHash newBlock = .ok out) :
    InsertsEntry block off ⟨newHash, newBlock⟩ out := by
  have hfits := hnode.fits
  have hparse := mapM_eq_ok_map
    (fun i => if block.length < off + i * dxEntrySize + dxEntrySize
      then .error (.corrupt "dx entries overrun block")
      else DxEntry.parse (slice block (off + i * dxEntrySize) dxEntrySize)) (entryAt block off)
    (List.range (countLimitAt block off).count) (by
      intro i hi
      have hi' := List.mem_range.1 hi
      have hfit : off + i * dxEntrySize + dxEntrySize ≤ block.length := by
        simp only [dxEntrySize] at hfits ⊢
        omega
      rw [if_neg (not_lt.mpr hfit)]
      exact parse_entry i hfit)
  obtain ⟨first, rest, hes⟩ := dxEntries_eq_cons hnode
  have hlen := length_dxEntries block off
  rw [hes, List.length_cons] at hlen
  unfold planInsertDxEntryGeneric at h
  rw [if_neg (by have := hnode.length_ge; simp only [dxEntrySize]; omega),
    parse_countLimit hnode] at h
  simp only [Result.ok_bind] at h
  split at h
  · cases h
  rename_i hroom
  have hlt : (countLimitAt block off).count < (countLimitAt block off).limit := not_le.mp hroom
  rw [if_neg (show ¬ (countLimitAt block off).count = 0 from Nat.ne_of_gt hnode.nonempty)] at h
  rw [hparse, Result.ok_bind] at h
  rw [show clearFirstHash (List.map (entryAt block off)
    (List.range (countLimitAt block off).count)) =
    dxEntries block off from rfl, hes, List.drop_one, List.tail_cons, List.length_cons] at h
  split at h
  · cases h
  rw [insertIdx_eq_insertBound ⟨newHash, newBlock⟩ first rest, List.length_cons,
    (insertBound_perm _ _).length_eq, List.length_cons] at h
  split at h
  · cases h
  rename_i hexceed
  have hmax : (countLimitAt block off).limit < 2 ^ 16 := UInt16.toNat_lt _
  have hbound := (@insertBound_perm _ _ _ DxEntry.bound ⟨newHash, newBlock⟩ rest).length_eq
  rw [List.length_cons] at hbound
  obtain ⟨hlength, hcl, hentries, hbefore⟩ := @written_dxEntries block out off first
    (insertBound DxEntry.bound ⟨newHash, newBlock⟩ rest) (by omega)
      (by rw [hbound]; exact not_lt.mp hexceed)
    (by rw [hbound, hlen]; exact Except.ok.inj h)
  rw [hbound, hlen] at hcl
  refine ⟨hlength, hcl, hlt, by rw [← hlen]; exact not_lt.mp hexceed, ?_, hbefore⟩
  intro first' rest' hes'
  obtain ⟨rfl, rfl⟩ := List.cons.inj (hes.symm.trans hes')
  rw [hentries]
  congr 1
  unfold dxEntries at hes
  cases hraw : entriesAt block off with
  | nil =>
    rw [hraw] at hes
    cases hes
  | cons e es =>
    rw [hraw] at hes
    obtain ⟨rfl, -⟩ := List.cons.inj hes
    rfl

def chosenBlock (block : Bytes) (off : Nat) (target : UInt32) : UInt32 :=
  (findEntryForHash (dxEntries block off) target).block

theorem chosenBlock_mem (h : NodeAt block off) (target : UInt32) :
    chosenBlock block off target ∈ children block off :=
  (chosen_mem_children h target).2

theorem InsertsEntry.children {new : DxEntry} (h : InsertsEntry block off new out)
    (hnode : NodeAt block off) : (children out off).Perm (new.block :: children block off) := by
  obtain ⟨first, rest, hes⟩ := dxEntries_eq_cons hnode
  rw [children_eq, children_eq, h.entries first rest hes, hes, List.map_cons, List.map_cons]
  exact (((insertBound_perm new rest).map DxEntry.block).cons first.block).trans
    (List.Perm.swap _ _ _)

theorem InsertsEntry.chosenBlock {new : DxEntry} (h : InsertsEntry block off new out)
    (hnode : NodeAt block off) (hdistinct : (Htree.children block off).Nodup) (target : UInt32) :
    Htree.chosenBlock out off target =
      if new.hash ≤ target ∧ Htree.chosenBlock block off target = Htree.chosenBlock block off
        new.hash then new.block
      else Htree.chosenBlock block off target := by
  obtain ⟨first, rest, hes⟩ := dxEntries_eq_cons hnode
  rw [children_eq, hes] at hdistinct
  have hreached := @lastReached_insertBound _ _ _ _ DxEntry.bound _ DxEntry.block first rest
    hdistinct new target.toNat
  have hold : ∀ t, Htree.chosenBlock block off t =
      (lastReached DxEntry.bound t.toNat first rest).block := by
    intro t
    unfold Htree.chosenBlock findEntryForHash
    rw [hes, ← chooseEntry_eq]
  have hnew : Htree.chosenBlock out off target =
      (lastReached DxEntry.bound target.toNat first
        (insertBound DxEntry.bound new rest)).block := by
    unfold Htree.chosenBlock findEntryForHash
    rw [h.entries first rest hes, ← chooseEntry_eq]
  rw [hnew, hreached, hold, hold, apply_ite DxEntry.block]
  rfl

end Insert

end FsExt4.Htree
