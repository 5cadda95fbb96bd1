import FsExt4.Error
import FsExt4.Hash

namespace FsExt4.Htree

open Lib Hash

structure DxRootInfo where
  reservedZero : UInt32
  hashVersion : HashVersion
  infoLength : Nat
  indirectLevels : Nat
  unusedFlags : UInt8
  deriving DecidableEq

structure DxCountLimit where
  limit : Nat
  count : Nat
  deriving DecidableEq

structure DxEntry where
  hash : UInt32
  block : UInt32
  deriving DecidableEq

def dxEntrySize : Nat := 8

def DxCountLimit.parse (buf : Bytes) : Result DxCountLimit := do
  if buf.length < 4 then throw (.corrupt "dx count_limit buffer too small")
  return ⟨(u16leAt buf 0).toNat, (u16leAt buf 2).toNat⟩

def DxEntry.parse (buf : Bytes) : Result DxEntry := do
  if buf.length < dxEntrySize then throw (.corrupt "dx entry buffer too small")
  return ⟨u32leAt buf 0, u32leAt buf 4⟩

def parseRootInfo (block : Bytes) : Result DxRootInfo := do
  if block.length < 32 then throw (.corrupt "dx root block too small")
  if u32leAt block 24 ≠ 0 then throw (.corrupt "dx root reserved must be 0")
  match HashVersion.fromU8 (block.getD 28 0) with
  | none => throw (.corrupt "unknown htree hash version")
  | some hashVersion =>
    return {
      reservedZero := u32leAt block 24
      hashVersion := hashVersion
      infoLength := (block.getD 29 0).toNat
      indirectLevels := (block.getD 30 0).toNat
      unusedFlags := block.getD 31 0 }

def parseEntriesFrom (block : Bytes) (start : Nat) (cl : DxCountLimit) :
    Result (DxCountLimit × List DxEntry) := do
  if cl.count = 0 then throw (.corrupt "dx node has zero entries")
  if cl.limit < cl.count then throw (.corrupt "dx count > limit")
  if block.length < start + cl.count * dxEntrySize then throw (.corrupt "dx entries overflow block")
  let out ← (List.range cl.count).mapM
    (fun i => DxEntry.parse (slice block (start + i * dxEntrySize) dxEntrySize))
  return (cl, out)

/-- Slot 0 keeps the limit and the count where its hash would be: it covers every hash from 0. -/
def clearFirstHash : List DxEntry → List DxEntry
  | [] => []
  | first :: rest => { first with hash := 0 } :: rest

def parseRootEntries (block : Bytes) : Result (DxCountLimit × List DxEntry) := do
  let info ← parseRootInfo block
  let clOffset := 24 + info.infoLength
  if block.length < clOffset + 4 then throw (.corrupt "dx root count_limit out of range")
  let cl ← DxCountLimit.parse (slice block clOffset 4)
  let (cl, entries) ← parseEntriesFrom block clOffset cl
  return (cl, clearFirstHash entries)

def parseNodeEntries (block : Bytes) : Result (DxCountLimit × List DxEntry) := do
  if block.length < 8 + 4 then throw (.corrupt "dx node block too small")
  let cl ← DxCountLimit.parse (slice block 8 4)
  let (cl, entries) ← parseEntriesFrom block 8 cl
  return (cl, clearFirstHash entries)

/-- The last entry of `rest` before the first one past `target`, or `chosen`. -/
def chooseEntry (target : UInt32) : DxEntry → List DxEntry → DxEntry
  | chosen, [] => chosen
  | chosen, e :: rest => if e.hash ≤ target then chooseEntry target e rest else chosen

/-- The entry whose hash range covers `target`; a node has at least one entry. -/
def findEntryForHash (entries : List DxEntry) (target : UInt32) : DxEntry :=
  match entries with
  | [] => ⟨0, 0⟩
  | first :: rest => chooseEntry target first rest

/-- The descent through the intermediate nodes below `target`, one for each level left. -/
def descend (major : UInt32) (readDxBlock : UInt32 → DevIo Bytes) :
    Nat → UInt32 → DevIo (Option UInt32)
  | 0, target => pure (some target)
  | levels + 1, target => do
    let block ← readDxBlock target
    let (_, entries) ← liftM (parseNodeEntries block)
    if entries.isEmpty then return none
    descend major readDxBlock levels (findEntryForHash entries major).block

/-- The leaf of the directory, by logical block, that a name's hash leads to. -/
def lookupLeafWith (name rootBlock : Bytes) (hashSeed : List UInt32) (unsignedHash : Bool)
    (readDxBlock : UInt32 → DevIo Bytes) : DevIo (Option UInt32) := do
  let info ← liftM (parseRootInfo rootBlock)
  let version := effectiveVersion info.hashVersion unsignedHash
  let hash := nameHash name version hashSeed
  let (_, entries) ← liftM (parseRootEntries rootBlock)
  if entries.isEmpty then return none
  descend hash.major readDxBlock info.indirectLevels (findEntryForHash entries hash.major).block

def countLimitAt (block : Bytes) (off : Nat) : DxCountLimit :=
  ⟨(u16leAt block off).toNat, (u16leAt block (off + 2)).toNat⟩

def entryAt (block : Bytes) (off i : Nat) : DxEntry :=
  ⟨u32leAt block (off + i * dxEntrySize), u32leAt block (off + i * dxEntrySize + 4)⟩

def entriesAt (block : Bytes) (off : Nat) : List DxEntry :=
  (List.range (countLimitAt block off).count).map (entryAt block off)

/-- A node's array of entries starts at `off`: its count is in range and its entries fit. -/
structure NodeAt (block : Bytes) (off : Nat) : Prop where
  nonempty : 0 < (countLimitAt block off).count
  le_limit : (countLimitAt block off).count ≤ (countLimitAt block off).limit
  fits : off + (countLimitAt block off).count * dxEntrySize ≤ block.length

def children (block : Bytes) (off : Nat) : List UInt32 := (entriesAt block off).map DxEntry.block

section Parse

variable {block : Bytes} {off : Nat}

theorem u16leAt_slice (b : Bytes) (o n p : Nat) (h : p + 2 ≤ n) :
    u16leAt (slice b o n) p = u16leAt b (o + p) := by
  rw [u16leAt, u16leAt, slice_slice b o n p 2 h]

theorem u32leAt_slice (b : Bytes) (o n p : Nat) (h : p + 4 ≤ n) :
    u32leAt (slice b o n) p = u32leAt b (o + p) := by
  rw [u32leAt, u32leAt, slice_slice b o n p 4 h]

theorem NodeAt.length_ge (h : NodeAt block off) : off + 8 ≤ block.length := by
  have h1 := h.nonempty
  have h2 := h.fits
  simp only [dxEntrySize] at h2
  omega

theorem parse_countLimit (h : NodeAt block off) :
    DxCountLimit.parse (slice block off 4) = .ok (countLimitAt block off) := by
  have hlen : ¬ (slice block off 4).length < 4 := by
    rw [length_slice_of_le _ _ _ (by have := h.length_ge; omega)]
    omega
  rw [DxCountLimit.parse, if_neg hlen, u16leAt_slice _ _ _ _ (by omega),
    u16leAt_slice _ _ _ _ (by omega)]
  rfl

theorem parse_entry (i : Nat) (h : off + i * dxEntrySize + dxEntrySize ≤ block.length) :
    DxEntry.parse (slice block (off + i * dxEntrySize) dxEntrySize) =
      .ok (entryAt block off i) := by
  have hlen : ¬ (slice block (off + i * dxEntrySize) dxEntrySize).length < dxEntrySize := by
    rw [length_slice_of_le _ _ _ h]
    omega
  rw [DxEntry.parse, if_neg hlen, u32leAt_slice _ _ _ _ (by simp [dxEntrySize]),
    u32leAt_slice _ _ _ _ (by simp [dxEntrySize])]
  rfl

theorem mapM_eq_ok_map {α β : Type} (f : α → Result β) (g : α → β) (xs : List α)
    (h : ∀ x ∈ xs, f x = .ok (g x)) : xs.mapM f = .ok (xs.map g) := by
  induction xs with
  | nil => rfl
  | cons x xs ih =>
    rw [List.mapM_cons, h x List.mem_cons_self, ih (fun y hy => h y (List.mem_cons_of_mem _ hy))]
    rfl

theorem parseEntriesFrom_ok (h : NodeAt block off) :
    parseEntriesFrom block off (countLimitAt block off) =
      .ok (countLimitAt block off, entriesAt block off) := by
  have hfits := h.fits
  have hparse := mapM_eq_ok_map
    (fun i => DxEntry.parse (slice block (off + i * dxEntrySize) dxEntrySize)) (entryAt block off)
    (List.range (countLimitAt block off).count) (by
      intro i hi
      refine parse_entry i ?_
      have hi' := List.mem_range.1 hi
      simp only [dxEntrySize] at hfits ⊢
      omega)
  rw [parseEntriesFrom, if_neg (by have := h.nonempty; omega),
    if_neg (by have := h.le_limit; omega), if_neg (by omega), hparse]
  rfl

theorem parseNodeEntries_ok (h : NodeAt block 8) :
    parseNodeEntries block = .ok (countLimitAt block 8, clearFirstHash (entriesAt block 8)) := by
  have hlen := h.length_ge
  rw [parseNodeEntries, if_neg (by omega), parse_countLimit h]
  dsimp only [bind, Except.bind]
  rw [parseEntriesFrom_ok h]
  rfl

theorem parseRootEntries_ok {info : DxRootInfo} (hinfo : parseRootInfo block = .ok info)
    (h : NodeAt block (24 + info.infoLength)) :
    parseRootEntries block = .ok (countLimitAt block (24 + info.infoLength),
      clearFirstHash (entriesAt block (24 + info.infoLength))) := by
  have hlen := h.length_ge
  rw [parseRootEntries, hinfo]
  dsimp only [bind, Except.bind]
  rw [if_neg (by omega), parse_countLimit h]
  dsimp only [pure, Except.pure]
  rw [parseEntriesFrom_ok h]

theorem parseRootInfo_eq (hlen : 32 ≤ block.length) (hreserved : u32leAt block 24 = 0) :
    parseRootInfo block =
      match HashVersion.fromU8 (block.getD 28 0) with
      | none => .error (.corrupt "unknown htree hash version")
      | some version =>
        .ok ⟨0, version, (block.getD 29 0).toNat, (block.getD 30 0).toNat, block.getD 31 0⟩ := by
  rw [parseRootInfo, if_neg (by omega), if_neg (by simp [hreserved]), hreserved]
  cases HashVersion.fromU8 (block.getD 28 0) <;> rfl

theorem chooseEntry_mem (target : UInt32) (chosen : DxEntry) (rest : List DxEntry) :
    chooseEntry target chosen rest ∈ chosen :: rest := by
  induction rest generalizing chosen with
  | nil => exact List.mem_cons_self
  | cons e rest ih =>
    rw [chooseEntry]
    split
    · exact List.mem_cons_of_mem _ (ih e)
    · exact List.mem_cons_self

theorem findEntryForHash_mem {entries : List DxEntry} (h : entries ≠ []) (target : UInt32) :
    findEntryForHash entries target ∈ entries := by
  cases entries with
  | nil => exact absurd rfl h
  | cons first rest => exact chooseEntry_mem target first rest

theorem map_block_clearFirstHash (entries : List DxEntry) :
    (clearFirstHash entries).map DxEntry.block = entries.map DxEntry.block := by
  cases entries <;> rfl

theorem chosen_mem_children (h : NodeAt block off) (target : UInt32) :
    (clearFirstHash (entriesAt block off)).isEmpty = false ∧
      (findEntryForHash (clearFirstHash (entriesAt block off)) target).block ∈
        children block off := by
  have hne : clearFirstHash (entriesAt block off) ≠ [] := by
    intro hnil
    have hlen := congrArg List.length (map_block_clearFirstHash (entriesAt block off))
    have hcount := h.nonempty
    rw [hnil] at hlen
    simp only [entriesAt, List.map_nil, List.length_nil, List.length_map, List.length_range] at hlen
    omega
  refine ⟨by simpa using hne, ?_⟩
  rw [children, ← map_block_clearFirstHash]
  exact List.mem_map_of_mem (findEntryForHash_mem hne target)

end Parse

section Refusals

variable {e : Error}

theorem bind_ne_error {α β : Type} {x : Result α} {f : α → Result β} (hx : x ≠ .error e)
    (hf : ∀ a, x = .ok a → f a ≠ .error e) : (x >>= f) ≠ .error e := by
  cases x with
  | error e' => exact fun h => hx (congrArg Except.error (Except.error.inj h))
  | ok a => exact hf a rfl

theorem parseRootInfo_ne_notFound (block : Bytes) : parseRootInfo block ≠ .error .notFound := by
  intro h
  rw [parseRootInfo] at h
  by_cases hlen : block.length < 32
  · rw [if_pos hlen] at h
    cases h
  · rw [if_neg hlen] at h
    by_cases hreserved : u32leAt block 24 ≠ 0
    · rw [if_pos hreserved] at h
      cases h
    · rw [if_neg hreserved] at h
      cases hversion : HashVersion.fromU8 (block.getD 28 0) with
      | none =>
        rw [hversion] at h
        cases h
      | some version =>
        rw [hversion] at h
        cases h

theorem DxCountLimit.parse_ne_notFound (buf : Bytes) : DxCountLimit.parse buf ≠
    .error .notFound := by
  unfold DxCountLimit.parse
  split <;> nofun

theorem mapM_ne_error {α β : Type} {f : α → Result β} (hf : ∀ a, f a ≠ .error e) (xs : List α) :
    xs.mapM f ≠ .error e := by
  induction xs with
  | nil => nofun
  | cons x xs ih =>
    rw [List.mapM_cons]
    exact bind_ne_error (hf x) fun _ _ => bind_ne_error ih fun _ _ => nofun

theorem parseEntriesFrom_eq (block : Bytes) (start : Nat) (cl : DxCountLimit) :
    (∃ msg, parseEntriesFrom block start cl = .error (.corrupt msg)) ∨
      (0 < cl.count ∧ parseEntriesFrom block start cl =
        ((List.range cl.count).mapM
          (fun i => DxEntry.parse (slice block (start + i * dxEntrySize) dxEntrySize)) >>=
          fun out => .ok (cl, out))) := by
  rw [parseEntriesFrom]
  by_cases hcount : cl.count = 0
  · rw [if_pos hcount]
    exact .inl ⟨_, rfl⟩
  · rw [if_neg hcount]
    by_cases hlimit : cl.limit < cl.count
    · rw [if_pos hlimit]
      exact .inl ⟨_, rfl⟩
    · rw [if_neg hlimit]
      by_cases hfits : block.length < start + cl.count * dxEntrySize
      · rw [if_pos hfits]
        exact .inl ⟨_, rfl⟩
      · rw [if_neg hfits]
        exact .inr ⟨Nat.pos_of_ne_zero hcount, rfl⟩

theorem parseEntriesFrom_ne_notFound (block : Bytes) (start : Nat) (cl : DxCountLimit) :
    parseEntriesFrom block start cl ≠ .error .notFound := by
  obtain ⟨msg, h⟩ | ⟨-, h⟩ := parseEntriesFrom_eq block start cl
  · rw [h]
    nofun
  · rw [h]
    refine bind_ne_error (mapM_ne_error (fun i => ?_) _) fun _ _ => nofun
    unfold DxEntry.parse
    split <;> nofun

theorem length_mapM {α β : Type} {f : α → Result β} {xs : List α} {ys : List β}
    (h : xs.mapM f = .ok ys) :
    ys.length = xs.length := by
  induction xs generalizing ys with
  | nil =>
    obtain rfl : [] = ys := Except.ok.inj h
    rfl
  | cons x xs ih =>
    rw [List.mapM_cons] at h
    obtain ⟨y, -, h⟩ := Result.bind_eq_ok h
    obtain ⟨ys', hys, h⟩ := Result.bind_eq_ok h
    obtain rfl : y :: ys' = ys := Except.ok.inj h
    rw [List.length_cons, List.length_cons, ih hys]

theorem parseEntriesFrom_ne_nil {block : Bytes} {start : Nat} {cl limits : DxCountLimit}
    {entries : List DxEntry} (h : parseEntriesFrom block start cl = .ok (limits, entries)) :
      clearFirstHash entries ≠ [] := by
  obtain ⟨msg, herr⟩ | ⟨hcount, heq⟩ := parseEntriesFrom_eq block start cl
  · rw [herr] at h
    cases h
  · rw [heq] at h
    obtain ⟨out, hout, h⟩ := Result.bind_eq_ok h
    obtain ⟨-, rfl⟩ := Prod.mk.inj (Except.ok.inj h)
    have hlen := length_mapM hout
    rw [List.length_range] at hlen
    cases out with
    | nil => exact absurd hlen.symm (Nat.ne_of_gt hcount)
    | cons first rest => exact List.cons_ne_nil _ _

theorem parseNodeEntries_ne_notFound (block : Bytes) : parseNodeEntries block ≠
    .error .notFound := by
  rw [parseNodeEntries]
  by_cases hlen : block.length < 8 + 4
  · rw [if_pos hlen]
    exact fun h => by cases h
  · rw [if_neg hlen]
    exact bind_ne_error (DxCountLimit.parse_ne_notFound _) fun _ _ =>
      bind_ne_error (parseEntriesFrom_ne_notFound _ _ _) fun _ _ => nofun

theorem parseNodeEntries_ne_nil {block : Bytes} {limits : DxCountLimit} {entries : List DxEntry}
    (h : parseNodeEntries block = .ok (limits, entries)) : entries ≠ [] := by
  rw [parseNodeEntries] at h
  by_cases hlen : block.length < 8 + 4
  · rw [if_pos hlen] at h
    cases h
  · rw [if_neg hlen] at h
    obtain ⟨cl, -, h⟩ := Result.bind_eq_ok h
    obtain ⟨⟨limits', out⟩, hout, h⟩ := Result.bind_eq_ok h
    obtain ⟨-, rfl⟩ := Prod.mk.inj (Except.ok.inj h)
    exact parseEntriesFrom_ne_nil hout

theorem parseRootEntries_ne_notFound (block : Bytes) : parseRootEntries block ≠
    .error .notFound := by
  rw [parseRootEntries]
  refine bind_ne_error (parseRootInfo_ne_notFound block) fun info _ => ?_
  by_cases hlen : block.length < 24 + info.infoLength + 4
  · rw [if_pos hlen]
    exact fun h => by cases h
  · rw [if_neg hlen]
    exact bind_ne_error (DxCountLimit.parse_ne_notFound _) fun _ _ =>
      bind_ne_error (parseEntriesFrom_ne_notFound _ _ _) fun _ _ => nofun

theorem parseRootEntries_ne_nil {block : Bytes} {limits : DxCountLimit} {entries : List DxEntry}
    (h : parseRootEntries block = .ok (limits, entries)) : entries ≠ [] := by
  rw [parseRootEntries] at h
  obtain ⟨info, -, h⟩ := Result.bind_eq_ok h
  by_cases hlen : block.length < 24 + info.infoLength + 4
  · rw [if_pos hlen] at h
    cases h
  · rw [if_neg hlen] at h
    obtain ⟨cl, -, h⟩ := Result.bind_eq_ok h
    obtain ⟨⟨limits', out⟩, hout, h⟩ := Result.bind_eq_ok h
    obtain ⟨-, rfl⟩ := Prod.mk.inj (Except.ok.inj h)
    exact parseEntriesFrom_ne_nil hout

end Refusals

end FsExt4.Htree
