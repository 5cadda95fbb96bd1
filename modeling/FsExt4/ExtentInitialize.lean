import FsExt4.Fallocate

namespace FsExt4

open Lib

def readLeafEntries (root : Bytes) : Result (ExtentHeader × List Extent) := do
  let header ← ExtentHeader.parse root
  if !header.isLeaf then throw (.corruptExtentTree multiLevel)
  let entries ← parseLeafEntries root header
  return (header, entries)

def addWrapping (width a b : Nat) : Nat × Bool := ((a + b) % 2 ^ width, decide (2 ^ width ≤ a + b))

def subWrapping (width a b : Nat) : Nat × Bool :=
  ((2 ^ width + a - b) % 2 ^ width, decide (a < b))

def Extent.piece (e : Extent) (start stop : Nat) (uninitialized : Bool) : Extent × Bool :=
  let length := subWrapping 32 stop start
  let skipped := subWrapping 32 start e.logicalBlock
  let physical := addWrapping 64 e.physicalBlock skipped.1
  (⟨start, length.1 % 2 ^ 16, physical.1, uninitialized⟩, length.2 || skipped.2 || physical.2)

/-- What one extent becomes, the blocks of it that change state, and whether a sum wrapped. -/
structure SplitExtent where
  pieces : List Extent
  converted : List Nat
  wrapped : Bool

def Extent.splitRange (first stop : Nat) (e : Extent) : SplitExtent :=
  let el := e.logicalBlock
  let er := addWrapping 32 el e.length
  if e.uninitialized = false ∨ er.1 ≤ first ∨ stop ≤ el then ⟨[e], [], er.2⟩
  else
    let lo := max el first
    let hi := min er.1 stop
    let pieces := (if el < lo then [e.piece el lo true] else []) ++ [e.piece lo hi false] ++
      (if hi < er.1 then [e.piece hi er.1 true] else [])
    ⟨pieces.map Prod.fst, List.range' lo (hi - lo), er.2 || pieces.any Prod.snd⟩

/-- Whether testing two extents for contiguity, or joining them, wraps a sum. -/
def joinWraps (a b : Extent) : Bool :=
  a.uninitialized == b.uninitialized &&
    decide (a.length + b.length ≤ maxExtentLen a.uninitialized) &&
    (decide (2 ^ 64 ≤ a.physicalBlock + a.length) ||
      areContiguous a b && decide (2 ^ 16 ≤ a.length + b.length))

def mergeLast (merged : List Extent × Bool) (e : Extent) : List Extent × Bool :=
  match merged.1.getLast? with
  | none => (merged.1 ++ [e], merged.2)
  | some prev =>
    (if areContiguous prev e then
      merged.1.dropLast ++ [{ prev with length := prev.length + e.length }]
    else merged.1 ++ [e], merged.2 || joinWraps prev e)

def encodeWraps (e : Extent) : Bool :=
  e.uninitialized && decide (2 ^ 16 ≤ e.length + extInitMaxLen)

/-- The new root and the logical blocks that changed state, with whether any sum on the way
wrapped. -/
structure InitializedRange where
  root : Bytes
  converted : List Nat
  wrapped : Bool

def planInitializeRange (root : Bytes) (first stop : Nat) : Result InitializedRange := do
  let (header, entries) ← readLeafEntries root
  let split := entries.map (Extent.splitRange first stop)
  let merged := (split.flatMap SplitExtent.pieces).foldl mergeLast ([], false)
  if header.max < merged.1.length % 2 ^ 16 then
    throw (.corruptExtentTree
      "LEAF_FULL_NEEDS_PROMOTION: initializing part of an extent exceeds root capacity")
  let newRoot ← buildRoot header merged.1 root.length
  return {
    root := newRoot
    converted := split.flatMap SplitExtent.converted
    wrapped := split.any SplitExtent.wrapped || merged.2 || merged.1.any encodeWraps }

theorem readLeafEntries_eq_ok {root : Bytes} {header : ExtentHeader} {es : List Extent} :
    readLeafEntries root = .ok (header, es) ↔ ExtentHeader.parse root = .ok header ∧
      header.depth = 0 ∧ parseLeafEntries root header = .ok es := by
  unfold readLeafEntries
  cases hparse : ExtentHeader.parse root with
  | error e =>
    constructor
    · intro h
      cases h
    · rintro ⟨h, -, -⟩
      cases h
  | ok found =>
    by_cases hdepth : found.depth = 0
    · have hleaf : found.isLeaf = true := by simp [ExtentHeader.isLeaf, hdepth]
      simp only [bind, Except.bind, hleaf, Bool.not_true, Bool.false_eq_true, if_false]
      cases hentries : parseLeafEntries root found with
      | error e =>
        constructor
        · intro h
          cases h
        · rintro ⟨hf, -, hes⟩
          obtain rfl := Except.ok.inj hf
          rw [hentries] at hes
          cases hes
      | ok found' =>
        constructor
        · intro h
          cases h
          exact ⟨rfl, hdepth, hentries⟩
        · rintro ⟨hf, -, hes⟩
          obtain rfl := Except.ok.inj hf
          obtain rfl := Except.ok.inj (hentries.symm.trans hes)
          rfl
    · have hleaf : found.isLeaf = false := by simp [ExtentHeader.isLeaf, hdepth]
      simp only [bind, Except.bind, hleaf, Bool.not_false, if_true]
      constructor
      · intro h
        cases h
      · rintro ⟨hf, hd, -⟩
        obtain rfl := Except.ok.inj hf
        exact absurd hd hdepth

section InlineRoot

variable {root : Bytes} {header : ExtentHeader} {es : List Extent}
  (hread : readLeafEntries root = .ok (header, es))

include hread

theorem length_le_four (hlength : root.length = 60) : es.length ≤ 4 := by
  obtain ⟨-, -, hentries⟩ := readLeafEntries_eq_ok.mp hread
  by_contra hlong
  have hslot := ((mapM_range_eq_ok_iff _ _ _).mp hentries).2 4 (by omega)
  rw [entryAt, if_pos (by rw [hlength]; decide)] at hslot
  cases hslot

theorem inOrder_of_read (hapart : Apart Extent.logicalBlock Extent.length es)
    (hpos : ∀ e ∈ es, 1 ≤ e.length) : InOrder es := by
  obtain ⟨-, -, hentries⟩ := readLeafEntries_eq_ok.mp hread
  refine ⟨hapart, ?_⟩
  intro e he
  obtain ⟨raw, hraw⟩ := parse_of_mem hentries he
  exact Extent.valid_of_parse hraw (Nat.pos_iff_ne_zero.mp (hpos e he))

theorem header_max_lt : header.max < 2 ^ 16 := by
  obtain ⟨hparse, -, -⟩ := readLeafEntries_eq_ok.mp hread
  rw [(ExtentHeader.parse_eq_ok.mp hparse).2.2.2]
  exact UInt16.toNat_lt _

theorem readLeafEntries_buildNode {es' : List Extent} (hvalid : ∀ e ∈ es', e.Valid)
    (hfit : es'.length ≤ header.max) (len : Nat) :
    readLeafEntries (buildNode len header.max header.depth header.generation
      (es'.map encodeExtent)) =
      .ok (⟨es'.length, header.max, 0, header.generation⟩, es') := by
  obtain ⟨-, hdepth, -⟩ := readLeafEntries_eq_ok.mp hread
  have hmax := header_max_lt hread
  rw [readLeafEntries_eq_ok, hdepth]
  refine ⟨?_, rfl, ?_⟩
  · rw [parse_buildNode (by rwa [List.length_map]) hmax (by decide), List.length_map]
  · exact parseEntries_buildNode length_encodeExtent
      (fun e he => parse_encodeExtent e (hvalid e he))

end InlineRoot

theorem addWrapping_of_lt {width a b : Nat} (h : a + b < 2 ^ width) :
    addWrapping width a b = (a + b, false) := by
  rw [addWrapping, Nat.mod_eq_of_lt h, decide_eq_false (Nat.not_le.mpr h)]

theorem subWrapping_of_le {width a b : Nat} (hle : b ≤ a) (h : a < 2 ^ width) :
    subWrapping width a b = (a - b, false) := by
  have hsub : 2 ^ width + a - b = a - b + 2 ^ width := by omega
  rw [subWrapping, hsub, Nat.add_mod_right, Nat.mod_eq_of_lt (by omega),
    decide_eq_false (Nat.not_lt.mpr hle)]

def stateAfter (first stop logical : Nat) (uninitialized : Bool) : Bool :=
  uninitialized && !decide (first ≤ logical ∧ logical < stop)

/-- The pieces cover what the extent covered, uninitialized only outside the range. -/
structure SplitInto (first stop : Nat) (e : Extent) (s : SplitExtent) : Prop where
  inOrder : InOrder s.pieces
  within : ∀ p ∈ s.pieces, e.logicalBlock ≤ p.logicalBlock ∧
    p.logicalBlock + p.length ≤ e.logicalBlock + e.length
  mapping : ∀ logical, mapping s.pieces logical =
    if e.contains logical then some (e.map logical, stateAfter first stop logical e.uninitialized)
    else none
  ascending : s.converted.Pairwise (· < ·)
  converted : ∀ logical, logical ∈ s.converted ↔
    e.contains logical = true ∧ e.uninitialized = true ∧ first ≤ logical ∧ logical < stop
  few : s.pieces.length ≤ 3
  exact : s.wrapped = false

theorem mapping_singleton (e : Extent) (logical : Nat) :
    mapping [e] logical = if e.contains logical
      then some (e.map logical, e.uninitialized) else none := by
  unfold mapping
  by_cases hc : e.contains logical = true
  · rw [List.find?_cons_of_pos (by rwa [← Extent.contains_eq_covers]), if_pos hc]
    rfl
  · rw [List.find?_cons_of_neg (by rwa [← Extent.contains_eq_covers]), if_neg hc]
    rfl

theorem mapping_append (a b : List Extent) (logical : Nat) :
    mapping (a ++ b) logical = (mapping a logical).or (mapping b logical) := by
  unfold mapping
  rw [List.find?_append, Option.map_or]

section Split

variable {e : Extent} {first stop : Nat}

theorem splitInto_untouched (hvalid : e.Valid)
    (hout : e.uninitialized = false ∨ e.logicalBlock + e.length ≤ first ∨ stop ≤ e.logicalBlock) :
    SplitInto first stop e ⟨[e], [], false⟩ where
  inOrder := ⟨List.pairwise_singleton _ _, by simpa using hvalid⟩
  within := by simp
  mapping := by
    intro logical
    rw [mapping_singleton]
    by_cases hc : e.contains logical = true
    · have hrange := contains_iff.mp hc
      rw [if_pos hc, if_pos hc]
      congr 2
      unfold stateAfter
      obtain hinit | hout := hout
      · rw [hinit]
        rfl
      · rw [decide_eq_false (by omega)]
        simp
    · rw [if_neg hc, if_neg hc]
  ascending := List.Pairwise.nil
  converted := by
    intro logical
    refine ⟨nofun, ?_⟩
    rintro ⟨hc, huninit, hge, hlt⟩
    have hrange := contains_iff.mp hc
    obtain hinit | hout := hout
    · rw [hinit] at huninit
      cases huninit
    · omega
  few := by simp
  exact := rfl

/-- The blocks `[start, stop)` of an extent, in a state of their own. -/
def Extent.part (e : Extent) (start stop : Nat) (uninitialized : Bool) : Extent :=
  ⟨start, stop - start, e.physicalBlock + (start - e.logicalBlock), uninitialized⟩

def Extent.parts (e : Extent) (start stop : Nat) (uninitialized : Bool) : List Extent :=
  if start < stop then [e.part start stop uninitialized] else []

theorem Extent.mem_parts {start stop : Nat} {uninitialized : Bool} {p : Extent}
    (h : p ∈ e.parts start stop uninitialized) : start < stop ∧
    p = e.part start stop uninitialized := by
  unfold Extent.parts at h
  split at h
  · exact ⟨by assumption, List.mem_singleton.mp h⟩
  · cases h

theorem Extent.length_parts (start stop : Nat) (uninitialized : Bool) :
    (e.parts start stop uninitialized).length ≤ 1 := by
  unfold Extent.parts
  split <;> simp

theorem mapping_parts {start stop : Nat} (hstart : e.logicalBlock ≤ start) (uninitialized : Bool)
    (logical : Nat) : mapping (e.parts start stop uninitialized) logical =
      if start ≤ logical ∧ logical < stop then some (e.map logical, uninitialized) else none := by
  unfold Extent.parts
  by_cases hlt : start < stop
  · rw [if_pos hlt, mapping_singleton]
    by_cases hin : start ≤ logical ∧ logical < stop
    · have hc : (e.part start stop uninitialized).contains logical = true := by
        rw [contains_iff]
        dsimp only [Extent.part]
        omega
      rw [if_pos hc, if_pos hin]
      simp only [Extent.part, Extent.map, Option.some.injEq, Prod.mk.injEq, and_true]
      omega
    · have hc : ¬ (e.part start stop uninitialized).contains logical = true := by
        rw [contains_iff]
        dsimp only [Extent.part]
        omega
      rw [if_neg hc, if_neg hin]
  · rw [if_neg hlt, if_neg (by omega)]
    rfl

theorem inOrder_parts (hvalid : e.Valid) (huninit : e.uninitialized = true) {lo hi : Nat}
    (hlo : e.logicalBlock ≤ lo) (hlohi : lo ≤ hi) (hhi : hi ≤ e.logicalBlock + e.length)
    (hlo48 : e.logicalBlock < lo → e.physicalBlock + (lo - e.logicalBlock) < 2 ^ 48)
    (hhi48 : hi < e.logicalBlock + e.length → e.physicalBlock + (hi - e.logicalBlock) < 2 ^ 48)
    (hlast : e.logicalBlock + e.length ≤ 2 ^ 32) :
    InOrder (e.parts e.logicalBlock lo true ++ e.parts lo hi false ++
      e.parts hi (e.logicalBlock + e.length) true) := by
  have hlen := hvalid.len
  have hphysical := hvalid.physical
  rw [huninit] at hlen
  simp only [maxExtentLen, extInitMaxLen, if_true] at hlen
  constructor
  · refine List.pairwise_append.mpr ⟨List.pairwise_append.mpr ⟨?_, ?_, ?_⟩, ?_, ?_⟩
    · unfold Extent.parts
      split <;> simp
    · unfold Extent.parts
      split <;> simp
    · intro a ha b hb
      obtain ⟨hlt, rfl⟩ := Extent.mem_parts ha
      obtain ⟨hlt', rfl⟩ := Extent.mem_parts hb
      dsimp only [Extent.part]
      omega
    · unfold Extent.parts
      split <;> simp
    · intro a ha b hb
      obtain ⟨hlt', rfl⟩ := Extent.mem_parts hb
      obtain ha | ha := List.mem_append.mp ha
      · obtain ⟨hlt, rfl⟩ := Extent.mem_parts ha
        dsimp only [Extent.part]
        omega
      · obtain ⟨hlt, rfl⟩ := Extent.mem_parts ha
        dsimp only [Extent.part]
        omega
  · intro p hp
    obtain hp | hp := List.mem_append.mp hp
    · obtain hp | hp := List.mem_append.mp hp
      · obtain ⟨hlt, rfl⟩ := Extent.mem_parts hp
        constructor <;> simp only [Extent.part, maxExtentLen, extInitMaxLen, if_true] <;> omega
      · obtain ⟨hlt, rfl⟩ := Extent.mem_parts hp
        constructor <;> simp only [Extent.part, maxExtentLen, extInitMaxLen, Bool.false_eq_true,
          if_false] <;> omega
    · obtain ⟨hlt, rfl⟩ := Extent.mem_parts hp
      constructor <;> simp only [Extent.part, maxExtentLen, extInitMaxLen, if_true] <;> omega

theorem splitInto_touched (hvalid : e.Valid) (huninit : e.uninitialized = true)
    (hlast : e.logicalBlock + e.length ≤ 2 ^ 32) {lo hi : Nat}
    (hlo : lo = max e.logicalBlock first) (hhi : hi = min (e.logicalBlock + e.length) stop)
    (hlohi : lo < hi)
    (hlo48 : e.logicalBlock < lo → e.physicalBlock + (lo - e.logicalBlock) < 2 ^ 48)
    (hhi48 : hi < e.logicalBlock + e.length → e.physicalBlock + (hi - e.logicalBlock) < 2 ^ 48) :
    SplitInto first stop e
      ⟨e.parts e.logicalBlock lo true ++ e.parts lo hi false ++
        e.parts hi (e.logicalBlock + e.length) true, List.range' lo (hi - lo), false⟩ where
  inOrder := inOrder_parts hvalid huninit (by omega) (by omega) (by omega) hlo48 hhi48 hlast
  within := by
    intro p hp
    obtain hp | hp := List.mem_append.mp hp
    · obtain hp | hp := List.mem_append.mp hp
      · obtain ⟨hlt, rfl⟩ := Extent.mem_parts hp
        dsimp only [Extent.part]
        omega
      · obtain ⟨hlt, rfl⟩ := Extent.mem_parts hp
        dsimp only [Extent.part]
        omega
    · obtain ⟨hlt, rfl⟩ := Extent.mem_parts hp
      dsimp only [Extent.part]
      omega
  mapping := by
    intro logical
    rw [mapping_append, mapping_append, mapping_parts (Nat.le_refl _), mapping_parts (by omega),
      mapping_parts (by omega)]
    by_cases hc : e.contains logical = true
    · have hrange := contains_iff.mp hc
      rw [if_pos hc]
      unfold stateAfter
      rw [huninit, Bool.true_and]
      by_cases hlow : logical < lo
      · rw [if_pos ⟨hrange.1, hlow⟩, decide_eq_false (by omega)]
        rfl
      · by_cases hhigh : logical < hi
        · rw [if_neg (by omega), if_pos ⟨by omega, hhigh⟩, decide_eq_true (by omega)]
          rfl
        · rw [if_neg (by omega), if_neg (by omega), if_pos (by omega), decide_eq_false (by omega)]
          rfl
    · have hrange : ¬ (e.logicalBlock ≤ logical ∧ logical < e.logicalBlock + e.length) :=
        fun h => hc (contains_iff.mpr h)
      rw [if_neg hc, if_neg (by omega), if_neg (by omega), if_neg (by omega)]
      rfl
  ascending := List.pairwise_lt_range'
  converted := by
    intro logical
    rw [List.mem_range'_1, contains_iff]
    simp only [huninit, true_and]
    omega
  few := by
    have h1 := e.length_parts e.logicalBlock lo true
    have h2 := e.length_parts lo hi false
    have h3 := e.length_parts hi (e.logicalBlock + e.length) true
    simp only [List.length_append]
    omega
  exact := rfl

end Split

/-- Where the range ends inside an uninitialized extent, the block there has a 48-bit number. -/
def CutsFit (first stop : Nat) (e : Extent) : Prop :=
  e.uninitialized = true → ∀ cut, cut = first ∨ cut = stop → e.logicalBlock < cut →
    cut < e.logicalBlock + e.length → e.physicalBlock + (cut - e.logicalBlock) < 2 ^ 48

section Initialize

variable {e : Extent} {first stop : Nat} (hvalid : e.Valid)
  (hend : e.logicalBlock + e.length < 2 ^ 32)

include hvalid hend

theorem Extent.piece_eq {start stop : Nat} (hstart : e.logicalBlock ≤ start) (hle : start ≤ stop)
    (hstop : stop ≤ e.logicalBlock + e.length) (uninitialized : Bool) :
    e.piece start stop uninitialized = (e.part start stop uninitialized, false) := by
  have hphysical := hvalid.physical
  have hlen : e.length ≤ 32768 := by
    have hmax := hvalid.len
    unfold maxExtentLen at hmax
    split at hmax <;> simp only [extInitMaxLen] at hmax <;> omega
  unfold Extent.piece
  rw [subWrapping_of_le hle (by omega), subWrapping_of_le hstart (by omega)]
  dsimp only
  rw [addWrapping_of_lt (by omega), Nat.mod_eq_of_lt (by omega)]
  rfl

theorem Extent.pieces_eq {start stop : Nat} (hstart : e.logicalBlock ≤ start)
    (hstop : stop ≤ e.logicalBlock + e.length) (uninitialized : Bool) :
    (if start < stop then [e.piece start stop uninitialized] else []) =
      (e.parts start stop uninitialized).map (·, false) := by
  unfold Extent.parts
  split
  · rename_i hlt
    rw [Extent.piece_eq hvalid hend hstart (Nat.le_of_lt hlt) hstop]
    rfl
  · rfl

theorem splitInto_initialize (hrange : first < stop) (hcut : CutsFit first stop e) :
    SplitInto first stop e ( Extent.splitRange first stop e) := by
  have hpos := hvalid.pos
  unfold Extent.splitRange
  dsimp only
  rw [addWrapping_of_lt hend]
  dsimp only
  split
  · exact splitInto_untouched hvalid (by assumption)
  · rename_i hout
    have huninit : e.uninitialized = true := by
      cases h : e.uninitialized with
      | false => exact absurd (.inl h) hout
      | true => rfl
    have hlt : max e.logicalBlock first < min (e.logicalBlock + e.length) stop := by omega
    have hmiddle : [e.piece (max e.logicalBlock first)
      (min (e.logicalBlock + e.length) stop) false] =
        (e.parts (max e.logicalBlock first) (min (e.logicalBlock + e.length) stop) false).map
          (·, false) := by
      rw [← Extent.pieces_eq hvalid hend (by omega) (by omega), if_pos hlt]
    have hfst : ∀ l : List Extent, (l.map (·, false)).map Prod.fst = l := by
      intro l
      rw [List.map_map]
      exact List.map_id l
    have hsnd : ∀ l : List Extent, (l.map (·, false)).any Prod.snd = false := by simp
    rw [Extent.pieces_eq hvalid hend (by omega) (by omega), hmiddle,
      Extent.pieces_eq hvalid hend (by omega) (by omega), ← List.map_append,
      ← List.map_append, hfst, hsnd]
    exact splitInto_touched hvalid huninit (Nat.le_of_lt hend) rfl rfl hlt
      (fun h => hcut huninit _ (.inl (by omega)) h (by omega))
      (fun h => hcut huninit _ (.inr (by omega)) (by omega) h)

end Initialize

/-- The blocks of a leaf, uninitialized only outside the range. -/
structure SplitAll (first stop : Nat) (es : List Extent) (split : List SplitExtent) : Prop where
  inOrder : InOrder (split.flatMap SplitExtent.pieces)
  within : ∀ p ∈ split.flatMap SplitExtent.pieces, ∃ e ∈ es, e.logicalBlock ≤ p.logicalBlock
  mapping : ∀ logical, mapping (split.flatMap SplitExtent.pieces) logical =
    (mapping es logical).map (fun found => (found.1, stateAfter first stop logical found.2))
  ascending : (split.flatMap SplitExtent.converted).Pairwise (· < ·)
  converted : ∀ logical, logical ∈ split.flatMap SplitExtent.converted ↔
    first ≤ logical ∧ logical < stop ∧ ∃ physical, FsExt4.mapping es logical = some (physical, true)
  few : (split.flatMap SplitExtent.pieces).length ≤ 3 * es.length
  exact : split.any SplitExtent.wrapped = false

theorem splitAll_splitRange {first stop : Nat} {es : List Extent} (ho : InOrder es)
    (hends : ∀ e ∈ es, e.logicalBlock + e.length < 2 ^ 32) (hrange : first < stop)
    (hcuts : ∀ e ∈ es, CutsFit first stop e) :
    SplitAll first stop es (es.map (Extent.splitRange first stop)) := by
  induction es with
  | nil =>
    refine ⟨⟨List.Pairwise.nil, nofun⟩, nofun, fun _ => rfl, List.Pairwise.nil, ?_,
      Nat.le_refl _, rfl⟩
    intro logical
    exact ⟨nofun, fun h => nomatch h.2.2⟩
  | cons e es ih =>
    obtain ⟨happart, htail⟩ := List.pairwise_cons.mp ho.apart
    have hmem : ∀ x ∈ es, x ∈ e :: es := fun x hx => List.mem_cons_of_mem _ hx
    have hvalid := ho.valid e List.mem_cons_self
    have hs := splitInto_initialize hvalid (hends e List.mem_cons_self) hrange
      (hcuts e List.mem_cons_self)
    have hrest := ih ⟨htail, fun x hx => ho.valid x (hmem x hx)⟩ (fun x hx => hends x (hmem x hx))
      (fun x hx => hcuts x (hmem x hx))
    rw [List.map_cons]
    constructor
    case inOrder =>
      rw [List.flatMap_cons]
      refine ⟨List.pairwise_append.mpr ⟨hs.inOrder.apart, hrest.inOrder.apart, ?_⟩, ?_⟩
      · intro p hp q hq
        obtain ⟨x, hx, hle⟩ := hrest.within q hq
        have hin := hs.within p hp
        have hafter := happart x hx
        omega
      · intro p hp
        obtain hp | hp := List.mem_append.mp hp
        · exact hs.inOrder.valid p hp
        · exact hrest.inOrder.valid p hp
    case within =>
      intro p hp
      rw [List.flatMap_cons] at hp
      obtain hp | hp := List.mem_append.mp hp
      · exact ⟨e, List.mem_cons_self, (hs.within p hp).1⟩
      · obtain ⟨x, hx, hle⟩ := hrest.within p hp
        exact ⟨x, hmem x hx, hle⟩
    case mapping =>
      intro logical
      rw [List.flatMap_cons, mapping_append, hs.mapping, hrest.mapping, ← List.singleton_append,
        mapping_append, mapping_singleton]
      split <;> rfl
    case ascending =>
      rw [List.flatMap_cons]
      refine List.pairwise_append.mpr ⟨hs.ascending, hrest.ascending, ?_⟩
      intro a ha b hb
      obtain ⟨-, -, physical, hmap⟩ := (hrest.converted b).mp hb
      obtain ⟨x, hx, hcx, -⟩ := mem_of_mapping hmap
      have hafter := happart x hx
      have hina := contains_iff.mp ((hs.converted a).mp ha).1
      have hinb := contains_iff.mp hcx
      omega
    case converted =>
      intro logical
      rw [List.flatMap_cons, List.mem_append, hs.converted, hrest.converted,
        ← List.singleton_append, mapping_append, mapping_singleton]
      by_cases hc : e.contains logical = true
      · -- no extent behind covers a block of this one
        have hnone : FsExt4.mapping es logical = none := by
          rw [Option.eq_none_iff_forall_ne_some]
          intro found hfound
          obtain ⟨x, hx, hcx, -⟩ := mem_of_mapping hfound
          have hafter := happart x hx
          have hin := contains_iff.mp hc
          have hinx := contains_iff.mp hcx
          omega
        simp only [hc, hnone, if_true, Option.some_or, true_and, Option.some.injEq, Prod.mk.injEq,
          reduceCtorEq, exists_false, and_false, or_false, exists_eq_left']
        tauto
      · rw [if_neg hc, Option.none_or]
        simp [hc]
    case few =>
      have h1 := hs.few
      have h2 := hrest.few
      rw [List.flatMap_cons, List.length_append, List.length_cons]
      omega
    case exact =>
      rw [List.any_cons, hs.exact, hrest.exact]
      rfl

theorem mergeLast_merged (acc : List Extent × Bool) (e : Extent) :
    Merged (acc.1 ++ [e]) (mergeLast acc e).1 := by
  unfold mergeLast
  split
  · exact .refl
  · rename_i prev hlast
    dsimp only
    split
    · rename_i hc
      obtain ⟨init, hinit⟩ := List.getLast?_eq_some_iff.mp hlast
      rw [hinit, List.dropLast_concat, List.append_assoc]
      exact .single ⟨init, prev, e, [], rfl, hc, rfl⟩
    · exact .refl

theorem foldl_mergeLast_merged (es : List Extent) (acc : List Extent × Bool) :
    Merged (acc.1 ++ es) (es.foldl mergeLast acc).1 := by
  induction es generalizing acc with
  | nil =>
    rw [List.append_nil]
    exact .refl
  | cons e es ih =>
    have hstep := (mergeLast_merged acc e).append [] es
    rw [List.nil_append, List.nil_append, List.append_assoc, List.singleton_append] at hstep
    exact hstep.trans (ih (mergeLast acc e))

theorem Extent.Valid.length_le {e : Extent} (h : e.Valid) : e.length ≤ 32768 := by
  have hlen := h.len
  unfold maxExtentLen at hlen
  split at hlen <;> simp only [extInitMaxLen] at hlen <;> omega

theorem joinWraps_eq_false {a b : Extent} (ha : a.Valid) : joinWraps a b = false := by
  have hlen := ha.length_le
  have hphysical := ha.physical
  have hmax : maxExtentLen a.uninitialized ≤ 32768 := by
    unfold maxExtentLen
    split <;> simp [extInitMaxLen]
  unfold joinWraps
  rw [decide_eq_false (show ¬ 2 ^ 64 ≤ a.physicalBlock + a.length by omega), Bool.false_or]
  by_cases hsum : a.length + b.length ≤ maxExtentLen a.uninitialized
  · rw [decide_eq_false (show ¬ 2 ^ 16 ≤ a.length + b.length by omega)]
    simp
  · simp [hsum]

theorem encodeWraps_eq_false {e : Extent} (h : e.Valid) : encodeWraps e = false := by
  have hlen := h.len
  unfold encodeWraps
  cases hu : e.uninitialized with
  | false => rfl
  | true =>
    have hmax : extInitMaxLen = 32768 := rfl
    rw [hu] at hlen
    simp only [maxExtentLen, if_true] at hlen
    rw [Bool.true_and, decide_eq_false (by omega)]

theorem foldl_mergeLast_exact (es : List Extent) (acc : List Extent × Bool)
    (ho : InOrder (acc.1 ++ es)) (hexact : acc.2 = false) :
    (es.foldl mergeLast acc).2 = false := by
  induction es generalizing acc with
  | nil => exact hexact
  | cons e es ih =>
    have hstep := (mergeLast_merged acc e).append [] es
    rw [List.nil_append, List.nil_append, List.append_assoc, List.singleton_append] at hstep
    refine ih (mergeLast acc e) (hstep.inOrder ho) ?_
    unfold mergeLast
    split
    · exact hexact
    · rename_i prev hlast
      rw [hexact, Bool.false_or]
      exact joinWraps_eq_false (ho.valid prev (List.mem_append_left _ (List.mem_of_getLast? hlast)))

/-- The new root maps every block where it was, initialized exactly where the range has turned it
so; the blocks reported are those, in order; and nothing wrapped on the way. -/
structure InitializesRange (es : List Extent) (first stop : Nat) (r : InitializedRange) : Prop where
  root : ∃ header es', readLeafEntries r.root = .ok (header, es') ∧ InOrder es' ∧
    ∀ logical, mapping es' logical =
      (mapping es logical).map (fun found => (found.1, stateAfter first stop logical found.2))
  ascending : r.converted.Pairwise (· < ·)
  converted : ∀ logical, logical ∈ r.converted ↔
    first ≤ logical ∧ logical < stop ∧ ∃ physical, mapping es logical = some (physical, true)
  exact : r.wrapped = false

section Range

variable {root : Bytes} {header : ExtentHeader} {es : List Extent} {first stop : Nat}
  {r : InitializedRange} (hread : readLeafEntries root = .ok (header, es))
  (h : planInitializeRange root first stop = .ok r)

include hread h

theorem planInitializeRange_ok : ∃ split merged,
    split = es.map (Extent.splitRange first stop) ∧
      merged = (split.flatMap SplitExtent.pieces).foldl mergeLast ([], false) ∧
      merged.1.length % 2 ^ 16 ≤ header.max ∧
      r = ⟨buildNode root.length header.max header.depth header.generation
        (merged.1.map encodeExtent), split.flatMap SplitExtent.converted,
        split.any SplitExtent.wrapped || merged.2 || merged.1.any encodeWraps⟩ := by
  unfold planInitializeRange at h
  rw [hread] at h
  simp only [throw, throwThe, MonadExceptOf.throw, bind, Except.bind, pure, Except.pure] at h
  split at h
  · cases h
  · rename_i hroom
    obtain ⟨newRoot, hbuilt, h⟩ := Result.bind_eq_ok h
    obtain ⟨-, rfl⟩ := buildRoot_eq_ok.mp hbuilt
    exact ⟨_, _, rfl, rfl, Nat.le_of_not_lt hroom, (Except.ok.inj h).symm⟩

theorem initializesRange_of_fit (hlength : root.length = 60) (ho : InOrder es)
    (hrange : first < stop) (hends : ∀ e ∈ es, e.logicalBlock + e.length < 2 ^ 32)
      (hcuts : ∀ e ∈ es, CutsFit first stop e) :
    InitializesRange es first stop r := by
  obtain ⟨split, merged, rfl, hmerged, hroom, rfl⟩ := planInitializeRange_ok hread h
  have hs := splitAll_splitRange ho hends hrange hcuts
  have hm := foldl_mergeLast_merged
    ((es.map (Extent.splitRange first stop)).flatMap SplitExtent.pieces) ([], false)
  rw [← hmerged, List.nil_append] at hm
  have hafter := hm.inOrder hs.inOrder
  have hexact : merged.2 = false := by
    rw [hmerged]
    exact foldl_mergeLast_exact _ _ hs.inOrder rfl
  have hfour := length_le_four hread hlength
  have hfew := hs.few
  have hcount := hm.length_bounds.1
  rw [Nat.mod_eq_of_lt (by omega)] at hroom
  constructor
  case root =>
    refine ⟨_, _, readLeafEntries_buildNode hread hafter.valid hroom root.length, hafter, ?_⟩
    intro logical
    rw [hm.mapping, hs.mapping]
  case ascending => exact hs.ascending
  case converted => exact hs.converted
  case exact =>
    dsimp only
    rw [hs.exact, hexact, Bool.false_or, Bool.false_or, List.any_eq_false]
    intro e he
    rw [encodeWraps_eq_false (hafter.valid e he)]
    exact Bool.false_ne_true

theorem ends_of_exact (hexact : r.wrapped = false) : ∀ e ∈ es, e.logicalBlock + e.length <
    2 ^ 32 := by
  obtain ⟨split, merged, rfl, -, -, rfl⟩ := planInitializeRange_ok hread h
  intro e he
  by_contra hwrap
  have hflag : ( Extent.splitRange first stop e).wrapped = true := by
    unfold Extent.splitRange addWrapping
    dsimp only
    rw [decide_eq_true (Nat.le_of_not_lt hwrap)]
    split <;> rfl
  have hany : (es.map (Extent.splitRange first stop)).any SplitExtent.wrapped = true :=
    List.any_eq_true.mpr ⟨_, List.mem_map.mpr ⟨e, he, rfl⟩, hflag⟩
  dsimp only at hexact
  rw [hany] at hexact
  cases hexact

end Range

theorem physical_of_state_change {es : List Extent} (ho : InOrder es) {logical p q : Nat}
    {state : Bool} (hbefore : mapping es logical = some (p, state))
    (hat : mapping es (logical + 1) = some (q, !state)) : q < 2 ^ 48 := by
  obtain ⟨e, he, hc, heq⟩ := mem_of_mapping hat
  obtain ⟨rfl, hstate⟩ := Prod.mk.inj heq
  have hin := contains_iff.mp hc
  by_cases hstart : e.logicalBlock = logical + 1
  · rw [Extent.map, hstart, Nat.sub_self]
    exact (ho.valid e he).physical
  · have hcov : e.contains logical = true := contains_iff.mpr ⟨by omega, by omega⟩
    rw [mapping_of_mem ho.apart he hcov] at hbefore
    obtain ⟨-, hsame⟩ := Prod.mk.inj (Option.some.inj hbefore)
    rw [hsame] at hstate
    cases state <;> cases hstate

theorem InitializesRange.cutsFit {es : List Extent} {first stop : Nat} {r : InitializedRange}
    (h : InitializesRange es first stop r) (ho : InOrder es) (hrange : first < stop) :
    ∀ e ∈ es, CutsFit first stop e := by
  obtain ⟨-, es', -, ho', hmap⟩ := h.root
  intro e he huninit cut hcut hlow hhigh
  obtain ⟨logical, rfl⟩ : ∃ k, cut = k + 1 := ⟨cut - 1, by omega⟩
  have hat := mapping_of_mem ho.apart he (contains_iff.mpr ⟨Nat.le_of_lt hlow, hhigh⟩)
  have hbefore := mapping_of_mem ho.apart he
    (contains_iff.mpr (⟨by omega, by omega⟩ : e.logicalBlock ≤ logical ∧ logical < _))
  have hafter := hmap (logical + 1)
  have hafter' := hmap logical
  rw [hat, huninit] at hafter
  rw [hbefore, huninit] at hafter'
  simp only [Option.map_some, stateAfter, Bool.true_and] at hafter hafter'
  refine physical_of_state_change ho' hafter' ?_
  rw [hafter]
  obtain rfl | rfl := hcut
  · rw [decide_eq_true (by omega), decide_eq_false (by omega)]
    rfl
  · rw [decide_eq_false (by omega), decide_eq_true (by omega)]
    rfl

/-- A plan to mark a range initialized does that and no more, with no sum that wraps, exactly when
no extent reaches the last logical block and no cut needs a block number of more than 48 bits. -/
theorem initialize_range_iff {root : Bytes} {header : ExtentHeader} {es : List Extent}
    {first stop : Nat} {r : InitializedRange} (hlength : root.length = 60)
    (hread : readLeafEntries root = .ok (header, es))
    (hapart : Apart Extent.logicalBlock Extent.length es) (hpos : ∀ e ∈ es, 1 ≤ e.length)
    (hrange : first < stop) (h : planInitializeRange root first stop = .ok r) :
    InitializesRange es first stop r ↔
      ∀ e ∈ es, e.logicalBlock + e.length < 2 ^ 32 ∧ CutsFit first stop e := by
  have ho := inOrder_of_read hread hapart hpos
  constructor
  · intro hinit e he
    exact ⟨ends_of_exact hread h hinit.exact e he, hinit.cutsFit ho hrange e he⟩
  · intro hfit
    exact initializesRange_of_fit hread h hlength ho hrange (fun e he => (hfit e he).1)
      (fun e he => (hfit e he).2)

def lastBlocks : List Extent := [⟨2 ^ 32 - 10, 10, 100, true⟩]

def lastBlocksRoot : Bytes := buildInlineLeafRoot 0 lastBlocks

/-- The sum that gives its end wraps to 0, and the range it covers is passed by. -/
theorem initialize_range_wraps :
    ∃ r, lastBlocksRoot.length = 60 ∧ readLeafEntries lastBlocksRoot =
      .ok (⟨1, 4, 0, 0⟩, lastBlocks) ∧
      Apart Extent.logicalBlock Extent.length lastBlocks ∧
      (∀ e ∈ lastBlocks, 1 ≤ e.length ∧ e.logicalBlock + e.length ≤ 2 ^ 32) ∧
      planInitializeRange lastBlocksRoot (2 ^ 32 - 10) (2 ^ 32 - 5) = .ok r ∧
      r.converted = [] ∧ r.wrapped = true ∧
      ¬ InitializesRange lastBlocks (2 ^ 32 - 10) (2 ^ 32 - 5) r := by
  refine ⟨⟨lastBlocksRoot, [], true⟩, length_buildInlineLeafRoot (by decide), rfl,
    List.pairwise_singleton _ _, ?_, rfl, rfl, rfl, fun h => nomatch h.exact⟩
  intro e he
  obtain rfl := List.mem_singleton.mp he
  decide

def preallocated : List Extent := [⟨0, 2, 10, false⟩, ⟨2, 8, 12, true⟩]

def preallocatedRoot : Bytes := buildInlineLeafRoot 0 preallocated

theorem initialize_range_preallocated :
    ∃ r, planInitializeRange preallocatedRoot 2 5 = .ok r ∧ r.converted = [2, 3, 4] ∧
      InitializesRange preallocated 2 5 r := by
  obtain ⟨r, hplan, hconverted⟩ : ∃ r, planInitializeRange preallocatedRoot 2 5 = .ok r ∧
      r.converted = [2, 3, 4] := ⟨_, rfl, rfl⟩
  refine ⟨r, hplan, hconverted, ?_⟩
  have hapart : Apart Extent.logicalBlock Extent.length preallocated := by
    unfold Apart
    decide
  have hread : readLeafEntries preallocatedRoot = .ok (⟨2, 4, 0, 0⟩, preallocated) := rfl
  refine (initialize_range_iff (length_buildInlineLeafRoot (by decide)) hread hapart (by decide)
    (by decide) hplan).mpr ?_
  intro e he
  obtain rfl | he := List.mem_cons.mp he
  · exact ⟨by decide, nofun⟩
  · obtain rfl := List.mem_singleton.mp he
    refine ⟨by decide, ?_⟩
    intro _ cut hcut hlow hhigh
    dsimp only at hlow hhigh ⊢
    omega

end FsExt4
