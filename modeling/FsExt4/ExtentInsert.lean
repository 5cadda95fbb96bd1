import FsExt4.ExtentWalk
import Mathlib.Logic.Relation

namespace FsExt4

open Lib

def insertByKey {β : Type} (key : β → Nat) (new : β) (l : List β) : List β :=
  l.takeWhile (fun c => decide (key c ≤ key new)) ++
    new :: l.dropWhile (fun c => decide (key c ≤ key new))

def areContiguous (a b : Extent) : Bool :=
  a.uninitialized == b.uninitialized &&
    decide (a.length + b.length ≤ maxExtentLen a.uninitialized) &&
    decide (a.logicalBlock + a.length = b.logicalBlock ∧
      a.physicalBlock + a.length = b.physicalBlock)

/-- The entries at `pos` and behind it as one, when they are contiguous. -/
def mergeNext (entries : List Extent) (pos : Nat) : List Extent :=
  match entries.drop pos with
  | a :: b :: rest =>
    if areContiguous a b then entries.take pos ++ { a with length := a.length + b.length } :: rest
    else entries
  | _ => entries

def Extent.meets (e new : Extent) : Bool :=
  !decide (new.logicalBlock + new.length ≤ e.logicalBlock ∨
    e.logicalBlock + e.length ≤ new.logicalBlock)

def checkNoOverlap (entries : List Extent) (new : Extent) : Result Unit :=
  if entries.any (fun e => e.meets new) then .error (.corruptExtentTree "extent overlaps existing")
  else .ok ()

/-- Where an entry begins at the new extent's first block or reaches past it. -/
def mergedPos (entries : List Extent) (new : Extent) : Nat :=
  (entries.findIdx? (fun e => decide (e.logicalBlock = new.logicalBlock ∨
    (e.logicalBlock < new.logicalBlock ∧ new.logicalBlock < e.logicalBlock + e.length)))).getD
      (entries.length - 1)

def insertIntoLeafSorted (entries : List Extent) (new : Extent) : List Extent :=
  let pos := (entries.takeWhile (fun e => decide (e.logicalBlock ≤ new.logicalBlock))).length
  let entries := insertByKey Extent.logicalBlock new entries
  let entries := if 0 < pos then mergeNext entries (pos - 1) else entries
  mergeNext entries (mergedPos entries new)

/-- A node on the path down, with block 0 standing for the inline root. -/
structure PathFrame where
  block : Nat
  bytes : Bytes

/-- The child the target belongs under, or nothing when the node is a leaf. -/
def descendStep (read : NodeReader) (target : Nat) (frame : PathFrame) : Result
    (Option PathFrame) := do
  let header ← ExtentHeader.parse frame.bytes
  if header.isLeaf then return none
  if header.entries = 0 then
    throw (.corruptExtentTree "internal node with zero index entries")
  let entries ← parseIndexEntries frame.bytes header
  match chosen ExtentIdx.logicalBlock target entries with
  | none => throw (.corruptExtentTree "internal node with zero index entries")
  | some idx =>
    let bytes ← read idx.leafBlock
    return some ⟨idx.leafBlock, bytes⟩

/-- The loop of `descend_to_leaf`: the frame reached and those above it, nearest first. Nothing
bounds the loop on a tree that leads back into itself, so that it may take more than `fuel`
rounds. -/
def descendFrom (read : NodeReader) (target : Nat) :
    Nat → PathFrame → List PathFrame → Option (Result (PathFrame × List PathFrame))
  | 0, _, _ => none
  | fuel + 1, frame, above =>
    match descendStep read target frame with
    | .error e => some (.error e)
    | .ok none => some (.ok (frame, above))
    | .ok (some child) => descendFrom read target fuel child (frame :: above)

structure DeepInsertPlan where
  newRoot : Bytes
  blockWrites : List (Nat × Bytes)
  allocatedBlocks : List Nat

/-- Where a level leaves the insert: a plan, or an index entry for the level above to take in, the
key of a child that the level above has to correct, and the writes and allocations so far. -/
inductive Progress where
  | done (plan : DeepInsertPlan)
  | up (propagated : Option ExtentIdx) (correction : Option (Nat × Nat))
      (blockWrites : List (Nat × Bytes)) (allocatedBlocks : List Nat)

section Levels

variable (root : Bytes) (generation : UInt32) (blockSize : Nat) (alloc : Allocator)

def leafLevel (new : Extent) (isRootLeaf : Bool) (frame : PathFrame) : Result Progress := do
  let header ← ExtentHeader.parse frame.bytes
  let before ← parseLeafEntries frame.bytes header
  checkNoOverlap before new
  let entries := insertIntoLeafSorted before new
  let firstKeyBefore := before.head?.map Extent.logicalBlock
  let leafCap := if isRootLeaf then 4 else nodeMaxEntries blockSize
  if entries.length % 2 ^ 16 ≤ leafCap then
    if isRootLeaf then
      return .done ⟨buildInlineLeafRoot generation entries, [], []⟩
    let blockWrites := [(frame.block, buildFullLeafBlock generation entries blockSize)]
    let firstKey := firstStart Extent.logicalBlock entries
    if firstKeyBefore = some firstKey then
      return .done ⟨root, blockWrites, []⟩
    return .up none (some (frame.block, firstKey)) blockWrites []
  if isRootLeaf then
    let newLeaf ← alloc 0
    return .done ⟨buildInlineIndexRoot generation 1
      [⟨firstStart Extent.logicalBlock entries, newLeaf⟩],
      [(newLeaf, buildFullLeafBlock generation entries blockSize)], [newLeaf]⟩
  let left := entries.take (entries.length / 2)
  let right := entries.drop (entries.length / 2)
  let newRight ← alloc 0
  let leftFirst := firstStart Extent.logicalBlock left
  return .up (some ⟨firstStart Extent.logicalBlock right, newRight⟩)
    (if firstKeyBefore = some leftFirst then none else some (frame.block, leftFirst))
    [(frame.block, buildFullLeafBlock generation left blockSize),
      (newRight, buildFullLeafBlock generation right blockSize)] [newRight]

/-- The corrected entries of a node, and the correction left for the node above. -/
def applyCorrection (frame : PathFrame) (indices : List ExtentIdx) :
    Option (Nat × Nat) → Result (List ExtentIdx × Option (Nat × Nat))
  | none => .ok (indices, none)
  | some (child, key) =>
    match indices.findIdx? (fun idx => decide (idx.leafBlock = child)) with
    | none => .error (.corruptExtentTree
        "the index entry naming a child this insert changed is missing")
    | some i => .ok (indices.modify i (fun idx => { idx with logicalBlock := key }),
        if i = 0 ∧ frame.block ≠ 0 then some (frame.block, key) else none)

/-- The entries of a node with the one that a split below has left for it. -/
def acceptSplit (indices : List ExtentIdx) : Option ExtentIdx → List ExtentIdx
  | none => indices
  | some split => insertByKey ExtentIdx.logicalBlock split indices

def indexLevel (isRootHere : Bool) (frame : PathFrame) (propagated : Option ExtentIdx)
    (correction : Option (Nat × Nat)) (blockWrites : List (Nat × Bytes))
    (allocatedBlocks : List Nat) : Result Progress := do
  let header ← ExtentHeader.parse frame.bytes
  let before ← parseIndexEntries frame.bytes header
  let (corrected, correction) ← applyCorrection frame before correction
  let indices := acceptSplit corrected propagated
  let cap := if isRootHere then 4 else nodeMaxEntries blockSize
  if indices.length % 2 ^ 16 ≤ cap then
    if isRootHere then
      return .done ⟨buildInlineIndexRoot generation header.depth indices, blockWrites,
        allocatedBlocks⟩
    let blockWrites := blockWrites ++
      [(frame.block, buildFullIndexBlock generation header.depth indices blockSize)]
    if correction.isSome then
      return .up none correction blockWrites allocatedBlocks
    return .done ⟨root, blockWrites, allocatedBlocks⟩
  let left := indices.take (indices.length / 2)
  let right := indices.drop (indices.length / 2)
  let leftFirst := firstStart ExtentIdx.logicalBlock left
  let rightFirst := firstStart ExtentIdx.logicalBlock right
  if isRootHere then
    if extMaxDepth < header.depth + 1 then
      throw (.corruptExtentTree "extent tree depth would exceed spec maximum")
    let leftBlock ← alloc allocatedBlocks.length
    let rightBlock ← alloc (allocatedBlocks.length + 1)
    return .done ⟨buildInlineIndexRoot generation (header.depth + 1)
        [⟨leftFirst, leftBlock⟩, ⟨rightFirst, rightBlock⟩],
      blockWrites ++ [(leftBlock, buildFullIndexBlock generation header.depth left blockSize),
        (rightBlock, buildFullIndexBlock generation header.depth right blockSize)],
      allocatedBlocks ++ [leftBlock, rightBlock]⟩
  let newRight ← alloc allocatedBlocks.length
  return .up (some ⟨rightFirst, newRight⟩) correction
    (blockWrites ++ [(frame.block, buildFullIndexBlock generation header.depth left blockSize),
      (newRight, buildFullIndexBlock generation header.depth right blockSize)])
    (allocatedBlocks ++ [newRight])

def ascend : List PathFrame → Progress → Result DeepInsertPlan
  | _, .done plan => .ok plan
  | [], .up .. => .error (.corruptExtentTree "deep insert: unexpected path exhaustion")
  | frame :: above, .up propagated correction blockWrites allocatedBlocks => do
    let progress ← indexLevel root generation blockSize alloc above.isEmpty frame propagated
      correction blockWrites allocatedBlocks
    ascend above progress

end Levels

/-- `plan_insert_extent_deep`, when its descent ends within `fuel` nodes. -/
def planInsertExtentDeep (fuel : Nat) (root : Bytes) (new : Extent) (blockSize : Nat)
    (read : NodeReader) (alloc : Allocator) : Option (Result DeepInsertPlan) :=
  if root.length < 12 then some (.error (.corruptExtentTree "root buffer too small"))
  else
    match ExtentHeader.parse root with
    | .error e => some (.error e)
    | .ok header =>
      if extMaxDepth < header.depth then
        some (.error (.corruptExtentTree "extent tree depth exceeds spec maximum"))
      else
        (descendFrom read new.logicalBlock fuel ⟨0, root⟩ []).map (fun path => do
          let (frame, above) ← path
          let progress ← leafLevel root header.generation blockSize alloc new above.isEmpty frame
          ascend root header.generation blockSize alloc above progress)

theorem contains_iff {e : Extent} {logical : Nat} : e.contains logical = true ↔
    e.logicalBlock ≤ logical ∧ logical < e.logicalBlock + e.length := decide_eq_true_iff

/-- What a lookup of a logical block comes to: the physical block and its state. -/
def mapping (es : List Extent) (logical : Nat) : Option (Nat × Bool) :=
  (es.find? (covers Extent.logicalBlock Extent.length logical)).map
    (fun e => (e.map logical, e.uninitialized))

theorem mapping_of_mem {es : List Extent} {e : Extent} {logical : Nat}
    (h : Apart Extent.logicalBlock Extent.length es) (he : e ∈ es)
      (hc : e.contains logical = true) :
    mapping es logical = some (e.map logical, e.uninitialized) := by
  rw [Extent.contains_eq_covers] at hc
  rw [mapping, find?_eq_some_of_apart h he hc]
  rfl

theorem mem_of_mapping {es : List Extent} {logical : Nat} {found : Nat × Bool}
    (h : mapping es logical = some found) :
    ∃ e ∈ es, e.contains logical = true ∧ (e.map logical, e.uninitialized) = found := by
  unfold mapping at h
  obtain ⟨e, hfind, heq⟩ := Option.map_eq_some_iff.mp h
  refine ⟨e, List.mem_of_find?_eq_some hfind, ?_, heq⟩
  rw [Extent.contains_eq_covers]
  exact List.find?_some hfind

/-- Extents in order, each one that an entry can hold. -/
structure InOrder (es : List Extent) : Prop where
  apart : Apart Extent.logicalBlock Extent.length es
  valid : ∀ e ∈ es, e.Valid

/-- Extents that begin in order, though one may reach into the next. -/
structure Ascending (es : List Extent) : Prop where
  starts : es.Pairwise (fun a b => a.logicalBlock < b.logicalBlock)
  valid : ∀ e ∈ es, e.Valid

theorem InOrder.ascending {es : List Extent} (h : InOrder es) : Ascending es := by
  refine ⟨List.Pairwise.imp_of_mem ?_ h.apart, h.valid⟩
  intro a b ha _ hab
  have hpos := (h.valid a ha).pos
  omega

def MergeStep (es es' : List Extent) : Prop :=
  ∃ A a b B, es = A ++ a :: b :: B ∧ areContiguous a b = true ∧
    es' = A ++ { a with length := a.length + b.length } :: B

theorem areContiguous_iff {a b : Extent} : areContiguous a b = true ↔
    a.uninitialized = b.uninitialized ∧ a.length + b.length ≤ maxExtentLen a.uninitialized ∧
      a.logicalBlock + a.length = b.logicalBlock ∧ a.physicalBlock + a.length =
        b.physicalBlock := by
  simp [areContiguous, and_assoc]

theorem MergeStep.append {es es' : List Extent} (h : MergeStep es es') (X Y : List Extent) :
    MergeStep (X ++ es ++ Y) (X ++ es' ++ Y) := by
  obtain ⟨A, a, b, B, rfl, hc, rfl⟩ := h
  exact ⟨X ++ A, a, b, B ++ Y, by simp, hc, by simp⟩

theorem MergeStep.ascending {es es' : List Extent} (h : MergeStep es es') (ho : Ascending es) :
    Ascending es' := by
  obtain ⟨A, a, b, B, rfl, hc, rfl⟩ := h
  obtain ⟨-, hlen, -, -⟩ := areContiguous_iff.mp hc
  obtain ⟨hA, hab, hcross⟩ := List.pairwise_append.mp ho.starts
  obtain ⟨ha, hb⟩ := List.pairwise_cons.mp hab
  obtain ⟨-, hB⟩ := List.pairwise_cons.mp hb
  have hva := ho.valid a (by simp)
  constructor
  · refine List.pairwise_append.mpr ⟨hA, List.pairwise_cons.mpr ⟨?_, hB⟩, ?_⟩
    · exact fun y hy => ha y (List.mem_cons_of_mem _ hy)
    · intro x hx y hy
      obtain rfl | hy := List.mem_cons.mp hy
      · exact hcross x hx a List.mem_cons_self
      · exact hcross x hx y (by simp [hy])
  · intro e he
    obtain he | he := List.mem_append.mp he
    · exact ho.valid e (List.mem_append_left _ he)
    · obtain rfl | he := List.mem_cons.mp he
      · exact ⟨hva.logical, Nat.le_trans hva.pos (Nat.le_add_right _ _), hlen, hva.physical⟩
      · exact ho.valid e (by simp [he])

theorem MergeStep.inOrder {es es' : List Extent} (h : MergeStep es es') (ho : InOrder es) :
    InOrder es' := by
  have hvalid := (h.ascending ho.ascending).valid
  obtain ⟨A, a, b, B, rfl, hc, rfl⟩ := h
  obtain ⟨-, -, hlog, -⟩ := areContiguous_iff.mp hc
  obtain ⟨hA, hab, hcross⟩ := List.pairwise_append.mp ho.apart
  obtain ⟨ha, hb⟩ := List.pairwise_cons.mp hab
  obtain ⟨hb', hB⟩ := List.pairwise_cons.mp hb
  refine ⟨List.pairwise_append.mpr ⟨hA, List.pairwise_cons.mpr ⟨?_, hB⟩, ?_⟩, hvalid⟩
  · intro y hy
    have h1 := hb' y hy
    dsimp only
    omega
  · intro x hx y hy
    obtain rfl | hy := List.mem_cons.mp hy
    · exact hcross x hx a List.mem_cons_self
    · exact hcross x hx y (by simp [hy])

theorem MergeStep.mapping {es es' : List Extent} (h : MergeStep es es') (logical : Nat) :
    mapping es' logical = mapping es logical := by
  obtain ⟨A, a, b, B, rfl, hc, rfl⟩ := h
  obtain ⟨hstate, -, hlog, hphys⟩ := areContiguous_iff.mp hc
  unfold FsExt4.mapping
  rw [List.find?_append, List.find?_append]
  cases A.find? (covers Extent.logicalBlock Extent.length logical) with
  | some e => rfl
  | none =>
    rw [Option.none_or, Option.none_or]
    by_cases ha : covers Extent.logicalBlock Extent.length logical a = true
    · have hab := covers_iff.mp ha
      rw [List.find?_cons_of_pos ha, List.find?_cons_of_pos (covers_iff.mpr (by dsimp only; omega))]
      rfl
    · have hna : ¬ (a.logicalBlock ≤ logical ∧ logical < a.logicalBlock + a.length) :=
        fun h => ha (covers_iff.mpr h)
      rw [List.find?_cons_of_neg ha]
      by_cases hb : covers Extent.logicalBlock Extent.length logical b = true
      · have hbb := covers_iff.mp hb
        rw [List.find?_cons_of_pos hb, List.find?_cons_of_pos
          (covers_iff.mpr (by dsimp only; omega))]
        simp only [Option.map_some, Extent.map, hstate]
        congr 2
        omega
      · have hnb : ¬ (b.logicalBlock ≤ logical ∧ logical < b.logicalBlock + b.length) :=
          fun h => hb (covers_iff.mpr h)
        rw [List.find?_cons_of_neg hb, List.find?_cons_of_neg]
        intro hm
        have hmm := covers_iff.mp hm
        dsimp only at hmm
        omega

theorem MergeStep.firstStart {es es' : List Extent} (h : MergeStep es es') :
    firstStart Extent.logicalBlock es' = firstStart Extent.logicalBlock es := by
  obtain ⟨A, a, b, B, rfl, -, rfl⟩ := h
  cases A <;> rfl

theorem mergeNext_cases (es : List Extent) (pos : Nat) :
    mergeNext es pos = es ∨ MergeStep es (mergeNext es pos) := by
  unfold mergeNext
  split
  · rename_i a b rest hdrop
    split
    · rename_i hc
      refine .inr ⟨es.take pos, a, b, rest, ?_, hc, rfl⟩
      rw [← hdrop, List.take_append_drop]
    · exact .inl rfl
  · exact .inl rfl

abbrev Merged : List Extent → List Extent → Prop := Relation.ReflTransGen MergeStep

section Merged

variable {es es' : List Extent}

theorem Merged.append (h : Merged es es') (X Y : List Extent) :
    Merged (X ++ es ++ Y) (X ++ es' ++ Y) := by
  induction h with
  | refl => exact .refl
  | tail _ hstep ih => exact ih.tail (hstep.append X Y)

theorem Merged.inOrder (h : Merged es es') (ho : InOrder es) : InOrder es' := by
  induction h with
  | refl => exact ho
  | tail _ hstep ih => exact hstep.inOrder ih

theorem Merged.ascending (h : Merged es es') (ho : Ascending es) : Ascending es' := by
  induction h with
  | refl => exact ho
  | tail _ hstep ih => exact hstep.ascending ih

theorem Merged.mapping (h : Merged es es') (logical : Nat) :
    mapping es' logical = mapping es logical := by
  induction h with
  | refl => rfl
  | tail _ hstep ih => rw [hstep.mapping, ih]

theorem Merged.firstStart (h : Merged es es') :
    firstStart Extent.logicalBlock es' = firstStart Extent.logicalBlock es := by
  induction h with
  | refl => rfl
  | tail _ hstep ih => rw [hstep.firstStart, ih]

theorem Merged.length_bounds (h : Merged es es') :
    es'.length ≤ es.length ∧ (es ≠ [] → es' ≠ []) := by
  induction h with
  | refl => exact ⟨Nat.le_refl _, id⟩
  | tail _ hstep ih =>
    obtain ⟨A, a, b, B, rfl, -, rfl⟩ := hstep
    exact ⟨Nat.le_trans (by simp) ih.1, fun _ => by simp⟩

end Merged

theorem merged_mergeNext (es : List Extent) (pos : Nat) : Merged es (mergeNext es pos) := by
  obtain h | h := mergeNext_cases es pos
  · rw [h]
  · exact .single h

theorem merged_insertIntoLeafSorted (m : List Extent) (new : Extent) :
    Merged (insertByKey Extent.logicalBlock new m) (insertIntoLeafSorted m new) := by
  unfold insertIntoLeafSorted
  refine Relation.ReflTransGen.trans ?_ (merged_mergeNext _ _)
  split
  · exact merged_mergeNext _ _
  · exact .refl

theorem length_insertIntoLeafSorted (m : List Extent) (new : Extent) :
    1 ≤ (insertIntoLeafSorted m new).length ∧ (insertIntoLeafSorted m new).length ≤
      m.length + 1 := by
  obtain ⟨hle, hne⟩ := (merged_insertIntoLeafSorted m new).length_bounds
  have hlen : (insertByKey Extent.logicalBlock new m).length = m.length + 1 := by
    have hsplit := congrArg List.length (List.takeWhile_append_dropWhile
      (p := fun e : Extent => decide (e.logicalBlock ≤ new.logicalBlock)) (l := m))
    rw [List.length_append] at hsplit
    simp only [insertByKey, List.length_append, List.length_cons]
    omega
  exact ⟨List.length_pos_iff.mpr (hne (by simp [insertByKey])), by omega⟩

/-- The new extent has gone into one leaf, none of whose extents it meets, with only smaller logical
blocks in front of that leaf and only greater ones behind it. -/
def Inserted (new : Extent) (es es' : List Extent) : Prop :=
  ∃ front m behind, es = front ++ m ++ behind ∧
    es' = front ++ insertIntoLeafSorted m new ++ behind ∧
    (∀ a ∈ front, a.logicalBlock + a.length ≤ new.logicalBlock) ∧
    (∀ e ∈ m, e.meets new = false) ∧ ∀ b ∈ behind, new.logicalBlock < b.logicalBlock

theorem Inserted.append {new : Extent} {es es' X Y : List Extent} (h : Inserted new es es')
    (hX : ∀ a ∈ X, a.logicalBlock + a.length ≤ new.logicalBlock)
    (hY : ∀ b ∈ Y, new.logicalBlock < b.logicalBlock) : Inserted new (X ++ es ++ Y)
      (X ++ es' ++ Y) := by
  obtain ⟨front, m, behind, rfl, rfl, hfront, hmeets, hbehind⟩ := h
  refine ⟨X ++ front, m, behind ++ Y, by simp, by simp, ?_, hmeets, ?_⟩
  · intro a ha
    obtain ha | ha := List.mem_append.mp ha
    · exact hX a ha
    · exact hfront a ha
  · intro b hb
    obtain hb | hb := List.mem_append.mp hb
    · exact hbehind b hb
    · exact hY b hb

theorem meets_eq_false {e new : Extent} : e.meets new = false ↔
    new.logicalBlock + new.length ≤ e.logicalBlock ∨ e.logicalBlock + e.length ≤
      new.logicalBlock := by
  rw [Extent.meets, Bool.not_eq_false', decide_eq_true_iff]

section Inserted

variable {new : Extent} {es es' : List Extent}

theorem Inserted.split (h : Inserted new es es') (ho : InOrder es) (hnew : new.Valid) :
    ∃ A B, es = A ++ B ∧ Merged (A ++ new :: B) es' ∧
      (∀ a ∈ A, a.logicalBlock + a.length ≤ new.logicalBlock) ∧
      ∀ b ∈ B, new.logicalBlock < b.logicalBlock := by
  obtain ⟨front, m, behind, rfl, rfl, hfront, hmeets, hbehind⟩ := h
  have hpos := hnew.pos
  have hm := List.takeWhile_append_dropWhile
    (p := fun e : Extent => decide (e.logicalBlock ≤ new.logicalBlock)) (l := m)
  refine ⟨front ++ m.takeWhile (fun e => decide (e.logicalBlock ≤ new.logicalBlock)),
    m.dropWhile (fun e => decide (e.logicalBlock ≤ new.logicalBlock)) ++ behind, ?_, ?_, ?_, ?_⟩
  · conv_lhs => rw [← hm]
    simp only [List.append_assoc]
  · have hmerged := (merged_insertIntoLeafSorted m new).append front behind
    simpa only [insertByKey, List.append_assoc, List.cons_append] using hmerged
  · intro a ha
    obtain ha | ha := List.mem_append.mp ha
    · exact hfront a ha
    · have hle : a.logicalBlock ≤ new.logicalBlock := by simpa using List.mem_takeWhile_imp ha
      have hno := meets_eq_false.mp (hmeets a (List.takeWhile_subset _ ha))
      omega
  · intro b hb
    obtain hb | hb := List.mem_append.mp hb
    · have hm' : Apart Extent.logicalBlock Extent.length m :=
        (List.pairwise_append.mp (List.pairwise_append.mp ho.apart).1).2.1
      exact lt_of_mem_dropWhile hm'.pairwise_start hb
    · exact hbehind b hb

theorem Inserted.ascending (h : Inserted new es es') (ho : InOrder es) (hnew : new.Valid) :
    Ascending es' := by
  obtain ⟨A, B, rfl, hmerged, hA, hB⟩ := h.split ho hnew
  obtain ⟨hAA, hBB, hcross⟩ := List.pairwise_append.mp ho.ascending.starts
  apply hmerged.ascending
  constructor
  · refine List.pairwise_append.mpr ⟨hAA, List.pairwise_cons.mpr ⟨hB, hBB⟩, ?_⟩
    intro x hx y hy
    obtain rfl | hy := List.mem_cons.mp hy
    · have hend := hA x hx
      have hpos := (ho.valid x (List.mem_append_left _ hx)).pos
      omega
    · exact hcross x hx y hy
  · intro e he
    obtain he | he := List.mem_append.mp he
    · exact ho.valid e (List.mem_append_left _ he)
    · obtain rfl | he := List.mem_cons.mp he
      · exact hnew
      · exact ho.valid e (List.mem_append_right _ he)

theorem le_of_not_meets {b : Extent} (hlt : new.logicalBlock < b.logicalBlock)
    (hno : b.meets new = false) (hpos : 1 ≤ b.length) :
    new.logicalBlock + new.length ≤ b.logicalBlock := by
  have hor := meets_eq_false.mp hno
  omega

theorem Inserted.inOrder (h : Inserted new es es') (ho : InOrder es) (hnew : new.Valid)
    (hmeets : ∀ e ∈ es, e.meets new = false) : InOrder es' := by
  obtain ⟨A, B, rfl, hmerged, hA, hB⟩ := h.split ho hnew
  obtain ⟨hAA, hBB, hcross⟩ := List.pairwise_append.mp ho.apart
  apply hmerged.inOrder
  constructor
  · refine List.pairwise_append.mpr ⟨hAA, List.pairwise_cons.mpr ⟨?_, hBB⟩, ?_⟩
    · intro b hb
      have hin := List.mem_append_right A hb
      exact le_of_not_meets (hB b hb) (hmeets b hin) (ho.valid b hin).pos
    · intro x hx y hy
      obtain rfl | hy := List.mem_cons.mp hy
      · exact hA x hx
      · exact hcross x hx y hy
  · intro e he
    obtain he | he := List.mem_append.mp he
    · exact ho.valid e (List.mem_append_left _ he)
    · obtain rfl | he := List.mem_cons.mp he
      · exact hnew
      · exact ho.valid e (List.mem_append_right _ he)

theorem mapping_between {A B : List Extent} (hA : ∀ a ∈ A, a.logicalBlock + a.length ≤
    new.logicalBlock)
    (hB : ∀ b ∈ B, new.logicalBlock + new.length ≤ b.logicalBlock) (logical : Nat) :
    mapping (A ++ new :: B) logical =
      if new.contains logical then some (new.map logical, new.uninitialized)
      else mapping (A ++ B) logical := by
  unfold FsExt4.mapping
  by_cases hc : new.contains logical = true
  · have hcov := covers_iff.mp ((Extent.contains_eq_covers new logical).symm.trans hc)
    have hmid : (A ++ [new] ++ B).find? (covers Extent.logicalBlock Extent.length logical) =
        [new].find? (covers Extent.logicalBlock Extent.length logical) := by
      apply find?_middle
      · intro a ha
        exact Nat.le_trans (hA a ha) hcov.1
      · intro b hb
        have hle := hB b hb
        omega
    rw [List.append_assoc, List.singleton_append] at hmid
    rw [if_pos hc, hmid, List.find?_cons_of_pos (by rwa [← Extent.contains_eq_covers])]
    rfl
  · rw [if_neg hc, List.find?_append, List.find?_append,
      List.find?_cons_of_neg (by rwa [← Extent.contains_eq_covers])]

theorem Inserted.mapping (h : Inserted new es es') (ho : InOrder es) (hnew : new.Valid)
    (hmeets : ∀ e ∈ es, e.meets new = false) (logical : Nat) :
    mapping es' logical =
      if new.contains logical then some (new.map logical, new.uninitialized)
      else mapping es logical := by
  obtain ⟨A, B, rfl, hmerged, hA, hB⟩ := h.split ho hnew
  rw [hmerged.mapping]
  refine mapping_between hA (fun b hb => ?_) logical
  have hin := List.mem_append_right A hb
  exact le_of_not_meets (hB b hb) (hmeets b hin) (ho.valid b hin).pos

end Inserted

end FsExt4
