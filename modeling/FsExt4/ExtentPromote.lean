import FsExt4.ExtentInitialize

namespace FsExt4

open Lib

def buildLeafBlock (generation : UInt32) (extents : List Extent) (blockSize : Nat)
    (reservedTailCsum : Bool) : Bytes :=
  let bodyLen := blockSize - (if reservedTailCsum then 4 else 0)
  buildNode blockSize ((bodyLen - nodeSize) / nodeSize % 2 ^ 16) 0 generation
    (extents.map encodeExtent)

def buildDepth1IndexRoot (generation : UInt32) (leafPhys : Nat) : Bytes :=
  buildInlineIndexRoot generation 1 [⟨0, leafPhys⟩]

/-- A full block for the entries of an inline root, and the root that indexes it. -/
structure PromotionPlan where
  leafBytes : Bytes
  newRootBytes : Bytes

def planPromoteLeaf (root : Bytes) (new : Extent) (blockSize newLeafPhys : Nat)
    (reservedTailCsum : Bool) : Result PromotionPlan := do
  let (header, before) ← readLeafEntries root
  checkNoOverlap before new
  let entries := insertIntoLeafSorted before new
  let leafCapacity := blockSize - (if reservedTailCsum then 4 else 0)
  let leafMax := (leafCapacity - nodeSize) / nodeSize % 2 ^ 16
  if leafMax < entries.length % 2 ^ 16 then
    throw (.corruptExtentTree "plan_promote_leaf: entry count exceeds leaf capacity")
  return {
    leafBytes := buildLeafBlock header.generation entries blockSize reservedTailCsum
    newRootBytes := buildDepth1IndexRoot header.generation newLeafPhys }

section Place

variable {es : List Extent} {new : Extent} (ho : InOrder es)

include ho

theorem insertByKey_around : ∃ A B, es = A ++ B ∧
    A = es.takeWhile (fun e => decide (e.logicalBlock ≤ new.logicalBlock)) ∧
    insertByKey Extent.logicalBlock new es = A ++ new :: B ∧
    (∀ a ∈ A, a.logicalBlock ≤ new.logicalBlock) ∧ ∀ b ∈ B, new.logicalBlock < b.logicalBlock := by
  refine ⟨es.takeWhile (fun e => decide (e.logicalBlock ≤ new.logicalBlock)),
    es.dropWhile (fun e => decide (e.logicalBlock ≤ new.logicalBlock)),
    List.takeWhile_append_dropWhile.symm, rfl, rfl, ?_, ?_⟩
  · intro a ha
    simpa using List.mem_takeWhile_imp ha
  · intro b hb
    exact lt_of_mem_dropWhile ho.apart.pairwise_start hb

variable (hmeets : ∀ e ∈ es, e.meets new = false) (hplace : ∀ e ∈ es, e.logicalBlock ≠
  new.logicalBlock)

include hmeets hplace

theorem insertByKey_split : ∃ A B, es = A ++ B ∧
    A = es.takeWhile (fun e => decide (e.logicalBlock ≤ new.logicalBlock)) ∧
    insertByKey Extent.logicalBlock new es = A ++ new :: B ∧
    (∀ a ∈ A, a.logicalBlock + a.length ≤ new.logicalBlock) ∧
    ∀ b ∈ B, new.logicalBlock + new.length ≤ b.logicalBlock := by
  obtain ⟨A, B, rfl, hwhile, hinsert, hA, hB⟩ := @insertByKey_around es new ho
  refine ⟨A, B, rfl, hwhile, hinsert, ?_, ?_⟩
  · intro a ha
    have hin := List.mem_append_left B ha
    have hno := meets_eq_false.mp (hmeets a hin)
    have hle := hA a ha
    have hne := hplace a hin
    omega
  · intro b hb
    have hin := List.mem_append_right A hb
    exact le_of_not_meets (hB b hb) (hmeets b hin) (ho.valid b hin).pos

end Place

theorem mergedPos_middle {new : Extent} {A B : List Extent}
    (hA : ∀ a ∈ A, a.logicalBlock + a.length ≤ new.logicalBlock) (hfront : ∀ a ∈ A, 1 ≤ a.length) :
    mergedPos (A ++ new :: B) new = A.length := by
  unfold mergedPos
  rw [List.findIdx?_append, List.findIdx?_eq_none_iff.mpr, Option.none_or, List.findIdx?_cons]
  · simp
  · intro a ha
    have hend := hA a ha
    have hlen := hfront a ha
    rw [decide_eq_false_iff_not]
    omega

theorem mergeNext_middle (A : List Extent) (a b : Extent) (B : List Extent) :
    mergeNext (A ++ a :: b :: B) A.length =
      if areContiguous a b then A ++ { a with length := a.length + b.length } :: B
      else A ++ a :: b :: B := by
  unfold mergeNext
  rw [List.drop_left, List.take_left]

theorem mergeNext_last (A : List Extent) (a : Extent) :
    mergeNext (A ++ [a]) A.length = A ++ [a] := by
  unfold mergeNext
  rw [List.drop_left]

section Merges

variable {es A B : List Extent} {new : Extent} (ho : InOrder es) (hes : es = A ++ B)
  (hwhile : A = es.takeWhile (fun e => decide (e.logicalBlock ≤ new.logicalBlock)))
  (hinsert : insertByKey Extent.logicalBlock new es = A ++ new :: B)
  (hA : ∀ a ∈ A, a.logicalBlock + a.length ≤ new.logicalBlock)

include ho hes hwhile hinsert hA

theorem insertIntoLeafSorted_unjoined (hnone : ∀ a ∈ A, areContiguous a new = false) :
    insertIntoLeafSorted es new = mergeNext (A ++ new :: B) A.length := by
  have hfront : ∀ a ∈ A, 1 ≤ a.length :=
    fun a ha => (ho.valid a (by rw [hes]; exact List.mem_append_left _ ha)).pos
  unfold insertIntoLeafSorted
  rw [← hwhile, hinsert]
  dsimp only
  have hleft : (if 0 < A.length then mergeNext (A ++ new :: B) (A.length - 1) else A ++ new :: B) =
      A ++ new :: B := by
    obtain rfl | ⟨A₀, a, rfl⟩ := List.eq_nil_or_concat A
    · rfl
    · rw [List.concat_eq_append] at hnone ⊢
      rw [if_pos (by simp), List.length_append, List.length_singleton, Nat.add_sub_cancel,
        List.append_assoc, List.singleton_append, mergeNext_middle,
        hnone a (by simp), if_neg Bool.false_ne_true]
  rw [hleft, mergedPos_middle hA hfront]

theorem insertIntoLeafSorted_joined {a : Extent} (ha : a ∈ A) (hjoin : areContiguous a new = true) :
    ∃ A₀, A = A₀ ++ [a] ∧
      Merged (A₀ ++ { a with length := a.length + new.length } :: B)
          (insertIntoLeafSorted es new) := by
  obtain ⟨-, -, hend, -⟩ := areContiguous_iff.mp hjoin
  obtain ⟨A₀, z, rfl⟩ : ∃ A₀ z, A = A₀ ++ [z] :=
    ⟨A.dropLast, A.getLast (List.ne_nil_of_mem ha), (List.dropLast_append_getLast _).symm⟩
  have hapart := ho.apart
  rw [hes] at hapart
  have hz : z ∈ es := by
    rw [hes]
    simp
  obtain rfl : a = z := by
    obtain hin | hin := List.mem_append.mp ha
    · have hbefore := (List.pairwise_append.mp (List.pairwise_append.mp hapart).1).2.2 a hin z
        (List.mem_singleton_self z)
      have hafter := hA z (by simp)
      have hlen := (ho.valid z hz).pos
      omega
    · exact List.mem_singleton.mp hin
  refine ⟨A₀, rfl, ?_⟩
  unfold insertIntoLeafSorted
  rw [← hwhile, hinsert]
  dsimp only
  rw [if_pos (by simp), List.length_append, List.length_singleton, Nat.add_sub_cancel,
    List.append_assoc, List.singleton_append, mergeNext_middle, if_pos hjoin]
  exact merged_mergeNext _ _

theorem length_le_of_joined_left {a : Extent} (ha : a ∈ A) (hjoin : areContiguous a new = true) :
    (insertIntoLeafSorted es new).length ≤ es.length := by
  obtain ⟨A₀, rfl, hmerged⟩ := insertIntoLeafSorted_joined ho hes hwhile hinsert hA ha hjoin
  have hle := hmerged.length_bounds.1
  have hlen := congrArg List.length hes
  simp only [List.length_append, List.length_cons, List.length_nil] at hle hlen
  omega

theorem length_le_of_joined_right (hB : ∀ b ∈ B, new.logicalBlock + new.length ≤ b.logicalBlock)
    {b : Extent} (hb : b ∈ B) (hjoin : areContiguous new b = true) :
    (insertIntoLeafSorted es new).length ≤ es.length := by
  by_cases hfront : ∀ a ∈ A, areContiguous a new = false
  · obtain ⟨-, -, hend, -⟩ := areContiguous_iff.mp hjoin
    obtain ⟨z, B₀, rfl⟩ : ∃ z B₀, B = z :: B₀ := List.exists_cons_of_ne_nil (List.ne_nil_of_mem hb)
    have hapart := ho.apart
    rw [hes] at hapart
    have hz : z ∈ es := by
      rw [hes]
      simp
    obtain rfl : b = z := by
      obtain hin | hin := List.mem_cons.mp hb
      · exact hin
      · have hbefore := (List.pairwise_cons.mp (List.pairwise_append.mp hapart).2.1).1 b hin
        have hafter := hB z List.mem_cons_self
        have hlen := (ho.valid z hz).pos
        omega
    rw [insertIntoLeafSorted_unjoined ho hes hwhile hinsert hA hfront, mergeNext_middle,
      if_pos hjoin, hes]
    simp
  · obtain ⟨a, hnot⟩ := not_forall.mp hfront
    obtain ⟨ha, hjoin⟩ := Classical.not_imp.mp hnot
    exact length_le_of_joined_left ho hes hwhile hinsert hA ha (by simpa using hjoin)

end Merges

section Placed

variable {es : List Extent} {new : Extent} (ho : InOrder es)
  (hmeets : ∀ e ∈ es, e.meets new = false) (hplace : ∀ e ∈ es, e.logicalBlock ≠ new.logicalBlock)

include ho hmeets hplace

theorem length_le_of_contiguous {e : Extent} (he : e ∈ es)
    (hjoin : areContiguous e new = true ∨ areContiguous new e = true) :
    (insertIntoLeafSorted es new).length ≤ es.length := by
  obtain ⟨A, B, hes, hwhile, hinsert, hA, hB⟩ := insertByKey_split ho hmeets hplace
  have hlen := (ho.valid e he).pos
  have hne := hplace e he
  rw [hes] at he
  obtain hjoin | hjoin := hjoin
  · obtain ⟨-, -, hend, -⟩ := areContiguous_iff.mp hjoin
    obtain he | he := List.mem_append.mp he
    · exact length_le_of_joined_left ho hes hwhile hinsert hA he hjoin
    · have hstart := hB e he
      omega
  · obtain ⟨-, -, hend, -⟩ := areContiguous_iff.mp hjoin
    obtain he | he := List.mem_append.mp he
    · have hstop := hA e he
      omega
    · exact length_le_of_joined_right ho hes hwhile hinsert hA hB he hjoin

theorem insertIntoLeafSorted_alone (hleft : ∀ e ∈ es, areContiguous e new = false)
    (hright : ∀ e ∈ es, areContiguous new e = false) :
    ∃ A B, es = A ++ B ∧ insertIntoLeafSorted es new = A ++ new :: B ∧
      (∀ a ∈ A, a.logicalBlock + a.length ≤ new.logicalBlock) ∧
      ∀ b ∈ B, new.logicalBlock + new.length ≤ b.logicalBlock := by
  obtain ⟨A, B, hes, hwhile, hinsert, hA, hB⟩ := insertByKey_split ho hmeets hplace
  refine ⟨A, B, hes, ?_, hA, hB⟩
  rw [insertIntoLeafSorted_unjoined ho hes hwhile hinsert hA
    (fun a ha => hleft a (by rw [hes]; exact List.mem_append_left _ ha))]
  cases B with
  | nil => exact mergeNext_last A new
  | cons b B => rw [mergeNext_middle, hright b (by rw [hes]; simp), if_neg Bool.false_ne_true]

theorem inOrder_of_joined {e : Extent} (he : e ∈ es) (hjoin : areContiguous e new = true) :
    InOrder (insertIntoLeafSorted es new) ∧
      ∀ logical, mapping (insertIntoLeafSorted es new) logical =
        if new.contains logical then some (new.map logical, new.uninitialized) else mapping es
            logical := by
  obtain ⟨A, B, hes, hwhile, hinsert, hA, hB⟩ := insertByKey_split ho hmeets hplace
  obtain ⟨-, hlen, hend, -⟩ := areContiguous_iff.mp hjoin
  have hin : e ∈ A := by
    rw [hes] at he
    obtain he | he := List.mem_append.mp he
    · exact he
    · have hstart := hB e he
      have hpos := (ho.valid e (by rw [hes]; exact List.mem_append_right _ he)).pos
      omega
  obtain ⟨A₀, rfl, hmerged⟩ := insertIntoLeafSorted_joined ho hes hwhile hinsert hA hin hjoin
  have hstep : MergeStep (A₀ ++ [e] ++ new :: B)
      (A₀ ++ { e with length := e.length + new.length } :: B) :=
    ⟨A₀, e, new, B, by simp, hjoin, rfl⟩
  have hbetween := fun logical => @mapping_between new (A₀ ++ [e]) B hA hB logical
  rw [← hes] at hbetween
  have hvalid := ho.valid e he
  rw [hes] at ho
  obtain ⟨hAA, hBB, hcross⟩ := List.pairwise_append.mp ho.apart
  obtain ⟨hA₀, -, hbefore⟩ := List.pairwise_append.mp hAA
  have hjoined : InOrder (A₀ ++ { e with length := e.length + new.length } :: B) := by
    refine ⟨List.pairwise_append.mpr ⟨hA₀, List.pairwise_cons.mpr ⟨?_, hBB⟩, ?_⟩, ?_⟩
    · intro b hb
      have hbehind := hB b hb
      dsimp only
      omega
    · intro a ha b hb
      obtain rfl | hb := List.mem_cons.mp hb
      · exact hbefore a ha e (List.mem_singleton_self e)
      · exact hcross a (List.mem_append_left _ ha) b hb
    · intro x hx
      obtain hx | hx := List.mem_append.mp hx
      · exact ho.valid x (List.mem_append_left _ (List.mem_append_left _ hx))
      · obtain rfl | hx := List.mem_cons.mp hx
        · exact ⟨hvalid.logical, Nat.le_trans hvalid.pos (Nat.le_add_right _ _), hlen,
            hvalid.physical⟩
        · exact ho.valid x (List.mem_append_right _ hx)
  refine ⟨hmerged.inOrder hjoined, ?_⟩
  intro logical
  rw [hmerged.mapping, hstep.mapping]
  exact hbetween logical

end Placed

theorem insertIntoLeafSorted_twin {es : List Extent} {new e : Extent} (ho : InOrder es)
    (he : e ∈ es) (hstart : e.logicalBlock = new.logicalBlock) : ∃ A B, es = A ++ e :: B ∧
    insertIntoLeafSorted es new = A ++ e :: new :: B := by
  obtain ⟨A, B, hes, hwhile, hinsert, hA, hB⟩ := @insertByKey_around es new ho
  have hlen := (ho.valid e he).pos
  have hin : e ∈ A := by
    rw [hes] at he
    obtain he | he := List.mem_append.mp he
    · exact he
    · have hlt := hB e he
      omega
  obtain ⟨A₀, z, rfl⟩ : ∃ A₀ z, A = A₀ ++ [z] :=
    ⟨A.dropLast, A.getLast (List.ne_nil_of_mem hin), (List.dropLast_append_getLast _).symm⟩
  have hapart := ho.apart
  rw [hes] at hapart
  have hbefore := (List.pairwise_append.mp (List.pairwise_append.mp hapart).1).2.2
  obtain rfl : e = z := by
    obtain hin | hin := List.mem_append.mp hin
    · have hend := hbefore e hin z (List.mem_singleton_self z)
      have hle := hA z (by simp)
      omega
    · exact List.mem_singleton.mp hin
  have hnot : areContiguous e new = false := by
    rw [Bool.eq_false_iff]
    intro hjoin
    have hend := (areContiguous_iff.mp hjoin).2.2.1
    omega
  refine ⟨A₀, B, by rw [hes, List.append_assoc]; rfl, ?_⟩
  have hpos : mergedPos (A₀ ++ e :: new :: B) new = A₀.length := by
    unfold mergedPos
    rw [List.findIdx?_append, List.findIdx?_eq_none_iff.mpr, Option.none_or, List.findIdx?_cons,
      decide_eq_true (Or.inl hstart)]
    · simp
    · intro a ha
      have hend := hbefore a ha e (List.mem_singleton_self e)
      have hpos := (ho.valid a (by rw [hes]; simp [ha])).pos
      rw [decide_eq_false_iff_not]
      omega
  unfold insertIntoLeafSorted
  rw [← hwhile, hinsert]
  dsimp only
  rw [if_pos (by simp), List.length_append, List.length_singleton, Nat.add_sub_cancel,
    List.append_assoc,
    List.singleton_append, mergeNext_middle, hnot, if_neg Bool.false_ne_true, hpos,
    mergeNext_middle, hnot, if_neg Bool.false_ne_true]

theorem not_contiguous_of_long {new : Extent} (hlong : maxExtentLen new.uninitialized < new.length)
    (e : Extent) :
    areContiguous e new = false ∧ areContiguous new e = false := by
  rw [Bool.eq_false_iff, Bool.eq_false_iff]
  constructor
  · intro hjoin
    obtain ⟨hstate, hcap, -⟩ := areContiguous_iff.mp hjoin
    rw [hstate] at hcap
    omega
  · intro hjoin
    have hcap := (areContiguous_iff.mp hjoin).2.1
    omega

namespace Extent

section OneLeaf

variable {d : Disk} {blockSize key block : Nat} {generation : UInt32} {leaf : Bytes}
  {es : List Extent}

theorem parse_oneLeaf : ExtentHeader.parse (buildInlineIndexRoot generation 1 [⟨key, block⟩]) =
    .ok ⟨1, 4, 1, generation⟩ := parse_buildNode (by simp) (by decide) (by decide)

theorem parseEntries_oneLeaf (hkey : key < 2 ^ 32) (hblock : block < 2 ^ 48) :
    parseEntries ExtentIdx.parse "index entry out of range"
      (buildInlineIndexRoot generation 1 [⟨key, block⟩]) 1 = .ok [⟨key, block⟩] := by
  refine parseEntries_buildNode length_encodeIndex ?_
  intro idx hidx
  obtain rfl := List.mem_singleton.mp hidx
  exact parse_encodeIndex _ ⟨hkey, hblock⟩

variable (hkey : key < 2 ^ 32) (hblock : block < 2 ^ 48)
  (hnode : nodeOn d blockSize block = .ok leaf)
  (hleaf : Represents (nodeOn d blockSize) (LevelTree.leaf es) leaf)

include hkey hblock hnode hleaf

theorem lookup_oneLeaf (hsorted : es.Pairwise (fun a b => a.logicalBlock ≤ b.logicalBlock))
    (logical : Nat) :
    (lookup (buildInlineIndexRoot generation 1 [⟨key, block⟩]) blockSize logical).exec d =
      (.ok (es.find? (covers Extent.logicalBlock Extent.length logical)), d) := by
  obtain ⟨hfit, hexec⟩ := nodeOn_ok hnode
  obtain ⟨header, hheader, -⟩ := hleaf.parse
  have hscan : scanIndex (buildInlineIndexRoot generation 1 [⟨key, block⟩]) logical
    (List.range 1) none
      none = .ok (_, _) := scanIndex_ok (entryAt_of_parseEntries (parseEntries_oneLeaf hkey hblock))
        none none
  have hchosen : ((([⟨key, block⟩] : List ExtentIdx).takeWhile
      (fun idx => decide (idx.logicalBlock ≤ logical))).getLast?.or none).or
        ((none : Option ExtentIdx).or [(⟨key, block⟩ : ExtentIdx)].head?) = some ⟨key, block⟩ := by
    by_cases hle : key ≤ logical
    · simp [hle]
    · simp [hle]
  unfold lookup
  rw [Io.exec_bind_ok _ _ d d _ (by rw [Io.exec_liftM, parse_oneLeaf])]
  dsimp only
  rw [if_neg (by decide)]
  unfold lookupNode
  rw [if_neg (by simp [ExtentHeader.isLeaf]), Io.exec_bind_ok _ _ d d _
    (by rw [Io.exec_liftM, hscan])]
  dsimp only
  rw [hchosen]
  dsimp only
  rw [if_neg (by omega), Io.exec_bind_ok _ _ _ _ _ hexec,
    Io.exec_bind_ok _ _ d d _ (by rw [Io.exec_liftM, hheader])]
  exact lookupNode_leaf hleaf hheader hsorted

theorem collectAll_oneLeaf :
    (collectAll (buildInlineIndexRoot generation 1 [⟨key, block⟩]) blockSize).exec d =
      (.ok es, d) := by
  obtain ⟨header, hheader, hdepth, hentries⟩ := hleaf
  have hslot := ((mapM_range_eq_ok_iff _ _ _).mp
    (@parseEntries_oneLeaf key block generation hkey hblock)).2 0 Nat.one_pos
  have hchild : (walk blockSize 0 leaf header ([], [] ++ [block])).exec d =
      (.ok (es, [block]), d) := by
    unfold walk
    rw [if_pos (by simp [ExtentHeader.isLeaf, hdepth]), Io.exec_bind_ok _ _ d d _
      (by rw [Io.exec_liftM, hentries])]
    rfl
  unfold collectAll collectAllWithNodes
  rw [Io.exec_bind_ok _ _ d d (es, [block])]
  · rfl
  rw [Io.exec_bind_ok _ _ d d _ (by rw [Io.exec_liftM, parse_oneLeaf])]
  dsimp only
  rw [if_neg (by decide)]
  unfold walk
  rw [if_neg (by simp [ExtentHeader.isLeaf])]
  dsimp only
  rw [List.range_one, List.foldlM_cons, Io.exec_bind_ok _ _ d d (es, [block])]
  · rfl
  rw [Io.exec_bind_ok _ _ d d _ (by rw [Io.exec_liftM, hslot]), Io.exec_bind_ok _ _ d d _
    (readChild_exec hnode), Io.exec_bind_ok _ _ d d _ (by rw [Io.exec_liftM, hheader])]
  exact hchild

end OneLeaf

theorem lookup_leafRoot {d : Disk} {blockSize : Nat} {root : Bytes} {es : List Extent}
    (hroot : Represents (nodeOn d blockSize) (LevelTree.leaf es) root)
    (hsorted : es.Pairwise (fun a b => a.logicalBlock ≤ b.logicalBlock)) (logical : Nat) :
    (lookup root blockSize logical).exec d =
      (.ok (es.find? (covers Extent.logicalBlock Extent.length logical)), d) := by
  obtain ⟨header, hparse, hdepth⟩ := hroot.parse
  unfold lookup
  rw [Io.exec_bind_ok _ _ d d _ (by rw [Io.exec_liftM, hparse]), hdepth, if_neg (by decide)]
  exact lookupNode_leaf hroot hparse hsorted

end Extent

def extended (es : List Extent) (new : Extent) (logical : Nat) : Option (Nat × Bool) :=
  if new.contains logical then some (new.map logical, new.uninitialized) else mapping es logical

def Sorted (es : List Extent) : Prop := es.Pairwise (fun a b => a.logicalBlock < b.logicalBlock)

theorem Sorted.le {es : List Extent} (h : Sorted es) : es.Pairwise
    (fun a b => a.logicalBlock ≤ b.logicalBlock) :=
  List.Pairwise.imp Nat.le_of_lt h

/-- A tree on the disk with its extents sorted, in which every lookup comes to what is given. -/
structure HoldsMap (d : Disk) (blockSize : Nat) (root : Bytes) (found : Nat → Option (Nat × Bool)) :
    Prop where
  entries : ∃ es, (Extent.collectAll root blockSize).exec d = (.ok es, d) ∧ Sorted es
  finds : ∀ logical, ∃ e, (Extent.lookup root blockSize logical).exec d = (.ok e, d) ∧
    e.map (fun e => (e.map logical, e.uninitialized)) = found logical

def fullError : Error := .corruptExtentTree leafFull

/-- What inserting into an inline root is for: an overlap is refused and only that; a new root has
extents in order and the old map with the new extent; a root is full only when the new extent can be
merged with none of its own; and the trees made in place of a full root have that same map. -/
structure InsertsInline (root : Bytes) (header : ExtentHeader) (es : List Extent) (new : Extent) :
    Prop where
  returns : planInsertExtent root new ≠ .error .panicked
  overlap : planInsertExtent root new = .error overlapError ↔
    ∃ e ∈ es, ∃ logical, e.contains logical = true ∧ new.contains logical = true
  inserted : ∀ newRoot, planInsertExtent root new = .ok newRoot →
    ∃ header' es', readLeafEntries newRoot = .ok (header', es') ∧ Sorted es' ∧
      Apart Extent.logicalBlock Extent.length es' ∧
      (∀ e ∈ es', e.length ≤ maxExtentLen e.uninitialized) ∧
      ∀ logical, mapping es' logical = extended es new logical
  full : planInsertExtent root new = .error fullError →
    header.max < es.length + 1 ∧ ∀ e ∈ es, areContiguous e new = false ∧ areContiguous new e = false
  promoted : planInsertExtent root new = .error fullError →
    ∀ (blockSize leafPhys : Nat) (reserved : Bool), 1024 ≤ blockSize → blockSize ≤ 65536 →
      leafPhys < 2 ^ 48 → ∃ plan, planPromoteLeaf root new blockSize leafPhys reserved = .ok plan ∧
        ∀ d : Disk, nodeOn d blockSize leafPhys = .ok plan.leafBytes →
          HoldsMap d blockSize plan.newRootBytes (extended es new)
  deep : planInsertExtent root new = .error fullError →
    ∀ (fuel blockSize block : Nat) (read : NodeReader) (alloc : Allocator), 1024 ≤ blockSize →
      blockSize ≤ 65536 → alloc 0 = .ok block → block < 2 ^ 48 →
      ∃ plan, planInsertExtentDeep (fuel + 1) root new blockSize read alloc = some (.ok plan) ∧
        ∀ d : Disk, (∀ w ∈ plan.blockWrites, nodeOn d blockSize w.1 = .ok w.2) →
          HoldsMap d blockSize plan.newRoot (extended es new)

theorem meets_iff {e new : Extent} (he : 1 ≤ e.length) (hnew : 1 ≤ new.length) :
    e.meets new = true ↔ ∃ logical, e.contains logical = true ∧ new.contains logical = true := by
  rw [meets_eq_true]
  constructor
  · rintro ⟨hlt, hgt⟩
    refine ⟨max e.logicalBlock new.logicalBlock, contains_iff.mpr ?_, contains_iff.mpr ?_⟩ <;> omega
  · rintro ⟨logical, hce, hcn⟩
    have h1 := contains_iff.mp hce
    have h2 := contains_iff.mp hcn
    omega

section Planners

variable {root : Bytes} {header : ExtentHeader} {es : List Extent} {new : Extent}
  (hread : readLeafEntries root = .ok (header, es))

include hread

theorem planInsertExtent_meets (hany : ∃ e ∈ es, e.meets new = true) :
    planInsertExtent root new = .error overlapError := by
  obtain ⟨hparse, hdepth, hentries⟩ := readLeafEntries_eq_ok.mp hread
  have hleaf : header.isLeaf = true := by simp [ExtentHeader.isLeaf, hdepth]
  unfold planInsertExtent checkNoOverlap
  simp only [hparse, hleaf, hentries, bind, Except.bind, Bool.not_true,
    Bool.false_eq_true, if_false, if_pos (List.any_eq_true.mpr hany)]
  rfl

variable (hlength : root.length = 60) (hmeets : ∀ e ∈ es, e.meets new = false)

include hlength hmeets

theorem planInsertExtent_clear : planInsertExtent root new =
    if header.max < (insertIntoLeafSorted es new).length then .error fullError
    else if 4 < (insertIntoLeafSorted es new).length then .error .panicked
    else .ok (buildNode 60 header.max 0 header.generation
        ((insertIntoLeafSorted es new).map encodeExtent)) := by
  obtain ⟨hparse, hdepth, hentries⟩ := readLeafEntries_eq_ok.mp hread
  have hleaf : header.isLeaf = true := by simp [ExtentHeader.isLeaf, hdepth]
  have hfour := length_le_four hread hlength
  have hfew := (length_insertIntoLeafSorted es new).2
  have hroom : 60 < nodeSize * (1 + (insertIntoLeafSorted es new).length) ↔
      4 < (insertIntoLeafSorted es new).length := by
    simp only [nodeSize]
    omega
  unfold planInsertExtent buildRoot
  simp only [hparse, hleaf, hentries, checkNoOverlap_eq_ok_iff.mpr hmeets, bind, Except.bind,
    Bool.not_true, Bool.false_eq_true, if_false, throw, throwThe, MonadExceptOf.throw, hlength,
    hroom, hdepth]
  rw [Nat.mod_eq_of_lt (by omega)]
  rfl

theorem planPromoteLeaf_clear {blockSize : Nat} (h1024 : 1024 ≤ blockSize)
    (h64k : blockSize ≤ 65536) (leafPhys : Nat) (reserved : Bool) :
    ∃ max, 84 ≤ max ∧ max < 2 ^ 16 ∧ planPromoteLeaf root new blockSize leafPhys reserved =
      .ok ⟨buildNode blockSize max 0 header.generation
        ((insertIntoLeafSorted es new).map encodeExtent),
        buildInlineIndexRoot header.generation 1 [⟨0, leafPhys⟩]⟩ := by
  have hfour := length_le_four hread hlength
  have hfew := (length_insertIntoLeafSorted es new).2
  have hmax : 84 ≤ (blockSize - (if reserved then 4 else 0) - nodeSize) / nodeSize % 2 ^ 16 := by
    have hlt : (blockSize - (if reserved then 4 else 0) - nodeSize) / nodeSize < 2 ^ 16 := by
      simp only [nodeSize]
      omega
    rw [Nat.mod_eq_of_lt hlt]
    simp only [nodeSize]
    split <;> omega
  refine ⟨_, hmax, Nat.mod_lt _ (by decide), ?_⟩
  unfold planPromoteLeaf buildLeafBlock buildDepth1IndexRoot
  simp only [hread, checkNoOverlap_eq_ok_iff.mpr hmeets, bind, Except.bind, throw, throwThe,
    MonadExceptOf.throw, pure, Except.pure]
  rw [if_neg (by rw [Nat.mod_eq_of_lt (show (insertIntoLeafSorted es new).length <
    2 ^ 16 by omega)]; omega)]

theorem planInsertExtentDeep_leafRoot (blockSize fuel : Nat) (read : NodeReader) {block : Nat}
    {alloc : Allocator} (halloc : alloc 0 = .ok block) :
    planInsertExtentDeep (fuel + 1) root new blockSize read alloc = some (.ok
      (if (insertIntoLeafSorted es new).length ≤ 4 then
        ⟨buildInlineLeafRoot header.generation (insertIntoLeafSorted es new), [], []⟩
      else ⟨buildInlineIndexRoot header.generation 1
          [⟨firstStart Extent.logicalBlock (insertIntoLeafSorted es new), block⟩],
        [(block, buildFullLeafBlock header.generation (insertIntoLeafSorted es new) blockSize)],
        [block]⟩)) := by
  obtain ⟨hparse, hdepth, hentries⟩ := readLeafEntries_eq_ok.mp hread
  have hleaf : header.isLeaf = true := by simp [ExtentHeader.isLeaf, hdepth]
  have hfour := length_le_four hread hlength
  have hfew := (length_insertIntoLeafSorted es new).2
  have hstep : descendStep read new.logicalBlock ⟨0, root⟩ = .ok none := by
    unfold descendStep
    simp only [hparse, hleaf, bind, Except.bind, if_true]
    rfl
  unfold planInsertExtentDeep
  rw [if_neg (by rw [hlength]; decide), hparse]
  dsimp only
  rw [hdepth, if_neg (by decide), descendFrom, hstep]
  simp only [Option.map_some, bind, Except.bind, List.isEmpty_nil, leafLevel, hparse, hentries,
    checkNoOverlap_eq_ok_iff.mpr hmeets, if_true, halloc, pure, Except.pure]
  rw [Nat.mod_eq_of_lt (by omega)]
  by_cases hfits : (insertIntoLeafSorted es new).length ≤ 4
  · rw [if_pos hfits, if_pos hfits]
    rfl
  · rw [if_neg hfits, if_neg hfits]
    rfl

end Planners

/-- The new extent overlaps none, is not too long for its state, and either becomes a part of an
extent in front of it or has an entry that holds it; the root has the bytes for another slot, or
needs none. -/
structure TakesIn (header : ExtentHeader) (es : List Extent) (new : Extent) : Prop where
  clear : ∀ e ∈ es, e.meets new = false
  place : ∀ e ∈ es, e.logicalBlock ≠ new.logicalBlock
  fits : new.length ≤ maxExtentLen new.uninitialized
  kept : (∃ e ∈ es, areContiguous e new = true) ∨
    (if new.length = 0 then new.uninitialized = false else new.physicalBlock < 2 ^ 48)
  room : header.max ≤ 4 ∨ es.length < 4 ∨ ∃ e ∈ es, areContiguous e new = true ∨
    areContiguous new e = true

theorem map_stored_eq {es : List Extent} (h : ∀ e ∈ es, e.Valid) : es.map Extent.stored = es := by
  rw [List.map_congr_left (fun e he =>
    Extent.stored_eq (h e he).len (fun _ => (h e he).pos) (h e he).physical)]
  exact List.map_id es

/-- What is known of the entries after an insert for it to be right. -/
structure GoesIn (header : ExtentHeader) (es : List Extent) (new : Extent) : Prop where
  common : ∀ e ∈ es, ∀ logical, e.contains logical = true → new.contains logical = false
  logical : ∀ e ∈ insertIntoLeafSorted es new, e.logicalBlock < 2 ^ 32
  sorted : Sorted ((insertIntoLeafSorted es new).map Extent.stored)
  apart : Apart Extent.logicalBlock Extent.length ((insertIntoLeafSorted es new).map Extent.stored)
  lengths : ∀ e ∈ (insertIntoLeafSorted es new).map Extent.stored, e.length ≤
    maxExtentLen e.uninitialized
  map : ∀ logical, mapping ((insertIntoLeafSorted es new).map Extent.stored) logical =
    extended es new logical
  room : (insertIntoLeafSorted es new).length ≤ header.max →
    (insertIntoLeafSorted es new).length ≤ 4
  full : header.max < (insertIntoLeafSorted es new).length →
    ∀ e ∈ es, areContiguous e new = false ∧ areContiguous new e = false

section Inserts

variable {root : Bytes} {header : ExtentHeader} {es : List Extent} {new : Extent}
  (hlength : root.length = 60) (hread : readLeafEntries root = .ok (header, es)) (ho : InOrder es)

include hread ho in
theorem insertsInline_of_meets (hpos : 1 ≤ new.length) (hany : ∃ e ∈ es, e.meets new = true) :
    InsertsInline root header es new := by
  have hrefused := planInsertExtent_meets hread hany
  have hnotFull : planInsertExtent root new ≠ .error fullError := by
    rw [hrefused]
    decide
  constructor
  · rw [hrefused]
    decide
  · obtain ⟨e, he, hmeets⟩ := hany
    exact ⟨fun _ => ⟨e, he, (meets_iff (ho.valid e he).pos hpos).mp hmeets⟩, fun _ => hrefused⟩
  · intro newRoot hok
    rw [hrefused] at hok
    cases hok
  · exact fun hfull => absurd hfull hnotFull
  · exact fun hfull => absurd hfull hnotFull
  · exact fun hfull => absurd hfull hnotFull

theorem holdsMap_leafRoot {d : Disk} {blockSize : Nat} {tree : Bytes} {after : List Extent}
    {found : Nat → Option (Nat × Bool)}
      (hrep : Represents (nodeOn d blockSize) (LevelTree.leaf after) tree)
    (hsorted : Sorted after) (hmap : ∀ logical, mapping after logical = found logical) :
    HoldsMap d blockSize tree found :=
  ⟨⟨after, Extent.collectAll_exec (Nat.zero_le _) hrep, hsorted⟩,
    fun logical => ⟨_, Extent.lookup_leafRoot hrep hsorted.le logical, hmap logical⟩⟩

theorem holdsMap_oneLeaf {d : Disk} {blockSize key block : Nat} {generation : UInt32} {leaf : Bytes}
    {after : List Extent} {found : Nat → Option (Nat × Bool)} (hkey : key < 2 ^ 32)
      (hblock : block < 2 ^ 48)
    (hnode : nodeOn d blockSize block = .ok leaf)
    (hrep : Represents (nodeOn d blockSize) (LevelTree.leaf after) leaf)
    (hsorted : Sorted after) (hmap : ∀ logical, mapping after logical = found logical) :
    HoldsMap d blockSize (buildInlineIndexRoot generation 1 [⟨key, block⟩]) found :=
  ⟨⟨after, Extent.collectAll_oneLeaf hkey hblock hnode hrep, hsorted⟩,
    fun logical => ⟨_, Extent.lookup_oneLeaf hkey hblock hnode hrep hsorted.le logical,
      hmap logical⟩⟩

include hlength hread

theorem insertsInline_of_goesIn (hmeets : ∀ e ∈ es, e.meets new = false)
    (hin : GoesIn header es new) :
    InsertsInline root header es new := by
  have hplan := planInsertExtent_clear hread hlength hmeets
  have hfour := length_le_four hread hlength
  have hfew := (length_insertIntoLeafSorted es new).2
  have hlen : ((insertIntoLeafSorted es new).map Extent.stored).length =
      (insertIntoLeafSorted es new).length :=
    List.length_map _
  constructor
  case returns =>
    rw [hplan]
    split
    · decide
    · rename_i hroom
      rw [if_neg (Nat.not_lt.mpr (hin.room (Nat.le_of_not_lt hroom)))]
      nofun
  case overlap =>
    constructor
    · intro hrefused
      rw [hplan] at hrefused
      split at hrefused
      · exact absurd (Except.error.inj hrefused) (by decide)
      · split at hrefused
        · exact absurd (Except.error.inj hrefused) (by decide)
        · cases hrefused
    · rintro ⟨e, he, logical, hce, hcn⟩
      rw [hin.common e he logical hce] at hcn
      cases hcn
  case inserted =>
    intro newRoot hok
    rw [hplan] at hok
    split at hok
    · cases hok
    · rename_i hroom
      split at hok
      · cases hok
      · cases hok
        obtain ⟨found, hfound, hleaf, hentries⟩ := represents_stored (fun _ => .error .io) 60
          header.generation hin.logical (Nat.le_of_not_lt hroom) (header_max_lt hread)
        exact ⟨found, _, readLeafEntries_eq_ok.mpr ⟨hfound, hleaf, hentries⟩, hin.sorted, hin.apart,
          hin.lengths, hin.map⟩
  case full =>
    intro hfull
    rw [hplan] at hfull
    split at hfull
    · rename_i hroom
      exact ⟨Nat.lt_of_lt_of_le hroom hfew, hin.full hroom⟩
    · split at hfull
      · exact absurd (Except.error.inj hfull) (by decide)
      · cases hfull
  case promoted =>
    intro _ blockSize leafPhys reserved h1024 h64k hphys
    obtain ⟨max, hcap, hmax, hpromoted⟩ := planPromoteLeaf_clear hread hlength hmeets h1024 h64k
      leafPhys reserved
    refine ⟨_, hpromoted, ?_⟩
    intro d hnode
    exact holdsMap_oneLeaf (by decide) hphys hnode
      (represents_stored _ _ _ hin.logical (by omega) hmax) hin.sorted hin.map
  case deep =>
    intro _ fuel blockSize block read alloc h1024 h64k halloc hblock
    obtain ⟨hcap, hmax, -⟩ := nodeMaxEntries_bounds h1024 h64k
    have hdeep := planInsertExtentDeep_leafRoot hread hlength hmeets blockSize fuel read halloc
    by_cases hfits : (insertIntoLeafSorted es new).length ≤ 4
    · rw [if_pos hfits] at hdeep
      refine ⟨_, hdeep, ?_⟩
      intro d _
      exact holdsMap_leafRoot (represents_stored _ _ _ hin.logical hfits
        (show 4 < 2 ^ 16 by decide)) hin.sorted hin.map
    · rw [if_neg hfits] at hdeep
      refine ⟨_, hdeep, ?_⟩
      intro d hwrites
      have hnode := hwrites _ (List.mem_singleton_self _)
      exact holdsMap_oneLeaf (firstStart_lt hin.logical) hblock hnode
        (represents_stored _ _ _ hin.logical (by omega) hmax) hin.sorted hin.map

end Inserts

section Goes

variable {header : ExtentHeader} {es : List Extent} {new : Extent} (ho : InOrder es)
  (hfew : es.length ≤ 4) (hfill : es.length ≤ header.max) (hlogical : new.logicalBlock < 2 ^ 32)
    (ht : TakesIn header es new)

include ho ht in
theorem TakesIn.full (hfill : es.length ≤ header.max)
    (hroom : header.max < (insertIntoLeafSorted es new).length) :
    ∀ e ∈ es, areContiguous e new = false ∧ areContiguous new e = false := by
  have hnone : ∀ e ∈ es, ¬ (areContiguous e new = true ∨ areContiguous new e = true) := by
    intro e he hjoin
    have hsaved := length_le_of_contiguous ho ht.clear ht.place he hjoin
    omega
  intro e he
  have hneither := not_or.mp (hnone e he)
  exact ⟨by simpa using hneither.1, by simpa using hneither.2⟩

include ho ht hfew in
theorem TakesIn.roomy (hroom : (insertIntoLeafSorted es new).length ≤ header.max) :
    (insertIntoLeafSorted es new).length ≤ 4 := by
  have hone := (length_insertIntoLeafSorted es new).2
  obtain hmax | hthree | ⟨e, he, hjoin⟩ := ht.room
  · omega
  · omega
  · exact Nat.le_trans (length_le_of_contiguous ho ht.clear ht.place he hjoin) hfew

include ht in
theorem TakesIn.common : ∀ e ∈ es, ∀ logical, e.contains logical = true →
    new.contains logical = false := by
  intro e he logical hce
  rw [Bool.eq_false_iff]
  intro hcn
  have h1 := contains_iff.mp hce
  have h2 := contains_iff.mp hcn
  have hno := meets_eq_false.mp (ht.clear e he)
  omega

include ho hfew hfill ht in
theorem TakesIn.goesIn_of_inOrder (hafter : InOrder (insertIntoLeafSorted es new))
    (hmap : ∀ logical, mapping (insertIntoLeafSorted es new) logical = extended es new logical) :
    GoesIn header es new := by
  have hstored := map_stored_eq hafter.valid
  constructor
  · exact ht.common
  · exact fun e he => (hafter.valid e he).logical
  · rw [hstored]
    exact hafter.ascending.starts
  · rw [hstored]
    exact hafter.apart
  · rw [hstored]
    exact fun e he => (hafter.valid e he).len
  · rw [hstored]
    exact hmap
  · exact ht.roomy ho hfew
  · exact ht.full ho hfill

include ho hfew hfill hlogical ht

theorem TakesIn.goesIn_of_empty (hzero : new.length = 0) (hinit : new.uninitialized = false)
    (hleft : ∀ e ∈ es, areContiguous e new = false) : GoesIn header es new := by
  have hright : ∀ e ∈ es, areContiguous new e = false := by
    intro e he
    rw [Bool.eq_false_iff]
    intro hjoin
    have hend := (areContiguous_iff.mp hjoin).2.2.1
    have hne := ht.place e he
    omega
  obtain ⟨A, B, hes, hafter, hA, hB⟩ := insertIntoLeafSorted_alone ho ht.clear ht.place hleft hright
  have hempty : new.stored.length = 0 ∧ new.stored.uninitialized = false ∧
      new.stored.logicalBlock = new.logicalBlock := by
    unfold Extent.stored
    simp [hzero, hinit]
  have hvalid : ∀ e ∈ A ++ B, e.Valid := hes ▸ ho.valid
  have hstored : (insertIntoLeafSorted es new).map Extent.stored = A ++ new.stored :: B := by
    rw [hafter, List.map_append, List.map_cons, map_stored_eq fun e he =>
      hvalid e (List.mem_append_left _ he),
      map_stored_eq fun e he => hvalid e (List.mem_append_right _ he)]
  have hapart := ho.apart
  rw [hes] at hapart
  obtain ⟨hAA, hBB, hcross⟩ := List.pairwise_append.mp hapart
  have hbefore : ∀ a ∈ A, a.logicalBlock < new.logicalBlock := by
    intro a ha
    have hend := hA a ha
    have hpos := (hvalid a (List.mem_append_left _ ha)).pos
    omega
  have hbehind : ∀ b ∈ B, new.logicalBlock < b.logicalBlock := by
    intro b hb
    have hstart := hB b hb
    have hne := ht.place b (by rw [hes]; exact List.mem_append_right _ hb)
    omega
  constructor
  · exact ht.common
  · intro e he
    rw [hafter] at he
    obtain he | he := List.mem_append.mp he
    · exact (hvalid e (List.mem_append_left _ he)).logical
    · obtain rfl | he := List.mem_cons.mp he
      · exact hlogical
      · exact (hvalid e (List.mem_append_right _ he)).logical
  · have hstarts := ho.ascending.starts
    rw [hes] at hstarts
    obtain ⟨hAs, hBs, hcs⟩ := List.pairwise_append.mp hstarts
    rw [hstored]
    refine List.pairwise_append.mpr ⟨hAs, List.pairwise_cons.mpr ⟨?_, hBs⟩, ?_⟩
    · intro b hb
      rw [hempty.2.2]
      exact hbehind b hb
    · intro a ha b hb
      obtain rfl | hb := List.mem_cons.mp hb
      · rw [hempty.2.2]
        exact hbefore a ha
      · exact hcs a ha b hb
  · rw [hstored]
    refine List.pairwise_append.mpr ⟨hAA, List.pairwise_cons.mpr ⟨?_, hBB⟩, ?_⟩
    · intro b hb
      rw [hempty.1, hempty.2.2]
      exact Nat.le_of_lt (hbehind b hb)
    · intro a ha b hb
      obtain rfl | hb := List.mem_cons.mp hb
      · rw [hempty.2.2]
        exact hA a ha
      · exact hcross a ha b hb
  · rw [hstored]
    intro e he
    obtain he | he := List.mem_append.mp he
    · exact (hvalid e (List.mem_append_left _ he)).len
    · obtain rfl | he := List.mem_cons.mp he
      · rw [hempty.1]
        exact Nat.zero_le _
      · exact (hvalid e (List.mem_append_right _ he)).len
  · intro logical
    have hnone : ∀ e : Extent, e.length = 0 → e.contains logical = false := by
      intro e he
      rw [Bool.eq_false_iff]
      intro hc
      have hin := contains_iff.mp hc
      omega
    rw [hstored, extended, hnone new hzero, if_neg Bool.false_ne_true, hes, mapping_between
      (fun a ha => by rw [hempty.2.2]; exact hA a ha)
      (fun b hb => by rw [hempty.1, hempty.2.2]; exact Nat.le_of_lt (hbehind b hb)),
      hnone _ hempty.1, if_neg Bool.false_ne_true]
  · exact ht.roomy ho hfew
  · exact ht.full ho hfill

theorem TakesIn.goesIn : GoesIn header es new := by
  by_cases hjoin : ∃ e ∈ es, areContiguous e new = true
  · obtain ⟨e, he, hjoin⟩ := hjoin
    obtain ⟨hafter, hmap⟩ := inOrder_of_joined ho ht.clear ht.place he hjoin
    exact ht.goesIn_of_inOrder ho hfew hfill hafter hmap
  · have hkept := ht.kept.resolve_left hjoin
    split at hkept
    · rename_i hzero
      refine ht.goesIn_of_empty ho hfew hfill hlogical hzero hkept ?_
      intro e he
      rw [Bool.eq_false_iff]
      exact fun h => hjoin ⟨e, he, h⟩
    · rename_i hne
      have hnew : new.Valid := ⟨hlogical, Nat.one_le_iff_ne_zero.mpr hne, ht.fits, hkept⟩
      have hinserted := inserted_leaf ht.clear
      exact ht.goesIn_of_inOrder ho hfew hfill (hinserted.inOrder ho hnew ht.clear)
        (hinserted.mapping ho hnew ht.clear)

end Goes

theorem nodeOn_written (blockSize block : Nat) {bytes : Bytes} (hfit : block * blockSize < 2 ^ 64)
    (hlen : bytes.length = blockSize) :
    nodeOn ⟨block * blockSize + blockSize, Image.write (fun _ => 0) (block * blockSize) bytes⟩
      blockSize block = .ok bytes := by
  have hself := Image.read_write_self (fun _ => 0) (block * blockSize) bytes
  rw [hlen] at hself
  rw [nodeOn, if_pos ⟨hfit, Nat.le_refl _⟩, hself]

section Fails

variable {root : Bytes} {header : ExtentHeader} {es : List Extent} {new : Extent}
  (hlength : root.length = 60) (hread : readLeafEntries root = .ok (header, es)) (ho : InOrder es)
  (hmeets : ∀ e ∈ es, e.meets new = false)

include hlength hread hmeets

theorem not_insertsInline_of_panic (hmax : (insertIntoLeafSorted es new).length ≤ header.max)
    (hlong : 4 < (insertIntoLeafSorted es new).length) : ¬ InsertsInline root header es new := by
  intro h
  apply h.returns
  rw [planInsertExtent_clear hread hlength hmeets, if_neg (Nat.not_lt.mpr hmax), if_pos hlong]

theorem InsertsInline.reads (h : InsertsInline root header es new)
    (hlogical : ∀ e ∈ insertIntoLeafSorted es new, e.logicalBlock < 2 ^ 32)
    (hsorted : (insertIntoLeafSorted es new).Pairwise
      (fun a b => a.logicalBlock ≤ b.logicalBlock)) :
    Sorted ((insertIntoLeafSorted es new).map Extent.stored) ∧
      ∀ logical, mapping ((insertIntoLeafSorted es new).map Extent.stored) logical =
        extended es new logical := by
  have hplan := planInsertExtent_clear hread hlength hmeets
  have hsorted' : ((insertIntoLeafSorted es new).map Extent.stored).Pairwise
      (fun a b => a.logicalBlock ≤ b.logicalBlock) := List.pairwise_map.mpr hsorted
  split at hplan
  · -- the root is full: the entries are in the leaf of the promoted tree
    obtain ⟨max, hcap, hmax, hpromoted⟩ :=
      planPromoteLeaf_clear hread hlength hmeets (Nat.le_refl 1024) (by decide) 5 false
    obtain ⟨plan, hok, hholds⟩ := h.promoted hplan 1024 5 false (by decide) (by decide) (by decide)
    obtain rfl := Except.ok.inj (hok.symm.trans hpromoted)
    have hfew := (length_insertIntoLeafSorted es new).2
    have hfour := length_le_four hread hlength
    have hlen : (buildNode 1024 max 0 header.generation
        ((insertIntoLeafSorted es new).map encodeExtent)).length = 1024 := by
      refine length_buildNode (fun b hb => ?_) ?_
      · obtain ⟨e, -, rfl⟩ := List.mem_map.mp hb
        exact length_encodeExtent e
      · rw [List.length_map]
        simp only [nodeSize]
        omega
    obtain ⟨d, hnode⟩ : ∃ d : Disk, nodeOn d 1024 5 =
        .ok (buildNode 1024 max 0 header.generation
          ((insertIntoLeafSorted es new).map encodeExtent)) :=
      ⟨_, nodeOn_written 1024 5 (by decide) hlen⟩
    have hrep := represents_stored (nodeOn d 1024) 1024 header.generation hlogical (by omega) hmax
    obtain ⟨⟨found, hcollect, hfound⟩, hfinds⟩ := hholds d hnode
    rw [Extent.collectAll_oneLeaf (by decide) (by decide) hnode hrep] at hcollect
    obtain rfl := Except.ok.inj (Prod.mk.inj hcollect).1
    refine ⟨hfound, ?_⟩
    intro logical
    obtain ⟨e, hlookup, hmap⟩ := hfinds logical
    rw [Extent.lookup_oneLeaf (by decide) (by decide) hnode hrep hsorted'] at hlookup
    obtain rfl := Except.ok.inj (Prod.mk.inj hlookup).1
    exact hmap
  · rename_i hroom
    split at hplan
    · exact absurd hplan h.returns
    · obtain ⟨header', es', hread', hsorted'', -, -, hmap⟩ := h.inserted _ hplan
      obtain ⟨found, hfound, hleaf, hentries⟩ := represents_stored (fun _ => .error .io) 60
        header.generation hlogical (Nat.le_of_not_lt hroom) (header_max_lt hread)
      have hsame := hread'.symm.trans (readLeafEntries_eq_ok.mpr ⟨hfound, hleaf, hentries⟩)
      obtain ⟨-, rfl⟩ := Prod.mk.inj (Except.ok.inj hsame)
      exact ⟨hsorted'', hmap⟩

include ho

theorem not_insertsInline_of_twin {e : Extent} (he : e ∈ es)
    (hstart : e.logicalBlock = new.logicalBlock) :
    ¬ InsertsInline root header es new := by
  intro h
  obtain ⟨A, B, rfl, hafter⟩ := insertIntoLeafSorted_twin ho he hstart
  have hstarts := ho.apart.pairwise_start
  obtain ⟨hA, hB, hcross⟩ := List.pairwise_append.mp hstarts
  obtain ⟨heB, hBB⟩ := List.pairwise_cons.mp hB
  have hsorted : (insertIntoLeafSorted (A ++ e :: B) new).Pairwise
      (fun a b => a.logicalBlock ≤ b.logicalBlock) := by
    rw [hafter]
    refine List.pairwise_append.mpr
      ⟨hA, List.pairwise_cons.mpr ⟨?_, List.pairwise_cons.mpr ⟨?_, hBB⟩⟩, ?_⟩
    · intro b hb
      obtain rfl | hb := List.mem_cons.mp hb
      · exact Nat.le_of_eq hstart
      · exact heB b hb
    · intro b hb
      rw [← hstart]
      exact heB b hb
    · intro a ha b hb
      obtain rfl | hb := List.mem_cons.mp hb
      · exact hcross a ha b List.mem_cons_self
      · obtain rfl | hb := List.mem_cons.mp hb
        · rw [← hstart]
          exact hcross a ha e List.mem_cons_self
        · exact hcross a ha b (List.mem_cons_of_mem _ hb)
  have hlogical : ∀ x ∈ insertIntoLeafSorted (A ++ e :: B) new, x.logicalBlock < 2 ^ 32 := by
    intro x hx
    rw [hafter] at hx
    obtain hx | hx := List.mem_append.mp hx
    · exact (ho.valid x (List.mem_append_left _ hx)).logical
    · obtain rfl | hx := List.mem_cons.mp hx
      · exact (ho.valid x he).logical
      · obtain rfl | hx := List.mem_cons.mp hx
        · rw [← hstart]
          exact (ho.valid e he).logical
        · exact (ho.valid x (List.mem_append_right _ (List.mem_cons_of_mem _ hx))).logical
  have hread' := (h.reads hlength hread hmeets hlogical hsorted).1
  rw [hafter, List.map_append, List.map_cons, List.map_cons] at hread'
  have hlt := (List.pairwise_cons.mp (List.pairwise_append.mp hread').2.1).1 new.stored
    List.mem_cons_self
  have hsame : e.stored.logicalBlock = new.stored.logicalBlock := hstart
  omega

variable (hplace : ∀ e ∈ es, e.logicalBlock ≠ new.logicalBlock)
  (hlogical : new.logicalBlock < 2 ^ 32)
  (hleft : ∀ e ∈ es, areContiguous e new = false) (hright : ∀ e ∈ es, areContiguous new e = false)

include hplace hlogical hleft hright

theorem InsertsInline.kept (h : InsertsInline root header es new) :
    (1 ≤ new.stored.length → extended es new new.logicalBlock = some (new.stored.physicalBlock,
    new.stored.uninitialized)) ∧
      (new.stored.length = 0 → extended es new new.logicalBlock = none) := by
  obtain ⟨A, B, hes, hafter, hA, hB⟩ := insertIntoLeafSorted_alone ho hmeets hplace hleft hright
  have hvalid : ∀ e ∈ A ++ B, e.Valid := hes ▸ ho.valid
  have hstarts := ho.apart.pairwise_start
  rw [hes] at hstarts
  obtain ⟨hAA, hBB, hcross⟩ := List.pairwise_append.mp hstarts
  have hsorted : (insertIntoLeafSorted es new).Pairwise
      (fun a b => a.logicalBlock ≤ b.logicalBlock) := by
    rw [hafter]
    refine List.pairwise_append.mpr ⟨hAA, List.pairwise_cons.mpr ⟨?_, hBB⟩, ?_⟩
    · exact fun b hb => Nat.le_trans (Nat.le_add_right _ _) (hB b hb)
    · intro a ha b hb
      obtain rfl | hb := List.mem_cons.mp hb
      · exact Nat.le_trans (Nat.le_add_right _ _) (hA a ha)
      · exact hcross a ha b hb
  have hbelow : ∀ e ∈ insertIntoLeafSorted es new, e.logicalBlock < 2 ^ 32 := by
    intro e he
    rw [hafter] at he
    obtain he | he := List.mem_append.mp he
    · exact (hvalid e (List.mem_append_left _ he)).logical
    · obtain rfl | he := List.mem_cons.mp he
      · exact hlogical
      · exact (hvalid e (List.mem_append_right _ he)).logical
  have hmap := (h.reads hlength hread hmeets hbelow hsorted).2 new.logicalBlock
  rw [hafter, List.map_append, List.map_cons, map_stored_eq fun e he =>
    hvalid e (List.mem_append_left _ he),
    map_stored_eq fun e he => hvalid e (List.mem_append_right _ he)] at hmap
  have hstart : new.stored.logicalBlock = new.logicalBlock := rfl
  have hoff : ∀ e ∈ A ++ B, e.contains new.logicalBlock = false := by
    intro e he
    rw [Bool.eq_false_iff]
    intro hc
    have hin := contains_iff.mp hc
    obtain ha | hb := List.mem_append.mp he
    · have hend := hA e ha
      omega
    · have hbegin := hB e hb
      have hne := hplace e (by rw [hes]; exact he)
      omega
  have hfind : (A ++ new.stored :: B).find?
    (covers Extent.logicalBlock Extent.length new.logicalBlock) =
      if new.stored.contains new.logicalBlock then some new.stored else none := by
    have hA' : A.find? (covers Extent.logicalBlock Extent.length new.logicalBlock) = none :=
      List.find?_eq_none.mpr fun a ha => by
        rw [← Extent.contains_eq_covers, hoff a (List.mem_append_left _ ha)]
        exact Bool.false_ne_true
    have hB' : B.find? (covers Extent.logicalBlock Extent.length new.logicalBlock) = none :=
      List.find?_eq_none.mpr fun b hb => by
        rw [← Extent.contains_eq_covers, hoff b (List.mem_append_right _ hb)]
        exact Bool.false_ne_true
    rw [List.find?_append, hA', Option.none_or, List.find?_cons, hB', ← Extent.contains_eq_covers]
    cases new.stored.contains new.logicalBlock <;> rfl
  rw [mapping, hfind] at hmap
  constructor
  · intro hpos
    rw [if_pos (contains_iff.mpr (by omega))] at hmap
    rw [← hmap, Option.map_some, Extent.map, hstart, Nat.sub_self, Nat.add_zero]
  · intro hzero
    rw [if_neg (fun hc => by have hin := contains_iff.mp hc; omega)] at hmap
    exact hmap.symm

end Fails

section Exactly

variable {root : Bytes} {header : ExtentHeader} {es : List Extent} {new : Extent}
  (hlength : root.length = 60) (hread : readLeafEntries root = .ok (header, es)) (ho : InOrder es)
  (hlogical : new.logicalBlock < 2 ^ 32) (h16 : new.length < 2 ^ 16)

theorem extended_first (es : List Extent) (hpos : 1 ≤ new.length) :
    extended es new new.logicalBlock = some (new.physicalBlock, new.uninitialized) := by
  rw [extended, if_pos (contains_iff.mpr (by omega)), Extent.map, Nat.sub_self, Nat.add_zero]

theorem stored_of_long (h16 : new.length < 2 ^ 16) (hlong : maxExtentLen new.uninitialized <
    new.length) :
    1 ≤ new.stored.length → new.stored.uninitialized ≠ new.uninitialized := by
  obtain ⟨logical, length, physical, uninitialized⟩ := new
  have hmax : extInitMaxLen = 32768 := rfl
  dsimp only [maxExtentLen] at hlong h16
  unfold Extent.stored
  dsimp only
  cases uninitialized with
  | false =>
    rw [if_neg Bool.false_ne_true] at hlong
    rw [if_neg Bool.false_ne_true, Nat.mod_eq_of_lt h16, if_pos hlong, decide_eq_true hlong]
    exact fun _ => by decide
  | true =>
    rw [if_pos rfl] at hlong
    have hmod : (length + extInitMaxLen) % 2 ^ 16 = length - extInitMaxLen := by
      rw [hmax]
      omega
    rw [if_pos rfl, hmod, if_neg (by omega), decide_eq_false (by omega)]
    exact fun _ => by decide

include hlength hread ho hlogical h16

theorem InsertsInline.takesIn (h : InsertsInline root header es new)
    (hmeets : ∀ e ∈ es, e.meets new = false) :
    TakesIn header es new := by
  have hplace : ∀ e ∈ es, e.logicalBlock ≠ new.logicalBlock :=
    fun e he hstart => not_insertsInline_of_twin hlength hread ho hmeets he hstart h
  have hkept := @InsertsInline.kept root header es new hlength hread ho hmeets hplace hlogical
  refine ⟨hmeets, hplace, ?_, ?_, ?_⟩
  · by_contra hlong
    have hlong := Nat.lt_of_not_le hlong
    have hfirst := @extended_first new es (by omega)
    obtain ⟨hsome, hnone⟩ := hkept (fun e _ => (not_contiguous_of_long hlong e).1)
      (fun e _ => (not_contiguous_of_long hlong e).2) h
    obtain hzero | hpos := Nat.eq_zero_or_pos new.stored.length
    · rw [hnone hzero] at hfirst
      cases hfirst
    · rw [hsome hpos] at hfirst
      exact stored_of_long h16 hlong hpos (Prod.mk.inj (Option.some.inj hfirst)).2
  · by_contra hlost
    obtain ⟨hnone, hlost⟩ := not_or.mp hlost
    have hleft : ∀ e ∈ es, areContiguous e new = false := by
      intro e he
      rw [Bool.eq_false_iff]
      exact fun hjoin => hnone ⟨e, he, hjoin⟩
    split at hlost
    · rename_i hzero
      have huninit : new.uninitialized = true := by simpa using hlost
      have hright : ∀ e ∈ es, areContiguous new e = false := by
        intro e he
        rw [Bool.eq_false_iff]
        intro hjoin
        have hend := (areContiguous_iff.mp hjoin).2.2.1
        have hne := hplace e he
        omega
      have hstored : new.stored.length = 32768 ∧ new.stored.uninitialized = false := by
        unfold Extent.stored
        simp [hzero, huninit, extInitMaxLen]
      have hsome := (hkept hleft hright h).1 (by rw [hstored.1]; decide)
      rw [extended, if_neg (fun hc => by have hin := contains_iff.mp hc; omega)] at hsome
      obtain ⟨e, he, hc, -⟩ := mem_of_mapping hsome
      have hin := contains_iff.mp hc
      have hno := meets_eq_false.mp (hmeets e he)
      have hne := hplace e he
      omega
    · rename_i hpos
      have hbig := Nat.le_of_not_lt hlost
      have hright : ∀ e ∈ es, areContiguous new e = false := by
        intro e he
        rw [Bool.eq_false_iff]
        intro hjoin
        have hphys := (areContiguous_iff.mp hjoin).2.2.2
        have hold := (ho.valid e he).physical
        omega
      have hfirst := @extended_first new es (Nat.one_le_iff_ne_zero.mpr hpos)
      obtain ⟨hsome, hnone⟩ := hkept hleft hright h
      obtain hzero | hstored := Nat.eq_zero_or_pos new.stored.length
      · rw [hnone hzero] at hfirst
        cases hfirst
      · rw [hsome hstored] at hfirst
        have hphys : new.physicalBlock % 2 ^ 48 = new.physicalBlock :=
          (Prod.mk.inj (Option.some.inj hfirst)).1
        have hlt := Nat.mod_lt new.physicalBlock (Nat.two_pow_pos 48)
        omega
  · by_contra hfull
    obtain ⟨hmax, hfull⟩ := not_or.mp hfull
    obtain ⟨hthree, hnone⟩ := not_or.mp hfull
    have halone : ∀ e ∈ es, areContiguous e new = false ∧ areContiguous new e = false := by
      intro e he
      rw [Bool.eq_false_iff, Bool.eq_false_iff]
      exact ⟨fun hjoin => hnone ⟨e, he, .inl hjoin⟩, fun hjoin => hnone ⟨e, he, .inr hjoin⟩⟩
    obtain ⟨A, B, hes, hafter, -, -⟩ := insertIntoLeafSorted_alone ho hmeets hplace
      (fun e he => (halone e he).1) (fun e he => (halone e he).2)
    have hfour := length_le_four hread hlength
    have hlen : (insertIntoLeafSorted es new).length = es.length + 1 := by
      rw [hafter, hes]
      simp only [List.length_append, List.length_cons]
      omega
    exact not_insertsInline_of_panic hlength hread hmeets (by omega) (by omega) h

end Exactly

/-- An insert into an inline root does what it is for exactly when the new extent has blocks and is
refused because it meets an extent that is there, or the root takes it in. -/
theorem inline_insert_iff {root : Bytes} {header : ExtentHeader} {es : List Extent} {new : Extent}
    (hlength : root.length = 60) (hread : readLeafEntries root = .ok (header, es))
    (hapart : Apart Extent.logicalBlock Extent.length es) (hentries : ∀ e ∈ es, 1 ≤ e.length)
    (hlogical : new.logicalBlock < 2 ^ 32) (h16 : new.length < 2 ^ 16) :
    InsertsInline root header es new ↔
      (1 ≤ new.length ∧ ∃ e ∈ es, e.meets new = true) ∨ TakesIn header es new := by
  have ho := inOrder_of_read hread hapart hentries
  constructor
  · intro h
    by_cases hany : ∃ e ∈ es, e.meets new = true
    · refine .inl ⟨?_, hany⟩
      obtain ⟨e, he, logical, -, hcn⟩ := h.overlap.mp (planInsertExtent_meets hread hany)
      have hin := contains_iff.mp hcn
      omega
    · refine .inr (h.takesIn hlength hread ho hlogical h16 ?_)
      intro e he
      rw [Bool.eq_false_iff]
      exact fun hmeets => hany ⟨e, he, hmeets⟩
  · rintro (⟨hpos, hany⟩ | ht)
    · exact insertsInline_of_meets hread ho hpos hany
    · obtain ⟨hparse, -, hslots⟩ := readLeafEntries_eq_ok.mp hread
      have hfill : es.length ≤ header.max := by
        rw [length_of_parseEntries hslots]
        exact (ExtentHeader.parse_eq_ok.mp hparse).2.2.1
      exact insertsInline_of_goesIn hlength hread ht.clear
        (ht.goesIn ho (length_le_four hread hlength) hfill hlogical)

/-- Written into an empty root, it is read back as a shorter one that is uninitialized. -/
theorem long_extent_insert_turned : ∃ newRoot,
    readLeafEntries (buildInlineLeafRoot 0 []) = .ok (⟨0, 4, 0, 0⟩, []) ∧
    planInsertExtent (buildInlineLeafRoot 0 []) longExtent = .ok newRoot ∧
    readLeafEntries newRoot = .ok (⟨1, 4, 0, 0⟩, [⟨0, 7232, 500, true⟩]) ∧
    ¬ InsertsInline (buildInlineLeafRoot 0 []) ⟨0, 4, 0, 0⟩ [] longExtent := by
  refine ⟨_, rfl, rfl, rfl, ?_⟩
  intro h
  have ht := h.takesIn (length_buildInlineLeafRoot (by decide)) rfl
    ⟨List.Pairwise.nil, nofun⟩ (by decide) (by decide) nofun
  exact absurd ht.fits (by decide)

/-- A fifth extent among four. -/
theorem inline_insert_fourExtents :
    planInsertExtent (buildInlineLeafRoot 0 fourExtents) ⟨6, 1, 50, false⟩ = .error fullError ∧
      InsertsInline (buildInlineLeafRoot 0 fourExtents) ⟨4, 4, 0, 0⟩ fourExtents
        ⟨6, 1, 50, false⟩ := by
  have hapart : Apart Extent.logicalBlock Extent.length fourExtents := by
    unfold Apart
    decide
  have hread : readLeafEntries (buildInlineLeafRoot 0 fourExtents) =
    .ok (⟨4, 4, 0, 0⟩, fourExtents) := rfl
  exact ⟨rfl, (inline_insert_iff (length_buildInlineLeafRoot (by decide)) hread hapart (by decide)
    (by decide) (by decide)).mpr
      (.inr ⟨by decide, by decide, by decide, .inr (by decide), by decide⟩)⟩

end FsExt4
