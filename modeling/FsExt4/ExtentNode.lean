import FsExt4.Extent
import FsExt4.Lib.Chunks

namespace FsExt4

open Lib

def splitPhysBlock (block : Nat) : UInt16 × UInt32 :=
  (UInt16.ofNat (block / 2 ^ 32), UInt32.ofNat block)

def encodeExtent (e : Extent) : Bytes :=
  u32le (UInt32.ofNat e.logicalBlock) ++
    u16le (UInt16.ofNat (if e.uninitialized then e.length + extInitMaxLen else e.length)) ++
    u16le (splitPhysBlock e.physicalBlock).1 ++ u32le (splitPhysBlock e.physicalBlock).2

def encodeIndex (idx : ExtentIdx) : Bytes :=
  u32le (UInt32.ofNat idx.logicalBlock) ++ u32le (splitPhysBlock idx.leafBlock).2 ++
    u16le (splitPhysBlock idx.leafBlock).1 ++ [0, 0]

def maxExtentLen (uninitialized : Bool) : Nat :=
  if uninitialized then extInitMaxLen - 1 else extInitMaxLen

def entryAt {α : Type} (parse : Bytes → Result α) (outOfRange : String) (node : Bytes) (i : Nat) :
    Result α :=
  if node.length < Extent.entryOffset i + nodeSize then .error (.corruptExtentTree outOfRange)
  else parse (slice node (Extent.entryOffset i) nodeSize)

def parseEntries {α : Type} (parse : Bytes → Result α) (outOfRange : String) (node : Bytes)
    (count : Nat) : Result (List α) :=
  (List.range count).mapM (entryAt parse outOfRange node)

def parseLeafEntries (node : Bytes) (header : ExtentHeader) : Result (List Extent) :=
  parseEntries Extent.parse "leaf entry out of range" node header.entries

def parseIndexEntries (node : Bytes) (header : ExtentHeader) : Result (List ExtentIdx) :=
  parseEntries ExtentIdx.parse "index entry out of range" node header.entries

def nodeMaxEntries (blockSize : Nat) : Nat := (blockSize - nodeSize - 4) / nodeSize % 2 ^ 16

/-- The header, the slots after it, and zeros to the end of `len` bytes, for slots that have room in
them. -/
def buildNode (len max depth : Nat) (generation : UInt32) (body : List Bytes) : Bytes :=
  u16le extMagic ++ u16le (UInt16.ofNat body.length) ++ u16le (UInt16.ofNat max) ++
    u16le (UInt16.ofNat depth) ++ u32le generation ++ body.flatten ++
    List.replicate (len - nodeSize * (1 + body.length)) 0

/-- `eh_max` of a root may promise more slots than the root has bytes for. -/
def buildRoot (header : ExtentHeader) (extents : List Extent) (rootLen : Nat) : Result Bytes :=
  if rootLen < nodeSize * (1 + extents.length) then .error .panicked
  else .ok (buildNode rootLen header.max header.depth header.generation (extents.map encodeExtent))

def buildFullLeafBlock (generation : UInt32) (extents : List Extent) (blockSize : Nat) : Bytes :=
  buildNode blockSize (nodeMaxEntries blockSize) 0 generation (extents.map encodeExtent)

def buildFullIndexBlock (generation : UInt32) (depth : Nat) (indices : List ExtentIdx)
    (blockSize : Nat) : Bytes :=
  buildNode blockSize (nodeMaxEntries blockSize) depth generation (indices.map encodeIndex)

def buildInlineIndexRoot (generation : UInt32) (depth : Nat) (indices : List ExtentIdx) : Bytes :=
  buildNode 60 4 depth generation (indices.map encodeIndex)

def buildInlineLeafRoot (generation : UInt32) (extents : List Extent) : Bytes :=
  buildNode 60 4 0 generation (extents.map encodeExtent)

/-- An extent that the twelve bytes of a leaf entry can hold. -/
structure Extent.Valid (e : Extent) : Prop where
  logical : e.logicalBlock < 2 ^ 32
  pos : 1 ≤ e.length
  len : e.length ≤ maxExtentLen e.uninitialized
  physical : e.physicalBlock < 2 ^ 48

/-- A key and a child that the twelve bytes of an index entry can hold. -/
structure ExtentIdx.Valid (idx : ExtentIdx) : Prop where
  logical : idx.logicalBlock < 2 ^ 32
  leaf : idx.leafBlock < 2 ^ 48

theorem u16leAt_append (a b : Bytes) (v : UInt16) :
    u16leAt (a ++ (u16le v ++ b)) a.length = v := by
  apply u16leAt_of_slice
  rw [slice_append_right _ _ _ _ (Nat.le_refl _), Nat.sub_self,
    slice_append_left _ _ _ _ (by simp), ← length_u16le v]
  exact slice_zero_of_length_le _ _ (Nat.le_refl _)

theorem u32leAt_append (a b : Bytes) (v : UInt32) :
    u32leAt (a ++ (u32le v ++ b)) a.length = v := by
  apply u32leAt_of_slice
  rw [slice_append_right _ _ _ _ (Nat.le_refl _), Nat.sub_self,
    slice_append_left _ _ _ _ (by simp), ← length_u32le v]
  exact slice_zero_of_length_le _ _ (Nat.le_refl _)

theorem joined_splitPhysBlock (block : Nat) :
    (splitPhysBlock block).1.toNat * 2 ^ 32 + (splitPhysBlock block).2.toNat = block % 2 ^ 48 := by
  simp only [splitPhysBlock, UInt16.toNat_ofNat', UInt32.toNat_ofNat']
  omega

@[simp] theorem length_encodeExtent (e : Extent) : (encodeExtent e).length = nodeSize := by
  simp [encodeExtent, nodeSize]

@[simp] theorem length_encodeIndex (idx : ExtentIdx) : (encodeIndex idx).length = nodeSize := by
  simp [encodeIndex, nodeSize]

/-- What the twelve bytes hold of an extent: a length past its limit comes back in the other state,
and of the physical block there are 48 bits. -/
def Extent.stored (e : Extent) : Extent :=
  let eeLen := (if e.uninitialized then e.length + extInitMaxLen else e.length) % 2 ^ 16
  ⟨e.logicalBlock, if extInitMaxLen < eeLen then eeLen - extInitMaxLen else eeLen,
    e.physicalBlock % 2 ^ 48, decide (extInitMaxLen < eeLen)⟩

theorem parse_encodeExtent_stored (e : Extent) (hlog : e.logicalBlock < 2 ^ 32) :
    Extent.parse (encodeExtent e) = .ok e.stored := by
  obtain ⟨logical, length, physical, uninitialized⟩ := e
  dsimp only at hlog
  have h0 : u32leAt (encodeExtent ⟨logical, length, physical, uninitialized⟩) 0 =
      UInt32.ofNat logical := by
    unfold encodeExtent
    rw [List.append_assoc, List.append_assoc]
    exact u32leAt_append [] _ _
  have h4 : u16leAt (encodeExtent ⟨logical, length, physical, uninitialized⟩) 4 =
      UInt16.ofNat (if uninitialized then length + extInitMaxLen else length) := by
    unfold encodeExtent
    rw [List.append_assoc, List.append_assoc]
    exact u16leAt_append (u32le (UInt32.ofNat logical)) _ _
  have h6 : u16leAt (encodeExtent ⟨logical, length, physical, uninitialized⟩) 6 =
      (splitPhysBlock physical).1 := by
    unfold encodeExtent
    rw [List.append_assoc]
    exact u16leAt_append (u32le (UInt32.ofNat logical) ++ u16le _) _ _
  have h8 : u32leAt (encodeExtent ⟨logical, length, physical, uninitialized⟩) 8 =
      (splitPhysBlock physical).2 := by
    have ha := u32leAt_append (u32le (UInt32.ofNat logical) ++
      u16le (UInt16.ofNat (if uninitialized then length + extInitMaxLen else length)) ++
      u16le (splitPhysBlock physical).1) [] (splitPhysBlock physical).2
    rw [List.append_nil] at ha
    exact ha
  unfold Extent.parse
  rw [if_neg (by rw [length_encodeExtent]; exact Nat.lt_irrefl _), h0, h4, h6, h8,
    joined_splitPhysBlock physical, UInt32.toNat_ofNat', Nat.mod_eq_of_lt hlog,
    UInt16.toNat_ofNat']
  rfl

theorem Extent.stored_eq {e : Extent} (hlen : e.length ≤ maxExtentLen e.uninitialized)
    (hpos : e.uninitialized = true → 1 ≤ e.length) (hphys : e.physicalBlock < 2 ^ 48) :
      e.stored = e := by
  obtain ⟨logical, length, physical, uninitialized⟩ := e
  dsimp only [maxExtentLen] at hlen hpos hphys
  have hmax : extInitMaxLen = 32768 := rfl
  unfold Extent.stored
  dsimp only
  rw [Nat.mod_eq_of_lt hphys]
  cases uninitialized with
  | false =>
    have hnot : ¬ extInitMaxLen < length := by simpa using hlen
    rw [if_neg Bool.false_ne_true, Nat.mod_eq_of_lt (by omega), if_neg hnot, decide_eq_false hnot]
  | true =>
    have hle : length ≤ extInitMaxLen - 1 := by simpa using hlen
    have hpos := hpos rfl
    rw [if_pos rfl, Nat.mod_eq_of_lt (by omega), if_pos (by omega), decide_eq_true (by omega),
      Nat.add_sub_cancel]

/-- What an entry keeps as it is: a length that its state allows, and a physical block of 48
bits. -/
def Extent.Storable (e : Extent) : Prop :=
  e.length ≤ maxExtentLen e.uninitialized ∧ (e.uninitialized = true → 1 ≤ e.length) ∧
    e.physicalBlock < 2 ^ 48

theorem Extent.stored_eq_iff {e : Extent} (h16 : e.length < 2 ^ 16) : e.stored = e ↔
    e.Storable := by
  constructor
  · intro heq
    obtain ⟨logical, length, physical, uninitialized⟩ := e
    have hmax : extInitMaxLen = 32768 := rfl
    dsimp only at h16
    unfold Extent.stored at heq
    dsimp only at heq
    obtain ⟨-, hlen, hphys, hstate⟩ := Extent.mk.inj heq
    unfold Extent.Storable maxExtentLen
    refine ⟨?_, ?_, hphys ▸ Nat.mod_lt _ (Nat.two_pow_pos 48)⟩
    · dsimp only
      cases uninitialized with
      | false =>
        have hnot := of_decide_eq_false hstate
        rw [if_neg Bool.false_ne_true, Nat.mod_eq_of_lt h16] at hnot
        rw [if_neg Bool.false_ne_true]
        omega
      | true =>
        have hlt := of_decide_eq_true hstate
        rw [if_pos hlt] at hlen
        rw [if_pos rfl] at hlt hlen ⊢
        omega
    · intro huninit
      dsimp only at huninit ⊢
      subst huninit
      have hlt := of_decide_eq_true hstate
      rw [if_pos hlt] at hlen
      rw [if_pos rfl] at hlt hlen
      omega
  · rintro ⟨hlen, hpos, hphys⟩
    exact Extent.stored_eq hlen hpos hphys

theorem encodeExtent_stored (e : Extent) : encodeExtent e.stored = encodeExtent e := by
  obtain ⟨logical, length, physical, uninitialized⟩ := e
  have hmax : extInitMaxLen = 32768 := rfl
  have hlen : ∀ v : Nat, UInt16.ofNat (if decide (extInitMaxLen < v % 2 ^ 16) = true then
      (if extInitMaxLen < v % 2 ^ 16 then v % 2 ^ 16 - extInitMaxLen else v % 2 ^
        16) + extInitMaxLen
      else if extInitMaxLen < v % 2 ^ 16 then v % 2 ^ 16 - extInitMaxLen else v % 2 ^ 16) =
          UInt16.ofNat v := by
    intro v
    apply UInt16.toNat_inj.mp
    rw [UInt16.toNat_ofNat', UInt16.toNat_ofNat']
    by_cases hlt : extInitMaxLen < v % 2 ^ 16
    · rw [if_pos (decide_eq_true hlt), if_pos hlt]
      omega
    · rw [if_neg (by simpa using hlt), if_neg hlt]
      omega
  have hphys : splitPhysBlock (physical % 2 ^ 48) = splitPhysBlock physical := by
    unfold splitPhysBlock
    refine Prod.ext (UInt16.toNat_inj.mp ?_) (UInt32.toNat_inj.mp ?_)
    · simp only [UInt16.toNat_ofNat']
      omega
    · simp only [UInt32.toNat_ofNat']
      omega
  unfold encodeExtent Extent.stored
  dsimp only
  rw [hlen, hphys]

theorem parse_encodeExtent (e : Extent) (h : e.Valid) : Extent.parse (encodeExtent e) = .ok e := by
  rw [parse_encodeExtent_stored e h.logical, Extent.stored_eq h.len (fun _ => h.pos) h.physical]

theorem parse_encodeIndex (idx : ExtentIdx) (h : idx.Valid) :
    ExtentIdx.parse (encodeIndex idx) = .ok idx := by
  obtain ⟨logical, leaf⟩ := idx
  obtain ⟨hlog, hleaf⟩ := h
  dsimp only at hlog hleaf
  have h0 : u32leAt (encodeIndex ⟨logical, leaf⟩) 0 = UInt32.ofNat logical := by
    unfold encodeIndex
    rw [List.append_assoc, List.append_assoc]
    exact u32leAt_append [] _ _
  have h4 : u32leAt (encodeIndex ⟨logical, leaf⟩) 4 = (splitPhysBlock leaf).2 := by
    unfold encodeIndex
    rw [List.append_assoc, List.append_assoc]
    exact u32leAt_append (u32le (UInt32.ofNat logical)) _ _
  have h8 : u16leAt (encodeIndex ⟨logical, leaf⟩) 8 = (splitPhysBlock leaf).1 := by
    unfold encodeIndex
    rw [List.append_assoc]
    exact u16leAt_append (u32le (UInt32.ofNat logical) ++ u32le (splitPhysBlock leaf).2) _ _
  unfold ExtentIdx.parse
  rw [if_neg (by rw [length_encodeIndex]; exact Nat.lt_irrefl _), h0, h4, h8,
    joined_splitPhysBlock leaf, UInt32.toNat_ofNat', Nat.mod_eq_of_lt hlog, Nat.mod_eq_of_lt hleaf]
  rfl

section BuildNode

variable {len max depth : Nat} {generation : UInt32} {body : List Bytes}

theorem length_flatten_body (h : ∀ b ∈ body, b.length = nodeSize) :
    body.flatten.length = nodeSize * body.length := by
  induction body with
  | nil => rfl
  | cons b body ih =>
    rw [List.flatten_cons, List.length_append, h b List.mem_cons_self,
      ih (fun b' hb' => h b' (List.mem_cons_of_mem _ hb')), List.length_cons, Nat.mul_succ,
      Nat.add_comm]

theorem length_buildNode (h : ∀ b ∈ body, b.length = nodeSize)
    (hfit : nodeSize * (1 + body.length) ≤ len) :
    (buildNode len max depth generation body).length = len := by
  simp only [buildNode, List.length_append, length_u16le, length_u32le, List.length_replicate,
    length_flatten_body h]
  simp only [nodeSize] at hfit ⊢
  omega

theorem le_length_buildNode (h : ∀ b ∈ body, b.length = nodeSize) :
    nodeSize * (1 + body.length) ≤ (buildNode len max depth generation body).length := by
  simp only [buildNode, List.length_append, length_u16le, length_u32le, length_flatten_body h]
  simp only [nodeSize]
  omega

theorem parse_buildNode (hfit : body.length ≤ max) (hmax : max < 2 ^ 16) (hdepth : depth < 2 ^ 16) :
    ExtentHeader.parse (buildNode len max depth generation body) =
      .ok ⟨body.length, max, depth, generation⟩ := by
  have hlen : ¬ (buildNode len max depth generation body).length < nodeSize := by
    simp only [buildNode, List.length_append, length_u16le, length_u32le, nodeSize]
    omega
  have h0 : u16leAt (buildNode len max depth generation body) 0 = extMagic := by
    simp only [buildNode, List.append_assoc]
    exact u16leAt_append [] _ _
  have h2 : u16leAt (buildNode len max depth generation body) 2 = UInt16.ofNat body.length := by
    simp only [buildNode, List.append_assoc]
    exact u16leAt_append (u16le extMagic) _ _
  have h4 : u16leAt (buildNode len max depth generation body) 4 = UInt16.ofNat max := by
    have ha := u16leAt_append (u16le extMagic ++ u16le (UInt16.ofNat body.length))
      (u16le (UInt16.ofNat depth) ++ (u32le generation ++ (body.flatten ++
        List.replicate (len - nodeSize * (1 + body.length)) 0))) (UInt16.ofNat max)
    simpa only [buildNode, List.append_assoc, List.length_append, length_u16le] using ha
  have h6 : u16leAt (buildNode len max depth generation body) 6 = UInt16.ofNat depth := by
    have ha := u16leAt_append (u16le extMagic ++ u16le (UInt16.ofNat body.length) ++
      u16le (UInt16.ofNat max)) (u32le generation ++ (body.flatten ++
        List.replicate (len - nodeSize * (1 + body.length)) 0)) (UInt16.ofNat depth)
    simpa only [buildNode, List.append_assoc, List.length_append, length_u16le] using ha
  have h8 : u32leAt (buildNode len max depth generation body) 8 = generation := by
    have ha := u32leAt_append (u16le extMagic ++ u16le (UInt16.ofNat body.length) ++
      u16le (UInt16.ofNat max) ++ u16le (UInt16.ofNat depth)) (body.flatten ++
        List.replicate (len - nodeSize * (1 + body.length)) 0) generation
    simpa only [buildNode, List.append_assoc, List.length_append, length_u16le] using ha
  have hcount : (UInt16.ofNat body.length).toNat = body.length := by
    rw [UInt16.toNat_ofNat', Nat.mod_eq_of_lt (by omega)]
  have hmax' : (UInt16.ofNat max).toNat = max := by
    rw [UInt16.toNat_ofNat', Nat.mod_eq_of_lt hmax]
  have hdepth' : (UInt16.ofNat depth).toNat = depth := by
    rw [UInt16.toNat_ofNat', Nat.mod_eq_of_lt hdepth]
  unfold ExtentHeader.parse
  rw [if_neg hlen, h0, h2, h4, h6, h8, hcount, hmax', hdepth']
  rw [if_neg (by simp), if_neg (by omega)]
  rfl

theorem slice_flatten (h : ∀ b ∈ body, b.length = nodeSize) (i : Nat) (hi : i < body.length) :
    slice body.flatten (nodeSize * i) nodeSize = body[i] := by
  induction body generalizing i with
  | nil => cases hi
  | cons b body ih =>
    have hb := h b List.mem_cons_self
    cases i with
    | zero =>
      rw [List.flatten_cons, slice_append_left _ _ _ _ (by omega), List.getElem_cons_zero]
      exact slice_zero_of_length_le b _ (by omega)
    | succ i =>
      have hi' : i < body.length := by simpa using hi
      rw [List.flatten_cons, slice_append_right _ _ _ _ (by rw [hb, Nat.mul_succ]; omega), hb,
        Nat.mul_succ, Nat.add_sub_cancel, List.getElem_cons_succ]
      exact ih (fun b' hb' => h b' (List.mem_cons_of_mem _ hb')) i hi'

theorem slice_buildNode (h : ∀ b ∈ body, b.length = nodeSize) (i : Nat) (hi : i < body.length) :
    slice (buildNode len max depth generation body) (Extent.entryOffset i) nodeSize = body[i] := by
  have hhead : (u16le extMagic ++ u16le (UInt16.ofNat body.length) ++ u16le (UInt16.ofNat max) ++
      u16le (UInt16.ofNat depth) ++ u32le generation).length = nodeSize := by simp [nodeSize]
  have hoff : Extent.entryOffset i - nodeSize = nodeSize * i := by
    simp only [Extent.entryOffset, nodeSize]
    omega
  have hin : nodeSize * i + nodeSize ≤ body.flatten.length := by
    have hm := Nat.mul_le_mul_left nodeSize hi
    rw [length_flatten_body h]
    rw [Nat.mul_succ] at hm
    exact hm
  unfold buildNode
  rw [List.append_assoc _ body.flatten, slice_append_right _ _ _ _
    (by rw [hhead]; simp only [Extent.entryOffset, nodeSize]; omega), hhead, hoff,
    slice_append_left _ _ _ _ hin]
  exact slice_flatten h i hi

theorem parseEntries_buildNode_map {α : Type} {parse : Bytes → Result α}
    {encode : α → Bytes} {f : α → α}
    {outOfRange : String} {xs : List α} (hlen : ∀ x, (encode x).length = nodeSize)
    (hparse : ∀ x ∈ xs, parse (encode x) = .ok (f x)) :
    parseEntries parse outOfRange (buildNode len max depth generation (xs.map encode)) xs.length =
      .ok (xs.map f) := by
  have hbody : ∀ b ∈ xs.map encode, b.length = nodeSize := by
    intro b hb
    obtain ⟨x, -, rfl⟩ := List.mem_map.mp hb
    exact hlen x
  have hnode : nodeSize * (1 + (xs.map encode).length) ≤
      (buildNode len max depth generation (xs.map encode)).length := le_length_buildNode hbody
  rw [List.length_map] at hnode
  refine (mapM_range_eq_ok_iff _ _ _).mpr ⟨List.length_map f, ?_⟩
  intro i hi
  rw [List.length_map] at hi
  rw [entryAt, if_neg (by simp only [Extent.entryOffset, nodeSize] at hnode ⊢; omega),
    slice_buildNode hbody i (by simpa using hi), List.getElem_map, List.get_eq_getElem,
    List.getElem_map]
  exact hparse _ (List.getElem_mem hi)

theorem parseEntries_buildNode {α : Type} {parse : Bytes → Result α} {encode : α → Bytes}
    {outOfRange : String} {xs : List α} (hlen : ∀ x, (encode x).length = nodeSize)
    (hparse : ∀ x ∈ xs, parse (encode x) = .ok x) :
    parseEntries parse outOfRange (buildNode len max depth generation (xs.map encode)) xs.length =
      .ok xs := by
  have hmap : parseEntries parse outOfRange (buildNode len max depth generation (xs.map encode))
      xs.length = .ok (xs.map id) := parseEntries_buildNode_map hlen hparse
  rw [hmap, List.map_id]

end BuildNode

theorem length_buildInlineIndexRoot {generation : UInt32} {depth : Nat} {indices : List ExtentIdx}
    (h : indices.length ≤ 4) : (buildInlineIndexRoot generation depth indices).length = 60 := by
  apply length_buildNode
  · intro b hb
    obtain ⟨idx, -, rfl⟩ := List.mem_map.mp hb
    exact length_encodeIndex idx
  · rw [List.length_map]
    simp only [nodeSize]
    omega

theorem length_buildInlineLeafRoot {generation : UInt32} {extents : List Extent}
    (h : extents.length ≤ 4) : (buildInlineLeafRoot generation extents).length = 60 := by
  apply length_buildNode
  · intro b hb
    obtain ⟨e, -, rfl⟩ := List.mem_map.mp hb
    exact length_encodeExtent e
  · rw [List.length_map]
    simp only [nodeSize]
    omega

theorem buildRoot_eq_ok {header : ExtentHeader} {extents : List Extent} {rootLen : Nat}
    {root : Bytes} :
    buildRoot header extents rootLen = .ok root ↔ nodeSize * (1 + extents.length) ≤ rootLen ∧
      root = buildNode rootLen header.max header.depth header.generation
        (extents.map encodeExtent) := by
  unfold buildRoot
  split
  · rename_i hshort
    constructor
    · intro h
      cases h
    · intro h
      omega
  · rename_i hroom
    constructor
    · intro h
      exact ⟨Nat.le_of_not_lt hroom, (Except.ok.inj h).symm⟩
    · rintro ⟨-, rfl⟩
      rfl

end FsExt4
