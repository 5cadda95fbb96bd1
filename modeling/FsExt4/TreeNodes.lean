import FsExt4.DirGrowth

namespace FsExt4

open Lib

/-- A node of a block, with at most one entry more than a node can have. -/
def BuiltNode (blockSize : Nat) (bytes : Bytes) : Prop :=
  ∃ depth generation body, bytes = buildNode blockSize (nodeMaxEntries blockSize) depth
    generation body ∧
    (∀ b ∈ body, b.length = nodeSize) ∧ body.length ≤ 2 ^ 16

def Progress.writes : Progress → List (Nat × Bytes)
  | .done plan => plan.blockWrites
  | .up _ _ blockWrites _ => blockWrites

def Progress.allocated : Progress → List Nat
  | .done plan => plan.allocatedBlocks
  | .up _ _ _ allocatedBlocks => allocatedBlocks

section Built

variable {blockSize : Nat} {root : Bytes} {generation : UInt32} {alloc : Allocator} {new : Extent}
  {frame : PathFrame} {progress : Progress}

theorem builtNode_leaf (generation : UInt32) {extents : List Extent} (h : extents.length ≤ 2 ^ 16) :
    BuiltNode blockSize (buildFullLeafBlock generation extents blockSize) := by
  refine ⟨0, generation, extents.map encodeExtent, rfl, ?_, by rwa [List.length_map]⟩
  intro b hb
  obtain ⟨e, -, rfl⟩ := List.mem_map.mp hb
  exact length_encodeExtent e

theorem builtNode_index (generation : UInt32) (depth : Nat) {indices : List ExtentIdx}
    (h : indices.length ≤ 2 ^ 16) :
    BuiltNode blockSize (buildFullIndexBlock generation depth indices blockSize) := by
  refine ⟨depth, generation, indices.map encodeIndex, rfl, ?_, by rwa [List.length_map]⟩
  intro b hb
  obtain ⟨e, -, rfl⟩ := List.mem_map.mp hb
  exact length_encodeIndex e

theorem entries_lt {node : Bytes} {header : ExtentHeader}
    (h : ExtentHeader.parse node = .ok header) :
    header.entries < 2 ^ 16 := by
  obtain ⟨-, -, -, rfl⟩ := ExtentHeader.parse_eq_ok.mp h
  exact UInt16.toNat_lt _

theorem leafLevel_built {isRootLeaf : Bool}
    (h : leafLevel root generation blockSize alloc new isRootLeaf frame = .ok progress) :
    ∀ w ∈ progress.writes, BuiltNode blockSize w.2 := by
  unfold leafLevel at h
  obtain ⟨header, hparse, h⟩ := Result.bind_eq_ok h
  obtain ⟨before, hbefore, h⟩ := Result.bind_eq_ok h
  obtain ⟨-, -, h⟩ := Result.bind_eq_ok h
  have hlen : (insertIntoLeafSorted before new).length ≤ 2 ^ 16 := by
    have h1 := (length_insertIntoLeafSorted before new).2
    have h2 := length_of_parseEntries hbefore
    have h3 := entries_lt hparse
    omega
  have hleaf : ∀ part : List Extent, part.length ≤ (insertIntoLeafSorted before new).length →
      BuiltNode blockSize (buildFullLeafBlock generation part blockSize) :=
    fun part hp => builtNode_leaf generation (Nat.le_trans hp hlen)
  dsimp only at h
  generalize insertIntoLeafSorted before new = entries at h hleaf
  have hhalf := hleaf (entries.take (entries.length / 2)) (List.length_take_le' _ _)
  have hrest := hleaf (entries.drop (entries.length / 2)) (by rw [List.length_drop]; omega)
  cases isRootLeaf with
  | true =>
    simp only [if_true] at h
    split at h
    · obtain rfl := Except.ok.inj h
      exact fun w hw => absurd hw List.not_mem_nil
    · obtain ⟨newLeaf, -, h⟩ := Result.bind_eq_ok h
      obtain rfl := Except.ok.inj h
      exact List.forall_mem_singleton.mpr (hleaf entries (Nat.le_refl _))
  | false =>
    simp only [Bool.false_eq_true, if_false] at h
    split at h
    · split at h
      · obtain rfl := Except.ok.inj h
        exact List.forall_mem_singleton.mpr (hleaf entries (Nat.le_refl _))
      · obtain rfl := Except.ok.inj h
        exact List.forall_mem_singleton.mpr (hleaf entries (Nat.le_refl _))
    · obtain ⟨newRight, -, h⟩ := Result.bind_eq_ok h
      obtain rfl := Except.ok.inj h
      exact List.forall_mem_cons.mpr ⟨hhalf, List.forall_mem_singleton.mpr hrest⟩

theorem length_applyCorrection {indices corrected : List ExtentIdx}
    {correction left : Option (Nat × Nat)}
    (h : applyCorrection frame indices correction = .ok (corrected, left)) :
    corrected.length = indices.length := by
  unfold applyCorrection at h
  split at h
  · rw [← (Prod.mk.inj (Except.ok.inj h)).1]
  · split at h
    · cases h
    · rw [← (Prod.mk.inj (Except.ok.inj h)).1, List.length_modify]

theorem length_insertByKey {β : Type} (key : β → Nat) (new : β) (l : List β) :
    (insertByKey key new l).length = l.length + 1 := by
  unfold insertByKey
  rw [List.length_append, List.length_cons, ← Nat.add_assoc, ← List.length_append,
    List.takeWhile_append_dropWhile]

theorem length_acceptSplit_le (indices : List ExtentIdx) (split : Option ExtentIdx) :
    (acceptSplit indices split).length ≤ indices.length + 1 := by
  cases split with
  | none => exact Nat.le_succ _
  | some idx =>
    change (insertByKey _ _ _).length ≤ _
    rw [length_insertByKey]

theorem indexLevel_built {isRootHere : Bool} {propagated : Option ExtentIdx}
    {correction : Option (Nat × Nat)} {blockWrites : List (Nat × Bytes)} {allocated : List Nat}
    (hw : ∀ w ∈ blockWrites, BuiltNode blockSize w.2)
    (h : indexLevel root generation blockSize alloc isRootHere frame propagated
      correction blockWrites
      allocated = .ok progress) : ∀ w ∈ progress.writes, BuiltNode blockSize w.2 := by
  unfold indexLevel at h
  obtain ⟨header, hparse, h⟩ := Result.bind_eq_ok h
  obtain ⟨before, hbefore, h⟩ := Result.bind_eq_ok h
  obtain ⟨⟨corrected, left⟩, hcorrect, h⟩ := Result.bind_eq_ok h
  have hlen : (acceptSplit corrected propagated).length ≤ 2 ^ 16 := by
    have h1 := length_acceptSplit_le corrected propagated
    have h2 := length_applyCorrection hcorrect
    have h3 := length_of_parseEntries hbefore
    have h4 := entries_lt hparse
    omega
  have hindex : ∀ part : List ExtentIdx, part.length ≤ (acceptSplit corrected propagated).length →
      BuiltNode blockSize (buildFullIndexBlock generation header.depth part blockSize) :=
    fun part hp => builtNode_index generation header.depth (Nat.le_trans hp hlen)
  have happend : ∀ more : List (Nat × Bytes), (∀ w ∈ more, BuiltNode blockSize w.2) →
      ∀ w ∈ blockWrites ++ more, BuiltNode blockSize w.2 :=
    fun more hmore w hin => (List.mem_append.mp hin).elim (hw w) (hmore w)
  dsimp only at h
  generalize acceptSplit corrected propagated = indices at h hindex
  have hhalf := hindex (indices.take (indices.length / 2)) (List.length_take_le' _ _)
  have hrest := hindex (indices.drop (indices.length / 2)) (by rw [List.length_drop]; omega)
  cases isRootHere with
  | true =>
    simp only [if_true] at h
    split at h
    · obtain rfl := Except.ok.inj h
      exact hw
    · split at h
      · cases h
      · obtain ⟨leftBlock, -, h⟩ := Result.bind_eq_ok h
        obtain ⟨rightBlock, -, h⟩ := Result.bind_eq_ok h
        obtain rfl := Except.ok.inj h
        exact happend _ (List.forall_mem_cons.mpr ⟨hhalf, List.forall_mem_singleton.mpr hrest⟩)
  | false =>
    simp only [Bool.false_eq_true, if_false] at h
    split at h
    · split at h
      · obtain rfl := Except.ok.inj h
        exact happend _ (List.forall_mem_singleton.mpr (hindex indices (Nat.le_refl _)))
      · obtain rfl := Except.ok.inj h
        exact happend _ (List.forall_mem_singleton.mpr (hindex indices (Nat.le_refl _)))
    · obtain ⟨newRight, -, h⟩ := Result.bind_eq_ok h
      obtain rfl := Except.ok.inj h
      exact happend _ (List.forall_mem_cons.mpr ⟨hhalf, List.forall_mem_singleton.mpr hrest⟩)

theorem leafLevel_drawn {isRootLeaf : Bool}
    (h : leafLevel root generation blockSize alloc new isRootLeaf frame = .ok progress) :
    Drawn alloc progress.allocated := by
  unfold leafLevel at h
  obtain ⟨header, -, h⟩ := Result.bind_eq_ok h
  obtain ⟨before, -, h⟩ := Result.bind_eq_ok h
  obtain ⟨_, -, h⟩ := Result.bind_eq_ok h
  dsimp only at h
  generalize insertIntoLeafSorted before new = entries at h
  cases isRootLeaf with
  | true =>
    simp only [if_true] at h
    split at h
    · obtain rfl := Except.ok.inj h
      exact Drawn.nil
    · obtain ⟨newLeaf, hnew, h⟩ := Result.bind_eq_ok h
      obtain rfl := Except.ok.inj h
      exact Drawn.nil.append hnew
  | false =>
    simp only [Bool.false_eq_true, if_false] at h
    split at h
    · split at h
      · obtain rfl := Except.ok.inj h
        exact Drawn.nil
      · obtain rfl := Except.ok.inj h
        exact Drawn.nil
    · obtain ⟨newRight, hnew, h⟩ := Result.bind_eq_ok h
      obtain rfl := Except.ok.inj h
      exact Drawn.nil.append hnew

theorem indexLevel_drawn {isRootHere : Bool} {propagated : Option ExtentIdx}
    {correction : Option (Nat × Nat)}
    {blockWrites : List (Nat × Bytes)} {allocated : List Nat} (hdrawn : Drawn alloc allocated)
    (h : indexLevel root generation blockSize alloc isRootHere frame propagated
      correction blockWrites allocated = .ok progress) : Drawn alloc progress.allocated := by
  unfold indexLevel at h
  obtain ⟨header, -, h⟩ := Result.bind_eq_ok h
  obtain ⟨before, -, h⟩ := Result.bind_eq_ok h
  obtain ⟨⟨corrected, left⟩, -, h⟩ := Result.bind_eq_ok h
  dsimp only at h
  generalize acceptSplit corrected propagated = indices at h
  cases isRootHere with
  | true =>
    simp only [if_true] at h
    split at h
    · obtain rfl := Except.ok.inj h
      exact hdrawn
    · split at h
      · cases h
      · obtain ⟨leftBlock, hleft, h⟩ := Result.bind_eq_ok h
        obtain ⟨rightBlock, hright, h⟩ := Result.bind_eq_ok h
        obtain rfl := Except.ok.inj h
        have htwo := (hdrawn.append hleft).append (b := rightBlock)
          (by rw [List.length_append]; exact hright)
        rw [List.append_assoc] at htwo
        exact htwo
  | false =>
    simp only [Bool.false_eq_true, if_false] at h
    split at h
    · split at h
      · obtain rfl := Except.ok.inj h
        exact hdrawn
      · obtain rfl := Except.ok.inj h
        exact hdrawn
    · obtain ⟨newRight, hnew, h⟩ := Result.bind_eq_ok h
      obtain rfl := Except.ok.inj h
      exact hdrawn.append hnew

theorem ascend_keeps {path : List PathFrame} {plan : DeepInsertPlan}
    (hw : ∀ w ∈ progress.writes, BuiltNode blockSize w.2) (hdrawn : Drawn alloc progress.allocated)
    (h : ascend root generation blockSize alloc path progress = .ok plan) :
    (∀ w ∈ plan.blockWrites, BuiltNode blockSize w.2) ∧ Drawn alloc plan.allocatedBlocks := by
  induction path generalizing progress with
  | nil =>
    cases progress with
    | done plan' =>
      obtain rfl := Except.ok.inj h
      exact ⟨hw, hdrawn⟩
    | up propagated correction blockWrites allocated => cases h
  | cons frame above ih =>
    cases progress with
    | done plan' =>
      obtain rfl := Except.ok.inj h
      exact ⟨hw, hdrawn⟩
    | up propagated correction blockWrites allocated =>
      obtain ⟨next, hstep, h⟩ := Result.bind_eq_ok h
      exact ih (indexLevel_built hw hstep) (indexLevel_drawn hdrawn hstep) h

/-- Every node that a deep insert writes is one that it has built, and the blocks it takes are those
that its calls of the allocator came to, in order. -/
theorem planInsertExtentDeep_keeps {fuel : Nat} {read : NodeReader} {plan : DeepInsertPlan}
    (h : planInsertExtentDeep fuel root new blockSize read alloc = some (.ok plan)) :
    (∀ w ∈ plan.blockWrites, BuiltNode blockSize w.2) ∧ Drawn alloc plan.allocatedBlocks := by
  unfold planInsertExtentDeep at h
  split at h
  · cases h
  · split at h
    · cases h
    · split at h
      · cases h
      · obtain ⟨path, -, h⟩ := Option.map_eq_some_iff.mp h
        obtain ⟨⟨leaf, above⟩, -, h⟩ := Result.bind_eq_ok h
        obtain ⟨progress, hleaf, h⟩ := Result.bind_eq_ok h
        exact ascend_keeps (leafLevel_built hleaf) (leafLevel_drawn hleaf) h

end Built

theorem Represents.header_fill {read : NodeReader} {n : Nat} {t : LevelTree Extent n} {node : Bytes}
    (h : Represents read t node) :
    ∃ header, ExtentHeader.parse node = .ok header ∧ header.depth = n ∧ header.entries =
      t.fill := by
  cases n with
  | zero =>
    obtain ⟨header, hparse, hdepth, hentries⟩ := h
    exact ⟨header, hparse, hdepth, (length_of_parseEntries hentries).symm⟩
  | succ n =>
    obtain ⟨header, hparse, hdepth, hentries, -⟩ := h
    refine ⟨header, hparse, hdepth, ?_⟩
    rw [← length_of_parseEntries hentries, List.length_map]
    rfl

theorem Represents.node_at {read : NodeReader} {cap n : Nat} {t : LevelTree Extent n} {node : Bytes}
    (h : Represents read t node) (hfilled : t.Filled cap) {b : Nat} (hb : b ∈ t.addresses) :
    ∃ (k : Nat) (child : LevelTree Extent k) (bytes : Bytes), read b = .ok bytes ∧
      Represents read child bytes ∧ 1 ≤ child.fill ∧ child.fill ≤ cap := by
  induction n generalizing node with
  | zero => exact absurd hb List.not_mem_nil
  | succ n ih =>
    obtain ⟨header, -, -, -, hbelow⟩ := h
    obtain ⟨c, hc, hb⟩ := List.mem_flatMap.mp hb
    obtain ⟨child, hread, hrep⟩ := hbelow c hc
    obtain ⟨hfill, hdeep⟩ := hfilled c hc
    obtain rfl | hb := List.mem_cons.mp hb
    · exact ⟨n, c.2, child, hread, hrep, hfill.1, hfill.2⟩
    · exact ih hrep hdeep hb

section Room

variable {blockSize : Nat} (h1024 : 1024 ≤ blockSize) (h64k : blockSize ≤ 65536)

include h1024 h64k

theorem BuiltNode.room {bytes : Bytes} (hb : BuiltNode blockSize bytes)
    {read : NodeReader} {n : Nat}
    {t : LevelTree Extent n} (hrep : Represents read t bytes) (hpos : 1 ≤ t.fill)
    (hfill : t.fill ≤ nodeMaxEntries blockSize) :
    bytes.length = blockSize ∧ ∀ header, ExtentHeader.parse bytes = .ok header →
      header.max ≤ nodeMaxEntries blockSize := by
  obtain ⟨-, hcap, hroom⟩ := nodeMaxEntries_bounds h1024 h64k
  obtain ⟨depth, generation, body, rfl, hbody, hmany⟩ := hb
  obtain ⟨header, hparse, -, hentries⟩ := hrep.header_fill
  obtain ⟨-, -, -, hheader⟩ := ExtentHeader.parse_eq_ok.mp hparse
  have h2 : u16leAt (buildNode blockSize (nodeMaxEntries blockSize) depth generation body) 2 =
      UInt16.ofNat body.length := by
    simp only [buildNode, List.append_assoc]
    exact u16leAt_append (u16le extMagic) _ _
  have h4 : u16leAt (buildNode blockSize (nodeMaxEntries blockSize) depth generation body) 4 =
      UInt16.ofNat (nodeMaxEntries blockSize) := by
    have ha := u16leAt_append (u16le extMagic ++ u16le (UInt16.ofNat body.length))
      (u16le (UInt16.ofNat depth) ++ (u32le generation ++ (body.flatten ++
        List.replicate (blockSize - nodeSize * (1 + body.length)) 0)))
          (UInt16.ofNat (nodeMaxEntries blockSize))
    simpa only [buildNode, List.append_assoc, List.length_append, length_u16le] using ha
  have hcount : body.length % 2 ^ 16 = t.fill := by
    rw [← hentries, hheader, h2, UInt16.toNat_ofNat']
  constructor
  · apply length_buildNode hbody
    have hle : body.length ≤ nodeMaxEntries blockSize := by omega
    exact Nat.le_trans (Nat.mul_le_mul_left _ (Nat.add_le_add_left hle 1)) hroom
  · intro header' hparse'
    obtain rfl := Except.ok.inj (hparse.symm.trans hparse')
    rw [hheader, h4, UInt16.toNat_ofNat', Nat.mod_eq_of_lt hcap]

end Room

theorem mapM_congr_mem {α β : Type} {f g : α → Result β} {l : List α} (h : ∀ a ∈ l, f a = g a) :
    l.mapM f = l.mapM g := by
  induction l with
  | nil => rfl
  | cons a l ih =>
    rw [List.mapM_cons, List.mapM_cons, h a List.mem_cons_self,
      ih (fun b hb => h b (List.mem_cons_of_mem _ hb))]

section Tails

variable {node node' : Bytes} (hlen : node'.length = node.length)

include hlen

theorem parse_header_congr (h : AgreeOn node' node 0 nodeSize) :
    ExtentHeader.parse node' = ExtentHeader.parse node := by
  unfold ExtentHeader.parse
  rw [hlen, h.u16leAt 0x00 (by decide) (by decide), h.u16leAt 0x02 (by decide) (by decide),
    h.u16leAt 0x04 (by decide) (by decide), h.u16leAt 0x06 (by decide) (by decide),
    h.u32leAt 0x08 (by decide) (by decide)]

theorem parseEntries_congr {α : Type} (parse : Bytes → Result α) (outOfRange : String) {count : Nat}
    (h : AgreeOn node' node 0 (nodeSize * (1 + count))) :
    parseEntries parse outOfRange node' count = parseEntries parse outOfRange node count := by
  unfold parseEntries
  apply mapM_congr_mem
  intro i hi
  have hlt := List.mem_range.mp hi
  have hfit : Extent.entryOffset i + nodeSize ≤ nodeSize * (1 + count) := by
    unfold Extent.entryOffset nodeSize
    omega
  unfold entryAt
  rw [hlen, h (Extent.entryOffset i) nodeSize (Nat.zero_le _) hfit]

end Tails

def SameNode (cap : Nat) (node' node : Bytes) : Prop :=
  node'.length = node.length ∧ AgreeOn node' node 0 (nodeSize * (1 + cap))

theorem SameNode.refl (cap : Nat) (node : Bytes) : SameNode cap node node :=
    ⟨rfl, AgreeOn.refl _ _ _⟩

theorem Represents.of_sameNode {read read' : NodeReader} {cap n : Nat} {t : LevelTree Extent n}
    {node node' : Bytes} (h : Represents read t node) (hfilled : t.Filled cap)
      (hfill : t.fill ≤ cap)
    (hnode : SameNode cap node' node)
    (hbelow : ∀ b ∈ t.addresses, ∀ child, read b = .ok child →
      ∃ child', read' b = .ok child' ∧ SameNode cap child' child) : Represents read' t node' := by
  induction n generalizing node node' with
  | zero =>
    obtain ⟨header, hparse, hdepth, hentries⟩ := h
    have hcount : header.entries = t.fill := (length_of_parseEntries hentries).symm
    refine ⟨header, ?_, hdepth, ?_⟩
    · rw [parse_header_congr hnode.1
        (hnode.2.mono (Nat.le_refl _) (Nat.le_mul_of_pos_right _ (by omega)))]
      exact hparse
    · rw [← hentries]
      apply parseEntries_congr hnode.1
      exact hnode.2.mono (Nat.le_refl _) (Nat.mul_le_mul_left _ (by omega))
  | succ n ih =>
    obtain ⟨header, hparse, hdepth, hentries, hchildren⟩ := h
    have hcount : header.entries = t.fill := by
      rw [← length_of_parseEntries hentries, List.length_map]
      rfl
    refine ⟨header, ?_, hdepth, ?_, ?_⟩
    · rw [parse_header_congr hnode.1
        (hnode.2.mono (Nat.le_refl _) (Nat.le_mul_of_pos_right _ (by omega)))]
      exact hparse
    · rw [← hentries]
      apply parseEntries_congr hnode.1
      exact hnode.2.mono (Nat.le_refl _) (Nat.mul_le_mul_left _ (by omega))
    · intro c hc
      obtain ⟨child, hread, hrep⟩ := hchildren c hc
      have hmem : ∀ b ∈ c.1 :: c.2.addresses, b ∈ t.addresses :=
        fun b hb => List.mem_flatMap.mpr ⟨c, hc, hb⟩
      obtain ⟨child', hread', hsame⟩ := hbelow c.1 (hmem c.1 List.mem_cons_self) child hread
      refine ⟨child', hread', ?_⟩
      apply ih hrep (hfilled c hc).2 (hfilled c hc).1.2 hsame
      intro b hb
      exact hbelow b (hmem b (List.mem_cons_of_mem _ hb))

section Sealed

variable {crc : Jbd2.Crc} {m : Mount} {ino generation : UInt32} {bytes : Bytes}

theorem sealedNode_spec (hlen : 4 ≤ bytes.length) :
    (m.sealedNode crc ino generation bytes).length = bytes.length ∧
      AgreeOn (m.sealedNode crc ino generation bytes) bytes 0 (bytes.length - 4) ∧
      (m.csum.enabled = true →
        m.csum.verifyExtentTail crc ino generation (m.sealedNode crc ino generation bytes) =
          true) := by
  unfold Mount.sealedNode
  by_cases henabled : m.csum.enabled = true
  · rw [if_pos henabled]
    have hagree := Checksummer.extent_agree crc m.csum ino generation
      (fun _ : m.csum.enabled = true => hlen)
    obtain ⟨hsize, hsame⟩ := hagree.sameOutside
    refine ⟨hsize, ?_, fun _ => hagree.verifies⟩
    intro o n _ hn
    exact hagree.sameOutside.slice_eq (fun i _ hi hin => by
      have := hin.1
      omega)
  · rw [if_neg henabled]
    exact ⟨rfl, AgreeOn.refl _ _ _, fun h => absurd h henabled⟩

end Sealed

end FsExt4
