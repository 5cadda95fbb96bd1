import FsExt4.ExtentWalk

namespace FsExt4

open Lib

structure RepackedTree where
  newRoot : Bytes
  blockWrites : List (Nat × Bytes)
  usedNodes : List Nat
  allocatedBlocks : List Nat

/-- The state of the packing loops: the file's own blocks not yet used, those used, those the
allocator gave, what is to be written, and the index entries of the level being packed. -/
structure Packing where
  supply : List Nat
  usedNodes : List Nat
  allocatedBlocks : List Nat
  blockWrites : List (Nat × Bytes)
  indices : List ExtentIdx

namespace Packing

/-- The next of the file's own blocks, or else one from the allocator. -/
def take (alloc : Allocator) (s : Packing) : Result (Nat × Packing) :=
  match s.supply with
  | block :: supply => .ok (block, { s with supply, usedNodes := s.usedNodes ++ [block] })
  | [] => do
    let block ← alloc s.allocatedBlocks.length
    return (block, { s with allocatedBlocks := s.allocatedBlocks ++ [block] })

/-- One node for each piece of a level, and an index entry naming it. -/
def packChunks {α : Type} (alloc : Allocator) (build : List α → Bytes) (logicalBlock : α → Nat) :
    List (List α) → Packing → Result Packing
  | [], s => .ok s
  | chunk :: rest, s => do
    let (block, s) ← s.take alloc
    packChunks alloc build logicalBlock rest { s with
      blockWrites := s.blockWrites ++ [(block, build chunk)]
      indices := s.indices ++ [⟨firstStart logicalBlock chunk, block⟩] }

/-- Index levels until four entries are left; every round leaves fewer, so that `fuel` as large as
their number never runs out. -/
def packIndices (alloc : Allocator) (generation : UInt32) (blockSize : Nat) :
    Nat → Nat → Packing → Result (Nat × Packing)
  | 0, depth, s => .ok (depth, s)
  | fuel + 1, depth, s =>
    if s.indices.length ≤ 4 then .ok (depth, s)
    else do
      let above ← packChunks alloc (buildFullIndexBlock generation depth · blockSize)
        ExtentIdx.logicalBlock (chunks (nodeMaxEntries blockSize) s.indices)
          { s with indices := [] }
      packIndices alloc generation blockSize fuel (depth + 1) above

end Packing

def planRepackTree (generation : UInt32) (entries : List Extent) (blockSize : Nat)
    (nodes : List Nat) (alloc : Allocator) : Result RepackedTree :=
  if entries.length ≤ 4 then
    .ok ⟨buildInlineLeafRoot generation entries, [], [], []⟩
  else do
    let leaves ← Packing.packChunks alloc (buildFullLeafBlock generation · blockSize)
      Extent.logicalBlock (chunks (nodeMaxEntries blockSize) entries) ⟨nodes, [], [], [], []⟩
    let (depth, top) ← Packing.packIndices alloc generation blockSize leaves.indices.length 1 leaves
    return ⟨buildInlineIndexRoot generation depth top.indices, top.blockWrites, top.usedNodes,
      top.allocatedBlocks⟩

namespace Packing

section Taken

variable {nodes : List Nat} {alloc : Allocator}

/-- The state after some nodes have been packed: the file's own blocks go first and in order, and
each block taken is written once. -/
structure Sound (nodes : List Nat) (alloc : Allocator) (s : Packing) : Prop where
  supply : s.usedNodes ++ s.supply = nodes
  spent : s.allocatedBlocks ≠ [] → s.supply = []
  allocated : ∀ b ∈ s.allocatedBlocks, ∃ i, i < s.allocatedBlocks.length ∧ alloc i = .ok b
  distinct : s.allocatedBlocks.Nodup
  written : (s.blockWrites.map Prod.fst).Perm (s.usedNodes ++ s.allocatedBlocks)

theorem Sound.nodup {s : Packing} (h : s.Sound nodes alloc) (hnodes : nodes.Nodup)
    (hfresh : Allocator.Fresh alloc nodes) : (s.usedNodes ++ s.allocatedBlocks).Nodup := by
  rw [List.nodup_append]
  refine ⟨?_, h.distinct, ?_⟩
  · rw [← h.supply] at hnodes
    exact (List.nodup_append.mp hnodes).1
  · rintro b hb _ hb' rfl
    obtain ⟨i, -, hi⟩ := h.allocated b hb'
    apply hfresh.notOld i b hi
    rw [← h.supply]
    exact List.mem_append_left _ hb

theorem Sound.take {s s' : Packing} {block : Nat} (h : s.Sound nodes alloc)
    (hfresh : Allocator.Fresh alloc nodes) (htake : s.take alloc = .ok (block, s')) (bytes : Bytes)
    (idx : ExtentIdx) :
    ({ s' with blockWrites := s'.blockWrites ++ [(block, bytes)],
               indices := s'.indices ++ [idx] } : Packing).Sound nodes alloc ∧
      s'.blockWrites = s.blockWrites ∧ s'.indices = s.indices := by
  unfold Packing.take at htake
  split at htake
  · rename_i b supply hsupply
    cases htake
    refine ⟨⟨?_, ?_, h.allocated, h.distinct, ?_⟩, rfl, rfl⟩
    · dsimp only
      rw [← h.supply, hsupply, List.append_assoc]
      rfl
    · intro hne
      have hnil := h.spent hne
      rw [hsupply] at hnil
      cases hnil
    · dsimp only
      rw [List.map_append, List.append_assoc]
      refine (h.written.append_right _).trans ?_
      rw [List.append_assoc]
      exact List.Perm.append_left _ List.perm_append_comm
  · rename_i hsupply
    obtain ⟨b, hb, hs⟩ := Result.bind_eq_ok htake
    cases hs
    refine ⟨⟨h.supply, fun _ => hsupply, ?_, ?_, ?_⟩, rfl, rfl⟩
    · intro b' hb'
      dsimp only at hb' ⊢
      rw [List.length_append, List.length_singleton]
      obtain hb' | hb' := List.mem_append.mp hb'
      · obtain ⟨i, hi, hai⟩ := h.allocated b' hb'
        exact ⟨i, by omega, hai⟩
      · rw [List.mem_singleton.mp hb']
        exact ⟨_, by omega, hb⟩
    · dsimp only
      rw [List.nodup_append]
      refine ⟨h.distinct, by simp, ?_⟩
      rintro b' hb' c hc rfl
      obtain ⟨i, hi, hai⟩ := h.allocated b' hb'
      rw [List.mem_singleton.mp hc] at hai
      have heq := hfresh.once _ _ _ hai hb
      omega
    · dsimp only
      rw [List.map_append, ← List.append_assoc]
      exact h.written.append_right _

theorem packChunks_ok {α : Type} {build : List α → Bytes} {logicalBlock : α → Nat}
    {pieces : List (List α)} {s s' : Packing} (h : s.Sound nodes alloc)
      (hfresh : Allocator.Fresh alloc nodes)
    (hpack : packChunks alloc build logicalBlock pieces s = .ok s') :
    s'.Sound nodes alloc ∧ ∃ blocks : List Nat, blocks.length = pieces.length ∧
      s'.blockWrites = s.blockWrites ++ (blocks.zip pieces).map (fun c => (c.1, build c.2)) ∧
      s'.indices = s.indices ++
        (blocks.zip pieces).map (fun c => ⟨firstStart logicalBlock c.2, c.1⟩) := by
  induction pieces generalizing s with
  | nil =>
    obtain rfl : s = s' := Except.ok.inj hpack
    exact ⟨h, [], rfl, by simp, by simp⟩
  | cons p pieces ih =>
    unfold packChunks at hpack
    obtain ⟨⟨block, s₁⟩, htake, hrest⟩ := Result.bind_eq_ok hpack
    obtain ⟨hsound, hwrites, hindices⟩ :=
      h.take hfresh htake (build p) ⟨firstStart logicalBlock p, block⟩
    obtain ⟨hs', blocks, hlen, hw, hi⟩ := ih hsound hrest
    refine ⟨hs', block :: blocks, by rw [List.length_cons, List.length_cons, hlen], ?_, ?_⟩
    · rw [hw, hwrites, List.zip_cons_cons, List.map_cons, List.append_assoc, List.singleton_append]
    · rw [hi, hindices, List.zip_cons_cons, List.map_cons, List.append_assoc, List.singleton_append]

end Taken

section Levels

variable {nodes : List Nat} {alloc : Allocator} {read : NodeReader} {n cap : Nat}

/-- What has been packed so far is a tree but for its root: the index entries name its children. -/
structure Packed (read : NodeReader) (cap : Nat) (s : Packing) (t : LevelTree Extent (n + 1)) :
    Prop where
  indices : s.indices = t.children.map indexOf
  nodes : ∀ c ∈ t.children, ∃ child, overlay s.blockWrites read c.1 = .ok child ∧
    Represents (overlay s.blockWrites read) c.2 child
  filled : t.Filled cap
  blocks : ∀ c ∈ t.children, c.1 < 2 ^ 48
  addresses : t.addresses.Perm (s.blockWrites.map Prod.fst)

theorem Sound.writes_nodup {s : Packing} (h : s.Sound nodes alloc) (hnodes : nodes.Nodup)
    (hfresh : Allocator.Fresh alloc nodes) : (s.blockWrites.map Prod.fst).Nodup :=
  h.written.nodup_iff.mpr (h.nodup hnodes hfresh)

theorem Sound.block_lt {s : Packing} (h : s.Sound nodes alloc) (hblocks : ∀ b ∈ nodes, b < 2 ^ 48)
    (hfresh : Allocator.Fresh alloc nodes) {b : Nat} (hb : b ∈ s.blockWrites.map Prod.fst) :
    b < 2 ^ 48 := by
  obtain hb | hb := List.mem_append.mp (h.written.mem_iff.mp hb)
  · apply hblocks
    rw [← h.supply]
    exact List.mem_append_left _ hb
  · obtain ⟨i, -, hi⟩ := h.allocated b hb
    exact hfresh.block i b hi

theorem packed_of_pieces (read : NodeReader) (cap : Nat) (pieces : List (LevelTree Extent n))
    (build : LevelTree Extent n → Bytes) (s : Packing) {s' : Packing} {blocks : List Nat}
    (hs' : s'.Sound nodes alloc)
    (hnodes : nodes.Nodup) (hblocks : ∀ b ∈ nodes, b < 2 ^ 48)
    (hfresh : Allocator.Fresh alloc nodes) (hlen : blocks.length = pieces.length)
    (hw : s'.blockWrites = s.blockWrites ++ (blocks.zip pieces).map (fun c => (c.1, build c.2)))
    (hi : s'.indices = (blocks.zip pieces).map indexOf)
    (haddr : (pieces.flatMap LevelTree.addresses).Perm (s.blockWrites.map Prod.fst))
    (hrep : ∀ p ∈ pieces, Represents (overlay s.blockWrites read) p (build p))
    (hfill : ∀ p ∈ pieces, (1 ≤ p.fill ∧ p.fill ≤ cap) ∧ p.Filled cap) :
    Packed read cap s' (LevelTree.node (blocks.zip pieces)) ∧
      (LevelTree.node (blocks.zip pieces)).entries = pieces.flatMap LevelTree.entries := by
  have hmem : ∀ c ∈ blocks.zip pieces, c.2 ∈ pieces := fun c hc => (List.of_mem_zip hc).2
  have hnew : ((blocks.zip pieces).map (fun c => (c.1, build c.2))).map Prod.fst = blocks := by
    rw [List.map_map]
    exact List.map_fst_zip (by omega)
  have hkeys : s'.blockWrites.map Prod.fst = s.blockWrites.map Prod.fst ++ blocks := by
    rw [hw, List.map_append, hnew]
  have hnodup := hs'.writes_nodup hnodes hfresh
  refine ⟨⟨hi, ?_, fun c hc => hfill c.2 (hmem c hc), ?_, ?_⟩, ?_⟩
  · rw [hkeys] at hnodup
    rw [hw]
    refine overlay_pieces hlen hnodup ?_ hrep
    intro p hp a ha hb
    have hold := haddr.mem_iff.mp (List.mem_flatMap.mpr ⟨p, hp, ha⟩)
    exact (List.nodup_append.mp hnodup).2.2 a hold a hb rfl
  · intro c hc
    apply hs'.block_lt hblocks hfresh
    rw [hkeys]
    exact List.mem_append_right _ (List.of_mem_zip hc).1
  · rw [hkeys]
    refine (LevelTree.addresses_zip hlen).trans ?_
    exact (haddr.append_left blocks).trans List.perm_append_comm
  · exact LevelTree.entries_zip hlen

end Levels

/-- How many nodes a level can have, with no more extents than there are logical blocks and 84 slots
to a node at least. -/
def levelBound : Nat → Nat
  | 0 => 51130564
  | n + 1 => (levelBound n + 83) / 84

section Loop

variable {nodes : List Nat} {alloc : Allocator} {read : NodeReader} {blockSize : Nat}
  {generation : UInt32} (hnodes : nodes.Nodup) (hblocks : ∀ b ∈ nodes, b < 2 ^ 48)
  (hfresh : Allocator.Fresh alloc nodes) (h1024 : 1024 ≤ blockSize) (h64k : blockSize ≤ 65536)

include hnodes hblocks hfresh h1024 h64k

variable (read) in
theorem packLeaves_ok {entries : List Extent} {s' : Packing}
    (hlogical : ∀ e ∈ entries, e.logicalBlock < 2 ^ 32)
    (hpack : packChunks alloc (buildFullLeafBlock generation · blockSize) Extent.logicalBlock
      (chunks (nodeMaxEntries blockSize) entries) ⟨nodes, [], [], [], []⟩ = .ok s') :
    s'.Sound nodes alloc ∧ ∃ t : LevelTree Extent 1,
      Packed read (nodeMaxEntries blockSize) s' t ∧ t.entries = entries.map Extent.stored ∧
      t.fill = (chunks (nodeMaxEntries blockSize) entries).length := by
  obtain ⟨hcap, hmax, -⟩ := nodeMaxEntries_bounds h1024 h64k
  have hpos : 0 < nodeMaxEntries blockSize := by omega
  have hsound : (⟨nodes, [], [], [], []⟩ : Packing).Sound nodes alloc :=
    ⟨rfl, fun h => absurd rfl h, nofun, .nil, .nil⟩
  obtain ⟨hs', blocks, hlen, hw, hi⟩ := packChunks_ok hsound hfresh hpack
  have hpieces : ∀ l ∈ chunks (nodeMaxEntries blockSize) entries,
      (1 ≤ l.length ∧ l.length ≤ nodeMaxEntries blockSize) ∧ ∀ e ∈ l, e.logicalBlock < 2 ^ 32 := by
    intro l hl
    obtain ⟨hne, hle⟩ := mem_chunks _ hpos _ _ hl
    refine ⟨⟨List.length_pos_iff.mpr hne, hle⟩, fun e he => hlogical e ?_⟩
    rw [← flatten_chunks _ hpos entries]
    exact List.mem_flatten.mpr ⟨l, hl, he⟩
  have hbuild : ∀ l : List Extent, buildFullLeafBlock generation (l.map Extent.stored) blockSize =
      buildFullLeafBlock generation l blockSize := by
    intro l
    unfold buildFullLeafBlock
    rw [List.map_map]
    exact congrArg _ (List.map_congr_left fun e _ => encodeExtent_stored e)
  have hkey : ∀ l : List Extent, firstStart Extent.logicalBlock (l.map Extent.stored) =
      firstStart Extent.logicalBlock l := by
    intro l
    cases l <;> rfl
  -- the leaves hold what is stored of the extents, which is written no differently
  obtain ⟨hpacked, hentries⟩ := packed_of_pieces read (nodeMaxEntries blockSize)
    ((chunks (nodeMaxEntries blockSize) entries).map
      (fun l => LevelTree.leaf (l.map Extent.stored)))
    (fun p => buildFullLeafBlock generation p.entries blockSize) ⟨nodes, [], [], [], []⟩
    hs' hnodes hblocks hfresh (hlen.trans (List.length_map _).symm)
    (by
      rw [List.zip_map_right, List.map_map, hw]
      refine congrArg _ (List.map_congr_left fun c _ => ?_)
      exact Prod.ext rfl (hbuild c.2).symm)
    (by
      rw [List.zip_map_right, List.map_map, hi, List.nil_append]
      refine List.map_congr_left fun c _ => ?_
      exact congrArg (ExtentIdx.mk · c.1) (hkey c.2).symm)
    (by
      rw [List.flatMap_eq_nil_iff.mpr]
      · exact .nil
      · intro p hp
        obtain ⟨l, -, rfl⟩ := List.mem_map.mp hp
        rfl)
    (fun p hp => by
      obtain ⟨l, hl, rfl⟩ := List.mem_map.mp hp
      obtain ⟨hfill, hbelow⟩ := hpieces l hl
      change Represents _ _ (buildFullLeafBlock generation (l.map Extent.stored) blockSize)
      rw [hbuild]
      exact represents_stored _ _ _ hbelow hfill.2 hmax)
    (fun p hp => by
      obtain ⟨l, hl, rfl⟩ := List.mem_map.mp hp
      have hfill := (hpieces l hl).1
      refine ⟨?_, trivial⟩
      change 1 ≤ (l.map Extent.stored).length ∧ (l.map Extent.stored).length ≤ _
      rwa [List.length_map])
  refine ⟨hs', _, hpacked, ?_, ?_⟩
  · rw [hentries, List.flatMap_map]
    conv_rhs => rw [← flatten_chunks _ hpos entries]
    rw [List.map_flatten]
    exact (List.flatMap_def ..)
  · change (blocks.zip ((chunks (nodeMaxEntries blockSize) entries).map
      (fun l => LevelTree.leaf (l.map Extent.stored)))).length = _
    rw [List.length_zip, List.length_map, hlen, Nat.min_self]

theorem packIndexLevel_ok {n : Nat} {s s' : Packing} {t : LevelTree Extent (n + 1)}
    (hdepth : n + 1 < 2 ^ 16) (hlogical : ∀ e ∈ t.entries, e.logicalBlock < 2 ^ 32)
      (hs : s.Sound nodes alloc)
    (ht : Packed read (nodeMaxEntries blockSize) s t)
    (hpack : packChunks alloc (buildFullIndexBlock generation (n + 1) · blockSize)
      ExtentIdx.logicalBlock (chunks (nodeMaxEntries blockSize) s.indices)
      { s with indices := [] } = .ok s') :
    s'.Sound nodes alloc ∧ ∃ t' : LevelTree Extent (n + 2),
      Packed read (nodeMaxEntries blockSize) s' t' ∧ t'.entries = t.entries ∧
      t'.fill = (chunks (nodeMaxEntries blockSize) t.children).length := by
  obtain ⟨hcap, hmax, -⟩ := nodeMaxEntries_bounds h1024 h64k
  have hpos : 0 < nodeMaxEntries blockSize := by omega
  have hsound : ({ s with indices := [] } : Packing).Sound nodes alloc :=
    ⟨hs.supply, hs.spent, hs.allocated, hs.distinct, hs.written⟩
  obtain ⟨hs', blocks, hlen, hw, hi⟩ := packChunks_ok hsound hfresh hpack
  rw [ht.indices, chunks_map] at hlen hw hi
  rw [List.length_map] at hlen
  rw [List.zip_map_right, List.map_map] at hw hi
  have hflat := flatten_chunks _ hpos t.children
  have hpieces : ∀ p ∈ (chunks (nodeMaxEntries blockSize) t.children).map LevelTree.node,
      (1 ≤ p.fill ∧ p.fill ≤ nodeMaxEntries blockSize) ∧ ∀ c ∈ p.children, c ∈ t.children := by
    intro p hp
    obtain ⟨l, hl, rfl⟩ := List.mem_map.mp hp
    obtain ⟨hne, hle⟩ := mem_chunks _ hpos _ _ hl
    refine ⟨⟨List.length_pos_iff.mpr hne, hle⟩, fun c hc => ?_⟩
    rw [← hflat]
    exact List.mem_flatten.mpr ⟨l, hl, hc⟩
  have hfilled : ∀ p ∈ (chunks (nodeMaxEntries blockSize) t.children).map LevelTree.node,
      p.Filled (nodeMaxEntries blockSize) :=
    fun p hp c hc => ht.filled c ((hpieces p hp).2 c hc)
  have hkeys : s'.indices =
      (blocks.zip ((chunks (nodeMaxEntries blockSize) t.children).map LevelTree.node)).map
        indexOf := by
    rw [List.zip_map_right, List.map_map]
    refine hi.trans (List.map_congr_left ?_)
    intro c hc
    have hp := List.mem_map_of_mem (f := LevelTree.node) (List.of_mem_zip hc).2
    exact congrArg (ExtentIdx.mk · c.1) (firstStart_map_indexOf (hfilled _ hp))
  obtain ⟨hpacked, hentries⟩ := packed_of_pieces read (nodeMaxEntries blockSize)
    ((chunks (nodeMaxEntries blockSize) t.children).map LevelTree.node)
    (fun p => buildFullIndexBlock generation (n + 1) (p.children.map indexOf) blockSize)
    { s with indices := [] } hs' hnodes hblocks hfresh (hlen.trans (List.length_map _).symm)
    (by rw [List.zip_map_right, List.map_map]; exact hw) hkeys
    (by rw [LevelTree.addresses_pieces hflat]; exact ht.addresses)
    (by
      intro p hp
      obtain ⟨hfill, hsub⟩ := hpieces p hp
      refine represents_index hdepth ?_ (fun c hc => ht.blocks c (hsub c hc)) hfill.2 hmax
        (fun c hc => ht.nodes c (hsub c hc))
      intro e he
      obtain ⟨c, hc, he⟩ := List.mem_flatMap.mp he
      exact hlogical e (List.mem_flatMap.mpr ⟨c, hsub c hc, he⟩))
    (fun p hp => ⟨(hpieces p hp).1, hfilled p hp⟩)
  refine ⟨hs', _, hpacked, ?_, ?_⟩
  · rw [hentries, LevelTree.entries_pieces hflat]
  · change (blocks.zip ((chunks (nodeMaxEntries blockSize) t.children).map LevelTree.node)).length =
      _
    rw [List.length_zip, List.length_map, hlen, Nat.min_self]

theorem packIndices_ok {n fuel : Nat} {s s' : Packing} {t : LevelTree Extent (n + 1)} {depth : Nat}
    (hlogical : ∀ e ∈ t.entries, e.logicalBlock < 2 ^ 32) (hs : s.Sound nodes alloc)
    (ht : Packed read (nodeMaxEntries blockSize) s t) (hpos : 1 ≤ t.fill) (hfuel : t.fill ≤ fuel)
    (hbound : t.fill ≤ levelBound n) (hn : n ≤ 4)
    (hpack : packIndices alloc generation blockSize fuel (n + 1) s = .ok (depth, s')) :
    s'.Sound nodes alloc ∧ ∃ (m : Nat) (t' : LevelTree Extent (m + 1)), depth = m + 1 ∧ m ≤ 4 ∧
      Packed read (nodeMaxEntries blockSize) s' t' ∧ t'.entries = t.entries ∧ 1 ≤ t'.fill ∧
      t'.fill ≤ 4 := by
  induction fuel generalizing n s with
  | zero => omega
  | succ fuel ih =>
    have hlen : s.indices.length = t.fill := by
      rw [ht.indices, List.length_map]
      rfl
    unfold packIndices at hpack
    rw [hlen] at hpack
    by_cases hfew : t.fill ≤ 4
    · rw [if_pos hfew] at hpack
      cases hpack
      exact ⟨hs, n, t, rfl, hn, ht, rfl, hpos, hfew⟩
    · rw [if_neg hfew] at hpack
      obtain ⟨above, habove, hrest⟩ := Result.bind_eq_ok hpack
      obtain ⟨hcap, -, -⟩ := nodeMaxEntries_bounds h1024 h64k
      obtain ⟨hs₁, t₁, ht₁, he₁, hfill₁⟩ := packIndexLevel_ok hnodes hblocks hfresh
        h1024 h64k (by omega) hlogical hs ht habove
      have hn3 : n < 4 := by
        obtain h | h := Nat.lt_or_ge n 4
        · exact h
        · obtain rfl : n = 4 := by omega
          have hfour : levelBound 4 = 2 := by decide
          omega
      have hle : t₁.fill ≤ levelBound (n + 1) := by
        rw [hfill₁]
        apply length_chunks_le
        change t.fill ≤ (levelBound n + 83) / 84 * nodeMaxEntries blockSize
        calc t.fill ≤ levelBound n := hbound
          _ ≤ (levelBound n + 83) / 84 * 84 := by omega
          _ ≤ _ := Nat.mul_le_mul_left _ hcap
      have hlt : t₁.fill ≤ t.fill - 1 := by
        rw [hfill₁]
        apply length_chunks_le
        change t.fill ≤ (t.fill - 1) * nodeMaxEntries blockSize
        calc t.fill ≤ (t.fill - 1) * 2 := by omega
          _ ≤ _ := Nat.mul_le_mul_left _ (by omega)
      have hpos₁ : 1 ≤ t₁.fill := by
        rw [hfill₁]
        apply List.length_pos_iff.mpr
        intro hnil
        have hflat := flatten_chunks (nodeMaxEntries blockSize) (by omega) t.children
        rw [hnil] at hflat
        have hzero : t.fill = 0 := congrArg List.length hflat.symm
        omega
      rw [← he₁]
      exact ih (by rwa [he₁]) hs₁ ht₁ hpos₁ (by omega) hle (by omega) hrest

end Loop

end Packing

theorem length_le_of_starts {es : List Extent} {lo : Nat}
    (hlogical : ∀ e ∈ es, e.logicalBlock < 2 ^ 32)
    (hstarts : es.Pairwise (fun a b => a.logicalBlock < b.logicalBlock))
      (hlo : ∀ e ∈ es, lo ≤ e.logicalBlock) :
    es.length ≤ 2 ^ 32 - lo := by
  induction es generalizing lo with
  | nil => exact Nat.zero_le _
  | cons e es ih =>
    obtain ⟨hhead, htail⟩ := List.pairwise_cons.mp hstarts
    have hrest := ih (fun e' he' => hlogical e' (List.mem_cons_of_mem _ he')) htail hhead
    have h1 := hlo e List.mem_cons_self
    have h2 := hlogical e List.mem_cons_self
    rw [List.length_cons]
    omega

section Repack

variable {generation : UInt32} {entries : List Extent} {blockSize : Nat} {nodes : List Nat}
  {alloc : Allocator} {plan : RepackedTree}

/-- The plan's blocks: the file's own first and in order, each block written once. -/
structure RepackedTree.Accounts (plan : RepackedTree) (nodes : List Nat) : Prop where
  used : plan.usedNodes <+: nodes
  spent : plan.allocatedBlocks ≠ [] → plan.usedNodes = nodes
  written : (plan.blockWrites.map Prod.fst).Perm (plan.usedNodes ++ plan.allocatedBlocks)
  once : (plan.blockWrites.map Prod.fst).Nodup

/-- What a repacked tree is for: it holds the extents, under keys that agree with them, at no more
than the greatest depth, in blocks that are accounted for. -/
structure RepackedTree.Holds (plan : RepackedTree) (nodes : List Nat) (blockSize : Nat)
    (entries : List Extent) :
    Prop where
  accounts : plan.Accounts nodes
  tree : ∃ (n : Nat) (t : LevelTree Extent n), n ≤ extMaxDepth ∧ t.entries = entries ∧
    (∀ read, Represents (overlay plan.blockWrites read) t plan.newRoot) ∧
    ∀ d : Disk, (∀ w ∈ plan.blockWrites, nodeOn d blockSize w.1 = .ok w.2) →
      Represents (nodeOn d blockSize) t plan.newRoot ∧
      (Extent.collectAll plan.newRoot blockSize).exec d = (.ok entries, d)

theorem RepackedTree.Holds.entries_eq (h : plan.Holds nodes blockSize entries)
    {read : NodeReader} {n : Nat}
    {t : LevelTree Extent n} (hrep : Represents (overlay plan.blockWrites read) t plan.newRoot) :
    t.entries = entries := by
  obtain ⟨n', t', -, hsame, hrep', -⟩ := h.tree
  obtain ⟨header, hparse, hdepth⟩ := hrep.parse
  obtain ⟨header', hparse', hdepth'⟩ := (hrep' read).parse
  obtain rfl := Except.ok.inj (hparse.symm.trans hparse')
  obtain rfl : n = n' := hdepth.symm.trans hdepth'
  rw [hrep.entries_eq (hrep' read), hsame]

variable (h1024 : 1024 ≤ blockSize) (h64k : blockSize ≤ 65536)
  (hlogical : ∀ e ∈ entries, e.logicalBlock < 2 ^ 32)
  (hstarts : entries.Pairwise (fun a b => a.logicalBlock < b.logicalBlock))
  (hnodes : nodes.Nodup) (hblocks : ∀ b ∈ nodes, b < 2 ^ 48) (hfresh : Allocator.Fresh alloc nodes)
  (hplan : planRepackTree generation entries blockSize nodes alloc = .ok plan)

include h1024 h64k hlogical hstarts hnodes hblocks hfresh hplan

theorem planRepackTree_ok (read : NodeReader) :
    plan.Accounts nodes ∧ ∃ (n : Nat) (t : LevelTree Extent n), n ≤ extMaxDepth ∧
      plan.newRoot.length = 60 ∧ t.entries = entries.map Extent.stored ∧
      Represents (overlay plan.blockWrites read) t plan.newRoot ∧ t.fill ≤ 4 ∧
      (0 < n → 1 ≤ t.fill) ∧ t.Filled (nodeMaxEntries blockSize) ∧
      t.addresses.Perm (plan.blockWrites.map Prod.fst) := by
  unfold planRepackTree at hplan
  by_cases hfew : entries.length ≤ 4
  · rw [if_pos hfew] at hplan
    cases hplan
    refine ⟨⟨List.nil_prefix, fun h => absurd rfl h, .nil, .nil⟩, 0, LevelTree.leaf
      (entries.map Extent.stored),
      by decide, length_buildInlineLeafRoot hfew, rfl, ?_, ?_, fun h => absurd h (by decide),
      trivial, .nil⟩
    · exact represents_stored _ _ _ hlogical hfew (show 4 < 2 ^ 16 by decide)
    · change (entries.map Extent.stored).length ≤ 4
      rwa [List.length_map]
  · rw [if_neg hfew] at hplan
    obtain ⟨leaves, hleaves, hrest⟩ := Result.bind_eq_ok hplan
    obtain ⟨⟨depth, top⟩, htop, hdone⟩ := Result.bind_eq_ok hrest
    cases hdone
    obtain ⟨hs, t, ht, hentries, hfill⟩ :=
      Packing.packLeaves_ok read hnodes hblocks hfresh h1024 h64k hlogical hleaves
    obtain ⟨hcap, -, -⟩ := nodeMaxEntries_bounds h1024 h64k
    have hcount : entries.length ≤ 2 ^ 32 - 0 :=
      length_le_of_starts hlogical hstarts (fun _ _ => Nat.zero_le _)
    have hpos : 1 ≤ t.fill := by
      rw [hfill]
      apply List.length_pos_iff.mpr
      intro hnil
      have hflat := flatten_chunks (nodeMaxEntries blockSize) (by omega) entries
      rw [hnil] at hflat
      have hzero := congrArg List.length hflat
      rw [List.flatten_nil, List.length_nil] at hzero
      omega
    have hbound : t.fill ≤ Packing.levelBound 0 := by
      rw [hfill]
      apply length_chunks_le
      calc entries.length ≤ 51130564 * 84 := by omega
        _ ≤ Packing.levelBound 0 * nodeMaxEntries blockSize := Nat.mul_le_mul_left _ hcap
    have hfuel : t.fill ≤ leaves.indices.length := by
      rw [ht.indices, List.length_map]
      exact Nat.le_refl _
    have hbelow : ∀ e ∈ t.entries, e.logicalBlock < 2 ^ 32 := by
      intro e he
      rw [hentries] at he
      obtain ⟨e', he', rfl⟩ := List.mem_map.mp he
      exact hlogical e' he'
    obtain ⟨hs', m, t', rfl, hm, ht', hentries', hpos', hfour⟩ := Packing.packIndices_ok hnodes
      hblocks hfresh h1024 h64k hbelow hs ht hpos hfuel hbound (by decide) htop
    refine ⟨⟨⟨top.supply, hs'.supply⟩, ?_, hs'.written, hs'.writes_nodup hnodes hfresh⟩,
      m + 1, t', by simp only [extMaxDepth]; omega, length_buildInlineIndexRoot ?_,
      hentries'.trans hentries, ?_, hfour, fun _ => hpos', ht'.filled, ht'.addresses⟩
    · intro hne
      have hspent := hs'.spent hne
      rw [← hs'.supply, hspent, List.append_nil]
    · rw [ht'.indices, List.length_map]
      exact hfour
    · rw [ht'.indices]
      refine represents_index (by omega) ?_ ht'.blocks hfour (by decide) ht'.nodes
      rwa [hentries']

/-- A tree that is repacked holds the extents it was given exactly when an entry can hold each of
them. -/
theorem repacked_tree_iff (hlengths : ∀ e ∈ entries, e.length < 2 ^ 16) :
    plan.Holds nodes blockSize entries ↔ ∀ e ∈ entries, e.Storable := by
  have hok := fun read => planRepackTree_ok h1024 h64k hlogical hstarts hnodes hblocks
    hfresh hplan read
  constructor
  · intro h e he
    obtain ⟨-, n, t, -, -, hentries, hrep, -⟩ := hok (fun _ => .error .io)
    have heq : entries.map Extent.stored = entries.map id := by
      rw [List.map_id, ← hentries, h.entries_eq hrep]
    have hstored := List.map_inj_left.mp heq e he
    exact (Extent.stored_eq_iff (hlengths e he)).mp hstored
  · intro hstorable
    obtain ⟨hacc, n, t, hn, -, hentries, hbase, -, -, -, haddr⟩ := hok (fun _ => .error .io)
    have hmap : entries.map Extent.stored = entries.map id := List.map_congr_left fun e he =>
      (Extent.stored_eq_iff (hlengths e he)).mpr (hstorable e he)
    rw [hmap, List.map_id] at hentries
    -- a reader that gives the blocks written is as good as any other
    have hrep : ∀ read : NodeReader, (∀ w ∈ plan.blockWrites, read w.1 = .ok w.2) →
        Represents read t plan.newRoot := by
      intro read hread
      refine hbase.congr ?_
      intro b hb
      obtain ⟨w, hw, rfl⟩ := List.mem_map.mp (haddr.mem_iff.mp hb)
      rw [hread w hw, overlay_of_mem hacc.once hw]
    refine ⟨hacc, n, t, hn, hentries, fun read => hrep _ fun w hw => overlay_of_mem hacc.once hw,
      fun d hd => ?_⟩
    have hdisk := hrep (nodeOn d blockSize) hd
    exact ⟨hdisk, by rw [Extent.collectAll_exec hn hdisk, hentries]⟩

end Repack

def fiveExtents : List Extent :=
  [⟨0, 2, 100, false⟩, ⟨2, 2, 110, false⟩, ⟨8, 1, 120, true⟩, ⟨9, 3, 130, false⟩,
    ⟨20, 5, 140, false⟩]

theorem fiveExtents_storable : ∀ e ∈ fiveExtents, e.Storable := by
  intro e he
  simp only [fiveExtents, List.mem_cons, List.not_mem_nil, or_false] at he
  obtain rfl | rfl | rfl | rfl | rfl := he <;> exact ⟨by decide, by decide, by decide⟩

theorem repacked_tree_fiveExtents : ∃ plan,
    planRepackTree 0 fiveExtents 1024 [] oneBlock = .ok plan ∧ plan.allocatedBlocks = [9] ∧
      plan.Holds [] 1024 fiveExtents := by
  refine ⟨⟨buildInlineIndexRoot 0 1 [⟨0, 9⟩], [(9, buildFullLeafBlock 0 fiveExtents 1024)], [],
    [9]⟩,
    rfl, rfl, ?_⟩
  have hplan : planRepackTree 0 fiveExtents 1024 [] oneBlock =
      .ok ⟨buildInlineIndexRoot 0 1 [⟨0, 9⟩], [(9, buildFullLeafBlock 0 fiveExtents 1024)],
      [], [9]⟩ := rfl
  exact (repacked_tree_iff (by decide) (by decide) (by decide) (by decide) .nil nofun
    (oneBlock_fresh nofun) hplan (by decide)).mpr fiveExtents_storable

/-- An extent too long for its entry is written as an uninitialized one. -/
theorem long_extent_repacked_turned : ∃ plan,
    planRepackTree 0 [⟨0, 40000, 500, false⟩] 1024 [] oneBlock = .ok plan ∧
      (∀ d : Disk, (Extent.collectAll plan.newRoot 1024).exec d = (.ok [⟨0, 7232, 500, true⟩], d)) ∧
      ¬ plan.Holds [] 1024 [⟨0, 40000, 500, false⟩] := by
  have hrep : ∀ read : NodeReader, Represents read (LevelTree.leaf [⟨0, 7232, 500, true⟩])
      (buildInlineLeafRoot 0 [⟨0, 40000, 500, false⟩]) := fun read => ⟨⟨1, 4, 0, 0⟩, rfl, rfl, rfl⟩
  refine ⟨⟨buildInlineLeafRoot 0 [⟨0, 40000, 500, false⟩], [], [], []⟩, rfl, ?_, ?_⟩
  · intro d
    exact Extent.collectAll_exec (by decide) (hrep (nodeOn d 1024))
  · intro h
    exact absurd (h.entries_eq (hrep (overlay [] fun _ => .error .io))) (by decide)

end FsExt4
