import FsExt4.ExtentTree

namespace FsExt4

open Lib

namespace Extent

def readChild (blockSize : Nat) (idx : ExtentIdx) : DevIo Bytes :=
  if 2 ^ 64 ≤ idx.leafBlock * blockSize then
    .fail (.corruptExtentTree "extent walk: child block offset overflow")
  else readAt (idx.leafBlock * blockSize) blockSize

/-- The traversal from a node, adding to the extents and the node blocks found so far. -/
def walk (blockSize : Nat) (descents : Nat) (node : Bytes) (header : ExtentHeader)
    (found : List Extent × List Nat) : DevIo (List Extent × List Nat) :=
  if header.isLeaf then do
    let out ← liftM (parseLeafEntries node header)
    return (found.1 ++ out, found.2)
  else
    match descents with
    | 0 => .fail (.corruptExtentTree "extent tree descended past claimed depth")
    | descents + 1 =>
      (List.range header.entries).foldlM (fun found i => do
        let idx ← liftM (entryAt ExtentIdx.parse "index entry out of range" node i)
        let buf ← readChild blockSize idx
        let child ← liftM (ExtentHeader.parse buf)
        walk blockSize descents buf child (found.1, found.2 ++ [idx.leafBlock])) found

def collectAllWithNodes (root : Bytes) (blockSize : Nat) : DevIo (List Extent × List Nat) := do
  let header ← liftM (ExtentHeader.parse root)
  if extMaxDepth < header.depth then
    .fail (.corruptExtentTree "extent tree depth exceeds spec maximum")
  else
    walk blockSize header.depth root header ([], [])

def collectAll (root : Bytes) (blockSize : Nat) : DevIo (List Extent) := do
  let found ← collectAllWithNodes root blockSize
  return found.1

theorem contains_eq_covers (e : Extent) (logical : Nat) :
    e.contains logical = covers Extent.logicalBlock Extent.length logical e := rfl

section Scans

variable {node : Bytes} {logical : Nat} {slots : List Nat}

theorem scanLeaf_ok {es : List Extent} (hslots : List.Forall₂
      (fun i e => entryAt Extent.parse "leaf entry out of range" node i = .ok e) slots es)
    (hsorted : es.Pairwise (fun a b => a.logicalBlock ≤ b.logicalBlock)) :
    scanLeaf node logical slots =
      .ok (es.find? (covers Extent.logicalBlock Extent.length logical)) := by
  induction hslots with
  | nil => rfl
  | @cons i e slots es hi hrest ih =>
    obtain ⟨hhead, htail⟩ := List.pairwise_cons.mp hsorted
    unfold entryAt at hi
    unfold scanLeaf
    split at hi
    · cases hi
    · rename_i hin
      rw [if_neg hin, hi]
      change (if e.contains logical = true then _ else _) = _
      by_cases hc : e.contains logical = true
      · rw [if_pos hc, List.find?_cons_of_pos (by rwa [← contains_eq_covers])]
        rfl
      · rw [if_neg hc, List.find?_cons_of_neg (by rwa [← contains_eq_covers])]
        by_cases hlt : logical < e.logicalBlock
        · have hnone : es.find? (covers Extent.logicalBlock Extent.length logical) = none := by
            rw [List.find?_eq_none]
            intro e' he' hc'
            have h1 := hhead e' he'
            have h2 := covers_iff.mp hc'
            omega
          rw [if_pos hlt, hnone]
          rfl
        · rw [if_neg hlt]
          exact ih htail

theorem scanIndex_ok {idxs : List ExtentIdx} (hslots : List.Forall₂
      (fun i idx => entryAt ExtentIdx.parse "index entry out of range" node i = .ok idx) slots idxs)
    (last first : Option ExtentIdx) :
    scanIndex node logical slots last first = .ok
      ((idxs.takeWhile (fun idx => decide (idx.logicalBlock ≤ logical))).getLast?.or last,
        first.or idxs.head?) := by
  induction hslots generalizing last first with
  | nil => simp [scanIndex]
  | @cons i idx slots idxs hi hrest ih =>
    unfold entryAt at hi
    unfold scanIndex
    split at hi
    · cases hi
    · rename_i hin
      rw [if_neg hin, hi]
      change (if idx.logicalBlock ≤ logical then _ else _) = _
      by_cases hle : idx.logicalBlock ≤ logical
      · rw [if_pos hle, ih, List.takeWhile_cons_of_pos (by simpa using hle)]
        cases hl : (idxs.takeWhile (fun idx => decide (idx.logicalBlock ≤ logical))).getLast? with
        | none =>
          rw [List.getLast?_eq_none_iff] at hl
          cases first <;> simp [hl]
        | some l =>
          have hcons : (idx :: idxs.takeWhile
              (fun idx => decide (idx.logicalBlock ≤ logical))).getLast? = some l := by
            rw [List.getLast?_cons, hl]
            rfl
          cases first <;> simp [hcons]
      · rw [if_neg hle, List.takeWhile_cons_of_neg (by simpa using hle)]
        cases first <;> simp [pure, Except.pure]

end Scans

theorem nodeOn_bytes {d : Disk} {blockSize b : Nat} {node : Bytes}
    (h : nodeOn d blockSize b = .ok node) :
    node = d.img.read (b * blockSize) blockSize := by
  unfold nodeOn at h
  split at h
  · exact (Except.ok.inj h).symm
  · cases h

/-- The descent with a test that every node below the root has to pass. -/
def lookupNodeVerified (accepts : Bytes → Bool) (blockSize logical : Nat) (descents : Nat)
    (cursor : Bytes) (header : ExtentHeader) : DevIo (Option Extent) :=
  if header.isLeaf then
    liftM (scanLeaf cursor logical (List.range header.entries))
  else do
    let (chosen, first) ← liftM (scanIndex cursor logical (List.range header.entries) none none)
    match chosen.or first with
    | none => .fail (.corruptExtentTree "index node holds no entries")
    | some idx =>
      if 2 ^ 64 ≤ idx.leafBlock * blockSize then
        .fail (.corruptExtentTree "extent index: child block offset overflow")
      else
        let buf ← readAt (idx.leafBlock * blockSize) blockSize
        if !accepts buf then .fail (.badChecksum "extent block")
        else
          let child ← liftM (ExtentHeader.parse buf)
          match descents with
          | 0 => .fail (.corruptExtentTree "extent tree descended past claimed depth")
          | descents + 1 => lookupNodeVerified accepts blockSize logical descents buf child

theorem lookupNode_eq_verified (blockSize logical descents : Nat) (cursor : Bytes)
    (header : ExtentHeader) :
    lookupNode blockSize logical descents cursor header =
      lookupNodeVerified (fun _ => true) blockSize logical descents cursor header := by
  induction descents generalizing cursor header with
  | zero =>
    unfold lookupNode lookupNodeVerified
    rfl
  | succ descents ih =>
    unfold lookupNode lookupNodeVerified
    simp only [ih]
    rfl

theorem lookupNodeVerified_exec {accepts : Bytes → Bool} {d : Disk}
    {blockSize logical cap n descents : Nat}
    {t : LevelTree Extent n} {node : Bytes} {header : ExtentHeader}
    (hrep : Represents (nodeOn d blockSize) t node) (hparse : ExtentHeader.parse node = .ok header)
    (hfill : 0 < n → 1 ≤ t.fill) (hfilled : t.Filled cap)
    (happart : Apart Extent.logicalBlock Extent.length t.entries) (hdescents : n ≤ descents)
    (haccepts : ∀ b ∈ t.addresses, accepts (d.img.read (b * blockSize) blockSize) = true) :
    (lookupNodeVerified accepts blockSize logical descents node header).exec d =
      (.ok (t.entries.find? (covers Extent.logicalBlock Extent.length logical)), d) := by
  induction n generalizing node header descents with
  | zero =>
    obtain ⟨h, hp, hdepth, hentries⟩ := hrep
    obtain rfl : h = header := Except.ok.inj (hp.symm.trans hparse)
    unfold lookupNodeVerified
    rw [if_pos (by simp [ExtentHeader.isLeaf, hdepth]), Io.exec_liftM,
      scanLeaf_ok (entryAt_of_parseEntries hentries) happart.pairwise_start]
  | succ n ih =>
    obtain ⟨h, hp, hdepth, hentries, hbelow⟩ := hrep
    obtain rfl : h = header := Except.ok.inj (hp.symm.trans hparse)
    have hne : ∀ c ∈ t.children, c.2.entries ≠ [] := fun c hc =>
      c.2.entries_ne_nil (hfilled c hc).2 (hfilled c hc).1.1
    have hchildren : t.children ≠ [] := by
      intro hnil
      have hpos := hfill (Nat.succ_pos n)
      change 1 ≤ t.children.length at hpos
      rw [hnil] at hpos
      exact absurd hpos (Nat.not_succ_le_zero 0)
    obtain ⟨A, c, B, hc⟩ : ∃ A c B,
        around (fun c => c.2.key Extent.logicalBlock) logical t.children = some (A, c, B) :=
      around_isSome hchildren
    have hmem : c ∈ t.children := by rw [around_append hc]; simp
    have hbelowMem : ∀ b, b ∈ c.1 :: c.2.addresses → b ∈ t.addresses :=
      fun b hb => List.mem_flatMap.mpr ⟨c, hmem, hb⟩
    obtain ⟨child, hread, hchild⟩ := hbelow c hmem
    obtain ⟨hfit, hexec⟩ := nodeOn_ok hread
    have haccept : accepts child = true := by
      rw [nodeOn_bytes hread]
      exact haccepts c.1 (hbelowMem c.1 List.mem_cons_self)
    obtain ⟨childHeader, hchildParse, -⟩ := hchild.parse
    have hidx := chosen_map_indexOf hc
    have hscan : scanIndex node logical (List.range h.entries) none none = .ok (_, _) :=
      scanIndex_ok (entryAt_of_parseEntries hentries) none none
    rw [Option.or_none, Option.none_or] at hscan
    unfold lookupNodeVerified
    rw [if_neg (by simp [ExtentHeader.isLeaf, hdepth]),
      Io.exec_bind_ok _ _ d d _ (by rw [Io.exec_liftM, hscan])]
    dsimp only
    change (match chosen ExtentIdx.logicalBlock logical (t.children.map indexOf) with
      | none => _
      | some idx => _ : DevIo _).exec d = _
    rw [hidx]
    dsimp only [indexOf]
    rw [if_neg (by omega), Io.exec_bind_ok _ _ _ _ _ hexec, haccept, if_neg (by decide),
      Io.exec_bind_ok _ _ d d _ (by rw [Io.exec_liftM, hchildParse])]
    cases descents with
    | zero => exact absurd hdescents (Nat.not_succ_le_zero n)
    | succ descents =>
      have hsub : Apart Extent.logicalBlock Extent.length c.2.entries :=
        (List.pairwise_flatMap.mp happart).1 c hmem
      rw [LevelTree.find?_around happart hne hc]
      exact ih hchild hchildParse (fun _ => (hfilled c hmem).1.1) (hfilled c hmem).2 hsub
        (Nat.le_of_succ_le_succ hdescents)
        (fun b hb => haccepts b (hbelowMem b (List.mem_cons_of_mem _ hb)))

theorem lookupNode_exec {d : Disk} {blockSize logical cap n descents : Nat}
    {t : LevelTree Extent n} {node : Bytes} {header : ExtentHeader}
    (hrep : Represents (nodeOn d blockSize) t node) (hparse : ExtentHeader.parse node = .ok header)
    (hfill : 0 < n → 1 ≤ t.fill) (hfilled : t.Filled cap)
    (happart : Apart Extent.logicalBlock Extent.length t.entries) (hdescents : n ≤ descents) :
    (lookupNode blockSize logical descents node header).exec d =
      (.ok (t.entries.find? (covers Extent.logicalBlock Extent.length logical)), d) := by
  rw [lookupNode_eq_verified]
  exact lookupNodeVerified_exec hrep hparse hfill hfilled happart hdescents (fun _ _ => rfl)

theorem lookupNode_leaf {d : Disk} {blockSize logical descents : Nat} {read : NodeReader}
    {es : List Extent}
    {node : Bytes} {header : ExtentHeader} (hrep : Represents read (LevelTree.leaf es) node)
    (hparse : ExtentHeader.parse node = .ok header)
    (hsorted : es.Pairwise (fun a b => a.logicalBlock ≤ b.logicalBlock)) :
    (lookupNode blockSize logical descents node header).exec d =
      (.ok (es.find? (covers Extent.logicalBlock Extent.length logical)), d) := by
  obtain ⟨found, hfound, hdepth, hentries⟩ := hrep
  obtain rfl : found = header := Except.ok.inj (hfound.symm.trans hparse)
  unfold lookupNode
  rw [if_pos (by simp [ExtentHeader.isLeaf, hdepth]), Io.exec_liftM,
    scanLeaf_ok (entryAt_of_parseEntries hentries) hsorted]
  rfl

theorem lookup_exec {d : Disk} {root : Bytes} {blockSize n : Nat} {t : LevelTree Extent n}
    (h : WellFormed blockSize (nodeOn d blockSize) root t) (logical : Nat) :
    (lookup root blockSize logical).exec d =
      (.ok (t.entries.find? (covers Extent.logicalBlock Extent.length logical)), d) := by
  obtain ⟨header, hparse, hdepth⟩ := h.tree.parse
  unfold lookup
  rw [Io.exec_bind_ok _ _ d d _ (by rw [Io.exec_liftM, hparse]), hdepth,
    if_neg (Nat.not_lt.mpr h.depth)]
  exact lookupNode_exec h.tree hparse h.rootIndex h.filled h.apart (Nat.le_refl n)

def lookupVerified (accepts : Bytes → Bool) (root : Bytes) (blockSize logical : Nat) : DevIo
    (Option Extent) := do
  let header ← liftM (ExtentHeader.parse root)
  if extMaxDepth < header.depth then
    .fail (.corruptExtentTree "extent tree depth exceeds spec maximum")
  else
    lookupNodeVerified accepts blockSize logical header.depth root header

theorem lookupVerified_exec {accepts : Bytes → Bool} {d : Disk} {root : Bytes} {blockSize n : Nat}
    {t : LevelTree Extent n} (h : WellFormed blockSize (nodeOn d blockSize) root t)
    (haccepts : ∀ b ∈ t.addresses, accepts (d.img.read (b * blockSize) blockSize) = true)
      (logical : Nat) :
    (lookupVerified accepts root blockSize logical).exec d =
      (.ok (t.entries.find? (covers Extent.logicalBlock Extent.length logical)), d) := by
  obtain ⟨header, hparse, hdepth⟩ := h.tree.parse
  unfold lookupVerified
  rw [Io.exec_bind_ok _ _ d d _ (by rw [Io.exec_liftM, hparse]), hdepth,
    if_neg (Nat.not_lt.mpr h.depth)]
  exact lookupNodeVerified_exec h.tree hparse h.rootIndex h.filled h.apart (Nat.le_refl n) haccepts

theorem readChild_exec {d : Disk} {blockSize : Nat} {idx : ExtentIdx} {node : Bytes}
    (h : nodeOn d blockSize idx.leafBlock = .ok node) :
    (readChild blockSize idx).exec d = (.ok node, d) := by
  obtain ⟨hfit, hexec⟩ := nodeOn_ok h
  unfold readChild
  rw [if_neg (by omega)]
  exact hexec

theorem walk_exec {d : Disk} {blockSize n descents : Nat} {t : LevelTree Extent n} {node : Bytes}
    {header : ExtentHeader} (hrep : Represents (nodeOn d blockSize) t node)
    (hparse : ExtentHeader.parse node = .ok header) (hdescents : n ≤ descents)
    (found : List Extent × List Nat) :
    (walk blockSize descents node header found).exec d =
      (.ok (found.1 ++ t.entries, found.2 ++ t.addresses), d) := by
  induction n generalizing node header descents found with
  | zero =>
    obtain ⟨h, hp, hdepth, hentries⟩ := hrep
    obtain rfl : h = header := Except.ok.inj (hp.symm.trans hparse)
    unfold walk
    rw [if_pos (by simp [ExtentHeader.isLeaf, hdepth]),
      Io.exec_bind_ok _ _ d d _ (by rw [Io.exec_liftM, hentries])]
    simp [LevelTree.addresses]
  | succ n ih =>
    obtain ⟨h, hp, hdepth, hentries, hbelow⟩ := hrep
    obtain rfl : h = header := Except.ok.inj (hp.symm.trans hparse)
    have hslots := entryAt_of_parseEntries hentries
    unfold walk
    rw [if_neg (by simp [ExtentHeader.isLeaf, hdepth])]
    cases descents with
    | zero => exact absurd hdescents (Nat.not_succ_le_zero n)
    | succ descents =>
      change _ = (Except.ok (found.1 ++ t.children.flatMap (fun c => c.2.entries),
        found.2 ++ t.children.flatMap (fun c => c.1 :: c.2.addresses)), d)
      dsimp only
      -- the loop runs over the slots and the children side by side
      generalize hs : List.range h.entries = slots at hslots ⊢
      clear hs
      generalize t.children = children at hslots hbelow ⊢
      induction children generalizing slots found with
      | nil =>
        cases hslots
        simp
      | cons c children ihc =>
        cases hslots with
        | @cons i _ slots _ hi hrest =>
          obtain ⟨child, hread, hchild⟩ := hbelow c List.mem_cons_self
          obtain ⟨childHeader, hchildParse, -⟩ := hchild.parse
          rw [List.foldlM_cons, Io.exec_bind_ok _ _ d d
            (found.1 ++ c.2.entries, (found.2 ++ [c.1]) ++ c.2.addresses)]
          · rw [ihc _ _ hrest (fun c' hc' => hbelow c' (List.mem_cons_of_mem _ hc'))]
            simp
          · rw [Io.exec_bind_ok _ _ d d _ (by rw [Io.exec_liftM, hi]),
              Io.exec_bind_ok _ _ d d _ (readChild_exec hread),
              Io.exec_bind_ok _ _ d d _ (by rw [Io.exec_liftM, hchildParse])]
            exact ih hchild hchildParse (Nat.le_of_succ_le_succ hdescents) _

theorem collectAllWithNodes_exec {d : Disk} {root : Bytes} {blockSize n : Nat}
    {t : LevelTree Extent n} (hdepth : n ≤ extMaxDepth)
    (h : Represents (nodeOn d blockSize) t root) :
    (collectAllWithNodes root blockSize).exec d = (.ok (t.entries, t.addresses), d) := by
  obtain ⟨header, hparse, hd⟩ := h.parse
  unfold collectAllWithNodes
  rw [Io.exec_bind_ok _ _ d d _ (by rw [Io.exec_liftM, hparse]), hd,
    if_neg (Nat.not_lt.mpr hdepth), walk_exec h hparse (Nat.le_refl n)]
  simp

theorem collectAll_exec {d : Disk} {root : Bytes} {blockSize n : Nat} {t : LevelTree Extent n}
    (hdepth : n ≤ extMaxDepth) (h : Represents (nodeOn d blockSize) t root) :
    (collectAll root blockSize).exec d = (.ok t.entries, d) := by
  unfold collectAll
  rw [Io.exec_bind_ok _ _ _ _ _ (collectAllWithNodes_exec hdepth h)]
  rfl

section Reads

variable {δ : Type} [BlockDevice Error δ]

theorem length_reads_readAt_bind {α : Type} (off len : Nat) (f : Bytes → DevIo α) (d : δ) {k : Nat}
    (hf : ∀ b (d' : δ), ((f b).reads d').length ≤ k) :
    ((readAt off len >>= f).reads d).length ≤ k + 1 := by
  rw [Nat.add_comm]
  exact Io.length_reads_bind_le _ _ _ (Nat.le_refl 1) hf

theorem length_reads_liftM_bind {α β : Type} (r : Result α) (f : α → DevIo β) (d : δ) {k : Nat}
    (hf : ∀ a (d' : δ), ((f a).reads d').length ≤ k) :
    (((liftM r : DevIo α) >>= f).reads d).length ≤ k := by
  have h := Io.length_reads_bind_le (liftM r) f d (Nat.le_refl 0) hf
  rwa [Nat.zero_add] at h

theorem length_reads_lookupNode (blockSize logical descents : Nat) (node : Bytes)
    (header : ExtentHeader) (d : δ) :
    ((lookupNode blockSize logical descents node header).reads d).length ≤ descents + 1 := by
  induction descents generalizing node header d with
  | zero =>
    unfold lookupNode
    split
    · exact Nat.zero_le _
    · apply length_reads_liftM_bind
      rintro ⟨last, first⟩ d
      dsimp only
      split
      · exact Nat.zero_le _
      · split
        · exact Nat.zero_le _
        · refine length_reads_readAt_bind _ _ _ _ fun buf d => ?_
          exact length_reads_liftM_bind _ _ _ fun child d => Nat.le_refl 0
  | succ descents ih =>
    unfold lookupNode
    split
    · exact Nat.zero_le _
    · apply length_reads_liftM_bind
      rintro ⟨last, first⟩ d
      dsimp only
      split
      · exact Nat.zero_le _
      · split
        · exact Nat.zero_le _
        · refine length_reads_readAt_bind _ _ _ _ fun buf d => ?_
          exact length_reads_liftM_bind _ _ _ fun child d => ih buf child d

theorem length_reads_lookup (root : Bytes) (blockSize logical : Nat) (d : δ) :
    ((lookup root blockSize logical).reads d).length ≤ extMaxDepth + 1 := by
  unfold lookup
  refine length_reads_liftM_bind _ _ _ fun header d => ?_
  split
  · exact Nat.zero_le _
  · rename_i hdepth
    exact Nat.le_trans (length_reads_lookupNode _ _ _ _ _ _)
      (Nat.succ_le_succ (Nat.not_lt.mp hdepth))

end Reads

/-- The traversal with each child read told which blocks were read on the way to it. -/
def walkAlong (read : List Nat → ExtentIdx → DevIo Bytes) (descents : Nat) (path : List Nat)
    (node : Bytes) (header : ExtentHeader) (found : List Extent × List Nat) :
    DevIo (List Extent × List Nat) :=
  if header.isLeaf then do
    let out ← liftM (parseLeafEntries node header)
    return (found.1 ++ out, found.2)
  else
    match descents with
    | 0 => .fail (.corruptExtentTree "extent tree descended past claimed depth")
    | descents + 1 =>
      (List.range header.entries).foldlM (fun found i => do
        let idx ← liftM (entryAt ExtentIdx.parse "index entry out of range" node i)
        let buf ← read path idx
        let child ← liftM (ExtentHeader.parse buf)
        walkAlong read descents (path ++ [idx.leafBlock]) buf child
          (found.1, found.2 ++ [idx.leafBlock])) found

def collectAllWithNodesAlong (read : List Nat → ExtentIdx → DevIo Bytes) (root : Bytes) :
    DevIo (List Extent × List Nat) := do
  let header ← liftM (ExtentHeader.parse root)
  if extMaxDepth < header.depth then
    .fail (.corruptExtentTree "extent tree depth exceeds spec maximum")
  else
    walkAlong read header.depth [] root header ([], [])

theorem walk_eq_walkAlong (read : List Nat → ExtentIdx → DevIo Bytes) (blockSize descents : Nat)
    (path : List Nat) (node : Bytes) (header : ExtentHeader) (found : List Extent × List Nat)
    (hread : ∀ (path' : List Nat) idx, path'.length < path.length + descents →
      read path' idx = readChild blockSize idx) :
    walk blockSize descents node header found = walkAlong read descents path node header found := by
  induction descents generalizing path node header found with
  | zero =>
    unfold walk walkAlong
    rfl
  | succ descents ih =>
    unfold walk walkAlong
    split
    · rfl
    · dsimp only
      congr 1
      funext found i
      congr 1
      funext idx
      rw [hread path idx (by omega)]
      congr 1
      funext buf
      congr 1
      funext child
      apply ih
      intro path' idx' hlt
      apply hread
      rw [List.length_append, List.length_singleton] at hlt
      omega

theorem collectAllWithNodes_eq_along (read : List Nat → ExtentIdx → DevIo Bytes) (root : Bytes)
    (blockSize : Nat) (hread : ∀ (path : List Nat) idx, path.length < extMaxDepth →
      read path idx = readChild blockSize idx) :
    collectAllWithNodes root blockSize = collectAllWithNodesAlong read root := by
  unfold collectAllWithNodes collectAllWithNodesAlong
  congr 1
  funext header
  by_cases hdepth : extMaxDepth < header.depth
  · rw [if_pos hdepth, if_pos hdepth]
  · rw [if_neg hdepth, if_neg hdepth, walk_eq_walkAlong read blockSize header.depth []]
    intro path idx hlt
    apply hread
    rw [List.length_nil] at hlt
    omega

theorem mapLogical_exec {d : Disk} {root : Bytes} {blockSize logical : Nat} {found : Option Extent}
    (h : (lookup root blockSize logical).exec d = (.ok found, d)) :
    (mapLogical root blockSize logical).exec d =
      (.ok (found.bind fun e => if e.uninitialized then none else some (e.map logical)), d) := by
  unfold mapLogical
  rw [Io.exec_bind_ok _ _ _ _ _ h]
  cases found <;> rfl

/-- On a well-formed tree a lookup finds the extent of the traversal that covers the block, and a
mapping gives its physical block when it is initialized; on any tree, sound or not, a lookup makes
at most six reads, and no node of a traversal is read after more than five others on its path. -/
theorem lookup_agrees_with_collectAll (root : Bytes) (blockSize : Nat) :
    (∀ (d : Disk) (n : Nat) (t : LevelTree Extent n),
      WellFormed blockSize (nodeOn d blockSize) root t →
      ∃ es, (collectAll root blockSize).exec d = (.ok es, d) ∧ ∀ logical,
        (∀ e, (lookup root blockSize logical).exec d = (.ok (some e), d) ↔
          e ∈ es ∧ e.contains logical = true) ∧
        ((lookup root blockSize logical).exec d = (.ok none, d) ↔
          ∀ e ∈ es, e.contains logical = false) ∧
        (∀ p, (mapLogical root blockSize logical).exec d = (.ok (some p), d) ↔
          ∃ e ∈ es, e.contains logical = true ∧ e.uninitialized = false ∧ p = e.map logical) ∧
        ((mapLogical root blockSize logical).exec d = (.ok none, d) ↔
          ∀ e ∈ es, e.contains logical = true → e.uninitialized = true)) ∧
    (∀ (d : Disk) (logical : Nat),
      ((lookup root blockSize logical).reads d).length ≤ extMaxDepth + 1 ∧
      ((mapLogical root blockSize logical).reads d).length ≤ extMaxDepth + 1) ∧
    ∀ deeper : List Nat → ExtentIdx → DevIo Bytes,
      collectAllWithNodes root blockSize = collectAllWithNodesAlong (fun path idx =>
        if path.length < extMaxDepth + 1 then readChild blockSize idx else deeper path idx)
            root := by
  refine ⟨?_, ?_, ?_⟩
  · intro d n t h
    refine ⟨t.entries, collectAll_exec h.depth h.tree, fun logical => ?_⟩
    have hlookup := lookup_exec h logical
    rw [hlookup, mapLogical_exec hlookup]
    simp only [Prod.mk.injEq, Except.ok.injEq, and_true]
    have hfind : ∀ e, t.entries.find? (covers Extent.logicalBlock Extent.length logical) = some e ↔
        e ∈ t.entries ∧ e.contains logical = true := find?_eq_some_iff_of_apart h.apart
    refine ⟨hfind, ?_, ?_, ?_⟩
    · rw [List.find?_eq_none]
      simp only [← contains_eq_covers, Bool.not_eq_true]
    · intro p
      rw [Option.bind_eq_some_iff]
      constructor
      · rintro ⟨e, he, hp⟩
        obtain ⟨hmem, hc⟩ := (hfind e).mp he
        cases hu : e.uninitialized with
        | true => rw [hu, if_pos rfl] at hp; cases hp
        | false =>
          rw [hu, if_neg Bool.false_ne_true] at hp
          exact ⟨e, hmem, hc, hu, (Option.some.inj hp).symm⟩
      · rintro ⟨e, hmem, hc, hu, rfl⟩
        exact ⟨e, (hfind e).mpr ⟨hmem, hc⟩, by rw [hu, if_neg Bool.false_ne_true]⟩
    · rw [Option.bind_eq_none_iff]
      constructor
      · intro hnone e hmem hc
        have hn := hnone e ((hfind e).mpr ⟨hmem, hc⟩)
        cases hu : e.uninitialized with
        | true => rfl
        | false => rw [hu, if_neg Bool.false_ne_true] at hn; cases hn
      · intro hall e he
        obtain ⟨hmem, hc⟩ := (hfind e).mp he
        rw [if_pos (hall e hmem hc)]
  · intro d logical
    refine ⟨length_reads_lookup root blockSize logical d, ?_⟩
    refine Io.length_reads_bind_le (lookup root blockSize logical) _ d (k := 0)
      (length_reads_lookup root blockSize logical d) ?_
    intro found d'
    cases found <;> exact Nat.le_refl 0
  · intro deeper
    apply collectAllWithNodes_eq_along
    intro path idx hlt
    rw [if_pos (Nat.lt_succ_of_lt hlt)]

/-- A leaf block with an initialized extent and an uninitialized one, under an inline root. -/
def twoExtents : List Extent := [⟨0, 2, 10, false⟩, ⟨5, 1, 20, true⟩]

def twoExtentsTree : LevelTree Extent 1 := [(3, twoExtents)]

def twoExtentsRoot : Bytes := buildInlineIndexRoot 0 1 [⟨0, 3⟩]

def twoExtentsDisk : Disk :=
  ⟨8192, Image.write (fun _ => 0) 3072 (buildFullLeafBlock 0 twoExtents 1024)⟩

theorem twoExtents_valid : ∀ e ∈ twoExtents, e.Valid := by
  intro e he
  simp only [twoExtents, List.mem_cons, List.not_mem_nil, or_false] at he
  obtain rfl | rfl := he <;> constructor <;> decide

theorem twoExtents_wellFormed :
    WellFormed 1024 (nodeOn twoExtentsDisk 1024) twoExtentsRoot twoExtentsTree where
  depth := by decide
  length := by decide
  tree := by
    have hleaf : (buildFullLeafBlock 0 twoExtents 1024).length = 1024 :=
      length_buildNode (fun b hb => by
        obtain ⟨e, -, rfl⟩ := List.mem_map.mp hb
        exact length_encodeExtent e) (by decide)
    have hread : nodeOn twoExtentsDisk 1024 3 = .ok (buildFullLeafBlock 0 twoExtents 1024) := by
      have hself := Image.read_write_self (fun _ => 0) 3072 (buildFullLeafBlock 0 twoExtents 1024)
      rw [hleaf] at hself
      rw [nodeOn, if_pos (by decide)]
      exact congrArg Except.ok hself
    refine represents_index (t := twoExtentsTree) (by decide)
      (fun e he => (twoExtents_valid e he).logical) (by decide) (by decide) (by decide) ?_
    intro c hc
    obtain rfl : c = (3, twoExtents) := List.mem_singleton.mp hc
    exact ⟨_, hread, represents_leaf twoExtents_valid (by decide) (by decide)⟩
  rootFill := by decide
  rootIndex := by decide
  filled := by
    intro c hc
    obtain rfl : c = (3, twoExtents) := List.mem_singleton.mp hc
    exact ⟨by decide, trivial⟩
  valid := twoExtents_valid
  apart := by
    change Apart Extent.logicalBlock Extent.length twoExtents
    unfold Apart
    decide
  distinct := by decide
  nonzero := by decide

theorem lookup_agrees_with_collectAll_twoExtents :
    WellFormed 1024 (nodeOn twoExtentsDisk 1024) twoExtentsRoot twoExtentsTree ∧
      ∃ es, (collectAll twoExtentsRoot 1024).exec twoExtentsDisk = (.ok es, twoExtentsDisk) ∧
        ∀ e, (lookup twoExtentsRoot 1024 1).exec twoExtentsDisk = (.ok (some e), twoExtentsDisk) ↔
          e ∈ es ∧ e.contains 1 = true := by
  refine ⟨twoExtents_wellFormed, ?_⟩
  obtain ⟨es, hall, hlookup⟩ := (lookup_agrees_with_collectAll twoExtentsRoot 1024).1
    twoExtentsDisk 1 twoExtentsTree twoExtents_wellFormed
  exact ⟨es, hall, (hlookup 1).1⟩

end Extent

end FsExt4
