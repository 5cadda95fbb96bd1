import FsExt4.ExtentGraft

namespace FsExt4

open Lib

def LeftAt (root : Bytes) (read : NodeReader) (cap : Nat) (alloc : Allocator)
    (new : Extent) {n : Nat} (p : Nat) (t : LevelTree Extent n) : Progress → Prop
  | .done plan => plan.newRoot = root ∧ ∃ node : LevelTree Extent n,
      Rewritten read cap alloc new [p] t [(p, node)] plan.blockWrites plan.allocatedBlocks ∧
      node.key Extent.logicalBlock = t.key Extent.logicalBlock
  | .up propagated correction writes allocated => ∃ nodes,
      Rewritten read cap alloc new [p] t nodes writes allocated ∧
      passedUp t p nodes = (propagated, correction)

theorem checkNoOverlap_eq_ok_iff {entries : List Extent} {new : Extent} :
    checkNoOverlap entries new = .ok () ↔ ∀ e ∈ entries, e.meets new = false := by
  unfold checkNoOverlap
  split
  · rename_i hany
    obtain ⟨e, he, hmeets⟩ := List.any_eq_true.mp hany
    refine ⟨nofun, fun h => ?_⟩
    rw [h e he] at hmeets
    cases hmeets
  · rename_i hnone
    refine ⟨fun _ e he => ?_, fun _ => rfl⟩
    rw [Bool.eq_false_iff]
    exact fun hmeets => hnone (List.any_eq_true.mpr ⟨e, he, hmeets⟩)

theorem inserted_leaf {new : Extent} {es : List Extent} (h : ∀ e ∈ es, e.meets new = false) :
    Inserted new es (insertIntoLeafSorted es new) :=
  ⟨[], es, [], by simp, by simp, nofun, h, nofun⟩

theorem leafLevel_ok {root node : Bytes} {generation : UInt32} {blockSize p : Nat}
    {alloc : Allocator}
    {new : Extent} {isRootLeaf : Bool} {header : ExtentHeader} {es : List Extent}
      {progress : Progress}
    (hparse : ExtentHeader.parse node = .ok header)
      (hentries : parseLeafEntries node header = .ok es)
    (h : leafLevel root generation blockSize alloc new isRootLeaf ⟨p, node⟩ = .ok progress) :
    ∀ e ∈ es, e.meets new = false := by
  unfold leafLevel at h
  simp only [hparse, hentries, bind, Except.bind] at h
  cases hcheck : checkNoOverlap es new with
  | error err =>
    rw [hcheck] at h
    cases h
  | ok u => exact checkNoOverlap_eq_ok_iff.mp hcheck

theorem key_eq_iff {es : List Extent} {k : Nat} (h : es ≠ []) :
    es.head?.map Extent.logicalBlock = some k ↔ k = firstStart Extent.logicalBlock es := by
  cases es with
  | nil => exact absurd rfl h
  | cons e es => exact ⟨fun h => (Option.some.inj h).symm, fun h => congrArg some h.symm⟩

theorem halves_bounds {α : Type} {l : List α} (cap : Nat) (h2 : 2 ≤ l.length)
    (hle : l.length ≤ cap + 1) :
    (1 ≤ (l.take (l.length / 2)).length ∧ (l.take (l.length / 2)).length ≤ cap) ∧
      1 ≤ (l.drop (l.length / 2)).length ∧ (l.drop (l.length / 2)).length ≤ cap := by
  rw [List.length_take, List.length_drop]
  omega

/-- What the root of a well-formed tree has, and with it every node. -/
structure Subtree (cap : Nat) (read : NodeReader) (old : List Nat) {n : Nat}
    (t : LevelTree Extent n) (node : Bytes) : Prop where
  depth : n ≤ extMaxDepth
  tree : Represents read t node
  filled : t.Filled cap
  order : InOrder t.entries
  distinct : t.addresses.Nodup
  known : ∀ a ∈ t.addresses, a ∈ old

theorem Represents.child_lt {read : NodeReader} {n : Nat} {T : LevelTree Extent (n + 1)}
    {node : Bytes} (h : Represents read T node) : ∀ c ∈ T.children, c.1 < 2 ^ 48 := by
  obtain ⟨header, -, -, hentries, -⟩ := h
  intro c hc
  obtain ⟨raw, hraw⟩ := parse_of_mem hentries (List.mem_map_of_mem hc)
  exact (ExtentIdx.valid_of_parse hraw).leaf

theorem Subtree.child {cap n b : Nat} {read : NodeReader} {old : List Nat}
    {T : LevelTree Extent (n + 1)} {t : LevelTree Extent n} {node : Bytes}
    {A B : List (Nat × LevelTree Extent n)} (h : Subtree cap read old T node)
    (hsplit : T.children = A ++ (b, t) :: B) :
    ∃ child, read b = .ok child ∧ Subtree cap read old t child ∧ (1 ≤ t.fill ∧ t.fill ≤ cap) ∧
      b < 2 ^ 48 ∧ b ∈ old ∧ b ∉ t.addresses := by
  have hmem : (b, t) ∈ T.children := by rw [hsplit]; simp
  obtain ⟨-, -, -, -, hbelow⟩ := h.tree
  obtain ⟨child, hread, hchild⟩ := hbelow (b, t) hmem
  have hdistinct := h.distinct
  have hentries := h.order
  rw [LevelTree.addresses_split hsplit] at hdistinct
  have hin : ∀ a ∈ b :: t.addresses, a ∈ T.addresses := fun a ha =>
    List.mem_flatMap.mpr ⟨(b, t), hmem, ha⟩
  have hown := List.nodup_cons.mp (List.nodup_append.mp (List.nodup_append.mp hdistinct).1).2.1
  refine ⟨child, hread, ⟨Nat.le_of_succ_le h.depth, hchild, (h.filled _ hmem).2, ⟨?_, ?_⟩,
    hown.2, ?_⟩,
    (h.filled _ hmem).1, h.tree.child_lt _ hmem, h.known b (hin b List.mem_cons_self), hown.1⟩
  · exact (List.pairwise_flatMap.mp h.order.apart).1 (b, t) hmem
  · exact fun e he => h.order.valid e (List.mem_flatMap.mpr ⟨(b, t), hmem, he⟩)
  · exact fun a ha => h.known a (hin a (List.mem_cons_of_mem _ ha))

section Steps

variable {root : Bytes} {generation : UInt32} {blockSize : Nat} {alloc : Allocator}
  {read : NodeReader}
  {new : Extent} {old : List Nat} (h1024 : 1024 ≤ blockSize) (h64k : blockSize ≤ 65536)
  (hfresh : Allocator.Fresh alloc old) (hnew : new.Valid)

include h1024 h64k hfresh hnew

variable (generation read) in
theorem rewritten_leaf {t : LevelTree Extent 0} (own extra : List Nat) (parts : List (List Extent))
    (hown : own.length ≤ 1) (hcount : parts.length ≤ 2)
      (hlen : (own ++ extra).length = parts.length)
    (hblocks : ∀ b ∈ own, b < 2 ^ 48) (hold : ∀ b ∈ own, b ∈ old) (hdrawn : Drawn alloc extra)
    (horder : InOrder t.entries) (hmeets : ∀ e ∈ t.entries, e.meets new = false)
    (hparts : parts.flatten = insertIntoLeafSorted t.entries new)
    (hfill : ∀ l ∈ parts, 1 ≤ l.length ∧ l.length ≤ nodeMaxEntries blockSize) :
    Rewritten read (nodeMaxEntries blockSize) alloc new own t
      ((own ++ extra).zip (parts.map LevelTree.leaf))
      (((own ++ extra).zip (parts.map LevelTree.leaf)).map
        (fun c => (c.1, buildFullLeafBlock generation c.2.entries blockSize))) extra := by
  obtain ⟨-, hmax, -⟩ := nodeMaxEntries_bounds h1024 h64k
  have hinserted := inserted_leaf hmeets
  have hafter := hinserted.ascending horder hnew
  have hentries : (parts.map LevelTree.leaf).flatMap LevelTree.entries =
      insertIntoLeafSorted t.entries new := by
    rw [List.flatMap_map]
    exact List.flatMap_id'.trans hparts
  have haddr : (parts.map LevelTree.leaf).flatMap LevelTree.addresses = [] := by
    rw [List.flatMap_map]
    exact List.flatMap_eq_nil_iff.mpr fun _ _ => rfl
  refine rewritten_pieces (parts.map LevelTree.leaf)
    (fun c => buildFullLeafBlock generation c.entries blockSize) [] [] hfresh hown
      (by rwa [List.length_map]) (by rwa [List.length_map])
    hblocks ?_ (fun _ _ => nofun) hdrawn (by rwa [hentries]) (by rw [haddr]; exact .nil)
      List.nodup_nil
    nofun nofun ?_ ?_
  · intro b hb
    obtain hb | hb := List.mem_append.mp hb
    · exact hold b hb
    · cases hb
  · intro x hx
    obtain ⟨l, hl, rfl⟩ := List.mem_map.mp hx
    exact ⟨hfill l hl, trivial⟩
  · intro x hx
    obtain ⟨l, hl, rfl⟩ := List.mem_map.mp hx
    refine represents_leaf (fun e he => hafter.valid e ?_) (hfill l hl).2 hmax
    rw [← hparts]
    exact List.mem_flatten.mpr ⟨l, hl, he⟩

theorem leafLevel_below {p : Nat} {t : LevelTree Extent 0} {node : Bytes}
    (ht : Subtree (nodeMaxEntries blockSize) read old t node)
    (hfill : 1 ≤ t.fill ∧ t.fill ≤ nodeMaxEntries blockSize) (hp : p < 2 ^ 48) (hpold : p ∈ old)
    {progress : Progress}
    (h : leafLevel root generation blockSize alloc new false ⟨p, node⟩ = .ok progress) :
    LeftAt root read (nodeMaxEntries blockSize) alloc new p t progress := by
  obtain ⟨hcap, hmax, hfit⟩ := nodeMaxEntries_bounds h1024 h64k
  obtain ⟨header, hparse, -, hentries⟩ := ht.tree
  have hmeets := leafLevel_ok hparse hentries h
  have hne : t.entries ≠ [] := List.length_pos_iff.mp hfill.1
  obtain ⟨hpos, hlen⟩ := length_insertIntoLeafSorted t.entries new
  have hlen' : t.entries.length ≤ nodeMaxEntries blockSize := hfill.2
  have hmod : (insertIntoLeafSorted t.entries new).length % 2 ^ 16 =
      (insertIntoLeafSorted t.entries new).length := by
    apply Nat.mod_eq_of_lt
    simp only [nodeSize] at hfit
    omega
  unfold leafLevel at h
  simp only [hparse, hentries, checkNoOverlap_eq_ok_iff.mpr hmeets, bind, Except.bind, pure,
    Except.pure, Bool.false_eq_true, if_false, hmod] at h
  have hpart : ∀ (extra : List Nat) (parts : List (List Extent)), parts.length ≤ 2 →
      1 + extra.length = parts.length → Drawn alloc extra →
      parts.flatten = insertIntoLeafSorted t.entries new →
      (∀ l ∈ parts, 1 ≤ l.length ∧ l.length ≤ nodeMaxEntries blockSize) →
      Rewritten read (nodeMaxEntries blockSize) alloc new [p] t
        (([p] ++ extra).zip (parts.map LevelTree.leaf))
        ((([p] ++ extra).zip (parts.map LevelTree.leaf)).map
          (fun c => (c.1, buildFullLeafBlock generation c.2.entries blockSize))) extra := by
    intro extra parts hcount hlen hdrawn hparts hfill
    exact rewritten_leaf generation read h1024 h64k hfresh hnew [p] extra parts (by simp) hcount
      (by rw [List.length_append]; exact hlen) (by simpa using hp) (by simpa using hpold) hdrawn
      ht.order hmeets hparts hfill
  split at h
  · rename_i hfits
    have hone := hpart [] [insertIntoLeafSorted t.entries new] (by simp) (by simp)
      .nil (by simp) (by simpa using ⟨hpos, hfits⟩)
    split at h
    · rename_i hkey
      cases h
      exact ⟨rfl, _, hone, (key_eq_iff hne).mp hkey⟩
    · rename_i hkey
      cases h
      refine ⟨_, hone, (passedUp_one t _ p).trans (Prod.ext rfl (if_neg ?_))⟩
      exact fun heq => hkey ((key_eq_iff hne).mpr heq)
  · rename_i hfull
    obtain ⟨hleft, hright⟩ := halves_bounds (nodeMaxEntries blockSize)
      (l := insertIntoLeafSorted t.entries new) (by omega) (by omega)
    split at h
    · cases h
    · rename_i newRight halloc
      cases h
      have htwo := hpart [newRight]
        [(insertIntoLeafSorted t.entries new).take
          ((insertIntoLeafSorted t.entries new).length / 2),
          (insertIntoLeafSorted t.entries new).drop
            ((insertIntoLeafSorted t.entries new).length / 2)]
        (by simp) (by simp) (Drawn.nil.append halloc) (by simp)
        (by rw [List.forall_mem_cons, List.forall_mem_singleton]; exact ⟨hleft, hright⟩)
      refine ⟨_, htwo, (passedUp_two t _ p newRight (List.length_pos_iff.mp hleft.1)).trans ?_⟩
      refine Prod.ext rfl (ite_congr (propext ?_) (fun _ => rfl) (fun _ => rfl))
      exact (key_eq_iff hne).symm

section Index

variable {n b : Nat} {T : LevelTree Extent (n + 1)} {t : LevelTree Extent n}
  {A B nodes : List (Nat × LevelTree Extent n)} {writes : List (Nat × Bytes)} {allocated : List Nat}
  {node : Bytes} (hT : Subtree (nodeMaxEntries blockSize) read old T node)
  (hsplit : T.children = A ++ (b, t) :: B)
  (hfront : ∀ a ∈ A.flatMap (fun c => c.2.entries), a.logicalBlock + a.length ≤ new.logicalBlock)
  (hbehind : ∀ a ∈ B.flatMap (fun c => c.2.entries), new.logicalBlock < a.logicalBlock)
  (h : Rewritten read (nodeMaxEntries blockSize) alloc new [b] t nodes writes allocated)

include hT hsplit hfront hbehind h

omit h1024 h64k hfresh in
theorem inserted_graft : Inserted new T.entries (grafted A nodes B).entries ∧
    Ascending (grafted A nodes B).entries := by
  have hinserted : Inserted new T.entries (grafted A nodes B).entries := by
    rw [LevelTree.entries_split hsplit, entries_grafted]
    exact h.entries.append hfront hbehind
  exact ⟨hinserted, hinserted.ascending hT.order hnew⟩

variable (generation) in
theorem rewritten_index (own extra : List Nat) (parts : List (List (Nat × LevelTree Extent n)))
    (hown : own.length ≤ 1) (hcount : parts.length ≤ 2)
      (hlen : (own ++ extra).length = parts.length)
    (hblocks : ∀ b ∈ own, b < 2 ^ 48) (hold : ∀ b ∈ own, b ∈ old)
    (hdisjoint : ∀ b ∈ own, b ∉ T.addresses) (hdrawn : Drawn alloc (allocated ++ extra))
    (hparts : parts.flatten = (grafted A nodes B).children)
    (hfill : ∀ l ∈ parts, 1 ≤ l.length ∧ l.length ≤ nodeMaxEntries blockSize) :
    Rewritten read (nodeMaxEntries blockSize) alloc new own T
      ((own ++ extra).zip (parts.map LevelTree.node))
      (writes ++ ((own ++ extra).zip (parts.map LevelTree.node)).map
        (fun c => (c.1, buildFullIndexBlock generation (n + 1) (c.2.children.map indexOf)
          blockSize)))
      (allocated ++ extra) := by
  obtain ⟨-, hmax, -⟩ := nodeMaxEntries_bounds h1024 h64k
  obtain ⟨hinserted, hafter⟩ := inserted_graft hnew hT hsplit hfront hbehind h
  obtain ⟨-, -, -, -, hbelow⟩ := hT.tree
  have hstored := h.stored_graft hfresh hsplit hT.distinct hT.known hbelow
  have hfilled := h.filled_graft hsplit hT.filled
  have hdepth : n + 1 < 2 ^ 16 := Nat.lt_of_le_of_lt hT.depth (by decide)
  have hmem : ∀ l ∈ parts, ∀ c ∈ l, c ∈ A ++ nodes ++ B := by
    intro l hl c hc
    have hc' : c ∈ (grafted A nodes B).children := by
      rw [← hparts]
      exact List.mem_flatten.mpr ⟨l, hl, hc⟩
    exact hc'
  refine rewritten_pieces (parts.map LevelTree.node)
    (fun c => buildFullIndexBlock generation (n + 1) (c.children.map indexOf) blockSize) writes
    allocated hfresh hown (by rwa [List.length_map]) (by rwa [List.length_map]) hblocks ?_ hdisjoint
    hdrawn (by rwa [LevelTree.entries_pieces hparts]) ?_ h.once (h.within_graft hsplit)
      h.fresh ?_ ?_
  · intro a ha
    obtain ha | ha := List.mem_append.mp ha
    · exact hold a ha
    · exact hT.known a ha
  · rw [LevelTree.addresses_pieces hparts]
    exact h.addresses_graft hsplit
  · intro x hx
    obtain ⟨l, hl, rfl⟩ := List.mem_map.mp hx
    exact ⟨hfill l hl, fun c hc => hfilled c (hmem l hl c hc)⟩
  · intro x hx
    obtain ⟨l, hl, rfl⟩ := List.mem_map.mp hx
    refine represents_index hdepth ?_ ?_ (hfill l hl).2 hmax
      (fun c hc => hstored c (hmem l hl c hc))
    · intro e he
      obtain ⟨c, hc, he⟩ := List.mem_flatMap.mp he
      exact (hafter.valid e (List.mem_flatMap.mpr ⟨c, hmem l hl c hc, he⟩)).logical
    · exact fun c hc => h.blocks_graft hsplit hT.tree.child_lt c (hmem l hl c hc)

theorem indexLevel_below {q : Nat} (hfill : T.fill ≤ nodeMaxEntries blockSize) (hq : q < 2 ^ 48)
    (hqold : q ∈ old) (hqzero : q ≠ 0) (hqnew : q ∉ T.addresses) {propagated : Option ExtentIdx}
    {correction : Option (Nat × Nat)} (hup : passedUp t b nodes = (propagated, correction))
    {progress : Progress}
    (hstep : indexLevel root generation blockSize alloc false ⟨q, node⟩ propagated correction writes
      allocated = .ok progress) :
    LeftAt root read (nodeMaxEntries blockSize) alloc new q T progress := by
  obtain ⟨hcap, hmax, hfit⟩ := nodeMaxEntries_bounds h1024 h64k
  obtain ⟨hinserted, hafter⟩ := inserted_graft hnew hT hsplit hfront hbehind h
  obtain ⟨header, hparse, hdepth, hentries, -⟩ := hT.tree
  obtain ⟨corrected, correction', hcorrect, hindices, hcorrection⟩ :=
    h.indices_graft hsplit hT.filled hT.distinct hafter ⟨q, node⟩
  rw [hup] at hcorrect hindices
  have hpassed := hcorrection hqzero
  rw [passedUp_one] at hpassed
  dsimp only at hcorrect hindices hpassed
  have hcount : 1 ≤ (grafted A nodes B).children.length ∧
      (grafted A nodes B).children.length ≤ nodeMaxEntries blockSize + 1 := by
    have hfirst : nodes ≠ [] := by
      rintro rfl
      exact absurd (h.first b (by simp)) (by simp)
    have hpos := List.length_pos_iff.mpr hfirst
    have hTlen : T.children.length ≤ nodeMaxEntries blockSize := hfill
    have hnodes := h.count
    rw [hsplit, List.length_append, List.length_cons] at hTlen
    change 1 ≤ (A ++ nodes ++ B).length ∧ (A ++ nodes ++ B).length ≤ _
    rw [List.length_append, List.length_append]
    omega
  have hpart := fun (extra : List Nat) (parts : List (List (Nat × LevelTree Extent n))) hcount
      (hlen : 1 + extra.length = parts.length) =>
    rewritten_index generation h1024 h64k hfresh hnew hT hsplit hfront hbehind h [q] extra parts
      (by simp) hcount (by rw [List.length_append]; exact hlen) (by simpa using hq)
      (by simpa using hqold) (by simpa using hqnew)
  have hmod : (grafted A nodes B).children.length % 2 ^ 16 =
      (grafted A nodes B).children.length := by
    apply Nat.mod_eq_of_lt
    simp only [nodeSize] at hfit
    omega
  unfold indexLevel at hstep
  simp only [hparse, hentries, hcorrect, hindices, bind, Except.bind, pure, Except.pure,
    Bool.false_eq_true, if_false, List.length_map, hmod, hdepth, ← List.map_take,
    ← List.map_drop] at hstep
  split at hstep
  · rename_i hfits
    have hone := hpart [] [(grafted A nodes B).children] (by simp) (by simp)
      (by rw [List.append_nil]; exact h.drawn) (by simp) (by
        rw [List.forall_mem_singleton]
        exact ⟨hcount.1, hfits⟩)
    rw [List.append_nil allocated] at hone
    split at hstep
    · rename_i hmoved
      cases hstep
      refine ⟨_, hone, (passedUp_one T _ q).trans (Prod.ext rfl hpassed.symm)⟩
    · rename_i hkept
      cases hstep
      refine ⟨rfl, _, hone, ?_⟩
      by_contra hne
      have hmoved : ¬ (grafted A nodes B).key Extent.logicalBlock = T.key Extent.logicalBlock := hne
      rw [if_neg hmoved] at hpassed
      exact hkept (by rw [hpassed]; rfl)
  · rename_i hfull
    obtain ⟨hleft, hright⟩ := halves_bounds (nodeMaxEntries blockSize)
      (l := (grafted A nodes B).children) (by omega) hcount.2
    split at hstep
    · cases hstep
    · rename_i newRight halloc
      cases hstep
      have htwo := hpart [newRight]
        [(grafted A nodes B).children.take ((grafted A nodes B).children.length / 2),
          (grafted A nodes B).children.drop ((grafted A nodes B).children.length / 2)]
        (by simp) (by simp) (h.drawn.append halloc) (by simp)
        (by rw [List.forall_mem_cons, List.forall_mem_singleton]; exact ⟨hleft, hright⟩)
      obtain ⟨-, hLfilled⟩ := htwo.filled _ List.mem_cons_self
      obtain ⟨-, hRfilled⟩ := htwo.filled (newRight, _) (List.mem_cons_of_mem _ List.mem_cons_self)
      have hkey : (LevelTree.node ((grafted A nodes B).children.take
          ((grafted A nodes B).children.length / 2))).key Extent.logicalBlock =
          (grafted A nodes B).key Extent.logicalBlock := by
        rw [← key_node_append (List.length_pos_iff.mp hleft.1) hLfilled, List.take_append_drop]
        rfl
      refine ⟨_, htwo, (passedUp_two T _ q newRight ?_).trans (Prod.ext ?_ ?_)⟩
      · exact LevelTree.entries_ne_nil _ hLfilled hleft.1
      · exact congrArg (fun k => some (ExtentIdx.mk k newRight))
          (firstStart_map_indexOf hRfilled).symm
      · rw [hpassed]
        dsimp only
        rw [hkey]

omit h1024 h64k hnew hfront hbehind in
theorem represents_kept {left : LevelTree Extent n} (hnodes : nodes = [(b, left)])
    (hkey : left.key Extent.logicalBlock = t.key Extent.logicalBlock) :
    Represents (overlay writes read) (grafted A nodes B) node := by
  obtain ⟨header, hparse, hdepth, hentries, hbelow⟩ := hT.tree
  refine ⟨header, hparse, hdepth, ?_, h.stored_graft hfresh hsplit hT.distinct hT.known hbelow⟩
  rw [hnodes, indices_kept hsplit hkey, hentries]

omit h1024 h64k in
theorem leftAt_kept {q : Nat} {left : LevelTree Extent n} (hread : read q = .ok node)
    (hfill : T.fill ≤ nodeMaxEntries blockSize) (hq : q < 2 ^ 48) (hqold : q ∈ old)
    (hqnew : q ∉ T.addresses) (hnodes : nodes = [(b, left)])
    (hkey : left.key Extent.logicalBlock = t.key Extent.logicalBlock) :
    LeftAt root read (nodeMaxEntries blockSize) alloc new q T
      (.done ⟨root, writes, allocated⟩) := by
  obtain ⟨hinserted, -⟩ := inserted_graft hnew hT hsplit hfront hbehind h
  have hrep := represents_kept hfresh hT hsplit h hnodes hkey
  have hwithin := h.within_graft hsplit
  have hunwritten : q ∉ writes.map Prod.fst := by
    intro hw
    obtain hq | hq := List.mem_append.mp (hwithin q hw)
    · exact hqnew hq
    · exact h.drawn.not_mem_old hfresh hq hqold
  have hcount : 1 ≤ (grafted A nodes B).fill ∧ (grafted A nodes B).fill ≤
      nodeMaxEntries blockSize := by
    have hTlen : T.children.length ≤ nodeMaxEntries blockSize := hfill
    rw [hsplit] at hTlen
    change 1 ≤ (A ++ nodes ++ B).length ∧ (A ++ nodes ++ B).length ≤ _
    simp only [hnodes, List.length_append, List.length_cons, List.length_nil] at hTlen ⊢
    omega
  have hself : (LevelTree.node [(q, grafted A nodes B)]).entries = (grafted A nodes B).entries :=
    List.append_nil _
  have hblocks : (LevelTree.node [(q, grafted A nodes B)]).addresses = q ::
      (grafted A nodes B).addresses :=
    List.append_nil _
  refine ⟨rfl, grafted A nodes B, ?_, ?_⟩
  · constructor
    case first => simp
    case count => simp
    case stored =>
      rw [List.forall_mem_singleton]
      exact ⟨node, (overlay_of_not_mem hunwritten).trans hread, hrep⟩
    case filled =>
      intro c hc
      obtain rfl : c = (q, grafted A nodes B) := List.mem_singleton.mp hc
      exact ⟨hcount, h.filled_graft hsplit hT.filled⟩
    case blocks =>
      rw [List.forall_mem_singleton]
      exact hq
    case entries => rwa [hself]
    case addresses =>
      rw [hblocks]
      exact (h.addresses_graft hsplit).cons q
    case once => exact h.once
    case within => exact fun a ha => List.mem_cons_of_mem _ (hwithin a ha)
    case fresh => exact h.fresh
    case drawn => exact h.drawn
  · rw [← firstStart_map_indexOf (h.filled_graft hsplit hT.filled), hnodes,
      indices_kept hsplit hkey, firstStart_map_indexOf hT.filled]

end Index

omit h1024 h64k hfresh hnew in
theorem descendStep_leaf {target p : Nat} {t : LevelTree Extent 0} {node : Bytes}
    (h : Represents read t node) : descendStep read target ⟨p, node⟩ = .ok none := by
  obtain ⟨header, hparse, hdepth, -⟩ := h
  have hleaf : header.isLeaf = true := by simp [ExtentHeader.isLeaf, hdepth]
  simp [descendStep, hparse, hleaf, bind, Except.bind, pure, Except.pure]

omit h1024 h64k hfresh hnew in
theorem descendStep_index {target p n b : Nat} {T : LevelTree Extent (n + 1)}
    {t : LevelTree Extent n}
    {A B : List (Nat × LevelTree Extent n)} {node child : Bytes} (h : Represents read T node)
    (haround : around (fun c => c.2.key Extent.logicalBlock) target T.children =
      some (A, (b, t), B))
    (hread : read b = .ok child) : descendStep read target ⟨p, node⟩ = .ok (some ⟨b, child⟩) := by
  obtain ⟨header, hparse, hdepth, hentries, -⟩ := h
  have hleaf : header.isLeaf = false := by simp [ExtentHeader.isLeaf, hdepth]
  have hcount : header.entries ≠ 0 := by
    have hlen := length_of_parseEntries hentries
    rw [List.length_map, around_append haround, List.length_append, List.length_cons] at hlen
    omega
  simp [descendStep, hparse, hleaf, hcount, hentries, chosen_map_indexOf haround, indexOf,
    hread, bind, Except.bind, pure, Except.pure]

variable (root generation) in
/-- Below the root: the descent ends at a leaf, and whatever plan comes of the walk back up has
passed through this node. -/
theorem insert_below {n p fuel : Nat} {t : LevelTree Extent n} {node : Bytes}
    (ht : Subtree (nodeMaxEntries blockSize) read old t node) (hread : read p = .ok node)
    (hfill : 1 ≤ t.fill ∧ t.fill ≤ nodeMaxEntries blockSize) (hp : p < 2 ^ 48) (hpold : p ∈ old)
    (hpzero : p ≠ 0) (hpnew : p ∉ t.addresses) (hzero : 0 ∉ t.addresses)
    (hfuel : n < fuel) {above : List PathFrame}
    (habove : above ≠ []) :
    ∃ leaf path, descendFrom read new.logicalBlock fuel ⟨p, node⟩ above = some (.ok (leaf, path)) ∧
      path ≠ [] ∧ ∀ progress plan,
        leafLevel root generation blockSize alloc new false leaf = .ok progress →
        ascend root generation blockSize alloc path progress = .ok plan →
        ∃ here, LeftAt root read (nodeMaxEntries blockSize) alloc new p t here ∧
          ascend root generation blockSize alloc above here = .ok plan := by
  induction n generalizing p fuel node above with
  | zero =>
    obtain ⟨fuel, rfl⟩ := Nat.exists_eq_add_of_lt hfuel
    refine ⟨⟨p, node⟩, above, ?_, habove, ?_⟩
    · rw [Nat.zero_add, descendFrom, descendStep_leaf ht.tree]
    · intro progress plan hleaf hplan
      exact ⟨progress, leafLevel_below h1024 h64k hfresh hnew ht hfill hp hpold hleaf, hplan⟩
  | succ n ih =>
    obtain ⟨fuel, rfl⟩ : ∃ f, fuel = f + 1 := ⟨fuel - 1, by omega⟩
    obtain ⟨A, ⟨b, c⟩, B, haround⟩ : ∃ A c B,
        around (fun c => c.2.key Extent.logicalBlock) new.logicalBlock t.children =
          some (A, c, B) :=
      around_isSome (List.length_pos_iff.mp hfill.1)
    have hsplit := around_append haround
    obtain ⟨hfront, hbehind⟩ := LevelTree.around_entries ht.order.apart
      (fun c hc => c.2.entries_ne_nil (ht.filled c hc).2 (ht.filled c hc).1.1) haround
    obtain ⟨child, hchild, hc, hcfill, hb, hbold, hbnew⟩ := ht.child hsplit
    have hmem : (b, c) ∈ t.children := by rw [hsplit]; simp
    have hin : ∀ a ∈ b :: c.addresses, a ∈ t.addresses := fun a ha =>
      List.mem_flatMap.mpr ⟨(b, c), hmem, ha⟩
    have hbzero : b ≠ 0 := by
      rintro rfl
      exact hzero (hin 0 List.mem_cons_self)
    obtain ⟨leaf, path, hdown, hpath, hrest⟩ := ih hc hchild hcfill hb hbold hbzero hbnew
      (fun h0 => hzero (hin 0 (List.mem_cons_of_mem _ h0)))
      (by omega : n < fuel)
      (List.cons_ne_nil ⟨p, node⟩ above)
    refine ⟨leaf, path, ?_, hpath, ?_⟩
    · rw [descendFrom, descendStep_index ht.tree haround hchild]
      exact hdown
    · intro progress plan hleaf hplan
      obtain ⟨here, hhere, hup⟩ := hrest progress plan hleaf hplan
      cases here with
      | done plan' =>
        obtain ⟨hroot, left, hleft, hkey⟩ := hhere
        obtain rfl : plan' = plan := Except.ok.inj hup
        refine ⟨.done plan', ?_, by rw [ascend]⟩
        obtain ⟨newRoot, writes, allocated⟩ := plan'
        obtain rfl : newRoot = root := hroot
        exact leftAt_kept hfresh hnew ht hsplit hfront hbehind hleft hread hfill.2 hp hpold hpnew
          rfl hkey
      | up propagated correction writes allocated =>
        obtain ⟨nodes, hnodes, hpassed⟩ := hhere
        rw [ascend] at hup
        obtain ⟨next, hnext, hrest⟩ := Result.bind_eq_ok hup
        have hempty : above.isEmpty = false := by simpa using habove
        rw [hempty] at hnext
        exact ⟨next, indexLevel_below h1024 h64k hfresh hnew ht hsplit hfront hbehind hnodes
          hfill.2 hp hpold hpzero hpnew hpassed hnext, hrest⟩

end Steps

/-- The tree a plan leaves once its writes are applied: filled within capacity at no more than the
greatest depth, with the new extent put in, its nodes the old ones and those allocated; the plan
writes each new node, none twice and nothing else outside the old ones. -/
structure InsertedTree (blockSize : Nat) (read : NodeReader) (new : Extent) {n n' : Nat}
    (t : LevelTree Extent n) (plan : DeepInsertPlan) (t' : LevelTree Extent n') : Prop where
  depth : n' ≤ extMaxDepth
  length : plan.newRoot.length = 60
  tree : Represents (overlay plan.blockWrites read) t' plan.newRoot
  rootFill : t'.fill ≤ 4
  rootIndex : 0 < n' → 1 ≤ t'.fill
  filled : t'.Filled (nodeMaxEntries blockSize)
  entries : Inserted new t.entries t'.entries
  addresses : t'.addresses.Perm (t.addresses ++ plan.allocatedBlocks)
  distinct : t'.addresses.Nodup
  nonzero : 0 ∉ t'.addresses
  once : (plan.blockWrites.map Prod.fst).Nodup
  within : ∀ b ∈ plan.blockWrites.map Prod.fst, b ∈ t.addresses ++ plan.allocatedBlocks
  fresh : ∀ b ∈ plan.allocatedBlocks, b ∈ plan.blockWrites.map Prod.fst

theorem InsertedTree.wellFormed {blockSize n n' : Nat} {read : NodeReader} {root : Bytes}
    {new : Extent} {t : LevelTree Extent n} {plan : DeepInsertPlan} {t' : LevelTree Extent n'}
    (h : InsertedTree blockSize read new t plan t') (ht : WellFormed blockSize read root t)
    (hnew : new.Valid) (hmeets : ∀ e ∈ t.entries, e.meets new = false) :
    WellFormed blockSize (overlay plan.blockWrites read) plan.newRoot t' :=
  have hafter := h.entries.inOrder ⟨ht.apart, ht.valid⟩ hnew hmeets
  { depth := h.depth, length := h.length, tree := h.tree, rootFill := h.rootFill
    rootIndex := h.rootIndex, filled := h.filled, valid := hafter.valid, apart := hafter.apart
    distinct := h.distinct, nonzero := h.nonzero }

section Root

variable {blockSize n : Nat} {read : NodeReader} {root : Bytes} {generation : UInt32}
  {alloc : Allocator} {new : Extent} {t : LevelTree Extent n} {plan : DeepInsertPlan}
  (h1024 : 1024 ≤ blockSize) (h64k : blockSize ≤ 65536)
  (ht : WellFormed blockSize read root t) (hfresh : Allocator.Fresh alloc (0 :: t.addresses))
  (hnew : new.Valid)

theorem WellFormed.subtree (ht : WellFormed blockSize read root t) :
    Subtree (nodeMaxEntries blockSize) read (0 :: t.addresses) t root :=
  ⟨ht.depth, ht.tree, ht.filled, ⟨ht.apart, ht.valid⟩, ht.distinct,
    fun _ ha => List.mem_cons_of_mem _ ha⟩

include ht hfresh

theorem insertedTree_of {n' : Nat} {t' : LevelTree Extent n'} (hdepth : n' ≤ extMaxDepth)
    (hlen : plan.newRoot.length = 60)
    (htree : Represents (overlay plan.blockWrites read) t' plan.newRoot) (hroot : t'.fill ≤ 4)
    (hindex : 0 < n' → 1 ≤ t'.fill) (hfilled : t'.Filled (nodeMaxEntries blockSize))
    (hentries : Inserted new t.entries t'.entries)
    (haddr : t'.addresses.Perm (t.addresses ++ plan.allocatedBlocks))
    (honce : (plan.blockWrites.map Prod.fst).Nodup)
    (hwithin : ∀ b ∈ plan.blockWrites.map Prod.fst, b ∈ t.addresses ++ plan.allocatedBlocks)
    (hwritten : ∀ b ∈ plan.allocatedBlocks, b ∈ plan.blockWrites.map Prod.fst)
    (hdrawn : Drawn alloc plan.allocatedBlocks) : InsertedTree blockSize read new t plan t' := by
  refine ⟨hdepth, hlen, htree, hroot, hindex, hfilled, hentries, haddr, ?_, ?_, honce, hwithin,
    hwritten⟩
  · rw [haddr.nodup_iff, List.nodup_append]
    refine ⟨ht.distinct, hdrawn.nodup hfresh, ?_⟩
    rintro a ha a' ha' rfl
    exact hdrawn.not_mem_old hfresh ha' (List.mem_cons_of_mem _ ha)
  · intro h0
    obtain h0 | h0 := List.mem_append.mp (haddr.mem_iff.mp h0)
    · exact ht.nonzero h0
    · exact hdrawn.not_mem_old hfresh h0 List.mem_cons_self

include hnew

variable (generation) in
theorem insertedTree_promoted {nodes : List (Nat × LevelTree Extent n)}
    {writes : List (Nat × Bytes)} {allocated : List Nat} (hdepth : n + 1 ≤ extMaxDepth)
    (hpos : nodes ≠ [])
    (h : Rewritten read (nodeMaxEntries blockSize) alloc new [] t nodes writes allocated) :
    InsertedTree blockSize read new t
      ⟨buildInlineIndexRoot generation (n + 1) (nodes.map indexOf), writes, allocated⟩
      (LevelTree.node nodes) := by
  have hcount : nodes.length ≤ 4 := Nat.le_trans h.count (by decide)
  refine insertedTree_of ht hfresh hdepth (length_buildInlineIndexRoot (by simpa using hcount))
    ?_ hcount (fun _ => List.length_pos_iff.mpr hpos) h.filled h.entries h.addresses h.once h.within
    h.fresh h.drawn
  exact represents_index (Nat.lt_of_le_of_lt hdepth (by decide))
    (fun e he => ((h.entries.ascending ⟨ht.apart, ht.valid⟩ hnew).valid e he).logical) h.blocks
      hcount (by decide) h.stored

end Root

section Root

variable {blockSize n : Nat} {read : NodeReader} {root : Bytes} {generation : UInt32}
  {alloc : Allocator} {new : Extent} (h1024 : 1024 ≤ blockSize) (h64k : blockSize ≤ 65536)
  (hnew : new.Valid)

include h1024 h64k hnew

theorem leafLevel_root {t : LevelTree Extent 0} {progress : Progress}
    (ht : WellFormed blockSize read root t) (hfresh : Allocator.Fresh alloc (0 :: t.addresses))
    (h : leafLevel root generation blockSize alloc new true ⟨0, root⟩ = .ok progress) :
    ∃ plan, progress = .done plan ∧ ∃ (n' : Nat) (t' : LevelTree Extent n'),
      InsertedTree blockSize read new t plan t' := by
  obtain ⟨hcap, -, -⟩ := nodeMaxEntries_bounds h1024 h64k
  obtain ⟨header, hparse, -, hentries⟩ := ht.tree
  have hmeets := leafLevel_ok hparse hentries h
  have hinserted := inserted_leaf hmeets
  have hafter := hinserted.ascending ⟨ht.apart, ht.valid⟩ hnew
  obtain ⟨hpos, hlen⟩ := length_insertIntoLeafSorted t.entries new
  have hfill : t.entries.length ≤ 4 := ht.rootFill
  have hmod : (insertIntoLeafSorted t.entries new).length % 2 ^ 16 =
      (insertIntoLeafSorted t.entries new).length := Nat.mod_eq_of_lt (by omega)
  unfold leafLevel at h
  simp only [hparse, hentries, checkNoOverlap_eq_ok_iff.mpr hmeets, bind, Except.bind, pure,
    Except.pure, if_true, hmod] at h
  split at h
  · rename_i hfits
    cases h
    refine ⟨_, rfl, 0, LevelTree.leaf (insertIntoLeafSorted t.entries new), ?_⟩
    refine insertedTree_of ht hfresh (by decide) (length_buildInlineLeafRoot hfits) ?_ hfits
      (fun h => absurd h (by decide)) trivial hinserted .nil .nil nofun nofun .nil
    exact represents_leaf hafter.valid hfits (show 4 < 2 ^ 16 by decide)
  · split at h
    · cases h
    · rename_i newLeaf halloc
      cases h
      have hone := rewritten_leaf generation read h1024 h64k hfresh hnew [] [newLeaf]
        [insertIntoLeafSorted t.entries new] (by simp) (by simp) (by simp) nofun nofun
        (Drawn.nil.append halloc) ⟨ht.apart, ht.valid⟩ hmeets (by simp) (by
          rw [List.forall_mem_singleton]
          omega)
      have hplan := insertedTree_promoted generation ht hfresh hnew (by decide) (by simp) hone
      exact ⟨_, rfl, 1, _, hplan⟩

section Index

variable {b : Nat} {T : LevelTree Extent (n + 1)} {t : LevelTree Extent n}
  {A B nodes : List (Nat × LevelTree Extent n)} {writes : List (Nat × Bytes)} {allocated : List Nat}
  (hT : WellFormed blockSize read root T) (hfresh : Allocator.Fresh alloc (0 :: T.addresses))
  (hsplit : T.children = A ++ (b, t) :: B)
  (hfront : ∀ a ∈ A.flatMap (fun c => c.2.entries), a.logicalBlock + a.length ≤ new.logicalBlock)
  (hbehind : ∀ a ∈ B.flatMap (fun c => c.2.entries), new.logicalBlock < a.logicalBlock)
  (h : Rewritten read (nodeMaxEntries blockSize) alloc new [b] t nodes writes allocated)

include hT hfresh hsplit hfront hbehind h

omit h1024 h64k in
theorem insertedTree_grafted {newRoot : Bytes} (hlen : newRoot.length = 60)
    (hfour : (grafted A nodes B).fill ≤ 4)
    (htree : Represents (overlay writes read) (grafted A nodes B) newRoot) :
    InsertedTree blockSize read new T ⟨newRoot, writes, allocated⟩ (grafted A nodes B) := by
  obtain ⟨hinserted, -⟩ := inserted_graft hnew hT.subtree hsplit hfront hbehind h
  refine insertedTree_of hT hfresh hT.depth hlen htree hfour (fun _ => ?_)
    (h.filled_graft hsplit hT.filled) hinserted (h.addresses_graft hsplit) h.once
    (h.within_graft hsplit) h.fresh h.drawn
  have hfirst : nodes ≠ [] := by
    rintro rfl
    exact absurd (h.first b (by simp)) (by simp)
  change 0 < (A ++ nodes ++ B).length
  exact List.length_pos_iff.mpr (by simp [hfirst])

theorem indexLevel_root {propagated : Option ExtentIdx} {correction : Option (Nat × Nat)}
    (hup : passedUp t b nodes = (propagated, correction)) {progress : Progress}
    (hstep : indexLevel root generation blockSize alloc true ⟨0, root⟩ propagated correction writes
      allocated = .ok progress) :
    ∃ plan, progress = .done plan ∧ ∃ (n' : Nat) (t' : LevelTree Extent n'),
      InsertedTree blockSize read new T plan t' := by
  obtain ⟨hcap, -, -⟩ := nodeMaxEntries_bounds h1024 h64k
  obtain ⟨-, hafter⟩ := inserted_graft hnew hT.subtree hsplit hfront hbehind h
  obtain ⟨header, hparse, hdepth, hentries, hbelow⟩ := hT.tree
  obtain ⟨corrected, correction', hcorrect, hindices, -⟩ :=
    h.indices_graft hsplit hT.filled hT.distinct hafter ⟨0, root⟩
  rw [hup] at hcorrect hindices
  dsimp only at hcorrect hindices
  have hcount : (grafted A nodes B).children.length ≤ 5 := by
    have hTlen : T.children.length ≤ 4 := hT.rootFill
    have hnodes := h.count
    rw [hsplit, List.length_append, List.length_cons] at hTlen
    change (A ++ nodes ++ B).length ≤ _
    rw [List.length_append, List.length_append]
    omega
  have hmod : (grafted A nodes B).children.length % 2 ^ 16 = (grafted A nodes B).children.length :=
    Nat.mod_eq_of_lt (by omega)
  unfold indexLevel at hstep
  simp only [hparse, hentries, hcorrect, hindices, bind, Except.bind, pure, Except.pure,
    if_true, List.length_map, hmod, hdepth, ← List.map_take, ← List.map_drop] at hstep
  split at hstep
  · rename_i hfits
    cases hstep
    refine ⟨_, rfl, n + 1, grafted A nodes B, insertedTree_grafted hnew hT hfresh hsplit
      hfront hbehind h (length_buildInlineIndexRoot (by rwa [List.length_map])) hfits ?_⟩
    exact represents_index (Nat.lt_of_le_of_lt hT.depth (by decide))
      (fun e he => (hafter.valid e he).logical)
      (h.blocks_graft hsplit hT.tree.child_lt) hfits (by decide)
      (h.stored_graft hfresh hsplit hT.distinct (fun a ha => List.mem_cons_of_mem _ ha) hbelow)
  · rename_i hfull
    obtain ⟨hleft, hright⟩ := halves_bounds (nodeMaxEntries blockSize)
      (l := (grafted A nodes B).children) (by omega) (by omega)
    split at hstep
    · cases hstep
    · rename_i hshallow
      split at hstep
      · cases hstep
      · rename_i leftBlock hleftBlock
        split at hstep
        · cases hstep
        · rename_i rightBlock hrightBlock
          cases hstep
          have hdrawn : Drawn alloc (allocated ++ [leftBlock, rightBlock]) := by
            have htwo := (h.drawn.append hleftBlock).append (b := rightBlock) (by
              rwa [List.length_append])
            rwa [List.append_assoc] at htwo
          have htwo := rewritten_index generation h1024 h64k hfresh hnew hT.subtree hsplit hfront
            hbehind h [] [leftBlock, rightBlock]
            [(grafted A nodes B).children.take ((grafted A nodes B).children.length / 2),
              (grafted A nodes B).children.drop ((grafted A nodes B).children.length / 2)]
            (by simp) (by simp) (by simp) nofun nofun nofun hdrawn (by simp)
            (by rw [List.forall_mem_cons, List.forall_mem_singleton]; exact ⟨hleft, hright⟩)
          have hplan := insertedTree_promoted generation hT hfresh hnew (by omega) (by simp) htwo
          obtain ⟨-, hLfilled⟩ := htwo.filled _ List.mem_cons_self
          obtain ⟨-, hRfilled⟩ := htwo.filled (rightBlock, _)
            (List.mem_cons_of_mem _ List.mem_cons_self)
          have hkey : ∀ l : List (Nat × LevelTree Extent n),
              (LevelTree.node l).Filled (nodeMaxEntries blockSize) →
              firstStart ExtentIdx.logicalBlock (l.map indexOf) =
                (LevelTree.node l).key Extent.logicalBlock := fun l hl => firstStart_map_indexOf hl
          rw [hkey (List.take _ _) hLfilled, hkey (List.drop _ _) hRfilled]
          exact ⟨_, rfl, n + 2, _, hplan⟩

end Index

end Root

section Insert

variable {blockSize n fuel : Nat} {read : NodeReader} {root : Bytes} {alloc : Allocator}
  {new : Extent} {t : LevelTree Extent n}

theorem planInsertExtentDeep_ok (h1024 : 1024 ≤ blockSize) (h64k : blockSize ≤ 65536)
    (ht : WellFormed blockSize read root t) (hfresh : Allocator.Fresh alloc (0 :: t.addresses))
    (hnew : new.Valid) (hfuel : n < fuel) :
    ∃ result, planInsertExtentDeep fuel root new blockSize read alloc = some result ∧
      ∀ plan, result = .ok plan → ∃ (n' : Nat) (t' : LevelTree Extent n'),
        InsertedTree blockSize read new t plan t' := by
  obtain ⟨header, hparse, hdepth⟩ := ht.tree.parse
  unfold planInsertExtentDeep
  rw [if_neg (by rw [ht.length]; decide), hparse]
  dsimp only
  rw [hdepth, if_neg (Nat.not_lt.mpr ht.depth)]
  obtain ⟨fuel, rfl⟩ : ∃ f, fuel = f + 1 := ⟨fuel - 1, by omega⟩
  cases n with
  | zero =>
    refine ⟨_, by rw [descendFrom, descendStep_leaf ht.tree]; rfl, ?_⟩
    intro plan hplan
    obtain ⟨_, hpath, hplan⟩ := Result.bind_eq_ok hplan
    cases hpath
    obtain ⟨progress, hleaf, hrest⟩ := Result.bind_eq_ok hplan
    obtain ⟨plan', rfl, htree⟩ := leafLevel_root h1024 h64k hnew ht hfresh hleaf
    obtain rfl : plan' = plan := Except.ok.inj (by rw [← hrest, ascend])
    exact htree
  | succ n =>
    have hroot := ht.subtree
    obtain ⟨A, ⟨b, c⟩, B, haround⟩ : ∃ A c B,
        around (fun c => c.2.key Extent.logicalBlock) new.logicalBlock t.children =
          some (A, c, B) :=
      around_isSome (List.length_pos_iff.mp (ht.rootIndex (Nat.succ_pos n)))
    have hsplit := around_append haround
    obtain ⟨hfront, hbehind⟩ := LevelTree.around_entries ht.apart
      (fun c hc => c.2.entries_ne_nil (ht.filled c hc).2 (ht.filled c hc).1.1) haround
    obtain ⟨child, hchild, hc, hcfill, hb, hbold, hbnew⟩ := hroot.child hsplit
    have hmem : (b, c) ∈ t.children := by rw [hsplit]; simp
    have hin : ∀ a ∈ b :: c.addresses, a ∈ t.addresses := fun a ha =>
      List.mem_flatMap.mpr ⟨(b, c), hmem, ha⟩
    have hbzero : b ≠ 0 := by
      rintro rfl
      exact ht.nonzero (hin 0 List.mem_cons_self)
    obtain ⟨leaf, path, hdown, hpath, hrest⟩ := insert_below root header.generation
      h1024 h64k hfresh hnew hc hchild hcfill hb hbold hbzero hbnew
      (fun h0 => ht.nonzero (hin 0 (List.mem_cons_of_mem _ h0)))
      (by omega : n < fuel)
      (List.cons_ne_nil ⟨0, root⟩ [])
    refine ⟨_, by rw [descendFrom,
      descendStep_index ht.tree haround hchild]; dsimp only; rw [hdown]; rfl, ?_⟩
    intro plan hplan
    obtain ⟨_, hok, hplan⟩ := Result.bind_eq_ok hplan
    cases hok
    obtain ⟨progress, hleaf, hup⟩ := Result.bind_eq_ok hplan
    have hempty : path.isEmpty = false := by simpa using hpath
    dsimp only at hleaf
    rw [hempty] at hleaf
    obtain ⟨here, hhere, hlast⟩ := hrest progress plan hleaf hup
    cases here with
    | done plan' =>
      obtain ⟨hkept, left, hleft, hkey⟩ := hhere
      obtain rfl : plan' = plan := Except.ok.inj hlast
      obtain ⟨newRoot, writes, allocated⟩ := plan'
      obtain rfl : newRoot = root := hkept
      refine ⟨n + 1, _, insertedTree_grafted hnew ht hfresh hsplit hfront hbehind hleft ht.length ?_
        (represents_kept hfresh hroot hsplit hleft rfl hkey)⟩
      have hfour : t.children.length ≤ 4 := ht.rootFill
      rw [hsplit] at hfour
      change (A ++ [(b, left)] ++ B).length ≤ 4
      simpa using hfour
    | up propagated correction writes allocated =>
      obtain ⟨nodes, hnodes, hpassed⟩ := hhere
      rw [ascend] at hlast
      obtain ⟨next, hnext, hdone⟩ := Result.bind_eq_ok hlast
      obtain ⟨plan', rfl, htree⟩ := indexLevel_root h1024 h64k hnew ht hfresh hsplit hfront hbehind
        hnodes hpassed hnext
      obtain rfl : plan' = plan := Except.ok.inj (by rw [← hdone, ascend])
      exact htree

end Insert

theorem lookup_mapping {blockSize n : Nat} {root : Bytes} {t : LevelTree Extent n} {d : Disk}
    (h : WellFormed blockSize (nodeOn d blockSize) root t) (logical : Nat) :
    ∃ found, (Extent.lookup root blockSize logical).exec d = (.ok found, d) ∧
      found.map (fun e => (e.map logical, e.uninitialized)) = mapping t.entries logical :=
  ⟨_, Extent.lookup_exec h logical, rfl⟩

/-- An insert into a well-formed tree, if it succeeds, gives one that maps what the new extent maps
and otherwise what the old one did; its new nodes are the blocks allocated, and nothing else outside
the old nodes is written. -/
theorem deep_insert_preserves_map {blockSize n fuel : Nat} {read : NodeReader} {root : Bytes}
    {alloc : Allocator} {new : Extent} {t : LevelTree Extent n} (h1024 : 1024 ≤ blockSize)
    (h64k : blockSize ≤ 65536) (ht : WellFormed blockSize read root t)
    (hfresh : Allocator.Fresh alloc (0 :: t.addresses)) (hnew : new.Valid)
    (hmeets : ∀ e ∈ t.entries, e.meets new = false) (hfuel : n < fuel) :
    ∃ result, planInsertExtentDeep fuel root new blockSize read alloc = some result ∧
      ∀ plan, result = .ok plan →
        (plan.blockWrites.map Prod.fst).Nodup ∧
        (∀ b ∈ plan.blockWrites.map Prod.fst, b ∈ t.addresses ++ plan.allocatedBlocks) ∧
        (∀ b ∈ plan.allocatedBlocks, b ∈ plan.blockWrites.map Prod.fst) ∧
        ∃ (n' : Nat) (t' : LevelTree Extent n'),
          WellFormed blockSize (overlay plan.blockWrites read) plan.newRoot t' ∧
          t'.addresses.Perm (t.addresses ++ plan.allocatedBlocks) ∧
          ∀ d d' : Disk, (∀ b ∈ t.addresses, nodeOn d blockSize b = read b) →
            (∀ b ∈ t'.addresses, nodeOn d' blockSize b = overlay plan.blockWrites read b) →
            ∀ logical, ∃ before after,
              (Extent.lookup root blockSize logical).exec d = (.ok before, d) ∧
              (Extent.lookup plan.newRoot blockSize logical).exec d' = (.ok after, d') ∧
              after.map (fun e => (e.map logical, e.uninitialized)) =
                if new.contains logical then some (new.map logical, new.uninitialized)
                else before.map (fun e => (e.map logical, e.uninitialized)) := by
  obtain ⟨result, hresult, hplan⟩ := planInsertExtentDeep_ok h1024 h64k ht hfresh hnew hfuel
  refine ⟨result, hresult, ?_⟩
  intro plan hok
  obtain ⟨n', t', h⟩ := hplan plan hok
  have hwf := h.wellFormed ht hnew hmeets
  refine ⟨h.once, h.within, h.fresh, n', t', hwf, h.addresses, ?_⟩
  intro d d' hd hd' logical
  obtain ⟨before, hbefore, hold⟩ := lookup_mapping (ht.congr hd) logical
  obtain ⟨after, hafter, hnow⟩ := lookup_mapping (hwf.congr hd') logical
  refine ⟨before, after, hbefore, hafter, ?_⟩
  rw [hnow, hold]
  exact h.entries.mapping ⟨ht.apart, ht.valid⟩ hnew hmeets logical

/-- A full inline root, and an extent that belongs between two of its own. -/
def fourExtents : List Extent :=
  [⟨0, 2, 10, false⟩, ⟨4, 1, 20, true⟩, ⟨8, 1, 30, false⟩, ⟨9, 1, 40, false⟩]

theorem inlineLeaf_wellFormed {read : NodeReader} {root : Bytes} {es : List Extent}
    (hlength : root.length = 60) (hfew : es.length ≤ 4) (hvalid : ∀ e ∈ es, e.Valid)
      (hapart : Apart Extent.logicalBlock Extent.length es)
    (htree : Represents read (LevelTree.leaf es) root) : WellFormed 1024 read root
      (LevelTree.leaf es) where
  depth := Nat.zero_le _
  length := hlength
  tree := htree
  rootFill := hfew
  rootIndex := fun h => absurd h (Nat.lt_irrefl 0)
  filled := trivial
  valid := hvalid
  apart := hapart
  distinct := List.nodup_nil
  nonzero := nofun

theorem fourExtents_wellFormed (read : NodeReader) :
    WellFormed 1024 read (buildInlineLeafRoot 0 fourExtents) (LevelTree.leaf fourExtents) := by
  have hvalid : ∀ e ∈ fourExtents, e.Valid := by
    intro e he
    simp only [fourExtents, List.mem_cons, List.not_mem_nil, or_false] at he
    obtain rfl | rfl | rfl | rfl := he <;> constructor <;> decide
  refine inlineLeaf_wellFormed (length_buildInlineLeafRoot (by decide)) (by decide) hvalid ?_
    (represents_leaf hvalid (by decide) (show 4 < 2 ^ 16 by decide))
  unfold Apart
  decide

def longExtent : Extent := ⟨0, 40000, 500, false⟩

/-- Inserted into an empty root, it is found in the other state, and at its last block not at
all. -/
theorem deep_insert_turns_longExtent : ∃ newRoot,
    WellFormed 1024 (fun _ => .error .io) (buildInlineLeafRoot 0 []) (LevelTree.leaf []) ∧
      planInsertExtentDeep 1 (buildInlineLeafRoot 0 []) longExtent 1024
        (fun _ => .error .io) oneBlock = some (.ok ⟨newRoot, [], []⟩) ∧
      ∀ d : Disk, (Extent.lookup newRoot 1024 0).exec d = (.ok (some ⟨0, 7232, 500, true⟩), d) ∧
        (Extent.lookup newRoot 1024 39999).exec d = (.ok none, d) := by
  refine ⟨buildInlineLeafRoot 0 [longExtent], ?_, rfl, fun d => ?_⟩
  · exact inlineLeaf_wellFormed (length_buildInlineLeafRoot (by decide)) (by decide) nofun
      List.Pairwise.nil (represents_leaf nofun (by decide) (show 4 < 2 ^ 16 by decide))
  · have h : WellFormed 1024 (nodeOn d 1024) (buildInlineLeafRoot 0 [longExtent])
        (LevelTree.leaf [⟨0, 7232, 500, true⟩]) := by
      refine inlineLeaf_wellFormed (length_buildInlineLeafRoot (by decide)) (by decide) ?_
        (List.pairwise_singleton _ _) ⟨⟨1, 4, 0, 0⟩, rfl, rfl, rfl⟩
      intro e he
      obtain rfl := List.mem_singleton.mp he
      constructor <;> decide
    exact ⟨Extent.lookup_exec h 0, Extent.lookup_exec h 39999⟩

theorem deep_insert_preserves_map_four :
    ∃ plan, planInsertExtentDeep 1 (buildInlineLeafRoot 0 fourExtents) ⟨6, 1, 50, false⟩ 1024
        (fun _ => .error .io) oneBlock = some (.ok plan) ∧ plan.allocatedBlocks = [9] ∧
      ∃ (n' : Nat) (t' : LevelTree Extent n'), t'.addresses.Perm [9] ∧
        ∀ d : Disk, (∀ b ∈ t'.addresses, nodeOn d 1024 b =
            overlay plan.blockWrites (fun _ => .error .io) b) →
          ∃ before after, (Extent.lookup (buildInlineLeafRoot 0 fourExtents) 1024 6).exec d =
              (.ok before, d) ∧
            (Extent.lookup plan.newRoot 1024 6).exec d = (.ok after, d) ∧
            after.map (fun e => (e.map 6, e.uninitialized)) = some (50, false) := by
  obtain ⟨result, hresult, h⟩ := deep_insert_preserves_map
    (by decide) (by decide) (fourExtents_wellFormed (fun _ => .error .io))
    (oneBlock_fresh (by decide)) (show Extent.Valid ⟨6, 1, 50, false⟩ by constructor <;> decide)
    (by
      intro e he
      simp only [fourExtents, LevelTree.leaf, LevelTree.entries, List.mem_cons, List.not_mem_nil,
        or_false] at he
      obtain rfl | rfl | rfl | rfl := he <;> decide) Nat.zero_lt_one
  obtain ⟨plan, hplan, hallocated⟩ : ∃ plan, planInsertExtentDeep 1
    (buildInlineLeafRoot 0 fourExtents)
      ⟨6, 1, 50, false⟩ 1024 (fun _ => .error .io) oneBlock = some (.ok plan) ∧
      plan.allocatedBlocks = [9] := ⟨_, rfl, rfl⟩
  obtain ⟨-, -, -, n', t', -, haddr, hlookup⟩ := h plan (Option.some.inj (hresult.symm.trans hplan))
  rw [hallocated] at haddr
  refine ⟨plan, hplan, hallocated, n', t', haddr, ?_⟩
  intro d hd
  exact hlookup d d nofun hd 6

end FsExt4
