import FsExt4.DirStaging
import FsExt4.HtreeInsert

namespace FsExt4.Htree

open Lib

section Route

variable {node node' : UInt32 → Bytes} {a : UInt32} {levels n : Nat} {target : UInt32}

theorem route_succ (h : NodeAt (node target) 8) :
    route node a (levels + 1) target =
      (target :: (route node a levels (chosenBlock (node target) 8 a)).1,
        (route node a levels (chosenBlock (node target) 8 a)).2) := by
  rw [route, parseNodeEntries_ok h]
  rfl

theorem route_congr (h : ∀ p ∈ (route node a levels target).1, node' p = node p) :
    route node' a levels target = route node a levels target := by
  induction levels generalizing target with
  | zero => rfl
  | succ levels ih =>
    rw [route] at h ⊢
    rw [route]
    cases hparse : parseNodeEntries (node target) with
    | error e =>
      rw [hparse] at h
      rw [h target List.mem_cons_self, hparse]
    | ok r =>
      obtain ⟨cl, entries⟩ := r
      rw [hparse] at h
      rw [h target List.mem_cons_self, hparse]
      dsimp only
      rw [ih (fun p hp => h p (List.mem_cons_of_mem _ hp))]

def dxOffset (l : UInt32) : Nat := if l = 0 then 32 else 8

variable (node levels)

def path (a : UInt32) : List UInt32 := 0 :: (route node a levels (chosenBlock (node 0) 32 a)).1

def leafOf (a : UInt32) : UInt32 := (route node a levels (chosenBlock (node 0) 32 a)).2

/-- An index over `n` blocks: every hash is led to one of the leaves, along blocks that are no
leaves, and to a leaf along one way only. -/
structure Index (n : Nat) (leaves : List UInt32) : Prop where
  block : ∀ a, ∀ p ∈ path node levels a, NodeAt (node p) (dxOffset p) ∧
    (children (node p) (dxOffset p)).Nodup ∧
    ∀ c ∈ children (node p) (dxOffset p), c.toNat < n
  inner : ∀ a, 0 ∉ (path node levels a).tail
  once : ∀ a b, leafOf node levels a = leafOf node levels b → path node levels a =
    path node levels b
  apart : ∀ a b, leafOf node levels a ∉ path node levels b
  mem_leaves : ∀ l, l ∈ leaves ↔ ∃ a, leafOf node levels a = l

variable {node levels}

theorem route_lt (h : ∀ p ∈ (route node a levels target).1, p ≠ 0 ∧ NodeAt (node p) (dxOffset p) ∧
      ∀ c ∈ children (node p) (dxOffset p), c.toNat < n) (htarget : target.toNat < n) :
    (∀ p ∈ (route node a levels target).1, p.toNat < n) ∧
    (route node a levels target).2.toNat < n := by
  induction levels generalizing target with
  | zero => exact ⟨fun p hp => absurd hp List.not_mem_nil, htarget⟩
  | succ levels ih =>
    have hmem : target ∈ (route node a (levels + 1) target).1 := by
      rw [route]
      cases parseNodeEntries (node target) <;> exact List.mem_cons_self
    obtain ⟨hne, hnode, hchildren⟩ := h target hmem
    rw [dxOffset, if_neg hne] at hnode hchildren
    rw [route_succ hnode] at h ⊢
    obtain ⟨hpath, hleaf⟩ := ih (fun p hp => h p (List.mem_cons_of_mem _ hp))
      (hchildren _ (chosenBlock_mem hnode a))
    refine ⟨?_, hleaf⟩
    intro p hp
    obtain rfl | hp := List.mem_cons.mp hp
    · exact htarget
    · exact hpath p hp

theorem ways_congr (hnode : ∀ a, ∀ p ∈ path node levels a, node' p = node p) (a : UInt32) :
    path node' levels a = path node levels a ∧ leafOf node' levels a = leafOf node levels a := by
  have hroot : node' 0 = node 0 := hnode 0 0 List.mem_cons_self
  have hroute := @route_congr node node' a levels (chosenBlock (node 0) 32 a)
    (fun p hp => hnode a p (List.mem_cons_of_mem _ hp))
  unfold path leafOf
  rw [hroot, hroute]
  exact ⟨rfl, rfl⟩

namespace Index

variable {leaves : List UInt32} (h : Index node levels n leaves)

include h

theorem root : NodeAt (node 0) 32 ∧ (children (node 0) 32).Nodup ∧ ∀ c ∈ children (node 0) 32,
    c.toNat < n :=
  h.block 0 0 List.mem_cons_self

theorem way_lt (a : UInt32) : (∀ p ∈ path node levels a, p.toNat < n) ∧
    (leafOf node levels a).toNat < n := by
  obtain ⟨hroot, -, hchildren⟩ := h.root
  have hchosen := hchildren _ (chosenBlock_mem hroot a)
  obtain ⟨hpath, hleaf⟩ := @route_lt node a levels n _ (fun p hp => by
    obtain ⟨hnode, -, hlt⟩ := h.block a p (List.mem_cons_of_mem _ hp)
    exact ⟨fun h0 => h.inner a (h0 ▸ hp), hnode, hlt⟩) hchosen
  refine ⟨?_, hleaf⟩
  intro p hp
  obtain rfl | hp := List.mem_cons.mp hp
  · exact Nat.zero_lt_of_lt hchosen
  · exact hpath p hp

theorem congr (hnode : ∀ a, ∀ p ∈ path node levels a, node' p = node p) : Index node' levels n
    leaves where
  block := by
    intro a p hp
    rw [(ways_congr hnode a).1] at hp
    rw [hnode a p hp]
    exact h.block a p hp
  inner := by
    intro a
    rw [(ways_congr hnode a).1]
    exact h.inner a
  once := by
    intro a b
    rw [(ways_congr hnode a).1, (ways_congr hnode a).2, (ways_congr hnode b).1,
      (ways_congr hnode b).2]
    exact h.once a b
  apart := by
    intro a b
    rw [(ways_congr hnode a).2, (ways_congr hnode b).1]
    exact h.apart a b
  mem_leaves := by
    intro l
    rw [h.mem_leaves l]
    exact exists_congr fun a => by rw [(ways_congr hnode a).2]

end Index

end Route

section Split

variable {node node' : UInt32 → Bytes} {levels n : Nat} {leaves : List UInt32}
  {bound new p : UInt32}

/-- The index block that names the leaf of a hash, in an index of at most two levels. -/
def parentOf (node : UInt32 → Bytes) (levels : Nat) (a : UInt32) : UInt32 :=
  if levels = 0 then 0 else chosenBlock (node 0) 32 a

theorem Index.ways (h : Index node levels n leaves) (hlevels : levels ≤ 1) (a : UInt32) :
    path node levels a = (if levels = 0 then [0] else [0, parentOf node levels a]) ∧
      parentOf node levels a ∈ path node levels a ∧
      leafOf node levels a = chosenBlock (node (parentOf node levels a))
        (dxOffset (parentOf node levels a)) a := by
  obtain rfl | rfl := Nat.le_one_iff_eq_zero_or_eq_one.mp hlevels
  · exact ⟨rfl, List.mem_cons_self, rfl⟩
  · have hmem : chosenBlock (node 0) 32 a ∈ path node 1 a := by
      unfold path
      rw [route]
      cases parseNodeEntries (node (chosenBlock (node 0) 32 a)) <;> simp
    have hne : chosenBlock (node 0) 32 a ≠ 0 := by
      intro hzero
      apply h.inner a
      unfold path at hmem ⊢
      rw [List.tail_cons]
      rw [route] at hmem ⊢
      cases parseNodeEntries (node (chosenBlock (node 0) 32 a)) <;> rw [hzero] <;>
        exact List.mem_cons_self
    have hnode := (h.block a _ hmem).1
    rw [dxOffset, if_neg hne] at hnode
    have hparent : parentOf node 1 a = chosenBlock (node 0) 32 a := if_neg (by decide)
    rw [hparent]
    refine ⟨?_, hmem, ?_⟩
    · unfold path
      rw [route_succ hnode]
      rfl
    · unfold leafOf
      rw [route_succ hnode, dxOffset, if_neg hne]
      rfl

variable (h : Index node levels n leaves) (hlevels : levels ≤ 1)
  (hp : p = parentOf node levels bound)
  (hins : InsertsEntry (node p) (dxOffset p) ⟨bound, new⟩ (node' p))
  (hother : ∀ a, ∀ q ∈ path node levels a, q ≠ p → node' q = node q)

include h hlevels hp hins hother

theorem Index.split_ways (a : UInt32) :
    path node' levels a = path node levels a ∧
      leafOf node' levels a = if bound ≤ a ∧ leafOf node levels a = leafOf node levels
        bound then new
        else leafOf node levels a := by
  obtain ⟨hpath, hparent, hleaf⟩ := h.ways hlevels a
  obtain ⟨hpathBound, hparentBound, hleafBound⟩ := h.ways hlevels bound
  obtain ⟨hnode, hdistinct, -⟩ := h.block bound _ hparentBound
  rw [← hp] at hnode hdistinct hleafBound hparentBound
  have hchosen := hins.chosenBlock hnode hdistinct a
  dsimp only at hchosen
  rw [← hleafBound] at hchosen
  obtain rfl | rfl := Nat.le_one_iff_eq_zero_or_eq_one.mp hlevels
  · have hzero : parentOf node 0 a = p := hp.symm
    refine ⟨rfl, ?_⟩
    rw [hzero] at hleaf
    rw [hleaf, ← hchosen]
    rw [hp]
    rfl
  · have hpne : p ≠ 0 := by
      intro hzero
      apply h.inner bound
      rw [hpathBound, if_neg (by decide), ← hp, hzero]
      exact List.mem_singleton_self _
    have hroot : node' 0 = node 0 := hother bound 0 List.mem_cons_self (Ne.symm hpne)
    have hparent' : parentOf node' 1 a = parentOf node 1 a := by
      unfold parentOf
      rw [hroot]
    have hane : parentOf node 1 a ≠ 0 := by
      intro hzero
      apply h.inner a
      rw [hpath, if_neg (by decide), hzero]
      exact List.mem_singleton_self _
    have hnode' : NodeAt (node' (parentOf node 1 a)) 8 := by
      by_cases heq : parentOf node 1 a = p
      · have hat := hins.nodeAt
        rw [dxOffset, if_neg hpne] at hat
        rw [heq]
        exact hat
      · have hat := (h.block a _ hparent).1
        rw [dxOffset, if_neg hane] at hat
        rw [hother a _ hparent heq]
        exact hat
    have hroute := @route_succ node' a 0 (parentOf node 1 a) hnode'
    have hstart : chosenBlock (node' 0) 32 a = parentOf node 1 a := by
      rw [← hparent']
      rfl
    refine ⟨?_, ?_⟩
    · rw [hpath, if_neg (by decide)]
      unfold path
      rw [hstart, hroute]
      rfl
    · have hleaf' : leafOf node' 1 a = chosenBlock (node' (parentOf node 1 a)) 8 a := by
        unfold leafOf
        rw [hstart, hroute]
        rfl
      rw [hleaf']
      by_cases heq : parentOf node 1 a = p
      · rw [heq] at hleaf ⊢
        rw [hleaf, ← hchosen, dxOffset, if_neg hpne]
      · have hdiffer : leafOf node 1 a ≠ leafOf node 1 bound := by
          intro hsame
          have hways := h.once a bound hsame
          rw [hpath, hpathBound, if_neg (by decide), if_neg (by decide), ← hp] at hways
          exact heq (List.cons.inj (List.cons.inj hways).2).1
        rw [if_neg (fun hc => hdiffer hc.2), hother a _ hparent heq, hleaf, dxOffset, if_neg hane]

theorem Index.split (hnew : new.toNat = n)
    (hkeep : ∃ b, ¬ bound ≤ b ∧ leafOf node levels b = leafOf node levels bound) :
    Index node' levels (n + 1) (leaves ++ [new]) := by
  have hways := h.split_ways hlevels hp hins hother
  have hnewPath : ∀ a, new ∉ path node levels a := by
    intro a hin
    exact absurd ((h.way_lt a).1 new hin) (by rw [hnew]; exact Nat.lt_irrefl n)
  have hnewLeaf : ∀ a, leafOf node levels a ≠ new := by
    intro a heq
    have hlt := (h.way_lt a).2
    rw [heq, hnew] at hlt
    exact Nat.lt_irrefl n hlt
  refine ⟨?_, ?_, ?_, ?_, ?_⟩
  · intro a q hq
    rw [(hways a).1] at hq
    obtain ⟨hnode, hdistinct, hlt⟩ := h.block a q hq
    by_cases heq : q = p
    · subst heq
      have hperm := hins.children hnode
      refine ⟨hins.nodeAt, ?_, ?_⟩
      · rw [hperm.nodup_iff, List.nodup_cons]
        refine ⟨fun hin => ?_, hdistinct⟩
        exact absurd (hlt _ hin) (by dsimp only; rw [hnew]; exact Nat.lt_irrefl n)
      · intro c hc
        obtain rfl | hc := List.mem_cons.mp (hperm.mem_iff.mp hc)
        · rw [hnew]
          exact Nat.lt_succ_self n
        · exact Nat.lt_succ_of_lt (hlt c hc)
    · rw [hother a q hq heq]
      exact ⟨hnode, hdistinct, fun c hc => Nat.lt_succ_of_lt (hlt c hc)⟩
  · intro a
    rw [(hways a).1]
    exact h.inner a
  · intro a b heq
    rw [(hways a).2, (hways b).2] at heq
    rw [(hways a).1, (hways b).1]
    split at heq
    · rename_i ha
      split at heq
      · rename_i hb
        exact h.once a b (ha.2.trans hb.2.symm)
      · exact absurd heq.symm (hnewLeaf b)
    · split at heq
      · exact absurd heq (hnewLeaf a)
      · exact h.once a b heq
  · intro a b
    rw [(hways a).2, (hways b).1]
    split
    · exact hnewPath b
    · exact h.apart a b
  · intro l
    rw [List.mem_append, List.mem_singleton, h.mem_leaves l]
    constructor
    · rintro (⟨a, rfl⟩ | rfl)
      · by_cases hmoved : bound ≤ a ∧ leafOf node levels a = leafOf node levels bound
        · obtain ⟨b, hlow, hb⟩ := hkeep
          refine ⟨b, ?_⟩
          rw [(hways b).2, if_neg (fun hc => hlow hc.1), hb, hmoved.2]
        · exact ⟨a, by rw [(hways a).2, if_neg hmoved]⟩
      · exact ⟨bound, by rw [(hways bound).2, if_pos ⟨UInt32.le_refl _, rfl⟩]⟩
    · rintro ⟨a, ha⟩
      rw [(hways a).2] at ha
      split at ha
      · exact Or.inr ha.symm
      · exact Or.inl ⟨a, ha⟩

end Split

section Root

variable {block block' : Bytes} {info : DxRootInfo}

theorem parseRootInfo_congr (h : AgreeOn block' block 0 34) (hlen : block'.length = block.length) :
    parseRootInfo block' = parseRootInfo block := by
  have hbyte : ∀ i, i < 32 → block'.getD i 0 = block.getD i 0 := by
    intro i hi
    exact getD_eq_of_slice_eq block' block i 1 i (h i 1 (Nat.zero_le _) (by omega)) (Nat.le_refl _)
      (Nat.lt_succ_self _)
  unfold parseRootInfo
  rw [hlen, h.u32leAt 24 (by decide) (by decide), hbyte 28 (by decide), hbyte 29 (by decide),
    hbyte 30 (by decide), hbyte 31 (by decide)]

/-- The index that the root in logical block 0 describes. -/
structure DxIndex (node : UInt32 → Bytes) (n : Nat) (info : DxRootInfo)
    (leaves : List UInt32) : Prop where
  parsed : parseRootInfo (node 0) = .ok info
  infoLength : info.infoLength = 8
  index : Index node info.indirectLevels n leaves

end Root

end FsExt4.Htree
