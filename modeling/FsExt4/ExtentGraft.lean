import FsExt4.ExtentInsert
import Mathlib.Data.List.Perm.Basic
import Mathlib.Data.List.Nodup

namespace FsExt4

open Lib

def Drawn (alloc : Allocator) (l : List Nat) : Prop :=
  ∀ i (h : i < l.length), alloc i = .ok (l.get ⟨i, h⟩)

section Drawn

variable {alloc : Allocator} {old l : List Nat} {b : Nat}

theorem Drawn.append (h : Drawn alloc l) (hb : alloc l.length = .ok b) : Drawn alloc
    (l ++ [b]) := by
  intro i hi
  rw [List.length_append, List.length_singleton] at hi
  by_cases hlt : i < l.length
  · rw [h i hlt]
    simp [hlt]
  · obtain rfl : i = l.length := by omega
    rw [hb]
    simp

theorem Drawn.nil : Drawn alloc [] := fun _ h => absurd h (Nat.not_lt_zero _)

theorem Drawn.exists (h : Drawn alloc l) (hb : b ∈ l) : ∃ i, alloc i = .ok b := by
  obtain ⟨i, hi, rfl⟩ := List.mem_iff_getElem.mp hb
  exact ⟨i, h i hi⟩

theorem Drawn.nodup (h : Drawn alloc l) (hfresh : Allocator.Fresh alloc old) : l.Nodup := by
  rw [List.nodup_iff_injective_get]
  intro i j hij
  apply Fin.ext
  exact hfresh.once i j _ (h i i.isLt) (by rw [hij]; exact h j j.isLt)

theorem Drawn.not_mem_old (h : Drawn alloc l) (hfresh : Allocator.Fresh alloc old) (hb : b ∈ l) :
    b ∉ old := by
  obtain ⟨i, hi⟩ := h.exists hb
  exact hfresh.notOld i b hi

end Drawn

/-- A node has been replaced by one or two nodes, the first of them at the node's own block if it
has one: they are in the writes, filled within capacity, and hold the extents with the new one put
in; the writes stay within the old nodes and the blocks drawn, each of those written, none twice. -/
structure Rewritten (read : NodeReader) (cap : Nat) (alloc : Allocator) (new : Extent) {n : Nat}
    (own : List Nat) (t : LevelTree Extent n) (nodes : List (Nat × LevelTree Extent n))
    (writes : List (Nat × Bytes)) (allocated : List Nat) : Prop where
  first : ∀ p ∈ own, nodes.head?.map Prod.fst = some p
  count : nodes.length ≤ 2
  stored : ∀ c ∈ nodes, ∃ child, overlay writes read c.1 = .ok child ∧
    Represents (overlay writes read) c.2 child
  filled : (LevelTree.node nodes).Filled cap
  blocks : ∀ c ∈ nodes, c.1 < 2 ^ 48
  entries : Inserted new t.entries (LevelTree.node nodes).entries
  addresses : (LevelTree.node nodes).addresses.Perm (own ++ t.addresses ++ allocated)
  once : (writes.map Prod.fst).Nodup
  within : ∀ b ∈ writes.map Prod.fst, b ∈ own ++ t.addresses ++ allocated
  fresh : ∀ b ∈ allocated, b ∈ writes.map Prod.fst
  drawn : Drawn alloc allocated

section Graft

variable {read : NodeReader} {cap n b : Nat} {alloc : Allocator} {new : Extent} {old : List Nat}
  {T : LevelTree Extent (n + 1)} {t : LevelTree Extent n}
    {A B nodes : List (Nat × LevelTree Extent n)}
  {writes : List (Nat × Bytes)} {allocated : List Nat}

/-- The new node's children: those of the old one, with the rewritten child replaced. -/
abbrev grafted (A nodes B : List (Nat × LevelTree Extent n)) : LevelTree Extent (n + 1) :=
  LevelTree.node (A ++ nodes ++ B)

theorem entries_grafted (A nodes B : List (Nat × LevelTree Extent n)) :
    (grafted A nodes B).entries = A.flatMap (fun c => c.2.entries) ++
      (LevelTree.node nodes).entries ++ B.flatMap (fun c => c.2.entries) := by
  change (A ++ nodes ++ B).flatMap _ = _ ++ nodes.flatMap _ ++ _
  rw [List.flatMap_append, List.flatMap_append]

theorem addresses_grafted (A nodes B : List (Nat × LevelTree Extent n)) :
    (grafted A nodes B).addresses = A.flatMap (fun c => c.1 :: c.2.addresses) ++
      (LevelTree.node nodes).addresses ++ B.flatMap (fun c => c.1 :: c.2.addresses) := by
  change (A ++ nodes ++ B).flatMap _ = _ ++ nodes.flatMap _ ++ _
  rw [List.flatMap_append, List.flatMap_append]

theorem Rewritten.stored_graft (h : Rewritten read cap alloc new [b] t nodes writes allocated)
    (hfresh : Allocator.Fresh alloc old) (hsplit : T.children = A ++ (b, t) :: B)
    (hdistinct : T.addresses.Nodup) (hold : ∀ a ∈ T.addresses, a ∈ old)
    (hbelow : ∀ c ∈ T.children, ∃ child, read c.1 = .ok child ∧ Represents read c.2 child) :
    ∀ c ∈ A ++ nodes ++ B, ∃ child, overlay writes read c.1 = .ok child ∧
      Represents (overlay writes read) c.2 child := by
  rw [LevelTree.addresses_split hsplit] at hdistinct hold
  obtain ⟨hfront, -, hcross⟩ := List.nodup_append.mp hdistinct
  have hother : ∀ c ∈ A ++ B, ∃ child, overlay writes read c.1 = .ok child ∧
      Represents (overlay writes read) c.2 child := by
    intro c hc
    have hunwritten : ∀ a ∈ c.1 :: c.2.addresses, a ∉ writes.map Prod.fst := by
      intro a ha hw
      obtain hc | hc := List.mem_append.mp hc
      · have hin : a ∈ A.flatMap (fun c => c.1 :: c.2.addresses) := List.mem_flatMap.mpr ⟨c, hc, ha⟩
        obtain hw | hw := List.mem_append.mp (h.within a hw)
        · exact (List.nodup_append.mp hfront).2.2 a hin a hw rfl
        · exact h.drawn.not_mem_old hfresh hw (hold a (by simp [hin]))
      · have hin : a ∈ B.flatMap (fun c => c.1 :: c.2.addresses) := List.mem_flatMap.mpr ⟨c, hc, ha⟩
        obtain hw | hw := List.mem_append.mp (h.within a hw)
        · exact hcross a (List.mem_append_right _ hw) a hin rfl
        · exact h.drawn.not_mem_old hfresh hw (hold a (by simp [hin]))
    obtain ⟨child, hread, hrep⟩ := hbelow c (by
      rw [hsplit]
      obtain hc | hc := List.mem_append.mp hc <;> simp [hc])
    refine ⟨child, ?_, hrep.congr fun a ha => ?_⟩
    · rw [overlay_of_not_mem (hunwritten c.1 List.mem_cons_self), hread]
    · exact overlay_of_not_mem (hunwritten a (List.mem_cons_of_mem _ ha))
  intro c hc
  obtain hc | hc := List.mem_append.mp hc
  · obtain hc | hc := List.mem_append.mp hc
    · exact hother c (List.mem_append_left _ hc)
    · exact h.stored c hc
  · exact hother c (List.mem_append_right _ hc)

theorem Rewritten.filled_graft (h : Rewritten read cap alloc new [b] t nodes writes allocated)
    (hsplit : T.children = A ++ (b, t) :: B) (hfilled : T.Filled cap) :
    (grafted A nodes B).Filled cap := by
  intro c hc
  obtain hc | hc := List.mem_append.mp hc
  · obtain hc | hc := List.mem_append.mp hc
    · exact hfilled c (by rw [hsplit]; simp [hc])
    · exact h.filled c hc
  · exact hfilled c (by rw [hsplit]; simp [hc])

theorem Rewritten.blocks_graft (h : Rewritten read cap alloc new [b] t nodes writes allocated)
    (hsplit : T.children = A ++ (b, t) :: B) (hblocks : ∀ c ∈ T.children, c.1 < 2 ^ 48) :
    ∀ c ∈ A ++ nodes ++ B, c.1 < 2 ^ 48 := by
  intro c hc
  obtain hc | hc := List.mem_append.mp hc
  · obtain hc | hc := List.mem_append.mp hc
    · exact hblocks c (by rw [hsplit]; simp [hc])
    · exact h.blocks c hc
  · exact hblocks c (by rw [hsplit]; simp [hc])

theorem Rewritten.addresses_graft (h : Rewritten read cap alloc new [b] t nodes writes allocated)
    (hsplit : T.children = A ++ (b, t) :: B) :
    (grafted A nodes B).addresses.Perm (T.addresses ++ allocated) := by
  rw [addresses_grafted, LevelTree.addresses_split hsplit]
  refine ((h.addresses.append_left _).append_right _).trans ?_
  simp only [List.append_assoc, List.cons_append, List.nil_append]
  refine List.Perm.append_left _ (List.Perm.cons _ (List.Perm.append_left _ ?_))
  exact List.perm_append_comm

theorem Rewritten.within_graft (h : Rewritten read cap alloc new [b] t nodes writes allocated)
    (hsplit : T.children = A ++ (b, t) :: B) :
    ∀ a ∈ writes.map Prod.fst, a ∈ T.addresses ++ allocated := by
  intro a ha
  rw [LevelTree.addresses_split hsplit]
  obtain ha | ha := List.mem_append.mp (h.within a ha)
  · exact List.mem_append_left _ (List.mem_append_left _ (List.mem_append_right _ ha))
  · exact List.mem_append_right _ ha

theorem indices_kept {left : LevelTree Extent n} (hsplit : T.children = A ++ (b, t) :: B)
    (hkey : left.key Extent.logicalBlock = t.key Extent.logicalBlock) :
    (grafted A [(b, left)] B).children.map indexOf = T.children.map indexOf := by
  rw [hsplit]
  change (A ++ [(b, left)] ++ B).map indexOf = _
  simp only [List.map_append, List.map_cons, List.append_assoc, List.singleton_append,
    indexOf, hkey]

end Graft

theorem insertByKey_append {β : Type} {key : β → Nat} {new : β} {X Y : List β}
    (hX : ∀ a ∈ X, key a ≤ key new) (hY : ∀ b ∈ Y, key new < key b) :
    insertByKey key new (X ++ Y) = X ++ new :: Y := by
  have htake : Y.takeWhile (fun c => decide (key c ≤ key new)) = [] := by
    cases Y with
    | nil => rfl
    | cons b Y =>
      have hb := hY b List.mem_cons_self
      exact List.takeWhile_cons_of_neg (by simpa using hb)
  have hdrop : Y.dropWhile (fun c => decide (key c ≤ key new)) = Y := by
    cases Y with
    | nil => rfl
    | cons b Y =>
      have hb := hY b List.mem_cons_self
      exact List.dropWhile_cons_of_neg (by simpa using hb)
  unfold insertByKey
  rw [List.takeWhile_append_of_pos (by simpa using hX), List.dropWhile_append_of_pos
    (by simpa using hX), htake, hdrop, List.append_nil]

theorem correct_append {p : ExtentIdx → Bool} {X : List ExtentIdx} (Y : List ExtentIdx)
    (idx : ExtentIdx) (f : ExtentIdx → ExtentIdx) (hX : ∀ a ∈ X, p a = false)
      (hidx : p idx = true) :
    (X ++ idx :: Y).findIdx? p = some X.length ∧
      (X ++ idx :: Y).modify X.length f = X ++ f idx :: Y := by
  induction X with
  | nil => simp [List.findIdx?_cons, hidx]
  | cons a X ih =>
    obtain ⟨hfind, hmod⟩ := ih (fun a' ha' => hX a' (List.mem_cons_of_mem _ ha'))
    constructor
    · rw [List.cons_append, List.findIdx?_cons, hX a List.mem_cons_self, hfind]
      rfl
    · rw [List.cons_append, List.length_cons, List.modify_succ_cons, hmod]
      rfl

section Indices

variable {read : NodeReader} {cap n b : Nat} {alloc : Allocator} {new : Extent}
  {T : LevelTree Extent (n + 1)} {t : LevelTree Extent n}
    {A B nodes : List (Nat × LevelTree Extent n)}
  {writes : List (Nat × Bytes)} {allocated : List Nat}

/-- What a level passes up: the node that it added, if it did, and the key of its first node, if
that moved. -/
def passedUp (t : LevelTree Extent n) (p : Nat) (nodes : List (Nat × LevelTree Extent n)) :
    Option ExtentIdx × Option (Nat × Nat) :=
  (nodes.tail.head?.map indexOf,
    if (LevelTree.node nodes).key Extent.logicalBlock = t.key Extent.logicalBlock then none
    else some (p, (LevelTree.node nodes).key Extent.logicalBlock))

theorem entries_ne_nil_of_filled {T : LevelTree Extent (n + 1)} (h : T.Filled cap)
    {c : Nat × LevelTree Extent n} (hc : c ∈ T.children) : c.2.entries ≠ [] :=
  c.2.entries_ne_nil (h c hc).2 (h c hc).1.1

theorem key_node_cons {c : Nat × LevelTree Extent n} (h : c.2.entries ≠ [])
    (Y : List (Nat × LevelTree Extent n)) :
    (LevelTree.node (c :: Y)).key Extent.logicalBlock = c.2.key Extent.logicalBlock :=
  firstStart_append h _

theorem passedUp_one (t node : LevelTree Extent n) (p : Nat) :
    passedUp t p [(p, node)] =
      (none, if node.key Extent.logicalBlock = t.key Extent.logicalBlock then none
        else some (p, node.key Extent.logicalBlock)) := by
  have hself : (LevelTree.node [(p, node)]).key Extent.logicalBlock =
      node.key Extent.logicalBlock :=
    congrArg (firstStart _) (List.append_nil _)
  rw [passedUp, hself]
  rfl

theorem passedUp_two (t : LevelTree Extent n) {left : LevelTree Extent n}
    (right : LevelTree Extent n) (p q : Nat) (h : left.entries ≠ []) :
    passedUp t p [(p, left), (q, right)] =
      (some (indexOf (q, right)), if left.key Extent.logicalBlock =
        t.key Extent.logicalBlock then none
        else some (p, left.key Extent.logicalBlock)) := by
  rw [passedUp, key_node_cons h]
  rfl

theorem key_node_append {X Y : List (Nat × LevelTree Extent n)} (hne : X ≠ [])
    (hX : (LevelTree.node X).Filled cap) :
    (LevelTree.node (X ++ Y)).key Extent.logicalBlock = (LevelTree.node X).key
      Extent.logicalBlock := by
  change firstStart _ ((X ++ Y).flatMap _) = firstStart _ (X.flatMap _)
  rw [List.flatMap_append, firstStart_append]
  intro hnil
  obtain ⟨c, hc⟩ := List.exists_mem_of_ne_nil X hne
  exact entries_ne_nil_of_filled hX hc (List.flatMap_eq_nil_iff.mp hnil c hc)

/-- Correcting the child's key and taking in the new node gives the entries of the new children, and
the correction left over is what the level above needs. -/
theorem Rewritten.indices_graft (h : Rewritten read cap alloc new [b] t nodes writes allocated)
    (hsplit : T.children = A ++ (b, t) :: B) (hfilled : T.Filled cap)
      (hdistinct : T.addresses.Nodup)
    (hord : Ascending (grafted A nodes B).entries) (frame : PathFrame) :
    ∃ corrected correction,
      applyCorrection frame (T.children.map indexOf) (passedUp t b nodes).2 =
        .ok (corrected, correction) ∧
      acceptSplit corrected (passedUp t b nodes).1 = (grafted A nodes B).children.map indexOf ∧
      (frame.block ≠ 0 → correction =
        (passedUp T frame.block [(frame.block, grafted A nodes B)]).2) := by
  obtain ⟨left, rest, rfl⟩ : ∃ left rest, nodes = (b, left) :: rest := by
    cases hn : nodes with
    | nil =>
      have hf := h.first b (by simp)
      rw [hn] at hf
      cases hf
    | cons c rest =>
      have hf := h.first b (by simp)
      rw [hn] at hf
      obtain ⟨c₁, left⟩ := c
      obtain rfl : c₁ = b := Option.some.inj hf
      exact ⟨left, rest, rfl⟩
  have hgraft := h.filled_graft hsplit hfilled
  have hleft : left.entries ≠ [] := entries_ne_nil_of_filled h.filled List.mem_cons_self
  have ht : t.entries ≠ [] :=
    entries_ne_nil_of_filled (c := (b, t)) hfilled (by rw [hsplit]; simp)
  have hTkey : A = [] → T.key Extent.logicalBlock = t.key Extent.logicalBlock := by
    rintro rfl
    change firstStart _ (T.children.flatMap _) = _
    rw [hsplit]
    exact key_node_cons (c := (b, t)) ht B
  have hGkey : A = [] → (grafted A ((b, left) :: rest) B).key Extent.logicalBlock =
      left.key Extent.logicalBlock := by
    rintro rfl
    exact key_node_cons (c := (b, left)) hleft (rest ++ B)
  have hsame : A ≠ [] → (grafted A ((b, left) :: rest) B).key Extent.logicalBlock =
      T.key Extent.logicalBlock := by
    intro hA
    have hAfilled : (LevelTree.node A).Filled cap := fun c hc =>
      hfilled c (by rw [hsplit]; exact List.mem_append_left _ hc)
    change (LevelTree.node (A ++ ((b, left) :: rest) ++ B)).key _ =
      firstStart _ (T.children.flatMap _)
    rw [List.append_assoc, key_node_append hA hAfilled, hsplit]
    exact (key_node_append hA hAfilled).symm
  -- the entries once the child's key is right
  have hcorrected : ∃ correction,
      applyCorrection frame (T.children.map indexOf) (passedUp t b ((b, left) :: rest)).2 =
        .ok (A.map indexOf ++ indexOf (b, left) :: B.map indexOf, correction) ∧
      (frame.block ≠ 0 → correction =
        (passedUp T frame.block [(frame.block, grafted A ((b, left) :: rest) B)]).2) := by
    rw [passedUp_one]
    unfold passedUp
    dsimp only
    rw [key_node_cons hleft, hsplit, List.map_append, List.map_cons]
    by_cases hmoved : left.key Extent.logicalBlock = t.key Extent.logicalBlock
    · refine ⟨none, ?_, fun _ => ?_⟩
      · rw [if_pos hmoved]
        simp only [applyCorrection, indexOf, hmoved]
      · rw [if_pos]
        by_cases hA : A = []
        · rw [hGkey hA, hTkey hA, hmoved]
        · exact hsame hA
    · rw [if_neg hmoved]
      have hA : ∀ a ∈ A.map indexOf, decide (a.leafBlock = b) = false := by
        intro a ha
        obtain ⟨c, hc, rfl⟩ := List.mem_map.mp ha
        rw [LevelTree.addresses_split hsplit] at hdistinct
        have hin : c.1 ∈ A.flatMap (fun c => c.1 :: c.2.addresses) :=
          List.mem_flatMap.mpr ⟨c, hc, List.mem_cons_self⟩
        have hne := (List.nodup_append.mp (List.nodup_append.mp hdistinct).1).2.2 c.1 hin b
          List.mem_cons_self
        exact decide_eq_false hne
      obtain ⟨hfind, hmodify⟩ := correct_append (B.map indexOf) (indexOf (b, t))
        (fun idx => { idx with logicalBlock := left.key Extent.logicalBlock }) hA
        (decide_eq_true rfl)
      refine ⟨if (A.map indexOf).length = 0 ∧ frame.block ≠ 0 then
        some (frame.block, left.key Extent.logicalBlock) else none, ?_, fun hblock => ?_⟩
      · simp only [applyCorrection]
        rw [hfind]
        dsimp only
        rw [hmodify]
        rfl
      · by_cases hnil : A = []
        · rw [if_pos ⟨by rw [hnil]; rfl, hblock⟩, hGkey hnil, hTkey hnil, if_neg hmoved]
        · rw [if_neg (fun h => hnil (by simpa using h.1)), if_pos (hsame hnil)]
  obtain ⟨correction, happly, hup⟩ := hcorrected
  refine ⟨_, correction, happly, ?_, hup⟩
  change _ = (A ++ ((b, left) :: rest) ++ B).map indexOf
  cases rest with
  | nil => simp [passedUp, acceptSplit]
  | cons r rest =>
    obtain rfl : rest = [] := by
      have hcount := h.count
      cases rest with
      | nil => rfl
      | cons r' rest => exact absurd hcount (by simp)
    have hkeys := LevelTree.pairwise_key hord.starts
      (fun c hc => entries_ne_nil_of_filled hgraft hc)
    have hparts : (grafted A [(b, left), r] B).children = (A ++ [(b, left)]) ++ (r :: B) := by
      change A ++ [(b, left), r] ++ B = _
      simp
    rw [hparts] at hkeys
    obtain ⟨-, hback, hcross⟩ := List.pairwise_append.mp hkeys
    have hinsert : insertByKey ExtentIdx.logicalBlock (indexOf r)
        ((A ++ [(b, left)]).map indexOf ++ B.map indexOf) =
          (A ++ [(b, left)]).map indexOf ++ indexOf r :: B.map indexOf := by
      apply insertByKey_append
      · intro a ha
        obtain ⟨c, hc, rfl⟩ := List.mem_map.mp ha
        exact Nat.le_of_lt (hcross c hc r List.mem_cons_self)
      · intro a ha
        obtain ⟨c, hc, rfl⟩ := List.mem_map.mp ha
        exact (List.pairwise_cons.mp hback).1 c hc
    simpa [passedUp, acceptSplit] using hinsert

end Indices

section Pieces

variable {read : NodeReader} {cap n : Nat} {alloc : Allocator} {new : Extent} {old : List Nat}
  {t : LevelTree Extent n} {own extra : List Nat} (pieces : List (LevelTree Extent n))
  (build : LevelTree Extent n → Bytes) (writes : List (Nat × Bytes)) (allocated : List Nat)

theorem rewritten_pieces (hfresh : Allocator.Fresh alloc old) (hown : own.length ≤ 1)
    (hcount : pieces.length ≤ 2) (hlen : (own ++ extra).length = pieces.length)
    (hblocks : ∀ b ∈ own, b < 2 ^ 48) (hold : ∀ b ∈ own ++ t.addresses, b ∈ old)
    (hdisjoint : ∀ b ∈ own, b ∉ t.addresses) (hdrawn : Drawn alloc (allocated ++ extra))
    (hentries : Inserted new t.entries (pieces.flatMap LevelTree.entries))
    (haddr : (pieces.flatMap LevelTree.addresses).Perm (t.addresses ++ allocated))
    (honce : (writes.map Prod.fst).Nodup)
    (hwithin : ∀ b ∈ writes.map Prod.fst, b ∈ t.addresses ++ allocated)
    (hwritten : ∀ b ∈ allocated, b ∈ writes.map Prod.fst)
    (hfilled : ∀ p ∈ pieces, (1 ≤ p.fill ∧ p.fill ≤ cap) ∧ p.Filled cap)
    (hrep : ∀ p ∈ pieces, Represents (overlay writes read) p (build p)) :
    Rewritten read cap alloc new own t ((own ++ extra).zip pieces)
      (writes ++ ((own ++ extra).zip pieces).map (fun c => (c.1, build c.2)))
      (allocated ++ extra) := by
  have hnodup := hdrawn.nodup hfresh
  obtain ⟨-, hextra, hapart⟩ := List.nodup_append.mp hnodup
  -- none of the blocks taken here is one that the levels below have
  have hnew : ∀ b ∈ own ++ extra, b ∉ t.addresses ++ allocated := by
    intro b hb hin
    rcases List.mem_append.mp hb with hb | hb <;> rcases List.mem_append.mp hin with hin | hin
    · exact hdisjoint b hb hin
    · exact hdrawn.not_mem_old hfresh (List.mem_append_left _ hin)
        (hold b (List.mem_append_left _ hb))
    · exact hdrawn.not_mem_old hfresh (List.mem_append_right _ hb)
        (hold b (List.mem_append_right _ hin))
    · exact hapart b hin b hb rfl
  have hkeys : (((own ++ extra).zip pieces).map (fun c => (c.1, build c.2))).map Prod.fst =
      own ++ extra := by
    rw [List.map_map]
    exact List.map_fst_zip (by omega)
  have hblocksNodup : (own ++ extra).Nodup := by
    rw [List.nodup_append]
    refine ⟨?_, hextra, ?_⟩
    · match own, hown with
      | [], _ => exact List.nodup_nil
      | [b], _ => exact List.nodup_singleton b
    · rintro b hb b' hb' rfl
      exact hdrawn.not_mem_old hfresh (List.mem_append_right _ hb')
        (hold b (List.mem_append_left _ hb))
  have hall : (writes.map Prod.fst ++ (own ++ extra)).Nodup := by
    rw [List.nodup_append]
    refine ⟨honce, hblocksNodup, ?_⟩
    rintro b hb b' hb' rfl
    exact hnew b hb' (hwithin b hb)
  have hperm : (own ++ extra ++ (t.addresses ++ allocated)).Perm
      (own ++ t.addresses ++ (allocated ++ extra)) := by
    simp only [List.append_assoc]
    refine List.Perm.append_left _ ?_
    refine List.perm_append_comm.trans ?_
    rw [List.append_assoc]
  constructor
  case first =>
    intro p hp
    obtain ⟨rest, rfl⟩ : ∃ rest, own = p :: rest := by
      match own, hown, hp with
      | [b], _, hp => exact ⟨[], by rw [List.mem_singleton.mp hp]⟩
    cases pieces with
    | nil => cases hlen
    | cons x pieces => rfl
  case count => rw [List.length_zip]; omega
  case stored =>
    refine overlay_pieces hlen hall ?_ hrep
    intro p hp a ha hb
    exact hnew a hb (haddr.mem_iff.mp (List.mem_flatMap.mpr ⟨p, hp, ha⟩))
  case filled => exact fun c hc => hfilled c.2 (List.of_mem_zip hc).2
  case blocks =>
    intro c hc
    obtain hb | hb := List.mem_append.mp (List.of_mem_zip hc).1
    · exact hblocks _ hb
    · obtain ⟨i, hi⟩ := hdrawn.exists (List.mem_append_right _ hb)
      exact hfresh.block i _ hi
  case entries => rwa [LevelTree.entries_zip hlen]
  case addresses =>
    exact (LevelTree.addresses_zip hlen).trans ((haddr.append_left _).trans hperm)
  case once => rwa [List.map_append, hkeys]
  case within =>
    intro b hb
    rw [List.map_append, hkeys] at hb
    refine hperm.mem_iff.mp ?_
    obtain hb | hb := List.mem_append.mp hb
    · exact List.mem_append_right _ (hwithin b hb)
    · exact List.mem_append_left _ hb
  case fresh =>
    intro b hb
    rw [List.map_append, hkeys]
    obtain hb | hb := List.mem_append.mp hb
    · exact List.mem_append_left _ (hwritten b hb)
    · exact List.mem_append_right _ (List.mem_append_right _ hb)
  case drawn => exact hdrawn

end Pieces

end FsExt4
