import FsExt4.DeepInsert
import FsExt4.Inode

namespace FsExt4

open Lib

def leafFull : String := "LEAF_FULL_NEEDS_PROMOTION: root has no slot for new extent"
def multiLevel : String := "extent_mut: multi-level tree mutation not yet supported"

/-- The new inline root, when the root is a leaf with room for the extent. -/
def planInsertExtent (root : Bytes) (new : Extent) : Result Bytes := do
  let header ← ExtentHeader.parse root
  if !header.isLeaf then throw (.corruptExtentTree multiLevel)
  let before ← parseLeafEntries root header
  checkNoOverlap before new
  let entries := insertIntoLeafSorted before new
  if header.max < entries.length % 2 ^ 16 then throw (.corruptExtentTree leafFull)
  buildRoot header entries root.length

/-- What a preallocation stages of the file's tree: nothing, or a new root and the nodes to
write. -/
inductive StagedTree where
  | nothing
  | staged (newRoot : Bytes) (blockWrites : List (Nat × Bytes))

def refuseMapped (root : Bytes) (blockSize first : Nat) : Nat → DevIo Unit
  | 0 => return ()
  | count + 1 => do
    if (← Extent.mapLogical root blockSize first).isSome then
      .fail (.invalidArgument "fallocate: range partially mapped (v1 limitation)")
    else
      refuseMapped root blockSize (first + 1) count

def needBlocks (blockSize offset len : Nat) : Nat :=
  (offset + len + blockSize - 1) / blockSize - offset / blockSize

def preallocation (blockSize offset len physical : Nat) : Extent :=
  ⟨offset / blockSize % 2 ^ 32, needBlocks blockSize offset len, physical, true⟩

/-- `apply_fallocate_keep_size` up to the tree that it stages for its commit. `run` is what the
allocation of the data run comes to and `alloc` what that of each tree node does; nothing is
returned when the descent of a deep insert takes more than `fuel` nodes. -/
def applyFallocateKeepSize (fuel blockSize : Nat) (inode : Inode) (offset len : Nat)
    (run : Nat → Result Nat) (read : NodeReader) (alloc : Allocator) : DevIo (Option StagedTree) :=
  if len = 0 then return some .nothing
  else if 2 ^ 64 ≤ offset + len then .fail (.invalidArgument "fallocate: offset+len overflow")
  else
    let need := needBlocks blockSize offset len
    if 2 ^ 32 ≤ need then .fail (.invalidArgument "fallocate: range exceeds u32 block count")
    else if !inode.isFile then .fail (.invalidArgument "fallocate: target is not a regular file")
    else if !inode.hasExtents then
      .fail (.invalidArgument "fallocate: legacy (non-extents) inodes not supported")
    else do
      refuseMapped inode.block blockSize (offset / blockSize) need
      let physical ← liftM (run need)
      if 0x7FFF < need then
        .fail (.invalidArgument "fallocate: single-extent length > 32K blocks (split needed)")
      else
        let new := preallocation blockSize offset len physical
        match planInsertExtent inode.block new with
        | .ok newRoot => return some (.staged newRoot [])
        | .error e =>
          if e = .corruptExtentTree leafFull ∨ e = .corruptExtentTree multiLevel then
            match planInsertExtentDeep fuel inode.block new blockSize read alloc with
            | none => return none
            | some (.error e) => .fail e
            | some (.ok plan) => return some (.staged plan.newRoot plan.blockWrites)
          else .fail e

section Descent

variable {read : NodeReader} {cap n fuel : Nat} {new : Extent}

theorem descendFrom_route {t : LevelTree Extent n} {node : Bytes} (p target : Nat)
    (htree : Represents read t node) (hfill : 0 < n → 1 ≤ t.fill) (hfilled : t.Filled cap)
    (hfuel : n < fuel) (above : List PathFrame) :
    ∃ leaf path, descendFrom read target fuel ⟨p, node⟩ above = some (.ok (leaf, path)) ∧
      Represents read (LevelTree.leaf (t.route Extent.logicalBlock target).2.1) leaf.bytes := by
  obtain ⟨fuel, rfl⟩ : ∃ f, fuel = f + 1 := ⟨fuel - 1, by omega⟩
  induction n generalizing node p fuel above with
  | zero => exact ⟨⟨p, node⟩, above, by rw [descendFrom, descendStep_leaf htree], htree⟩
  | succ n ih =>
    obtain ⟨A, ⟨b, c⟩, B, haround⟩ : ∃ A c B,
        around (fun c => c.2.key Extent.logicalBlock) target t.children = some (A, c, B) :=
      around_isSome (List.length_pos_iff.mp (hfill (Nat.succ_pos n)))
    have hmem : (b, c) ∈ t.children := by rw [around_append haround]; simp
    obtain ⟨-, -, -, -, hbelow⟩ := id htree
    obtain ⟨child, hread, hchild⟩ := hbelow (b, c) hmem
    obtain ⟨fuel, rfl⟩ : ∃ f, fuel = f + 1 := ⟨fuel - 1, by omega⟩
    obtain ⟨leaf, path, hdown, hleaf⟩ := ih b hchild (fun _ => (hfilled _ hmem).1.1)
      (hfilled _ hmem).2 (⟨p, node⟩ :: above) fuel (by omega)
    refine ⟨leaf, path, ?_, ?_⟩
    · rw [descendFrom, descendStep_index htree haround hread]
      exact hdown
    · rw [LevelTree.route_succ haround]
      exact hleaf

end Descent

def overlapError : Error := .corruptExtentTree "extent overlaps existing"

def Silent {α : Type} (r : Result α) : Prop := r ≠ .error overlapError

section Silent

variable {α β : Type}

theorem silent_ok (a : α) : Silent (.ok a : Result α) := nofun

theorem Silent.bind {x : Result α} {f : α → Result β} (hx : Silent x) (hf : ∀ a, Silent (f a)) :
    Silent (x >>= f) := by
  cases x with
  | ok a => exact hf a
  | error e => exact fun h => hx (congrArg Except.error (Except.error.inj h))

theorem silent_message (msg : String) (h : msg ≠ "extent overlaps existing") :
    Silent (.error (.corruptExtentTree msg) : Result α) :=
  fun heq => h (Error.corruptExtentTree.inj (Except.error.inj heq))

theorem silent_mapM {f : α → Result β} (h : ∀ a, Silent (f a)) (l : List α) : Silent
    (l.mapM f) := by
  induction l with
  | nil => exact silent_ok _
  | cons a l ih =>
    rw [List.mapM_cons]
    exact (h a).bind fun _ => ih.bind fun _ => silent_ok _

theorem silent_parseEntries {parse : Bytes → Result α} {outOfRange : String}
    (hparse : ∀ raw, Silent (parse raw)) (hmsg : outOfRange ≠ "extent overlaps existing")
      (node : Bytes)
    (count : Nat) : Silent (parseEntries parse outOfRange node count) := by
  refine silent_mapM (fun i => ?_) _
  unfold entryAt
  split
  · exact silent_message _ hmsg
  · exact hparse _

theorem silent_header (raw : Bytes) : Silent (ExtentHeader.parse raw) := by
  unfold ExtentHeader.parse
  simp only [throw, throwThe, MonadExceptOf.throw, bind, Except.bind, pure, Except.pure]
  split
  · exact silent_message "header buffer too small" (by decide)
  · split
    · exact silent_message "bad extent header magic" (by decide)
    · split
      · exact silent_message "entries > max" (by decide)
      · exact silent_ok _

theorem silent_parseIndexEntries (node : Bytes) (header : ExtentHeader) :
    Silent (parseIndexEntries node header) := by
  refine silent_parseEntries (fun raw => ?_) (by decide) _ _
  unfold ExtentIdx.parse
  split
  · exact silent_message _ (by decide)
  · exact silent_ok _

theorem silent_applyCorrection (frame : PathFrame) (indices : List ExtentIdx)
    (correction : Option (Nat × Nat)) : Silent (applyCorrection frame indices correction) := by
  unfold applyCorrection
  split
  · exact silent_ok _
  · split
    · exact silent_message _ (by decide)
    · exact silent_ok _

end Silent

section Ascent

variable {root : Bytes} {generation : UInt32} {blockSize : Nat} {alloc : Allocator}
  (hquiet : ∀ i, Silent (alloc i))

include hquiet

theorem silent_indexLevel (isRootHere : Bool) (frame : PathFrame) (propagated : Option ExtentIdx)
    (correction : Option (Nat × Nat)) (writes : List (Nat × Bytes)) (allocated : List Nat) :
    Silent (indexLevel root generation blockSize alloc isRootHere frame propagated correction writes
      allocated) := by
  unfold indexLevel
  refine (silent_header _).bind fun header => (silent_parseIndexEntries _ _).bind fun before =>
    (silent_applyCorrection _ _ _).bind fun corrected => ?_
  simp only [throw, throwThe, MonadExceptOf.throw, pure, Except.pure]
  cases isRootHere with
  | true =>
    simp only [if_true]
    split
    · exact silent_ok _
    · split
      · exact silent_message _ (by decide)
      · exact (hquiet _).bind fun _ => (hquiet _).bind fun _ => silent_ok _
  | false =>
    simp only [Bool.false_eq_true, if_false]
    split
    · split
      · exact silent_ok _
      · exact silent_ok _
    · exact (hquiet _).bind fun _ => silent_ok _

theorem silent_ascend (above : List PathFrame) (progress : Progress) :
    Silent (ascend root generation blockSize alloc above progress) := by
  induction above generalizing progress with
  | nil =>
    cases progress with
    | done plan => exact silent_ok plan
    | up => exact silent_message _ (by decide)
  | cons frame above ih =>
    cases progress with
    | done plan => exact silent_ok plan
    | up => exact (silent_indexLevel hquiet _ _ _ _ _ _).bind ih

variable (root generation blockSize) in
theorem leafLevel_overlap {new : Extent} (isRootLeaf : Bool) {frame : PathFrame} {es : List Extent}
    {read : NodeReader} (hleaf : Represents read (LevelTree.leaf es) frame.bytes) :
    (leafLevel root generation blockSize alloc new isRootLeaf frame = .error overlapError ↔
      ∃ e ∈ es, e.meets new = true) := by
  obtain ⟨header, hparse, -, hentries⟩ := hleaf
  unfold leafLevel
  rw [hparse]
  change (parseLeafEntries frame.bytes header >>= _) = _ ↔ _
  rw [hentries]
  change (checkNoOverlap es new >>= _) = _ ↔ _
  by_cases hany : ∃ e ∈ es, e.meets new = true
  · rw [checkNoOverlap, if_pos (List.any_eq_true.mpr hany)]
    exact ⟨fun _ => hany, fun _ => rfl⟩
  · have hnone : ∀ e ∈ es, e.meets new = false := by
      intro e he
      rw [Bool.eq_false_iff]
      exact fun hmeets => hany ⟨e, he, hmeets⟩
    rw [checkNoOverlap_eq_ok_iff.mpr hnone]
    refine ⟨fun h => absurd h ?_, fun h => absurd h hany⟩
    change Silent _
    simp only [bind, Except.bind, pure, Except.pure]
    cases isRootLeaf with
    | true =>
      simp only [if_true]
      split
      · exact silent_ok _
      · exact (hquiet 0).bind fun _ => silent_ok _
    | false =>
      simp only [Bool.false_eq_true, if_false]
      split
      · split
        · exact silent_ok _
        · exact silent_ok _
      · exact (hquiet 0).bind fun _ => silent_ok _

end Ascent

/-- The leaves behind the new extent's own begin at or after its end, or it meets an extent of its
own leaf. -/
def OwnLeafDecides {n : Nat} (t : LevelTree Extent n) (new : Extent) : Prop :=
  (∀ e ∈ (t.route Extent.logicalBlock new.logicalBlock).2.2,
    new.logicalBlock + new.length ≤ e.logicalBlock) ∨
    ∃ e ∈ (t.route Extent.logicalBlock new.logicalBlock).2.1, e.meets new = true

def NoDoubleCover (es : List Extent) : Prop :=
  es.Pairwise (fun a b => ∀ logical, ¬ (a.contains logical = true ∧ b.contains logical = true))

theorem meets_eq_true {e new : Extent} : e.meets new = true ↔
    e.logicalBlock < new.logicalBlock + new.length ∧ new.logicalBlock <
      e.logicalBlock + e.length := by
  rw [Extent.meets, Bool.not_eq_true', decide_eq_false_iff_not]
  omega

section Route

variable {blockSize n : Nat} {read : NodeReader} {root : Bytes} {t : LevelTree Extent n}
  {new : Extent} (ht : WellFormed blockSize read root t)

include ht

theorem mem_route_of_meets {e : Extent} (he : e ∈ t.entries) (hmeets : e.meets new = true) :
    e ∈ (t.route Extent.logicalBlock new.logicalBlock).2.1 ∨
      (e ∈ (t.route Extent.logicalBlock new.logicalBlock).2.2 ∧
        e.logicalBlock < new.logicalBlock + new.length) := by
  obtain ⟨hentries, hfront, hbehind⟩ := t.route_spec (x := new.logicalBlock) ht.rootIndex
    ht.filled ht.apart
  obtain ⟨hlt, hgt⟩ := meets_eq_true.mp hmeets
  rw [hentries] at he
  obtain he | he := List.mem_append.mp he
  · obtain he | he := List.mem_append.mp he
    · have hend := hfront e he
      omega
    · exact .inl he
  · exact .inr ⟨he, hlt⟩

theorem ownLeafDecides_iff
    (hclean : ∀ e ∈ (t.route Extent.logicalBlock new.logicalBlock).2.1, e.meets new = false) :
    OwnLeafDecides t new ↔ ∀ e ∈ t.entries, e.meets new = false := by
  obtain ⟨hentries, -, hbehind⟩ := t.route_spec (x := new.logicalBlock) ht.rootIndex
    ht.filled ht.apart
  constructor
  · rintro (hle | ⟨e, he, hmeets⟩)
    · intro e he
      rw [Bool.eq_false_iff]
      intro hmeets
      obtain hin | ⟨hin, hlt⟩ := mem_route_of_meets ht he hmeets
      · rw [hclean e hin] at hmeets
        cases hmeets
      · have hend := hle e hin
        omega
    · rw [hclean e he] at hmeets
      cases hmeets
  · intro hnone
    left
    intro e he
    have hin : e ∈ t.entries := by rw [hentries]; simp [he]
    exact le_of_not_meets (hbehind e he) (hnone e hin) (ht.valid e hin).pos

theorem planInsertExtentDeep_overlap_iff {fuel : Nat} {alloc : Allocator}
    (hquiet : ∀ i, Silent (alloc i)) (hfuel : n < fuel) :
    planInsertExtentDeep fuel root new blockSize read alloc = some (.error overlapError) ↔
      ∃ e ∈ (t.route Extent.logicalBlock new.logicalBlock).2.1, e.meets new = true := by
  obtain ⟨header, hparse, hdepth⟩ := ht.tree.parse
  obtain ⟨leaf, path, hdown, hleaf⟩ := descendFrom_route 0 new.logicalBlock ht.tree
    ht.rootIndex ht.filled hfuel []
  unfold planInsertExtentDeep
  rw [if_neg (by rw [ht.length]; decide), hparse]
  dsimp only
  rw [hdepth, if_neg (Nat.not_lt.mpr ht.depth), hdown, Option.map_some, Option.some.injEq]
  rw [← leafLevel_overlap root header.generation blockSize hquiet path.isEmpty hleaf]
  change (leafLevel root header.generation blockSize alloc new path.isEmpty leaf >>= _) = _ ↔ _
  cases leafLevel root header.generation blockSize alloc new path.isEmpty leaf with
  | error e =>
    exact ⟨fun h => congrArg Except.error (Except.error.inj h),
      fun h => congrArg Except.error (Except.error.inj h)⟩
  | ok progress =>
    exact ⟨fun h => absurd h (silent_ascend hquiet path progress), nofun⟩

theorem overlap_refused_iff {fuel : Nat} {alloc : Allocator} (hquiet : ∀ i, Silent (alloc i))
    (hfuel : n < fuel) :
    ((∃ e ∈ t.entries, e.meets new = true) →
      planInsertExtentDeep fuel root new blockSize read alloc = some (.error overlapError)) ↔
      OwnLeafDecides t new := by
  rw [planInsertExtentDeep_overlap_iff ht hquiet hfuel]
  constructor
  · intro hrefused
    by_cases hown : ∃ e ∈ (t.route Extent.logicalBlock new.logicalBlock).2.1, e.meets new = true
    · exact .inr hown
    · refine (ownLeafDecides_iff ht ?_).mpr ?_
      · intro e he
        rw [Bool.eq_false_iff]
        exact fun hmeets => hown ⟨e, he, hmeets⟩
      · intro e he
        rw [Bool.eq_false_iff]
        exact fun hmeets => hown (hrefused ⟨e, he, hmeets⟩)
  · rintro (hle | hown) ⟨e, he, hmeets⟩
    · obtain hin | ⟨hin, hlt⟩ := mem_route_of_meets ht he hmeets
      · exact ⟨e, hin, hmeets⟩
      · have hend := hle e hin
        omega
    · exact hown

end Route

theorem MergeStep.covered {es es' : List Extent} (h : MergeStep es es') {logical : Nat}
    (hc : ∃ e ∈ es, e.contains logical = true) : ∃ e ∈ es', e.contains logical = true := by
  obtain ⟨A, a, b, B, rfl, hab, rfl⟩ := h
  obtain ⟨-, -, hnext, -⟩ := areContiguous_iff.mp hab
  obtain ⟨e, he, hcov⟩ := hc
  have hrange := contains_iff.mp hcov
  obtain he | he := List.mem_append.mp he
  · exact ⟨e, List.mem_append_left _ he, hcov⟩
  · obtain rfl | he := List.mem_cons.mp he
    · refine ⟨_, List.mem_append_right _ List.mem_cons_self, contains_iff.mpr ?_⟩
      dsimp only
      omega
    · obtain rfl | he := List.mem_cons.mp he
      · refine ⟨_, List.mem_append_right _ List.mem_cons_self, contains_iff.mpr ?_⟩
        dsimp only
        omega
      · exact ⟨e, List.mem_append_right _ (List.mem_cons_of_mem _ he), hcov⟩

theorem Merged.covered {es es' : List Extent} (h : Merged es es') {logical : Nat}
    (hc : ∃ e ∈ es, e.contains logical = true) : ∃ e ∈ es', e.contains logical = true := by
  induction h with
  | refl => exact hc
  | tail _ hstep ih => exact hstep.covered ih

theorem InOrder.noDoubleCover {es : List Extent} (h : InOrder es) : NoDoubleCover es := by
  refine List.Pairwise.imp ?_ h.apart
  rintro a b hab logical ⟨ha, hb⟩
  have hrange := contains_iff.mp ha
  have hrange' := contains_iff.mp hb
  omega

theorem Inserted.noDoubleCover_iff {new : Extent} {es es' : List Extent} (h : Inserted new es es')
    (ho : InOrder es) (hnew : new.Valid) :
    NoDoubleCover es' ↔ ∀ e ∈ es, e.meets new = false := by
  refine ⟨fun hsingle => ?_, fun hmeets => (h.inOrder ho hnew hmeets).noDoubleCover⟩
  obtain ⟨front, m, behind, rfl, rfl, hfront, hclean, hbehind⟩ := h
  intro e he
  rw [Bool.eq_false_iff]
  intro hmeets
  obtain ⟨hlt, hgt⟩ := meets_eq_true.mp hmeets
  obtain he | he := List.mem_append.mp he
  · obtain he | he := List.mem_append.mp he
    · have hend := hfront e he
      omega
    · rw [hclean e he] at hmeets
      cases hmeets
  · -- the first block of `e` is also one that the new extent has brought into the leaf
    have hstart := hbehind e he
    have hpos := (ho.valid e (List.mem_append_right _ he)).pos
    obtain ⟨a, ha, hcov⟩ := (merged_insertIntoLeafSorted m new).covered
      ⟨new, by simp [insertByKey], contains_iff.mpr (⟨Nat.le_of_lt hstart, hlt⟩ : _ ∧
      e.logicalBlock < _)⟩
    refine (List.pairwise_append.mp hsingle).2.2 a (List.mem_append_right _ ha) e he e.logicalBlock
      ⟨hcov, contains_iff.mpr ⟨Nat.le_refl _, ?_⟩⟩
    omega

section Staged

variable {blockSize n fuel : Nat} {read : NodeReader} {root : Bytes} {t : LevelTree Extent n}
  {alloc : Allocator} {new : Extent} (ht : WellFormed blockSize read root t) (hnew : new.Valid)

include ht hnew

theorem planInsertExtent_ok {newRoot : Bytes}
    (hmax : ∀ header, ExtentHeader.parse root = .ok header → header.max ≤ 4)
    (h : planInsertExtent root new = .ok newRoot) :
    OwnLeafDecides t new ∧ ∃ t' : LevelTree Extent 0,
      Represents (overlay [] read) t' newRoot ∧ NoDoubleCover t'.entries := by
  obtain ⟨header, hparse, hdepth⟩ := ht.tree.parse
  have hmax := hmax header hparse
  unfold planInsertExtent at h
  simp only [hparse, bind, Except.bind] at h
  cases n with
  | succ n =>
    have hleaf : header.isLeaf = false := by simp [ExtentHeader.isLeaf, hdepth]
    simp [hleaf, throw, throwThe, MonadExceptOf.throw] at h
  | zero =>
    refine ⟨.inl fun e he => absurd he List.not_mem_nil, ?_⟩
    obtain ⟨header', hparse', -, hentries⟩ := ht.tree
    obtain rfl : header' = header := Except.ok.inj (hparse'.symm.trans hparse)
    have hleaf : header'.isLeaf = true := by simp [ExtentHeader.isLeaf, hdepth]
    simp only [hleaf, hentries, Bool.not_true, Bool.false_eq_true, if_false] at h
    cases hcheck : checkNoOverlap t.entries new with
    | error e =>
      rw [hcheck] at h
      cases h
    | ok u =>
      have hclean := checkNoOverlap_eq_ok_iff.mp hcheck
      have hafter := (inserted_leaf hclean).inOrder ⟨ht.apart, ht.valid⟩ hnew hclean
      simp only [hcheck, throw, throwThe, MonadExceptOf.throw] at h
      split at h
      · cases h
      · rename_i hroom
        obtain ⟨-, rfl⟩ := buildRoot_eq_ok.mp h
        obtain ⟨-, hlen⟩ := length_insertIntoLeafSorted t.entries new
        have hfill : t.entries.length ≤ 4 := ht.rootFill
        rw [Nat.mod_eq_of_lt (by omega)] at hroom
        refine ⟨LevelTree.leaf (insertIntoLeafSorted t.entries new), ?_, hafter.noDoubleCover⟩
        rw [hdepth]
        exact represents_leaf hafter.valid (by omega) (by omega)

theorem planInsertExtentDeep_staged {plan : DeepInsertPlan} (h1024 : 1024 ≤ blockSize)
    (h64k : blockSize ≤ 65536) (hfresh : Allocator.Fresh alloc (0 :: t.addresses))
    (hquiet : ∀ i, Silent (alloc i)) (hfuel : n < fuel)
    (h : planInsertExtentDeep fuel root new blockSize read alloc = some (.ok plan)) :
    ∃ (n' : Nat) (t' : LevelTree Extent n'),
      Represents (overlay plan.blockWrites read) t' plan.newRoot ∧
      (NoDoubleCover t'.entries ↔ OwnLeafDecides t new) := by
  obtain ⟨result, hresult, hplan⟩ := planInsertExtentDeep_ok h1024 h64k ht hfresh hnew hfuel
  obtain ⟨n', t', htree⟩ := hplan plan (Option.some.inj (hresult.symm.trans h))
  refine ⟨n', t', htree.tree, ?_⟩
  rw [htree.entries.noDoubleCover_iff ⟨ht.apart, ht.valid⟩ hnew, ownLeafDecides_iff ht]
  intro e he
  rw [Bool.eq_false_iff]
  intro hmeets
  rw [(planInsertExtentDeep_overlap_iff ht hquiet hfuel).mpr ⟨e, he, hmeets⟩] at h
  cases h

end Staged

theorem needBlocks_pos {blockSize offset len : Nat} (hbs : 0 < blockSize) (hlen : len ≠ 0) :
    1 ≤ needBlocks blockSize offset len := by
  have hlast : (offset + len + blockSize - 1) / blockSize = (offset + len - 1) / blockSize + 1 := by
    rw [← Nat.add_div_right _ hbs]
    congr 1
    omega
  have hfirst : offset / blockSize ≤ (offset + len - 1) / blockSize :=
    Nat.div_le_div_right (by omega)
  rw [needBlocks, hlast]
  omega

theorem applyFallocateKeepSize_staged {fuel blockSize offset len : Nat} {inode : Inode}
    {run : Nat → Result Nat} {read : NodeReader} {alloc : Allocator} {d d' : Disk} {newRoot : Bytes}
    {writes : List (Nat × Bytes)}
    (h : (applyFallocateKeepSize fuel blockSize inode offset len run read alloc).exec d =
      (.ok (some (.staged newRoot writes)), d')) :
    len ≠ 0 ∧ needBlocks blockSize offset len ≤ 0x7FFF ∧
      ∃ physical, run (needBlocks blockSize offset len) = .ok physical ∧
        ((planInsertExtent inode.block (preallocation blockSize offset len physical) = .ok newRoot ∧
          writes = []) ∨
        ∃ plan, planInsertExtentDeep fuel inode.block (preallocation blockSize offset len physical)
            blockSize read alloc = some (.ok plan) ∧
          plan.newRoot = newRoot ∧ plan.blockWrites = writes) := by
  unfold applyFallocateKeepSize at h
  split at h
  · cases h
  rename_i hlen
  split at h
  · cases h
  dsimp only at h
  split at h
  · cases h
  split at h
  · cases h
  split at h
  · cases h
  obtain ⟨-, d₁, -, h⟩ := Io.exec_bind_eq_ok _ _ _ _ _ h
  obtain ⟨physical, d₂, hrun, h⟩ := Io.exec_bind_eq_ok _ _ _ _ _ h
  rw [Io.exec_liftM] at hrun
  split at h
  · cases h
  rename_i hshort
  refine ⟨hlen, Nat.le_of_not_lt hshort, physical, (Prod.mk.inj hrun).1, ?_⟩
  split at h
  · rename_i root' hplan
    cases h
    exact .inl ⟨hplan, rfl⟩
  · split at h
    · split at h
      · cases h
      · cases h
      · rename_i plan hplan
        cases h
        exact .inr ⟨plan, hplan, rfl, rfl⟩
    · cases h

theorem refuseMapped_exec {blockSize n : Nat} (count first : Nat) {root : Bytes}
    {t : LevelTree Extent n} {d : Disk} (ht : WellFormed blockSize (nodeOn d blockSize) root t)
    (hfree : ∀ e ∈ t.entries, ∀ logical, e.contains logical = true → first ≤ logical →
      logical < first + count → e.uninitialized = true) :
    (refuseMapped root blockSize first count).exec d = (.ok (), d) := by
  induction count generalizing first with
  | zero => rfl
  | succ count ih =>
    have hnone : (Extent.mapLogical root blockSize first).exec d = (.ok none, d) := by
      rw [Extent.mapLogical_exec (Extent.lookup_exec ht first)]
      cases hfind : t.entries.find? (covers Extent.logicalBlock Extent.length first) with
      | none => rfl
      | some e =>
        have hcov : e.contains first = true := (Extent.contains_eq_covers e first).trans
          (List.find?_some hfind)
        have huninit := hfree e (List.mem_of_find?_eq_some hfind) first hcov
          (Nat.le_refl _) (by omega)
        simp [huninit]
    unfold refuseMapped
    rw [Io.exec_bind_ok _ _ _ _ _ hnone, if_neg (by simp)]
    exact ih _ fun e he logical hcov hle hlt => hfree e he logical hcov (by omega) (by omega)

/-- An insert refuses every overlap, and a preallocation stages no tree that covers a block twice,
exactly where the leaf that the new extent's first block belongs in decides: where the extent ends
before the next leaf begins, or meets an extent of its own leaf. -/
theorem overlap_refused_iff_own_leaf_decides {blockSize n fuel : Nat} {read : NodeReader}
    {root : Bytes} {t : LevelTree Extent n} {alloc : Allocator} (h1024 : 1024 ≤ blockSize)
      (h64k : blockSize ≤ 65536)
    (ht : WellFormed blockSize read root t) (hquiet : ∀ i, alloc i ≠ .error overlapError)
    (hfuel : n < fuel) :
    (∀ new : Extent, ((∃ e ∈ t.entries, e.meets new = true) →
      planInsertExtentDeep fuel root new blockSize read alloc = some (.error overlapError)) ↔
        OwnLeafDecides t new) ∧
    ∀ (inode : Inode) (offset len : Nat) (run : Nat → Result Nat) (d d' : Disk) (newRoot : Bytes)
      (writes : List (Nat × Bytes)), inode.block = root →
      (∀ header, ExtentHeader.parse root = .ok header → header.max ≤ 4) →
      Allocator.Fresh alloc (0 :: t.addresses) → (∀ k p, run k = .ok p → p < 2 ^ 48) →
      (applyFallocateKeepSize fuel blockSize inode offset len run read alloc).exec d =
        (.ok (some (.staged newRoot writes)), d') →
      ∃ (n' : Nat) (t' : LevelTree Extent n'), Represents (overlay writes read) t' newRoot ∧
        (NoDoubleCover t'.entries ↔ OwnLeafDecides t (preallocation blockSize offset len 0)) := by
  refine ⟨fun new => overlap_refused_iff ht hquiet hfuel, ?_⟩
  rintro inode offset len run d d' newRoot writes rfl hmax hfresh hrun h
  obtain ⟨hlen, hshort, physical, hphysical, hplan⟩ := applyFallocateKeepSize_staged h
  have hnew : (preallocation blockSize offset len physical).Valid :=
    ⟨Nat.mod_lt _ (by decide), needBlocks_pos (by omega) hlen, hshort, hrun _ _ hphysical⟩
  obtain ⟨hroot, rfl⟩ | ⟨plan, hdeep, rfl, rfl⟩ := hplan
  · obtain ⟨hown, t', htree, hsingle⟩ := planInsertExtent_ok ht hnew hmax hroot
    exact ⟨0, t', htree, fun _ => hown, fun _ => hsingle⟩
  · exact planInsertExtentDeep_staged ht hnew h1024 h64k hfresh hquiet hfuel hdeep

def firstLeaf : List Extent := [⟨0, 1, 100, false⟩]

def secondLeaf : List Extent := [⟨100, 10, 200, true⟩]

def twoLeaves : LevelTree Extent 1 :=
  LevelTree.node [(7, LevelTree.leaf firstLeaf), (8, LevelTree.leaf secondLeaf)]

def twoLeavesRoot : Bytes := buildInlineIndexRoot 0 1 [⟨0, 7⟩, ⟨100, 8⟩]

def twoLeavesReader : NodeReader := fun b =>
  if b = 7 then .ok (buildFullLeafBlock 0 firstLeaf 1024)
  else if b = 8 then .ok (buildFullLeafBlock 0 secondLeaf 1024)
  else .error .io

theorem twoLeaves_valid : ∀ e ∈ twoLeaves.entries, e.Valid := by
  intro e he
  obtain rfl | he := List.mem_cons.mp he
  · constructor <;> decide
  · obtain rfl := List.mem_singleton.mp he
    constructor <;> decide

theorem twoLeaves_wellFormed : WellFormed 1024 twoLeavesReader twoLeavesRoot twoLeaves where
  depth := by decide
  length := length_buildInlineIndexRoot (by decide)
  tree := by
    refine represents_index (t := twoLeaves) (by decide)
      (fun e he => (twoLeaves_valid e he).logical) (by decide) (by decide) (by decide) ?_
    intro c hc
    obtain rfl | hc := List.mem_cons.mp hc
    · refine ⟨_, rfl, represents_leaf (fun e he => twoLeaves_valid e ?_) (by decide) (by decide)⟩
      exact List.mem_append_left _ he
    · obtain rfl := List.mem_singleton.mp hc
      refine ⟨_, rfl, represents_leaf (fun e he => twoLeaves_valid e ?_) (by decide) (by decide)⟩
      exact List.mem_cons_of_mem _ he
  rootFill := by decide
  rootIndex := by decide
  filled := by
    intro c hc
    obtain rfl | hc := List.mem_cons.mp hc
    · exact ⟨by decide, trivial⟩
    · obtain rfl := List.mem_singleton.mp hc
      exact ⟨by decide, trivial⟩
  valid := twoLeaves_valid
  apart := by
    change Apart Extent.logicalBlock Extent.length (firstLeaf ++ secondLeaf)
    unfold Apart
    decide
  distinct := by decide
  nonzero := by decide

/-- An extent that begins in the gap behind the first leaf and runs into the second leaf's
extent. -/
def reaching : Extent := ⟨50, 60, 300, true⟩

def twoLeavesDisk : Disk :=
  ⟨16384, Image.write (Image.write (fun _ => 0) 7168 (buildFullLeafBlock 0 firstLeaf 1024)) 8192
    (buildFullLeafBlock 0 secondLeaf 1024)⟩

def twoLeavesInode : Inode := ⟨0x8000, 1024, 1, 12, inodeFlagExtents, twoLeavesRoot, 0, 0⟩

theorem oneBlock_quiet (i : Nat) : oneBlock i ≠ .error overlapError := by
  unfold oneBlock
  split <;> simp [overlapError]

theorem twoLeavesDisk_nodes : ∀ b ∈ twoLeaves.addresses,
    nodeOn twoLeavesDisk 1024 b = twoLeavesReader b := by
  have hlen : ∀ es : List Extent, es.length ≤ 84 →
      (buildFullLeafBlock 0 es 1024).length = 1024 := by
    intro es hes
    refine length_buildNode (fun b hb => ?_) ?_
    · obtain ⟨e, -, rfl⟩ := List.mem_map.mp hb
      exact length_encodeExtent e
    · rw [List.length_map]
      simp only [nodeSize]
      omega
  have hfirst := hlen firstLeaf (by decide)
  have hsecond := hlen secondLeaf (by decide)
  intro b hb
  obtain rfl | hb := List.mem_cons.mp hb
  · rw [nodeOn, if_pos (by decide)]
    have hself := Image.read_write_self (fun _ => 0) 7168 (buildFullLeafBlock 0 firstLeaf 1024)
    rw [hfirst] at hself
    refine congrArg Except.ok (Eq.trans ?_ hself)
    exact Image.read_write_disjoint _ 8192 _ 7168 1024 (.inl (by decide))
  · obtain rfl := List.mem_singleton.mp hb
    have hself := Image.read_write_self
      (Image.write (fun _ => 0) 7168 (buildFullLeafBlock 0 firstLeaf 1024))
      8192 (buildFullLeafBlock 0 secondLeaf 1024)
    rw [hsecond] at hself
    rw [nodeOn, if_pos (by decide)]
    exact congrArg Except.ok hself

theorem not_ownLeafDecides_reaching : ¬ OwnLeafDecides twoLeaves reaching := by
  rintro (hle | ⟨e, he, hmeets⟩)
  · exact absurd (hle ⟨100, 10, 200, true⟩ (by decide)) (by decide)
  · obtain rfl := List.mem_singleton.mp he
    exact absurd hmeets (by decide)

set_option maxRecDepth 8000 in
theorem reaching_inserted : ∃ plan,
    planInsertExtentDeep 2 twoLeavesRoot reaching 1024 twoLeavesReader oneBlock = some (.ok plan) :=
  ⟨_, rfl⟩

theorem twoLeaves_fallocate {offset len : Nat} {plan : DeepInsertPlan} (hlen : len ≠ 0)
    (hsum : ¬ 2 ^ 64 ≤ offset + len) (hneed : needBlocks 1024 offset len ≤ 0x7FFF)
      (hfirst : 1 ≤ offset / 1024)
    (hplan : planInsertExtentDeep 2 twoLeavesRoot (preallocation 1024 offset len 300) 1024
      twoLeavesReader oneBlock = some (.ok plan)) :
    (applyFallocateKeepSize 2 1024 twoLeavesInode offset len (fun _ => .ok 300) twoLeavesReader
      oneBlock).exec
      twoLeavesDisk = (.ok (some (.staged plan.newRoot plan.blockWrites)), twoLeavesDisk) := by
  have hpass := refuseMapped_exec (needBlocks 1024 offset len) (offset / 1024)
    (twoLeaves_wellFormed.congr twoLeavesDisk_nodes) (by
      intro e he logical hcov hle hlt
      obtain rfl | he := List.mem_cons.mp he
      · have hrange := contains_iff.mp hcov
        dsimp only at hrange
        omega
      · obtain rfl := List.mem_singleton.mp he
        rfl)
  have hblock : twoLeavesInode.block = twoLeavesRoot := rfl
  have hmulti : planInsertExtent twoLeavesRoot (preallocation 1024 offset len 300) =
      .error (.corruptExtentTree multiLevel) := rfl
  unfold applyFallocateKeepSize
  rw [if_neg hlen, if_neg hsum, hblock]
  dsimp only
  rw [if_neg (by omega), if_neg (by decide), if_neg (by decide),
    Io.exec_bind_ok _ _ _ _ _ hpass, Io.exec_bind_ok _ _ _ _ _ (Io.exec_liftM _ _),
    if_neg (by omega), hmulti]
  dsimp only
  rw [if_pos (.inr rfl), hplan]
  rfl

theorem overlap_not_refused_twoLeaves :
    WellFormed 1024 twoLeavesReader twoLeavesRoot twoLeaves ∧
      (∃ e ∈ twoLeaves.entries, e.meets reaching = true) ∧
      (∃ plan, planInsertExtentDeep 2 twoLeavesRoot reaching 1024 twoLeavesReader oneBlock =
        some (.ok plan)) ∧
      ∃ newRoot writes, (applyFallocateKeepSize 2 1024 twoLeavesInode 51200 61440 (fun _ => .ok 300)
          twoLeavesReader oneBlock).exec twoLeavesDisk =
            (.ok (some (.staged newRoot writes)), twoLeavesDisk) ∧
        ∃ (n : Nat) (t : LevelTree Extent n),
        Represents (overlay writes twoLeavesReader) t newRoot ∧
          ¬ NoDoubleCover t.entries := by
  obtain ⟨plan, hplan⟩ := reaching_inserted
  refine ⟨twoLeaves_wellFormed, ⟨⟨100, 10, 200, true⟩, by decide, by decide⟩, ⟨plan, hplan⟩,
    plan.newRoot, plan.blockWrites, ?_, ?_⟩
  · have hdeep : planInsertExtentDeep 2 twoLeavesRoot (preallocation 1024 51200 61440 300) 1024
        twoLeavesReader oneBlock = some (.ok plan) := hplan
    exact twoLeaves_fallocate (by decide) (by decide) (by decide) (by decide) hdeep
  · obtain ⟨n, t, htree, hiff⟩ := planInsertExtentDeep_staged twoLeaves_wellFormed
      (by constructor <;> decide) (by decide) (by decide) (oneBlock_fresh (by decide))
        oneBlock_quiet
      (by decide) hplan
    exact ⟨n, t, htree, fun hsingle => not_ownLeafDecides_reaching (hiff.mp hsingle)⟩

set_option maxRecDepth 8000 in
theorem clear_inserted : ∃ plan, planInsertExtentDeep 2 twoLeavesRoot
    (preallocation 1024 10240 2048 300) 1024 twoLeavesReader oneBlock = some (.ok plan) :=
  ⟨_, rfl⟩

/-- An insert over the first leaf's extent is refused, and a preallocation of two blocks between the
leaves stages a tree without a double cover. -/
theorem overlap_refused_twoLeaves :
    planInsertExtentDeep 2 twoLeavesRoot ⟨0, 1, 300, true⟩ 1024 twoLeavesReader oneBlock =
        some (.error overlapError) ∧
      ∃ newRoot writes, (applyFallocateKeepSize 2 1024 twoLeavesInode 10240 2048 (fun _ => .ok 300)
          twoLeavesReader oneBlock).exec twoLeavesDisk =
            (.ok (some (.staged newRoot writes)), twoLeavesDisk) ∧
        ∃ (n : Nat) (t : LevelTree Extent n),
        Represents (overlay writes twoLeavesReader) t newRoot ∧
          NoDoubleCover t.entries := by
  have hown : OwnLeafDecides twoLeaves ⟨0, 1, 300, true⟩ :=
    .inr ⟨⟨0, 1, 100, false⟩, by decide, by decide⟩
  have hclear : OwnLeafDecides twoLeaves (preallocation 1024 10240 2048 0) := by
    refine .inl (fun e he => ?_)
    revert e
    decide
  obtain ⟨hrefuse, hstage⟩ := overlap_refused_iff_own_leaf_decides (by decide)
    (by decide) twoLeaves_wellFormed oneBlock_quiet (by decide : 1 < 2)
  obtain ⟨plan, hplan⟩ := clear_inserted
  have hexec := @twoLeaves_fallocate 10240 2048 plan (by decide) (by decide) (by decide)
    (by decide) hplan
  have hroot : ExtentHeader.parse twoLeavesRoot = .ok ⟨2, 4, 1, 0⟩ := by decide
  have hmax : ∀ header, ExtentHeader.parse twoLeavesRoot = .ok header → header.max ≤ 4 := by
    intro header hheader
    rw [hroot] at hheader
    obtain rfl := Except.ok.inj hheader
    decide
  obtain ⟨n, t, htree, hsingle⟩ := hstage twoLeavesInode 10240 2048 (fun _ => .ok 300) _ _
    _ _ rfl hmax
    (oneBlock_fresh (by decide)) (fun _ p hp => by rw [← Except.ok.inj hp]; decide) hexec
  exact ⟨(hrefuse _).mpr hown ⟨⟨0, 1, 100, false⟩, by decide, by decide⟩, plan.newRoot,
    plan.blockWrites, hexec, n, t, htree, hsingle.mpr hclear⟩

end FsExt4
