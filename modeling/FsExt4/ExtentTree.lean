import FsExt4.ExtentNode
import FsExt4.Lib.LevelTree

namespace FsExt4

open Lib

theorem ExtentHeader.parse_eq_ok {raw : Bytes} {header : ExtentHeader} :
    ExtentHeader.parse raw = .ok header ↔ nodeSize ≤ raw.length ∧ u16leAt raw 0x00 = extMagic ∧
      header.entries ≤ header.max ∧ header = ⟨(u16leAt raw 0x02).toNat, (u16leAt raw 0x04).toNat,
        (u16leAt raw 0x06).toNat, u32leAt raw 0x08⟩ := by
  unfold ExtentHeader.parse
  simp only [throw, throwThe, MonadExceptOf.throw, bind, Except.bind, pure, Except.pure]
  constructor
  · intro h
    split at h
    · cases h
    · rename_i hlen
      split at h
      · cases h
      · rename_i hmagic
        split at h
        · cases h
        · rename_i hle
          cases h
          exact ⟨Nat.le_of_not_lt hlen, by simpa using hmagic, Nat.le_of_not_lt hle, rfl⟩
  · rintro ⟨hlen, hmagic, hle, rfl⟩
    rw [if_neg (Nat.not_lt.mpr hlen), if_neg (by simpa using hmagic), if_neg (Nat.not_lt.mpr hle)]

theorem ExtentIdx.valid_of_parse {raw : Bytes} {idx : ExtentIdx}
    (h : ExtentIdx.parse raw = .ok idx) : idx.Valid := by
  unfold ExtentIdx.parse at h
  split at h
  · cases h
  · cases h
    constructor
    · exact (u32leAt raw 0).toNat_lt
    · have h1 := (u16leAt raw 8).toNat_lt
      have h2 := (u32leAt raw 4).toNat_lt
      dsimp only
      omega

theorem Extent.parse_eq_ok {raw : Bytes} {e : Extent} (h : Extent.parse raw = .ok e) :
    nodeSize ≤ raw.length ∧
      e = ⟨(u32leAt raw 0x00).toNat,
        if extInitMaxLen < (u16leAt raw 0x04).toNat then (u16leAt raw 0x04).toNat - extInitMaxLen
        else (u16leAt raw 0x04).toNat,
        (u16leAt raw 0x06).toNat * 2 ^ 32 + (u32leAt raw 0x08).toNat,
        decide (extInitMaxLen < (u16leAt raw 0x04).toNat)⟩ := by
  unfold Extent.parse at h
  split at h
  · cases h
  · rename_i hlen
    cases h
    exact ⟨Nat.le_of_not_lt hlen, rfl⟩

theorem Extent.valid_of_parse {raw : Bytes} {e : Extent} (h : Extent.parse raw = .ok e)
    (hpos : e.length ≠ 0) :
    e.Valid := by
  obtain ⟨-, rfl⟩ := Extent.parse_eq_ok h
  have h0 := (u32leAt raw 0).toNat_lt
  have h4 := (u16leAt raw 4).toNat_lt
  have h6 := (u16leAt raw 6).toNat_lt
  have h8 := (u32leAt raw 8).toNat_lt
  have hval : extInitMaxLen = 32768 := rfl
  refine ⟨h0, Nat.pos_of_ne_zero hpos, ?_, ?_⟩
  · by_cases hinit : extInitMaxLen < (u16leAt raw 4).toNat
    · simp only [maxExtentLen, hinit, decide_true, if_true]
      omega
    · simp only [maxExtentLen, hinit, decide_false, if_false, Bool.false_eq_true]
      omega
  · dsimp only
    omega

section ParsedEntries

variable {α : Type} {parse : Bytes → Result α} {outOfRange : String} {node : Bytes} {count : Nat}
  {xs : List α}

theorem entryAt_of_parseEntries (h : parseEntries parse outOfRange node count = .ok xs) :
    List.Forall₂ (fun i x => entryAt parse outOfRange node i = .ok x) (List.range count) xs :=
  (mapM_eq_ok_iff _ _ _).mp h

theorem length_of_parseEntries (h : parseEntries parse outOfRange node count = .ok xs) :
    xs.length = count :=
  ((mapM_range_eq_ok_iff _ _ _).mp h).1

theorem parse_of_mem (h : parseEntries parse outOfRange node count = .ok xs) {x : α} (hx : x ∈ xs) :
    ∃ raw, parse raw = .ok x := by
  obtain ⟨i, hi, rfl⟩ := List.mem_iff_getElem.mp hx
  have hslot := ((mapM_range_eq_ok_iff _ _ _).mp h).2 i hi
  unfold entryAt at hslot
  split at hslot
  · cases hslot
  · exact ⟨_, hslot⟩

end ParsedEntries

abbrev NodeReader := Nat → Result Bytes

def indexOf {n : Nat} (c : Nat × LevelTree Extent n) : ExtentIdx :=
  ⟨c.2.key Extent.logicalBlock, c.1⟩

theorem chosen_map_indexOf {n logical : Nat} {children A B : List (Nat × LevelTree Extent n)}
    {c : Nat × LevelTree Extent n}
    (h : around (fun c => c.2.key Extent.logicalBlock) logical children = some (A, c, B)) :
    chosen ExtentIdx.logicalBlock logical (children.map indexOf) = some (indexOf c) := by
  have hmap : chosen ExtentIdx.logicalBlock logical (children.map indexOf) =
      (chosen (fun c => c.2.key Extent.logicalBlock) logical children).map indexOf := by
    unfold chosen
    rw [List.takeWhile_map, List.getLast?_map, List.head?_map, Option.map_or]
    rfl
  rw [hmap, chosen_eq_around, h]
  rfl

/-- The node holds the root of the tree, and the reader has the rest of it: headers with the depth
left below them, and index keys that name the first logical block of their child. -/
def Represents (read : NodeReader) : {n : Nat} → LevelTree Extent n → Bytes → Prop
  | 0, t, node => ∃ h, ExtentHeader.parse node = .ok h ∧ h.depth = 0 ∧
      parseLeafEntries node h = .ok t.entries
  | n + 1, t, node => ∃ h, ExtentHeader.parse node = .ok h ∧ h.depth = n + 1 ∧
      parseIndexEntries node h = .ok (t.children.map indexOf) ∧
      ∀ c ∈ t.children, ∃ child, read c.1 = .ok child ∧ Represents read c.2 child

theorem Represents.parse {read : NodeReader} {n : Nat} {t : LevelTree Extent n} {node : Bytes}
    (h : Represents read t node) : ∃ header, ExtentHeader.parse node = .ok header ∧
    header.depth = n := by
  cases n with
  | zero =>
    obtain ⟨header, hparse, hdepth, -⟩ := h
    exact ⟨header, hparse, hdepth⟩
  | succ n =>
    obtain ⟨header, hparse, hdepth, -⟩ := h
    exact ⟨header, hparse, hdepth⟩

theorem Represents.congr {read read' : NodeReader} {n : Nat} {t : LevelTree Extent n} {node : Bytes}
    (h : Represents read t node) (heq : ∀ b ∈ t.addresses, read' b = read b) :
    Represents read' t node := by
  induction n generalizing node with
  | zero => exact h
  | succ n ih =>
    obtain ⟨header, hparse, hdepth, hentries, hbelow⟩ := h
    refine ⟨header, hparse, hdepth, hentries, ?_⟩
    intro c hc
    obtain ⟨child, hread, hchild⟩ := hbelow c hc
    have hmem : ∀ b, b ∈ c.1 :: c.2.addresses → b ∈ t.addresses :=
      fun b hb => List.mem_flatMap.mpr ⟨c, hc, hb⟩
    refine ⟨child, ?_, ih hchild (fun b hb => heq b (hmem b (List.mem_cons_of_mem _ hb)))⟩
    rw [heq c.1 (hmem c.1 List.mem_cons_self)]
    exact hread

/-- A well-formed extent tree: at most the depth the format allows; nodes non-empty below the root
and filled within their capacity; extents in order and none meeting the next; no node block used
twice, and none of them the block that stands for the inline root. -/
structure WellFormed (blockSize : Nat) (read : NodeReader) (root : Bytes) {n : Nat}
    (t : LevelTree Extent n) : Prop where
  depth : n ≤ extMaxDepth
  length : root.length = 60
  tree : Represents read t root
  rootFill : t.fill ≤ 4
  rootIndex : 0 < n → 1 ≤ t.fill
  filled : t.Filled (nodeMaxEntries blockSize)
  valid : ∀ e ∈ t.entries, e.Valid
  apart : Apart Extent.logicalBlock Extent.length t.entries
  distinct : t.addresses.Nodup
  nonzero : 0 ∉ t.addresses

theorem WellFormed.congr {blockSize n : Nat} {read read' : NodeReader} {root : Bytes}
    {t : LevelTree Extent n} (h : WellFormed blockSize read root t)
    (heq : ∀ b ∈ t.addresses, read' b = read b) : WellFormed blockSize read' root t :=
  { h with tree := h.tree.congr heq }

def nodeOn (d : Disk) (blockSize : Nat) : NodeReader := fun b =>
  if b * blockSize < 2 ^ 64 ∧ b * blockSize + blockSize ≤ d.size then
    .ok (d.img.read (b * blockSize) blockSize)
  else .error .io

theorem nodeOn_ok {d : Disk} {blockSize b : Nat} {node : Bytes}
    (h : nodeOn d blockSize b = .ok node) :
    b * blockSize < 2 ^ 64 ∧ (readAt (b * blockSize) blockSize).exec d = (.ok node, d) := by
  unfold nodeOn at h
  split at h
  · rename_i hfit
    cases h
    exact ⟨hfit.1, exec_readAt d _ _ hfit.2⟩
  · cases h

theorem nodeMaxEntries_bounds {blockSize : Nat} (h1 : 1024 ≤ blockSize) (h2 : blockSize ≤ 65536) :
    84 ≤ nodeMaxEntries blockSize ∧ nodeMaxEntries blockSize < 2 ^ 16 ∧
      nodeSize * (1 + nodeMaxEntries blockSize) ≤ blockSize := by
  have hlt : (blockSize - nodeSize - 4) / nodeSize < 2 ^ 16 := by simp only [nodeSize]; omega
  rw [nodeMaxEntries, Nat.mod_eq_of_lt hlt]
  simp only [nodeSize] at hlt ⊢
  omega

theorem firstStart_lt {es : List Extent} (h : ∀ e ∈ es, e.logicalBlock < 2 ^ 32) :
    firstStart Extent.logicalBlock es < 2 ^ 32 := by
  cases es with
  | nil => exact Nat.two_pow_pos 32
  | cons e es => exact h e List.mem_cons_self

theorem firstStart_map_indexOf {n cap : Nat} {t : LevelTree Extent (n + 1)} (h : t.Filled cap) :
    firstStart ExtentIdx.logicalBlock (t.children.map indexOf) = t.key Extent.logicalBlock := by
  cases t with
  | nil => rfl
  | cons c cs =>
    obtain ⟨hfill, hc⟩ := h c List.mem_cons_self
    have hne := c.2.entries_ne_nil hc hfill.1
    change firstStart Extent.logicalBlock c.2.entries =
      firstStart Extent.logicalBlock (c.2.entries ++ cs.flatMap (fun c => c.2.entries))
    cases he : c.2.entries with
    | nil => exact absurd he hne
    | cons e es => rfl

section Built

variable {read : NodeReader} {n len max : Nat} {generation : UInt32}

theorem represents_leaf {es : List Extent} (hvalid : ∀ e ∈ es, e.Valid) (hfill : es.length ≤ max)
    (hmax : max < 2 ^ 16) : Represents read (LevelTree.leaf es)
      (buildNode len max 0 generation (es.map encodeExtent)) := by
  refine ⟨_, parse_buildNode (by rwa [List.length_map]) hmax (by decide), rfl, ?_⟩
  rw [parseLeafEntries, List.length_map]
  exact parseEntries_buildNode length_encodeExtent (fun e he => parse_encodeExtent e (hvalid e he))

theorem represents_stored (read : NodeReader) (len : Nat) (generation : UInt32)
    {es : List Extent} {max : Nat}
    (hlogical : ∀ e ∈ es, e.logicalBlock < 2 ^ 32) (hfill : es.length ≤ max) (hmax : max < 2 ^ 16) :
    Represents read (LevelTree.leaf (es.map Extent.stored))
      (buildNode len max 0 generation (es.map encodeExtent)) := by
  refine ⟨_, parse_buildNode (by rwa [List.length_map]) hmax (by decide), rfl, ?_⟩
  rw [parseLeafEntries, List.length_map]
  exact parseEntries_buildNode_map length_encodeExtent (fun e he => parse_encodeExtent_stored e
    (hlogical e he))

theorem represents_index {t : LevelTree Extent (n + 1)} (hdepth : n + 1 < 2 ^ 16)
    (hlogical : ∀ e ∈ t.entries, e.logicalBlock < 2 ^ 32) (hblocks : ∀ c ∈ t.children, c.1 < 2 ^ 48)
    (hfill : t.fill ≤ max) (hmax : max < 2 ^ 16)
    (hbelow : ∀ c ∈ t.children, ∃ child, read c.1 = .ok child ∧ Represents read c.2 child) :
    Represents read t
      (buildNode len max (n + 1) generation ((t.children.map indexOf).map encodeIndex)) := by
  have hfill' : (t.children.map indexOf).length = t.fill := List.length_map _
  refine ⟨_, parse_buildNode (by rwa [List.length_map, hfill']) hmax hdepth, rfl, ?_, hbelow⟩
  rw [parseIndexEntries, List.length_map]
  refine parseEntries_buildNode length_encodeIndex ?_
  intro idx hidx
  obtain ⟨c, hc, rfl⟩ := List.mem_map.mp hidx
  refine parse_encodeIndex _ ⟨?_, hblocks c hc⟩
  apply firstStart_lt
  intro e he
  exact hlogical e (List.mem_flatMap.mpr ⟨c, hc, he⟩)

end Built

theorem Represents.entries_eq {read : NodeReader} {n : Nat} {t t' : LevelTree Extent n}
    {node : Bytes}
    (h : Represents read t node) (h' : Represents read t' node) : t.entries = t'.entries := by
  induction n generalizing node with
  | zero =>
    obtain ⟨header, hparse, -, hentries⟩ := h
    obtain ⟨header', hparse', -, hentries'⟩ := h'
    obtain rfl := Except.ok.inj (hparse.symm.trans hparse')
    exact Except.ok.inj (hentries.symm.trans hentries')
  | succ n ih =>
    obtain ⟨header, hparse, -, hentries, hbelow⟩ := h
    obtain ⟨header', hparse', -, hentries', hbelow'⟩ := h'
    obtain rfl := Except.ok.inj (hparse.symm.trans hparse')
    have hsame := Except.ok.inj (hentries.symm.trans hentries')
    have hall : ∀ l l' : List (Nat × LevelTree Extent n), l.map indexOf = l'.map indexOf →
        (∀ c ∈ l, ∃ child, read c.1 = .ok child ∧ Represents read c.2 child) →
        (∀ c ∈ l', ∃ child, read c.1 = .ok child ∧ Represents read c.2 child) →
        l.flatMap (fun c => c.2.entries) = l'.flatMap (fun c => c.2.entries) := by
      intro l
      induction l with
      | nil =>
        intro l' hmap _ _
        rw [List.map_eq_nil_iff.mp hmap.symm]
      | cons c l ihl =>
        intro l' hmap hl hl'
        cases l' with
        | nil => cases hmap
        | cons c' l' =>
          obtain ⟨hhead, htail⟩ := List.cons.inj hmap
          obtain ⟨child, hread, hrep⟩ := hl c List.mem_cons_self
          obtain ⟨child', hread', hrep'⟩ := hl' c' List.mem_cons_self
          have hblock : c.1 = c'.1 := congrArg ExtentIdx.leafBlock hhead
          rw [hblock] at hread
          obtain rfl := Except.ok.inj (hread.symm.trans hread')
          rw [List.flatMap_cons, List.flatMap_cons, ih hrep hrep',
            ihl l' htail (fun x hx => hl x (List.mem_cons_of_mem _ hx))
              (fun x hx => hl' x (List.mem_cons_of_mem _ hx))]
    exact hall t.children t'.children hsame hbelow hbelow'

def overlay (writes : List (Nat × Bytes)) (read : NodeReader) : NodeReader := fun b =>
  match writes.lookup b with
  | some bytes => .ok bytes
  | none => read b

section Overlay

variable {writes more : List (Nat × Bytes)} {read : NodeReader} {b : Nat} {bytes : Bytes}

theorem lookup_eq_some_of_mem (hnodup : (writes.map Prod.fst).Nodup) (h : (b, bytes) ∈ writes) :
    writes.lookup b = some bytes := by
  induction writes with
  | nil => cases h
  | cons w writes ih =>
    obtain ⟨k, v⟩ := w
    rw [List.map_cons, List.nodup_cons] at hnodup
    obtain heq | hmem := List.mem_cons.mp h
    · cases heq
      exact List.lookup_cons_self
    · have hne : b ≠ k := by
        rintro rfl
        exact hnodup.1 (List.mem_map.mpr ⟨_, hmem, rfl⟩)
      rw [List.lookup_cons, beq_eq_false_iff_ne.mpr hne]
      exact ih hnodup.2 hmem

theorem overlay_of_mem (hnodup : (writes.map Prod.fst).Nodup) (h : (b, bytes) ∈ writes) :
    overlay writes read b = .ok bytes := by
  rw [overlay, lookup_eq_some_of_mem hnodup h]

theorem lookup_eq_none_of_not_mem (h : b ∉ writes.map Prod.fst) : writes.lookup b = none := by
  rw [List.lookup_eq_none_iff]
  intro w hw
  have hne : b ≠ w.1 := fun heq => h (List.mem_map.mpr ⟨w, hw, heq.symm⟩)
  simpa using hne

theorem overlay_of_not_mem (h : b ∉ writes.map Prod.fst) : overlay writes read b = read b := by
  rw [overlay, lookup_eq_none_of_not_mem h]

theorem overlay_append (h : b ∉ more.map Prod.fst) :
    overlay (writes ++ more) read b = overlay writes read b := by
  rw [overlay, overlay, List.lookup_append, lookup_eq_none_of_not_mem h, Option.or_none]

theorem overlay_pieces {n : Nat} {pieces : List (LevelTree Extent n)} {blocks : List Nat}
    {build : LevelTree Extent n → Bytes} (hlen : blocks.length = pieces.length)
    (hnodup : (writes.map Prod.fst ++ blocks).Nodup)
    (hbelow : ∀ p ∈ pieces, ∀ a ∈ p.addresses, a ∉ blocks)
    (hrep : ∀ p ∈ pieces, Represents (overlay writes read) p (build p)) :
    ∀ c ∈ blocks.zip pieces, ∃ child,
      overlay (writes ++ (blocks.zip pieces).map (fun c => (c.1, build c.2))) read c.1 = .ok child ∧
      Represents (overlay (writes ++ (blocks.zip pieces).map (fun c => (c.1, build c.2))) read)
        c.2 child := by
  have hnew : ((blocks.zip pieces).map (fun c => (c.1, build c.2))).map Prod.fst = blocks := by
    rw [List.map_map]
    exact List.map_fst_zip (by omega)
  intro c hc
  have hmem := (List.of_mem_zip hc).2
  refine ⟨build c.2, overlay_of_mem ?_ ?_, (hrep c.2 hmem).congr ?_⟩
  · rwa [List.map_append, hnew]
  · exact List.mem_append_right _ (List.mem_map.mpr ⟨c, hc, rfl⟩)
  · intro a ha
    apply overlay_append
    rw [hnew]
    exact hbelow c.2 hmem a ha

end Overlay

/-- The outcome of each call to the allocator, in the order of the calls. -/
abbrev Allocator := Nat → Result Nat

/-- An allocator that gives each block once and none of the old ones, and blocks that an index entry
can name. -/
structure Allocator.Fresh (alloc : Allocator) (old : List Nat) : Prop where
  once : ∀ i j b, alloc i = .ok b → alloc j = .ok b → i = j
  notOld : ∀ i b, alloc i = .ok b → b ∉ old
  block : ∀ i b, alloc i = .ok b → b < 2 ^ 48

def oneBlock (i : Nat) : Result Nat := if i = 0 then .ok 9 else .error .noSpaceLeftOnDevice

theorem oneBlock_eq {i b : Nat} (h : oneBlock i = .ok b) : i = 0 ∧ b = 9 := by
  unfold oneBlock at h
  split at h
  · cases h
    exact ⟨by assumption, rfl⟩
  · cases h

theorem oneBlock_fresh {old : List Nat} (h : 9 ∉ old) : Allocator.Fresh oneBlock old where
  once i j b hi hj := by rw [(oneBlock_eq hi).1, (oneBlock_eq hj).1]
  notOld i b hi := by rw [(oneBlock_eq hi).2]; exact h
  block i b hi := by rw [(oneBlock_eq hi).2]; decide

end FsExt4
