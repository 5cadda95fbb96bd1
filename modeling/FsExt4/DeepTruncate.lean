import FsExt4.TruncateWalk
import FsExt4.Fallocate

namespace FsExt4

open Lib

theorem parse_depthZero {node : Bytes} {header : ExtentHeader}
    (h : ExtentHeader.parse node = .ok header) :
    ExtentHeader.parse (copyAt node 6 (u16le 0)) = .ok { header with depth := 0 } := by
  obtain ⟨h12, hmagic, hle, rfl⟩ := ExtentHeader.parse_eq_ok.mp h
  simp only [nodeSize] at h12
  have hfront := agreeOn_copyAt node 6 (u16le 0) 0 6 (by omega) (.inl (by omega))
  have hback := agreeOn_copyAt node 6 (u16le 0) 8 12 (by omega) (.inr (by simp))
  rw [ExtentHeader.parse_eq_ok]
  refine ⟨?_, ?_, hle, ?_⟩
  · rw [length_copyAt _ _ _ (by rw [length_u16le]; omega)]
    exact h12
  · rw [hfront.u16leAt 0 (by omega) (by omega), hmagic]
  · rw [hfront.u16leAt 2 (by omega) (by omega), hfront.u16leAt 4 (by omega) (by omega),
      u16leAt_copyAt _ _ _ (by omega), hback.u32leAt 8 (by omega) (by omega)]
    rfl

theorem represents_depthZero {n : Nat} {read : NodeReader} {t : LevelTree Extent n} {node : Bytes}
    (h : Represents read t node) (hfill : t.fill = 0) :
    Represents read (LevelTree.leaf []) (copyAt node 6 (u16le 0)) := by
  obtain ⟨header, hparse, -⟩ := h.parse
  have hcount := h.fill_eq hparse
  refine ⟨_, parse_depthZero hparse, rfl, ?_⟩
  rw [parseLeafEntries]
  dsimp only
  rw [← hcount, hfill]
  rfl

section Plan

variable {oldSize newSize blockSize blocksCount : Nat} {root : Bytes} {read : NodeReader}
  {size : SizeChange} {muts : List ExtentMutation}

def endBlock (size blockSize : Nat) : Nat := (size + blockSize - 1) / blockSize

/-- What a plan has checked of the tree and the root it writes. -/
structure Planned (stop blockSize blocksCount : Nat) (read : NodeReader) (root : Bytes) {n : Nat}
    (t : LevelTree Extent n) (muts : List ExtentMutation) (newRoot : Bytes)
    (survivors : List (Nat × Bytes)) (w : ShrinkWalk) : Prop where
  depth : n ≤ extMaxDepth
  length : root.length = 60
  tree : Represents read t root
  rootFill : t.fill ≤ 4
  walked : Walked stop blocksCount (nodeMaxEntries blockSize) read t survivors ⟨[], [], 0, []⟩ w
  clear : (t.entries.map dataRange ++ t.addresses.map nodeRange).Pairwise Clear
  mutations : muts = .writeRoot newRoot :: w.mutations
  newLength : newRoot.length = 60
  rebuilt : ∀ reader : NodeReader, (∀ p ∈ survivors, reader p.1 = .ok p.2) →
    if (cut stop t).fill = 0 then Represents reader (LevelTree.leaf []) newRoot
    else Represents reader (cut stop t) newRoot

theorem planTruncateShrinkDeep_ok
    (h : planTruncateShrinkDeep oldSize newSize root blockSize blocksCount read =
      .ok (size, muts)) :
    size = ⟨oldSize, newSize⟩ ∧ ∃ (n : Nat) (t : LevelTree Extent n) (newRoot : Bytes)
      (survivors : List (Nat × Bytes)) (w : ShrinkWalk),
      Planned (endBlock newSize blockSize) blockSize blocksCount read root t muts newRoot
        survivors w := by
  unfold planTruncateShrinkDeep at h
  simp only [throw, throwThe, MonadExceptOf.throw] at h
  split at h
  · cases h
  rename_i hargs
  have h64k : blockSize ≤ 65536 := by
    by_contra hgt
    exact hargs (.inr (.inl fun hb => hgt hb.2))
  obtain ⟨header, hparse, h⟩ := Result.bind_eq_ok h
  split at h
  · cases h
  rename_i hroot
  have hlength : root.length = 60 := by_contra fun hne => hroot (.inl hne)
  obtain ⟨⟨⟨bytes, first⟩, w⟩, hwalk, h⟩ := Result.bind_eq_ok h
  obtain ⟨t, survivors, htree, hroom, hwalked, hsame, hfirst, hrebuilt⟩ := node_ok h64k _ hwalk
  dsimp only at hsame hfirst hrebuilt
  split at h
  · cases h
  rename_i happart
  cases h
  refine ⟨rfl, header.depth, t, if first.isNone then copyAt bytes 6 (u16le 0) else bytes,
    survivors, w, ?_⟩
  constructor
  case depth => exact Nat.le_of_not_lt fun hlt => hroot (.inr hlt)
  case length => exact hlength
  case tree => exact htree
  case rootFill =>
    rw [hlength] at hroom
    simp only [nodeSize, if_true] at hroom
    omega
  case walked => exact hwalked
  case clear =>
    have hperm := hwalked.physical
    rw [List.nil_append] at hperm
    rw [← hperm.pairwise_iff (fun hab => hab.symm)]
    refine clear_of_apartInOrder (by simpa using happart) ?_
    intro r hr
    obtain hr | hr := List.mem_append.mp (hperm.mem_iff.mp hr)
    · obtain ⟨e, he, rfl⟩ := List.mem_map.mp hr
      have hpos := (hwalked.sits e he).valid.pos
      simp only [dataRange]
      omega
    · obtain ⟨b, -, rfl⟩ := List.mem_map.mp hr
      exact Nat.lt_succ_self b
  case mutations => rfl
  case newLength =>
    rw [hlength] at hsame
    split
    · rw [length_copyAt _ _ _ (by rw [hsame, length_u16le]; decide), hsame]
    · exact hsame
  case rebuilt =>
    intro reader hreader
    have hcut := hrebuilt reader hreader
    unfold keyLeft at hfirst
    by_cases hzero : (cut (endBlock newSize blockSize) t).fill = 0
    · rw [if_pos hzero]
      rw [hfirst.trans (if_pos hzero)]
      exact represents_depthZero hcut hzero
    · rw [if_neg hzero]
      rw [hfirst.trans (if_neg hzero)]
      exact hcut

end Plan

section Planned

variable {stop blockSize blocksCount n : Nat} {read : NodeReader} {root newRoot : Bytes}
  {t : LevelTree Extent n} {muts : List ExtentMutation} {survivors : List (Nat × Bytes)}
    {w : ShrinkWalk}

theorem Planned.distinct (h : Planned stop blockSize blocksCount read root t muts newRoot
    survivors w) :
    t.addresses.Nodup := by
  have honce := h.walked.once List.nodup_nil
  rwa [h.walked.visited] at honce

theorem Planned.inOrder (h : Planned stop blockSize blocksCount read root t muts newRoot
    survivors w) :
    InOrder t.entries := ⟨h.walked.apart, fun e he => (h.walked.sits e he).valid⟩

theorem Planned.wellFormed (h : Planned stop blockSize blocksCount read root t muts newRoot
    survivors w) (hroot : 0 < n → 1 ≤ t.fill) : WellFormed blockSize read root t where
  depth := h.depth
  length := h.length
  tree := h.tree
  rootFill := h.rootFill
  rootIndex := hroot
  filled := h.walked.filled
  valid := h.inOrder.valid
  apart := h.walked.apart
  distinct := h.distinct
  nonzero := fun hzero => (h.walked.nodes 0 hzero).1 rfl

theorem Planned.nodup_cut (h : Planned stop blockSize blocksCount read root t muts newRoot
    survivors w) : ((cut stop t).addresses ++ emptied stop t).Nodup :=
  (addresses_cut t).nodup_iff.mpr h.distinct

theorem mem_of_lookup_eq_some {writes : List (Nat × Bytes)} {b : Nat} {bytes : Bytes}
    (h : writes.lookup b = some bytes) : (b, bytes) ∈ writes := by
  obtain ⟨front, back, rfl, -⟩ := List.lookup_eq_some_iff.mp h
  simp

theorem Planned.overlay_survivors
    (h : Planned stop blockSize blocksCount read root t muts newRoot survivors w) :
    ∀ p ∈ survivors, overlay (treeWrites muts) read p.1 = .ok p.2 := by
  have hkeys : (survivors.map Prod.fst).Nodup := by
    rw [h.walked.survive]
    exact (List.nodup_append.mp h.nodup_cut).1
  have hwrites : treeWrites muts = treeWrites w.mutations := by
    rw [h.mutations]
    rfl
  intro p hp
  rw [hwrites, overlay]
  cases hlook : (treeWrites w.mutations).lookup p.1 with
  | none =>
    obtain hwrote | hread := h.walked.stored p hp
    · have hmiss := List.lookup_eq_none_iff.mp hlook p hwrote
      rw [bne_self_eq_false] at hmiss
      cases hmiss
    · exact hread
  | some bytes =>
    have hmem : (p.1, bytes) ∈ survivors := by
      obtain hnone | hsome := h.walked.wrote _ (mem_of_lookup_eq_some hlook)
      · cases hnone
      · exact hsome
    have hself := lookup_eq_some_of_mem hkeys hp
    rw [lookup_eq_some_of_mem hkeys hmem] at hself
    cases hself
    rfl

theorem Planned.shrunk (h : Planned stop blockSize blocksCount read root t muts newRoot
    survivors w) :
    ∃ (m : Nat) (t' : LevelTree Extent m),
      WellFormed blockSize (overlay (treeWrites muts) read) newRoot t' ∧
      t'.entries = t.entries.filterMap (Extent.cut stop) ∧ t'.addresses =
        (cut stop t).addresses := by
  have hrep := h.rebuilt _ h.overlay_survivors
  have hcut : InOrder (t.entries.filterMap (Extent.cut stop)) := h.inOrder.cut
  rw [← entries_cut] at hcut
  by_cases hzero : (cut stop t).fill = 0
  · rw [if_pos hzero] at hrep
    refine ⟨0, LevelTree.leaf [], ?_, ?_, ?_⟩
    · exact ⟨Nat.zero_le _, h.newLength, hrep, Nat.zero_le _, nofun, trivial, nofun, .nil,
        .nil, nofun⟩
    · rw [← entries_cut, entries_eq_nil_of_fill hzero]
      rfl
    · rw [addresses_eq_nil_of_fill hzero]
      rfl
  · rw [if_neg hzero] at hrep
    refine ⟨n, cut stop t, ?_, entries_cut t, rfl⟩
    constructor
    case depth => exact h.depth
    case length => exact h.newLength
    case tree => exact hrep
    case rootFill => exact Nat.le_trans (fill_cut_le t) h.rootFill
    case rootIndex => exact fun _ => Nat.pos_of_ne_zero hzero
    case filled => exact filled_cut h.walked.filled
    case valid => exact hcut.valid
    case apart => exact hcut.apart
    case distinct => exact (List.nodup_append.mp h.nodup_cut).1
    case nonzero =>
      intro hmem
      exact (h.walked.nodes 0 ((addresses_cut t).mem_iff.mp (List.mem_append_left _ hmem))).1 rfl

theorem Planned.freed_iff (h : Planned stop blockSize blocksCount read root t muts newRoot
    survivors w) (block : Nat) :
    (∃ run ∈ frees muts, run.1 ≤ block ∧ block < run.1 + run.2) ↔
      (∃ logical state, stop ≤ logical ∧ mapping t.entries logical = some (block, state)) ∨
      (block ∈ t.addresses ∧ block ∉ (cut stop t).addresses) := by
  have hruns : ∀ run, run ∈ frees muts ↔
      run ∈ t.entries.filterMap (Extent.dropped stop) ∨ ∃ b ∈ emptied stop t, (b, 1) = run := by
    intro run
    have hfrees : frees muts = frees w.mutations := by
      rw [h.mutations]
      rfl
    rw [hfrees, h.walked.freed.mem_iff, List.mem_append, List.mem_append, List.mem_map]
    exact or_iff_right (List.not_mem_nil)
  have hnodes : block ∈ emptied stop t ↔ block ∈ t.addresses ∧ block ∉ (cut stop t).addresses := by
    have hperm : block ∈ (cut stop t).addresses ∨ block ∈ emptied stop t ↔ block ∈ t.addresses := by
      rw [← List.mem_append]
      exact (addresses_cut t).mem_iff
    have hapart := (List.nodup_append.mp h.nodup_cut).2.2
    constructor
    · exact fun hmem => ⟨hperm.mp (.inr hmem), fun hcut => hapart _ hcut _ hmem rfl⟩
    · rintro ⟨hmem, hnot⟩
      exact (hperm.mpr hmem).resolve_left hnot
  rw [← hnodes]
  constructor
  · rintro ⟨run, hrun, hle, hlt⟩
    obtain hdata | ⟨b, hb, rfl⟩ := (hruns run).mp hrun
    · obtain ⟨e, he, hdropped⟩ := List.mem_filterMap.mp hdata
      obtain ⟨logical, hstop, hc, hmap⟩ := (mem_dropped_iff e block).mp ⟨run, hdropped, hle, hlt⟩
      refine .inl ⟨logical, e.uninitialized, hstop, ?_⟩
      rw [← hmap]
      exact mapping_of_mem h.walked.apart he hc
    · right
      obtain rfl : b = block := by
        dsimp only at hle hlt
        omega
      exact hb
  · rintro (⟨logical, state, hstop, hmap⟩ | hb)
    · obtain ⟨e, he, hc, heq⟩ := mem_of_mapping hmap
      obtain ⟨rfl, -⟩ := Prod.mk.inj heq
      obtain ⟨run, hdropped, hle, hlt⟩ := (mem_dropped_iff e _).mpr ⟨logical, hstop, hc, rfl⟩
      exact ⟨run, (hruns run).mpr (.inl (List.mem_filterMap.mpr ⟨e, he, hdropped⟩)), hle, hlt⟩
    · exact ⟨(block, 1), (hruns _).mpr (.inr ⟨block, hb, rfl⟩), Nat.le_refl _, Nat.lt_succ_self _⟩

theorem Planned.frees_clear (h : Planned stop blockSize blocksCount read root t muts newRoot
    survivors w) : ((frees muts).map runRange).Pairwise Clear := by
  have hperm : (frees muts).Perm
      (t.entries.filterMap (Extent.dropped stop) ++ (emptied stop t).map (fun b => (b, 1))) := by
    rw [h.mutations]
    exact h.walked.freed
  rw [(hperm.map runRange).pairwise_iff (fun hab => hab.symm)]
  refine pairwise_clear_freed h.clear (List.nodup_append.mp h.nodup_cut).2.1 ?_
  exact fun b hb => (addresses_cut t).mem_iff.mp (List.mem_append_right _ hb)

end Planned

/-- The node holds the root of the tree, and the reader has the rest of it, whatever the index keys
are. -/
def Linked (read : NodeReader) : {n : Nat} → LevelTree Extent n → Bytes → Prop
  | 0, t, node => ∃ h, ExtentHeader.parse node = .ok h ∧ h.depth = 0 ∧
      parseLeafEntries node h = .ok t.entries
  | n + 1, t, node => ∃ h indices, ExtentHeader.parse node = .ok h ∧ h.depth = n + 1 ∧
      parseIndexEntries node h = .ok indices ∧
      indices.map ExtentIdx.leafBlock = t.children.map Prod.fst ∧
      ∀ c ∈ t.children, ∃ child, read c.1 = .ok child ∧ Linked read c.2 child

def KeyDisagrees (read : NodeReader) : {n : Nat} → LevelTree Extent n → Bytes → Prop
  | 0, _, _ => False
  | _ + 1, t, node =>
      (∃ h indices, ExtentHeader.parse node = .ok h ∧ parseIndexEntries node h = .ok indices ∧
        ∃ p ∈ indices.zip t.children, p.1.logicalBlock ≠ p.2.2.key Extent.logicalBlock) ∨
      ∃ c ∈ t.children, ∃ child, read c.1 = .ok child ∧ KeyDisagrees read c.2 child

inductive Flawed (blocksCount : Nat) (read : NodeReader) {n : Nat} (t : LevelTree Extent n)
    (root : Bytes) : Prop
  | repeatedNode (h : ¬ t.addresses.Nodup)
  | logicalOverlap (h : ¬ Apart Extent.logicalBlock Extent.length t.entries)
  | physicalOverlap (h : ¬ (t.entries.map dataRange ++ t.addresses.map nodeRange).Pairwise Clear)
  | dataOutside (e : Extent) (he : e ∈ t.entries)
      (h : e.physicalBlock = 0 ∨ blocksCount < e.physicalBlock + e.length)
  | nodeOutside (b : Nat) (hb : b ∈ t.addresses) (h : b = 0 ∨ blocksCount ≤ b)
  | keyDisagrees (h : KeyDisagrees read t root)

section Refused

variable {blocksCount n : Nat} {read : NodeReader} {root : Bytes}

theorem Represents.not_keyDisagrees {t : LevelTree Extent n} (h : Represents read t root) :
    ¬ KeyDisagrees read t root := by
  induction n generalizing root with
  | zero => exact id
  | succ n ih =>
    obtain ⟨header, hparse, -, hindices, hbelow⟩ := h
    rintro (⟨header', indices, hparse', hindices', p, hp, hne⟩ | ⟨c, hc, child, hread, hchild⟩)
    · cases hparse.symm.trans hparse'
      cases hindices.symm.trans hindices'
      rw [List.zip_map_left] at hp
      obtain ⟨q, hq, rfl⟩ := List.mem_map.mp hp
      have hself : q.1 = q.2 := by
        obtain ⟨i, hi, rfl⟩ := List.mem_iff_getElem.mp hq
        rw [List.getElem_zip]
      apply hne
      simp only [Prod.map, indexOf, hself, id]
    · obtain ⟨child', hread', hrep⟩ := hbelow c hc
      cases hread.symm.trans hread'
      exact ih hrep hchild

theorem eq_of_map_fst_eq {α β : Type} {l l' : List (α × β)} (h : l.map Prod.fst = l'.map Prod.fst)
    (hsame : ∀ c ∈ l, ∀ c' ∈ l', c.1 = c'.1 → c.2 = c'.2) : l = l' := by
  induction l generalizing l' with
  | nil => exact (List.map_eq_nil_iff.mp h.symm).symm
  | cons c l ih =>
    cases l' with
    | nil => cases h
    | cons c' l' =>
      obtain ⟨hfst, hrest⟩ := List.cons.inj h
      have hsnd := hsame c List.mem_cons_self c' List.mem_cons_self hfst
      rw [ih hrest fun a ha b hb => hsame a (List.mem_cons_of_mem _ ha) b
        (List.mem_cons_of_mem _ hb)]
      congr 1
      exact Prod.ext hfst hsnd

theorem Linked.unique {t t' : LevelTree Extent n} (h : Linked read t root)
    (h' : Represents read t' root) :
    t = t' := by
  induction n generalizing root with
  | zero =>
    obtain ⟨header, hparse, -, hentries⟩ := h
    obtain ⟨header', hparse', -, hentries'⟩ := h'
    cases hparse.symm.trans hparse'
    exact Except.ok.inj (hentries.symm.trans hentries')
  | succ n ih =>
    obtain ⟨header, indices, hparse, -, hindices, hblocks, hbelow⟩ := h
    obtain ⟨header', hparse', -, hindices', hbelow'⟩ := h'
    cases hparse.symm.trans hparse'
    cases hindices.symm.trans hindices'
    refine eq_of_map_fst_eq ?_ ?_
    · change t.children.map Prod.fst = t'.children.map Prod.fst
      rw [← hblocks, List.map_map]
      rfl
    · intro c hc c' hc' hfst
      obtain ⟨child, hread, hlinked⟩ := hbelow c hc
      obtain ⟨child', hread', hrep⟩ := hbelow' c' hc'
      rw [hfst] at hread
      cases hread.symm.trans hread'
      exact ih hlinked hrep

theorem Linked.parse {t : LevelTree Extent n} (h : Linked read t root) :
    ∃ header, ExtentHeader.parse root = .ok header ∧ header.depth = n := by
  cases n with
  | zero =>
    obtain ⟨header, hparse, hdepth, -⟩ := h
    exact ⟨header, hparse, hdepth⟩
  | succ n =>
    obtain ⟨header, indices, hparse, hdepth, -⟩ := h
    exact ⟨header, hparse, hdepth⟩

theorem Planned.not_flawed {stop blockSize : Nat} {newRoot : Bytes} {t : LevelTree Extent n}
    {muts : List ExtentMutation} {survivors : List (Nat × Bytes)} {w : ShrinkWalk}
    (h : Planned stop blockSize blocksCount read root t muts newRoot survivors w) :
    ¬ Flawed blocksCount read t root := by
  rintro (hne | hne | hne | ⟨e, he, hout⟩ | ⟨b, hb, hout⟩ | hkey)
  · exact hne h.distinct
  · exact hne h.walked.apart
  · exact hne h.clear
  · have hsits := h.walked.sits e he
    obtain hzero | hlt := hout
    · exact hsits.nonzero hzero
    · exact absurd hsits.inside (Nat.not_le_of_lt hlt)
  · have hnode := h.walked.nodes b hb
    obtain hzero | hle := hout
    · exact hnode.1 hzero
    · exact absurd hnode.2 (Nat.not_lt_of_le hle)
  · exact h.tree.not_keyDisagrees hkey

theorem flawed_refused {oldSize newSize blockSize : Nat} {t : LevelTree Extent n}
    (hlinked : Linked read t root) (hflawed : Flawed blocksCount read t root) :
    ∃ e, planTruncateShrinkDeep oldSize newSize root blockSize blocksCount read = .error e := by
  cases h : planTruncateShrinkDeep oldSize newSize root blockSize blocksCount read with
  | error e => exact ⟨e, rfl⟩
  | ok result =>
    obtain ⟨-, n', t', newRoot, survivors, w, hplanned⟩ := planTruncateShrinkDeep_ok h
    obtain ⟨header, hparse, rfl⟩ := hlinked.parse
    obtain ⟨header', hparse', rfl⟩ := hplanned.tree.parse
    cases hparse.symm.trans hparse'
    obtain rfl := hlinked.unique hplanned.tree
    exact absurd hflawed hplanned.not_flawed

end Refused

section Inline

variable {oldSize newSize blockSize blocksCount : Nat} {root : Bytes} {read : NodeReader}
  {size : SizeChange} {muts : List ExtentMutation}

theorem kept_eq_cut {stop : Nat} {e : Extent} (hpos : 1 ≤ e.length) :
    (if e.logicalBlock + e.length ≤ stop then some e
      else if stop ≤ e.logicalBlock then none
      else some { e with length := stop - e.logicalBlock }) = e.cut stop := by
  unfold Extent.cut
  by_cases hin : e.logicalBlock + e.length ≤ stop
  · have hkeep : ShrinkWalk.keep stop e = e.length := by
      unfold ShrinkWalk.keep
      omega
    rw [if_pos hin, hkeep, if_neg (by omega)]
  · rw [if_neg hin]
    by_cases hout : stop ≤ e.logicalBlock
    · have hkeep : ShrinkWalk.keep stop e = 0 := by
        unfold ShrinkWalk.keep
        omega
      rw [if_pos hout, if_pos hkeep]
    · have hkeep : ShrinkWalk.keep stop e = stop - e.logicalBlock := by
        unfold ShrinkWalk.keep
        omega
      rw [if_neg hout, hkeep, if_neg (by omega)]

theorem freed_eq_dropped {stop : Nat} {e : Extent} (hpos : 1 ≤ e.length) :
    (if e.logicalBlock + e.length ≤ stop then none
      else if stop ≤ e.logicalBlock
        then some (ExtentMutation.freePhysicalRun e.physicalBlock e.length)
      else some (.freePhysicalRun (e.physicalBlock + (stop - e.logicalBlock))
        (e.length - (stop - e.logicalBlock)))) = (e.dropped stop).map freeRun := by
  unfold Extent.dropped
  by_cases hin : e.logicalBlock + e.length ≤ stop
  · rw [if_pos hin, if_neg (by unfold ShrinkWalk.keep; omega)]
    rfl
  · have hsome : ShrinkWalk.keep stop e < e.length := by
      unfold ShrinkWalk.keep
      omega
    rw [if_neg hin, if_pos hsome]
    by_cases hout : stop ≤ e.logicalBlock
    · have hkeep : ShrinkWalk.keep stop e = 0 := by
        unfold ShrinkWalk.keep
        omega
      rw [if_pos hout, hkeep]
      rfl
    · have hkeep : ShrinkWalk.keep stop e = stop - e.logicalBlock := by
        unfold ShrinkWalk.keep
        omega
      rw [if_neg hout, hkeep]
      rfl

theorem planTruncateShrink_eq {header : ExtentHeader} {es : List Extent} (hle : newSize ≤ oldSize)
    (hparse : ExtentHeader.parse root = .ok header) (hdepth : header.depth = 0)
    (hentries : parseLeafEntries root header = .ok es) (hpos : ∀ e ∈ es, 1 ≤ e.length) :
    planTruncateShrink oldSize newSize root blockSize = .ok (⟨oldSize, newSize⟩,
      .writeRoot (buildNode root.length header.max header.depth header.generation
          ((es.filterMap (Extent.cut (endBlock newSize blockSize))).map encodeExtent)) ::
        (es.filterMap (Extent.dropped (endBlock newSize blockSize))).map freeRun) := by
  unfold planTruncateShrink
  simp only [throw, throwThe, MonadExceptOf.throw, bind, Except.bind, pure, Except.pure]
  rw [if_neg (Nat.not_lt.mpr hle), hparse]
  dsimp only
  rw [if_neg (by simp [ExtentHeader.isLeaf, hdepth]), hentries]
  dsimp only
  have hkept : es.filterMap (fun e =>
      if e.logicalBlock + e.length ≤ (newSize + blockSize - 1) / blockSize then some e
      else if (newSize + blockSize - 1) / blockSize ≤ e.logicalBlock then none
      else some { e with length := (newSize + blockSize - 1) / blockSize - e.logicalBlock }) =
      es.filterMap (Extent.cut (endBlock newSize blockSize)) :=
    List.filterMap_congr fun e he => kept_eq_cut (hpos e he)
  have hfreed : es.filterMap (fun e =>
      if e.logicalBlock + e.length ≤ (newSize + blockSize - 1) / blockSize then none
      else if (newSize + blockSize - 1) / blockSize ≤ e.logicalBlock then
        some (ExtentMutation.freePhysicalRun e.physicalBlock e.length)
      else some (.freePhysicalRun
        (e.physicalBlock + ((newSize + blockSize - 1) / blockSize - e.logicalBlock))
        (e.length - ((newSize + blockSize - 1) / blockSize - e.logicalBlock)))) =
      (es.filterMap (Extent.dropped (endBlock newSize blockSize))).map freeRun := by
    rw [List.map_filterMap]
    exact List.filterMap_congr fun e he => freed_eq_dropped (hpos e he)
  rw [hkept, hfreed]

theorem planTruncateShrinkDeep_leaf {header : ExtentHeader}
    (hparse : ExtentHeader.parse root = .ok header) (hdepth : header.depth = 0)
    (h : planTruncateShrinkDeep oldSize newSize root blockSize blocksCount read =
      .ok (size, muts)) :
    ∃ newRoot newRoot' freed es, muts = .writeRoot newRoot :: freed ∧
      planTruncateShrink oldSize newSize root blockSize = .ok (size, .writeRoot newRoot' :: freed) ∧
      Represents read (LevelTree.leaf es) newRoot ∧ Represents read (LevelTree.leaf es)
        newRoot' := by
  unfold planTruncateShrinkDeep at h
  simp only [throw, throwThe, MonadExceptOf.throw] at h
  split at h
  · cases h
  rename_i hargs
  have hle : newSize ≤ oldSize := Nat.le_of_not_lt fun hlt => hargs (.inl hlt)
  obtain ⟨header', hparse', h⟩ := Result.bind_eq_ok h
  obtain rfl : header = header' := Except.ok.inj (hparse.symm.trans hparse')
  split at h
  · cases h
  rename_i hroot
  have hlength : root.length = 60 := by_contra fun hne => hroot (.inl hne)
  obtain ⟨⟨⟨bytes, first⟩, w⟩, hwalk, h⟩ := Result.bind_eq_ok h
  rw [hdepth] at hwalk
  obtain ⟨es, htree, -, hwalked, -, hfirst, hrebuilt⟩ := leafNode_ok hwalk
  split at h
  · cases h
  cases h
  obtain ⟨header', hparse', -, hentries⟩ := htree
  obtain rfl : header = header' := Except.ok.inj (hparse.symm.trans hparse')
  have hvalid : ∀ e ∈ es, e.Valid := fun e he => (hwalked.sits e he).valid
  have hcut : InOrder (es.filterMap (Extent.cut (endBlock newSize blockSize))) :=
    InOrder.cut ⟨hwalked.apart, hvalid⟩
  refine ⟨if first.isNone then copyAt bytes 6 (u16le 0) else bytes,
    buildNode root.length header.max header.depth header.generation
      ((es.filterMap (Extent.cut (endBlock newSize blockSize))).map encodeExtent),
    w.mutations, es.filterMap (Extent.cut (endBlock newSize blockSize)), rfl, ?_, ?_, ?_⟩
  · rw [planTruncateShrink_eq hle hparse hdepth hentries fun e he => (hvalid e he).pos,
      hwalked.mutations]
    rfl
  · by_cases hzero : (cut (endBlock newSize blockSize) (LevelTree.leaf es)).fill = 0
    · have hnil : es.filterMap (Extent.cut (endBlock newSize blockSize)) = [] :=
        List.length_eq_zero_iff.mp hzero
      have hnone : first = none := hfirst.trans (if_pos hzero)
      rw [hnil, hnone]
      exact represents_depthZero (hrebuilt read) hzero
    · have hsome := hfirst.trans (if_neg hzero)
      dsimp only at hsome
      rw [hsome]
      exact hrebuilt read
  · have hcount : es.length = header.entries := length_of_parseEntries hentries
    have hmax := (ExtentHeader.parse_eq_ok.mp hparse).2.2
    have hsmall : header.max < 2 ^ 16 := by
      rw [hmax.2]
      exact UInt16.toNat_lt _
    have hkept := List.length_filterMap_le (Extent.cut (endBlock newSize blockSize)) es
    rw [hdepth]
    exact represents_leaf hcut.valid (by omega) hsmall

end Inline

/-- A planned shrink cuts the tree off at the new end: below it every logical block maps as before,
nothing at or past it is mapped, the surviving nodes make a well-formed tree, and the runs freed are
the data blocks cut off and the nodes left empty, each once. A tree with a flaw is refused; on an
inline root the planner keeps and frees what the one for inline roots does. -/
theorem deep_truncate_cuts_tree (oldSize newSize blockSize blocksCount : Nat) (root : Bytes)
    (read : NodeReader) :
    (∀ size muts, planTruncateShrinkDeep oldSize newSize root blockSize blocksCount read =
        .ok (size, muts) →
      size = ⟨oldSize, newSize⟩ ∧
      ∃ (n : Nat) (t : LevelTree Extent n) (newRoot : Bytes) (rest : List ExtentMutation) (m : Nat)
        (t' : LevelTree Extent m),
        muts = .writeRoot newRoot :: rest ∧ Represents read t root ∧
        WellFormed blockSize (overlay (treeWrites muts) read) newRoot t' ∧
        (∀ b ∈ t'.addresses, b ∈ t.addresses) ∧
        (∀ p ∈ treeWrites muts, p.1 ∈ t'.addresses) ∧
        (∀ logical, mapping t'.entries logical =
          if logical < endBlock newSize blockSize then mapping t.entries logical else none) ∧
        (∀ d d' : Disk, (∀ b ∈ t.addresses, nodeOn d blockSize b = read b) →
          (∀ b ∈ t'.addresses, nodeOn d' blockSize b = overlay (treeWrites muts) read b) →
          ∀ logical, ∃ after, (Extent.lookup newRoot blockSize logical).exec d' = (.ok after, d') ∧
            after.map (fun e => (e.map logical, e.uninitialized)) = mapping t'.entries logical ∧
            ((0 < n → 1 ≤ t.fill) →
              ∃ before, (Extent.lookup root blockSize logical).exec d = (.ok before, d) ∧
                before.map (fun e => (e.map logical, e.uninitialized)) =
                  mapping t.entries logical)) ∧
        ((frees muts).map runRange).Pairwise Clear ∧
        ∀ block, (∃ run ∈ frees muts, run.1 ≤ block ∧ block < run.1 + run.2) ↔
          (∃ logical state, endBlock newSize blockSize ≤ logical ∧
            mapping t.entries logical = some (block, state)) ∨
          (block ∈ t.addresses ∧ block ∉ t'.addresses)) ∧
    (∀ (n : Nat) (t : LevelTree Extent n), Linked read t root → Flawed blocksCount read t root →
      ∃ e, planTruncateShrinkDeep oldSize newSize root blockSize blocksCount read = .error e) ∧
    (∀ header, ExtentHeader.parse root = .ok header → header.depth = 0 → ∀ size muts,
      planTruncateShrinkDeep oldSize newSize root blockSize blocksCount read = .ok (size, muts) →
      ∃ newRoot newRoot' freed es, muts = .writeRoot newRoot :: freed ∧
        planTruncateShrink oldSize newSize root blockSize =
          .ok (size, .writeRoot newRoot' :: freed) ∧
        Represents read (LevelTree.leaf es) newRoot ∧ Represents read (LevelTree.leaf es)
          newRoot') := by
  refine ⟨?_, fun n t => flawed_refused, fun header hparse hdepth size muts => ?_⟩
  · intro size muts h
    obtain ⟨hsize, n, t, newRoot, survivors, w, hplanned⟩ := planTruncateShrinkDeep_ok h
    obtain ⟨m, t', hwf, hentries, haddresses⟩ := hplanned.shrunk
    refine ⟨hsize, n, t, newRoot, w.mutations, m, t', hplanned.mutations, hplanned.tree, hwf,
      ?_, ?_, ?_, ?_, hplanned.frees_clear, ?_⟩
    · intro b hb
      rw [haddresses] at hb
      exact (addresses_cut t).mem_iff.mp (List.mem_append_left _ hb)
    · intro p hp
      rw [hplanned.mutations] at hp
      obtain hnone | hsurvives := hplanned.walked.wrote p hp
      · cases hnone
      · rw [haddresses, ← hplanned.walked.survive]
        exact List.mem_map_of_mem hsurvives
    · intro logical
      rw [hentries]
      exact mapping_cut t.entries logical
    · intro d d' hd hd' logical
      obtain ⟨after, hafter, hnow⟩ := lookup_mapping (hwf.congr hd') logical
      refine ⟨after, hafter, hnow, fun hroot => ?_⟩
      exact lookup_mapping ((hplanned.wellFormed hroot).congr hd) logical
    · intro block
      rw [haddresses]
      exact hplanned.freed_iff block
  · exact planTruncateShrinkDeep_leaf hparse hdepth

theorem twoLeaves_shrunk :
    (planTruncateShrinkDeep 112640 1024 twoLeavesRoot 1024 1000 twoLeavesReader).toOption.map
      (fun r => (r.1, frees r.2)) = some (⟨112640, 1024⟩, [(200, 10), (8, 1)]) := by
  decide +kernel

/-- Cut off behind its first leaf, the tree of two leaves gives back the second one's blocks and its
node. -/
theorem deep_truncate_cuts_twoLeaves :
    ∃ muts, planTruncateShrinkDeep 112640 1024 twoLeavesRoot 1024 1000 twoLeavesReader =
        .ok (⟨112640, 1024⟩, muts) ∧ frees muts = [(200, 10), (8, 1)] ∧
      ∃ (n : Nat) (t : LevelTree Extent n) (m : Nat) (t' : LevelTree Extent m) (newRoot : Bytes),
        Represents twoLeavesReader t twoLeavesRoot ∧
        WellFormed 1024 (overlay (treeWrites muts) twoLeavesReader) newRoot t' ∧
        mapping t'.entries 0 = mapping t.entries 0 ∧ mapping t'.entries 100 = none := by
  obtain ⟨muts, hplan, hfrees⟩ : ∃ muts, planTruncateShrinkDeep 112640 1024 twoLeavesRoot 1024 1000
      twoLeavesReader = .ok (⟨112640, 1024⟩, muts) ∧ frees muts = [(200, 10), (8, 1)] := by
    have hshrunk := twoLeaves_shrunk
    cases hplan : planTruncateShrinkDeep 112640 1024 twoLeavesRoot 1024 1000 twoLeavesReader with
    | error e =>
      rw [hplan] at hshrunk
      cases hshrunk
    | ok result =>
      rw [hplan] at hshrunk
      obtain ⟨hsize, hfrees⟩ := Prod.mk.inj (Option.some.inj hshrunk)
      exact ⟨result.2, congrArg Except.ok (Prod.ext hsize rfl), hfrees⟩
  obtain ⟨-, n, t, newRoot, -, m, t', -, htree, hwf, -, -, hmap, -⟩ :=
    (deep_truncate_cuts_tree 112640 1024 1024 1000 twoLeavesRoot twoLeavesReader).1 _ _ hplan
  exact ⟨muts, hplan, hfrees, n, t, m, t', newRoot, htree, hwf, hmap 0, hmap 100⟩

end FsExt4
