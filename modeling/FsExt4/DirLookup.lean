import FsExt4.ExtentWalk
import FsExt4.JournalReads
import FsExt4.Path

namespace FsExt4.Path

open Lib Jbd2 Dir

section WellFormed

variable (crc : Crc) (v : Volume) (d : Disk) (dirIno : UInt32) (dir : Inode)

/-- Logical block `l` of the directory is mapped to the device and holds `b`. -/
def HoldsBlock (l : Nat) (b : Bytes) : Prop :=
  ∃ phys, (v.mapBlock dir l).exec d = (.ok (some phys), d) ∧
    phys * v.blockSize + v.blockSize ≤ d.size ∧
    d.img.read (phys * v.blockSize) v.blockSize = b

abbrev Layout := Nat → Option (List Record)

def blockBytes (layout : Layout) (l : Nat) : Bytes := ((layout l).getD []).flatMap Record.bytes

def blockEntries (layout : Layout) (l : Nat) : List DirEntry :=
  liveEntries v.sb.hasFiletype ((layout l).getD [])

def contents (layout : Layout) : List DirEntry :=
  (List.range (v.totalBlocks dir)).flatMap (blockEntries v layout)

def storedVersion (root : Bytes) : Nat := (root.getD 28 0).toNat

/-- The blocks that the entries of an index name, with the levels of nodes from there to the
leaves. -/
inductive BelowRoot (layout : Layout) : Nat → UInt32 → Prop where
  | top (c : UInt32) (h : c ∈ Htree.children (blockBytes layout 0)
      (24 + ((blockBytes layout 0).getD 29 0).toNat)) :
      BelowRoot layout ((blockBytes layout 0).getD 30 0).toNat c
  | under (levels : Nat) (l c : UInt32) (h : BelowRoot layout (levels + 1) l)
      (hc : c ∈ Htree.children (blockBytes layout l.toNat) 8) : BelowRoot layout levels c

/-- Block `l` is the root of the directory's index or an interior node of it. -/
def InIndex (layout : Layout) (l : Nat) : Prop :=
  dir.isIndexed ∧ (l = 0 ∨ ∃ (levels : Nat) (c : UInt32), c.toNat = l ∧
    BelowRoot layout (levels + 1) c)

/-- The block ends in what has the shape of a checksum tail and is no right one. -/
def badTail (b : Bytes) : Bool :=
  v.csum.enabled && hasCsumTail b && !v.csum.verifyDirEntryTail crc dirIno dir.generation b

/-- A directory of blocks: each mapped block is a run of records, and a checksum tail it ends in is
right. An index block has a checksum of its own, and nothing is asked of its last bytes. -/
structure WellFormed (layout : Layout) : Prop where
  plain : dir.flags &&& inodeFlagEncrypt = 0
  notInline : dir.hasInlineData = false
  hole : ∀ l, layout l = none → (v.mapBlock dir l).exec d = (.ok none, d)
  records : ∀ l rs, layout l = some rs →
    HoldsBlock v d dir l (blockBytes layout l) ∧ Tiles v.sb.hasFiletype rs (blockBytes layout l)
  tails : ∀ l, layout l ≠ none → ¬ InIndex dir layout l → badTail crc v dirIno dir
    (blockBytes layout l) = false

/-- A walk of the index's nodes for a hash, from a block with `levels` of nodes under it to a
leaf. -/
inductive Leads (layout : Layout) (major : UInt32) : Nat → UInt32 → UInt32 → Prop where
  | leaf (l : UInt32) : Leads layout major 0 l l
  | node (levels : Nat) (l leaf : UInt32) (limits : Htree.DxCountLimit)
      (entries : List Htree.DxEntry) (hmapped : layout l.toNat ≠ none)
      (hparse : Htree.parseNodeEntries (blockBytes layout l.toNat) = .ok (limits, entries))
      (hrest : Leads layout major levels (Htree.findEntryForHash entries major).block leaf) :
      Leads layout major (levels + 1) l leaf

def IndexLeads (layout : Layout) (name : Bytes) (leaf : UInt32) : Prop :=
  ∃ info limits entries, Htree.parseRootInfo (blockBytes layout 0) = .ok info ∧
    Htree.parseRootEntries (blockBytes layout 0) = .ok (limits, entries) ∧
    Leads layout (Hash.nameHash name (Hash.effectiveVersion info.hashVersion v.hash.unsignedHash)
        v.hash.hashSeed).major info.indirectLevels
      (Htree.findEntryForHash entries (Hash.nameHash name
        (Hash.effectiveVersion info.hashVersion v.hash.unsignedHash) v.hash.hashSeed).major).block
          leaf

/-- No block from `s` on, of `n`, has a bad tail before one that holds the name. -/
def Clear (layout : Layout) (name : Bytes) (s n : Nat) : Prop :=
  ∀ l, s ≤ l → l < s + n → badTail crc v dirIno dir (blockBytes layout l) = true →
    ∃ l', s ≤ l' ∧ l' < l ∧ ∃ e ∈ blockEntries v layout l', e.name = name

/-- The linear scan passes over an index's root that it cannot verify. -/
def firstScanned (layout : Layout) : Nat :=
  if badTail crc v dirIno dir (blockBytes layout 0) = true then 1 else 0

end WellFormed

def scan (name : Bytes) (entries : List DirEntry) : Result UInt32 :=
  match entries.find? (fun e => e.name == name) with
  | some e => .ok e.inode
  | none => .error .notFound

section Lists

variable {name : Bytes} {es fs : List DirEntry}

theorem findIn_map_ok (name : Bytes) (es : List DirEntry) :
    findIn name (es.map .ok) = .ok ((es.find? (fun e => e.name == name)).map DirEntry.inode) := by
  induction es with
  | nil => rfl
  | cons e es ih =>
    rw [List.map_cons, findIn, List.find?_cons, ih]
    by_cases h : e.name = name
    · rw [if_pos h, h, beq_self_eq_true]
      rfl
    · rw [if_neg h, beq_false_of_ne h]

theorem scan_append_of_some {e : DirEntry} (h : es.find? (fun e => e.name == name) = some e) :
    scan name (es ++ fs) = .ok e.inode := by
  rw [scan, List.find?_append, h]
  rfl

theorem scan_append_of_none (h : es.find? (fun e => e.name == name) = none) :
    scan name (es ++ fs) = scan name fs := by
  rw [scan, scan, List.find?_append, h]
  rfl

theorem find?_of_mem_nodup {e : DirEntry} (hnd : (es.map DirEntry.name).Nodup) (hmem : e ∈ es) :
    es.find? (fun x => x.name == e.name) = some e := by
  induction es with
  | nil => cases hmem
  | cons x es ih =>
    rw [List.map_cons, List.nodup_cons] at hnd
    rw [List.find?_cons]
    obtain rfl | hin := List.mem_cons.1 hmem
    · simp
    · have hne : x.name ≠ e.name := by
        intro heq
        exact hnd.1 (heq ▸ List.mem_map_of_mem hin)
      rw [beq_false_of_ne hne]
      exact ih hnd.2 hin

theorem scan_eq_ok_iff (hnd : (es.map DirEntry.name).Nodup) (i : UInt32) :
    scan name es = .ok i ↔ ∃ e ∈ es, e.name = name ∧ e.inode = i := by
  constructor
  · intro h
    rw [scan] at h
    split at h
    · rename_i e he
      refine ⟨e, List.mem_of_find?_eq_some he, ?_, Except.ok.inj h⟩
      simpa using List.find?_some he
    · cases h
  · rintro ⟨e, hmem, rfl, rfl⟩
    rw [scan, find?_of_mem_nodup hnd hmem]

theorem scan_ne_error {e : Error} (hne : e ≠ .notFound) : scan name es ≠ .error e := by
  intro h
  rw [scan] at h
  split at h
  · cases h
  · exact hne (Except.error.inj h).symm

end Lists

section Linear

variable {crc : Crc} {v : Volume} {d : Disk} {dirIno : UInt32} {dir : Inode} {layout : Layout}
  {name : Bytes}

theorem exec_readPhys {phys : Nat} (h : phys * v.blockSize + v.blockSize ≤ d.size) :
    (v.readPhys phys).exec d = (.ok (d.img.read (phys * v.blockSize) v.blockSize), d) :=
  exec_readAt d _ _ h

theorem parseBlockVerified_eq {rs : List Record} {b : Bytes}
    (htiles : Tiles v.sb.hasFiletype rs b) :
    parseBlockVerified crc b v.sb.hasFiletype dirIno dir.generation v.csum =
      if badTail crc v dirIno dir b = true then .error (.badChecksum "directory block")
      else .ok (liveEntries v.sb.hasFiletype rs) := by
  rw [parseBlockVerified, badTail]
  by_cases hbad : (v.csum.enabled && hasCsumTail b &&
      !v.csum.verifyDirEntryTail crc dirIno dir.generation b) = true
  · rw [if_pos hbad, if_pos hbad]
  · rw [if_neg hbad, if_neg hbad]
    exact htiles.parseBlock_eq

theorem blockEntries_eq {l : Nat} {rs : List Record} (h : layout l = some rs) :
    blockEntries v layout l = liveEntries v.sb.hasFiletype rs := by
  rw [blockEntries, h, Option.getD_some]

theorem blockEntries_hole {l : Nat} (h : layout l = none) : blockEntries v layout l = [] := by
  rw [blockEntries, h]
  rfl

theorem badTail_hole {l : Nat} (h : layout l = none) :
    badTail crc v dirIno dir (blockBytes layout l) = false := by
  rw [badTail, blockBytes, h]
  cases v.csum.enabled <;> rfl

theorem WellFormed.badTail_indexed (h : WellFormed crc v d dirIno dir layout) {l : Nat}
    (hbad : badTail crc v dirIno dir (blockBytes layout l) = true) : InIndex dir layout l := by
  by_contra hnot
  by_cases hl : layout l = none
  · rw [badTail_hole hl] at hbad
    cases hbad
  · rw [h.tails l hl hnot] at hbad
    cases hbad

theorem findInBlocks_cons (h : WellFormed crc v d dirIno dir layout) (l : Nat) (rest : List Nat) :
    (findInBlocks crc v dirIno dir name (l :: rest)).exec d =
      if badTail crc v dirIno dir (blockBytes layout l) = true then
        if l = 0 ∧ dir.isIndexed = true then (findInBlocks crc v dirIno dir name rest).exec d
        else (.error (.badChecksum "directory block"), d)
      else
        match (blockEntries v layout l).find? (fun e => e.name == name) with
        | some e => (.ok e.inode, d)
        | none => (findInBlocks crc v dirIno dir name rest).exec d := by
  rw [findInBlocks]
  cases hl : layout l with
  | none =>
    rw [Io.exec_bind_ok _ _ _ _ _ (h.hole l hl), badTail_hole hl, blockEntries_hole hl]
    rfl
  | some rs =>
    obtain ⟨⟨phys, hmap, hfit, hread⟩, htiles⟩ := h.records l rs hl
    rw [Io.exec_bind_ok _ _ _ _ _ hmap]
    dsimp only
    rw [Io.exec_bind_ok _ _ _ _ _ (exec_readPhys hfit), hread, parseBlockVerified_eq htiles,
      blockEntries_eq hl]
    by_cases hbad : badTail crc v dirIno dir (blockBytes layout l) = true
    · rw [if_pos hbad, if_pos hbad]
      dsimp only
      by_cases hroot : l = 0 ∧ dir.isIndexed = true
      · rw [if_pos hroot, if_pos hroot]
      · rw [if_neg hroot, if_neg hroot]
        rfl
    · rw [if_neg hbad, if_neg hbad]
      dsimp only
      cases (liveEntries v.sb.hasFiletype rs).find? (fun e => e.name == name) <;> rfl

theorem find?_eq_none_iff {es : List DirEntry} :
    es.find? (fun e => e.name == name) = none ↔ ¬ ∃ e ∈ es, e.name = name := by
  simp

theorem clear_succ {s n : Nat} (hbad : badTail crc v dirIno dir (blockBytes layout s) = false)
    (hnone : ¬ ∃ e ∈ blockEntries v layout s, e.name = name) :
    Clear crc v dirIno dir layout name s (n + 1) ↔ Clear crc v dirIno dir layout name
      (s + 1) n := by
  constructor
  · intro h l hs hn hl
    obtain ⟨l', hs', hlt, he⟩ := h l (by omega) (by omega) hl
    obtain hlt' | hge := Nat.lt_or_ge s l'
    · exact ⟨l', hlt', hlt, he⟩
    · obtain rfl : s = l' := by omega
      exact absurd he hnone
  · intro h l hs hn hl
    obtain hlt | hge := Nat.lt_or_ge s l
    · obtain ⟨l', hs', hlt', he⟩ := h l hlt (by omega) hl
      exact ⟨l', by omega, hlt', he⟩
    · obtain rfl : s = l := by omega
      rw [hbad] at hl
      cases hl

theorem findInBlocks_range (h : WellFormed crc v d dirIno dir layout) (s n : Nat)
    (hfirst : s ≠ 0 ∨ badTail crc v dirIno dir (blockBytes layout 0) = false) :
    (Clear crc v dirIno dir layout name s n →
      (findInBlocks crc v dirIno dir name (List.range' s n)).exec d =
        (scan name ((List.range' s n).flatMap (blockEntries v layout)), d)) ∧
    (¬ Clear crc v dirIno dir layout name s n →
      (findInBlocks crc v dirIno dir name (List.range' s n)).exec d =
        (.error (.badChecksum "directory block"), d)) := by
  induction n generalizing s with
  | zero => exact ⟨fun _ => rfl, fun hnot => absurd (fun l hs hn => absurd hn (by omega)) hnot⟩
  | succ n ih =>
    rw [List.range'_succ, findInBlocks_cons h, List.flatMap_cons]
    cases hbad : badTail crc v dirIno dir (blockBytes layout s) with
    | true =>
      have hs : s ≠ 0 := by
        obtain hs | hroot := hfirst
        · exact hs
        · rintro rfl
          rw [hroot] at hbad
          cases hbad
      rw [if_pos rfl, if_neg (fun hroot => hs hroot.1)]
      refine ⟨fun hclear => ?_, fun _ => rfl⟩
      obtain ⟨l', hle, hlt, -⟩ := hclear s (Nat.le_refl s) (by omega) hbad
      omega
    | false =>
      rw [if_neg Bool.false_ne_true]
      cases hfind : (blockEntries v layout s).find? (fun e => e.name == name) with
      | some e =>
        rw [scan_append_of_some hfind]
        refine ⟨fun _ => rfl, fun hnot => absurd ?_ hnot⟩
        intro l hs hn hl
        refine ⟨s, Nat.le_refl s, Nat.lt_of_le_of_ne hs ?_, e, List.mem_of_find?_eq_some hfind, ?_⟩
        · rintro rfl
          rw [hbad] at hl
          cases hl
        · simpa using List.find?_some hfind
      | none =>
        rw [scan_append_of_none hfind, clear_succ hbad (find?_eq_none_iff.mp hfind)]
        exact ih (s + 1) (.inl (Nat.succ_ne_zero s))

abbrev scanned (crc : Crc) (v : Volume) (dirIno : UInt32) (dir : Inode)
    (layout : Layout) : List Nat :=
  List.range' (firstScanned crc v dirIno dir layout)
    (v.totalBlocks dir - firstScanned crc v dirIno dir layout)

/-- Nothing keeps the linear scan from the name: what it passes over does not change the answer, and
no block that it cannot verify stands before one that holds the name. -/
structure LinearFinds (crc : Crc) (v : Volume) (dirIno : UInt32) (dir : Inode) (layout : Layout)
    (name : Bytes) :
    Prop where
  clear : Clear crc v dirIno dir layout name (firstScanned crc v dirIno dir layout)
    (v.totalBlocks dir - firstScanned crc v dirIno dir layout)
  same : scan name ((scanned crc v dirIno dir layout).flatMap (blockEntries v layout)) =
    scan name (contents v dir layout)

theorem firstScanned_cases (crc : Crc) (v : Volume) (dirIno : UInt32) (dir : Inode)
    (layout : Layout) :
    (badTail crc v dirIno dir (blockBytes layout 0) = true ∧
    firstScanned crc v dirIno dir layout = 1) ∨
      (badTail crc v dirIno dir (blockBytes layout 0) = false ∧
      firstScanned crc v dirIno dir layout = 0) := by
  unfold firstScanned
  cases badTail crc v dirIno dir (blockBytes layout 0) with
  | true => exact .inl ⟨rfl, rfl⟩
  | false => exact .inr ⟨rfl, rfl⟩

theorem exec_findEntryLinear (h : WellFormed crc v d dirIno dir layout) :
    (findEntryLinear crc v dirIno dir name).exec d =
      (findInBlocks crc v dirIno dir name (scanned crc v dirIno dir layout)).exec d := by
  rw [findEntryLinear, scanned, List.range_eq_range']
  obtain ⟨hbad, hfirst⟩ | ⟨-, hfirst⟩ := firstScanned_cases crc v dirIno dir layout
  · rw [hfirst]
    cases v.totalBlocks dir with
    | zero => rfl
    | succ n =>
      rw [List.range'_succ, findInBlocks_cons h, if_pos hbad,
        if_pos ⟨rfl, (h.badTail_indexed hbad).1⟩]
      rfl
  · rw [hfirst]
    rfl

theorem findEntryLinear_range (h : WellFormed crc v d dirIno dir layout) :
    (Clear crc v dirIno dir layout name (firstScanned crc v dirIno dir layout)
        (v.totalBlocks dir - firstScanned crc v dirIno dir layout) →
      (findEntryLinear crc v dirIno dir name).exec d =
        (scan name ((scanned crc v dirIno dir layout).flatMap (blockEntries v layout)), d)) ∧
    (¬ Clear crc v dirIno dir layout name (firstScanned crc v dirIno dir layout)
        (v.totalBlocks dir - firstScanned crc v dirIno dir layout) →
      (findEntryLinear crc v dirIno dir name).exec d =
        (.error (.badChecksum "directory block"), d)) := by
  rw [exec_findEntryLinear h]
  refine findInBlocks_range h _ _ ?_
  obtain ⟨-, hfirst⟩ | ⟨hgood, -⟩ := firstScanned_cases crc v dirIno dir layout
  · left
    rw [hfirst]
    exact Nat.one_ne_zero
  · exact .inr hgood

theorem findEntryLinear_iff (h : WellFormed crc v d dirIno dir layout) :
    (findEntryLinear crc v dirIno dir name).exec d = (scan name (contents v dir layout), d) ↔
      LinearFinds crc v dirIno dir layout name := by
  constructor
  · intro heq
    by_cases hclear : Clear crc v dirIno dir layout name (firstScanned crc v dirIno dir layout)
        (v.totalBlocks dir - firstScanned crc v dirIno dir layout)
    · refine ⟨hclear, ?_⟩
      rw [(findEntryLinear_range h).1 hclear] at heq
      exact (Prod.mk.inj heq).1
    · rw [(findEntryLinear_range h).2 hclear] at heq
      exact absurd (Prod.mk.inj heq).1.symm (scan_ne_error nofun)
  · intro hfinds
    rw [(findEntryLinear_range h).1 hfinds.clear, hfinds.same]

theorem linearFinds_of_tails (hgood : ∀ l, badTail crc v dirIno dir (blockBytes layout l) = false) :
    LinearFinds crc v dirIno dir layout name := by
  have hfirst : firstScanned crc v dirIno dir layout = 0 := by
    rw [firstScanned, hgood 0]
    rfl
  constructor
  · intro l _ _ hbad
    rw [hgood l] at hbad
    cases hbad
  · rw [scanned, hfirst, Nat.sub_zero, ← List.range_eq_range']
    rfl

end Linear

section Indexed

variable {crc : Crc} {v : Volume} {d : Disk} {dirIno : UInt32} {dir : Inode} {layout : Layout}
  {name : Bytes} {major : UInt32}

theorem exec_readDxBlock {l : UInt32} {b : Bytes} (h : HoldsBlock v d dir l.toNat b) :
    (readDxBlock v dir l).exec d = (.ok b, d) := by
  obtain ⟨phys, hmap, hfit, hread⟩ := h
  rw [readDxBlock, Io.exec_bind_ok _ _ _ _ _ hmap]
  dsimp only
  rw [exec_readPhys hfit, hread]

theorem WellFormed.block (h : WellFormed crc v d dirIno dir layout) {l : Nat}
    (hl : layout l ≠ none) :
    HoldsBlock v d dir l (blockBytes layout l) := by
  obtain ⟨rs, hrs⟩ := Option.ne_none_iff_exists'.1 hl
  exact (h.records l rs hrs).1

theorem descend_of_leads (h : WellFormed crc v d dirIno dir layout) {levels : Nat} {l leaf : UInt32}
    (hleads : Leads layout major levels l leaf) :
    (Htree.descend major (readDxBlock v dir) levels l).exec d = (.ok (some leaf), d) := by
  induction hleads with
  | leaf l => rfl
  | node levels l leaf limits entries hmapped hparse hrest ih =>
    rw [Htree.descend, Io.exec_bind_ok _ _ _ _ _ (exec_readDxBlock (h.block hmapped)),
      Io.exec_bind_ok _ _ _ _ _ (by rw [Io.exec_liftM, hparse])]
    dsimp only
    rw [if_neg (by simpa using Htree.parseNodeEntries_ne_nil hparse)]
    exact ih

theorem descend_of_not_leads (h : WellFormed crc v d dirIno dir layout) {levels : Nat} {l : UInt32}
    (hno : ∀ leaf, ¬ Leads layout major levels l leaf) :
    ∃ e, e ≠ .notFound ∧ (Htree.descend major (readDxBlock v dir) levels l).exec d =
      (.error e, d) := by
  induction levels generalizing l with
  | zero => exact absurd (.leaf l) (hno l)
  | succ levels ih =>
    rw [Htree.descend]
    by_cases hmapped : layout l.toNat = none
    · refine ⟨.corruptDirEntry "htree pointed at sparse block", nofun, ?_⟩
      rw [Io.exec_bind_error _ _ _ _ _ (by
        rw [readDxBlock, Io.exec_bind_ok _ _ _ _ _ (h.hole _ hmapped)]
        rfl)]
    · rw [Io.exec_bind_ok _ _ _ _ _ (exec_readDxBlock (h.block hmapped))]
      cases hparse : Htree.parseNodeEntries (blockBytes layout l.toNat) with
      | error e =>
        refine ⟨e, ?_, by rw [Io.exec_bind_error _ _ _ _ _ (by rw [Io.exec_liftM])]⟩
        rintro rfl
        exact Htree.parseNodeEntries_ne_notFound _ hparse
      | ok parsed =>
        obtain ⟨limits, entries⟩ := parsed
        rw [Io.exec_bind_ok _ _ _ _ _ (by rw [Io.exec_liftM])]
        dsimp only
        rw [if_neg (by simpa using Htree.parseNodeEntries_ne_nil hparse)]
        exact ih fun leaf hleads =>
          hno leaf (.node levels l leaf limits entries hmapped hparse hleads)

theorem lookupLeafWith_cases (h : WellFormed crc v d dirIno dir layout) (name : Bytes) :
    (∃ leaf, IndexLeads v layout name leaf ∧
      (Htree.lookupLeafWith name (blockBytes layout 0) v.hash.hashSeed v.hash.unsignedHash
        (readDxBlock v dir)).exec d = (.ok (some leaf), d)) ∨
    ((∀ leaf, ¬ IndexLeads v layout name leaf) ∧ ∃ e, e ≠ .notFound ∧
      (Htree.lookupLeafWith name (blockBytes layout 0) v.hash.hashSeed v.hash.unsignedHash
        (readDxBlock v dir)).exec d = (.error e, d)) := by
  rw [Htree.lookupLeafWith]
  cases hinfo : Htree.parseRootInfo (blockBytes layout 0) with
  | error e =>
    refine .inr ⟨?_, e, ?_, by rw [Io.exec_bind_error _ _ _ _ _ (by rw [Io.exec_liftM])]⟩
    · rintro leaf ⟨info, limits, entries, hok, -⟩
      rw [hinfo] at hok
      cases hok
    · rintro rfl
      exact Htree.parseRootInfo_ne_notFound _ hinfo
  | ok info =>
    rw [Io.exec_bind_ok _ _ _ _ _ (by rw [Io.exec_liftM])]
    dsimp only
    cases hparse : Htree.parseRootEntries (blockBytes layout 0) with
    | error e =>
      refine .inr ⟨?_, e, ?_, by rw [Io.exec_bind_error _ _ _ _ _ (by rw [Io.exec_liftM])]⟩
      · rintro leaf ⟨_, limits, entries, -, hok, -⟩
        rw [hparse] at hok
        cases hok
      · rintro rfl
        exact Htree.parseRootEntries_ne_notFound _ hparse
    | ok parsed =>
      obtain ⟨limits, entries⟩ := parsed
      rw [Io.exec_bind_ok _ _ _ _ _ (by rw [Io.exec_liftM])]
      dsimp only
      rw [if_neg (by simpa using Htree.parseRootEntries_ne_nil hparse)]
      by_cases hleads : ∃ leaf, IndexLeads v layout name leaf
      · obtain ⟨leaf, hleaf⟩ := hleads
        obtain ⟨info', limits', entries', hinfo', hparse', hdescent⟩ := id hleaf
        obtain rfl := Except.ok.inj (hinfo.symm.trans hinfo')
        obtain ⟨rfl, rfl⟩ := Prod.mk.inj (Except.ok.inj (hparse.symm.trans hparse'))
        exact .inl ⟨leaf, hleaf, descend_of_leads h hdescent⟩
      · refine .inr ⟨fun leaf hleaf => hleads ⟨leaf, hleaf⟩, ?_⟩
        exact descend_of_not_leads h fun leaf hdescent =>
          hleads ⟨leaf, info, limits, entries, hinfo, hparse, hdescent⟩

theorem findEntryHtree_hole (h : WellFormed crc v d dirIno dir layout) (hroot : layout 0 = none) :
    (findEntryHtree crc v dirIno dir name).exec d = (.ok none, d) := by
  rw [findEntryHtree, Io.exec_bind_ok _ _ _ _ _ (h.hole 0 hroot)]
  rfl

theorem exec_findEntryHtree (h : WellFormed crc v d dirIno dir layout) (hroot : layout 0 ≠ none) :
    (findEntryHtree crc v dirIno dir name).exec d =
      (Htree.lookupLeafWith name (blockBytes layout 0) v.hash.hashSeed v.hash.unsignedHash
          (readDxBlock v dir) >>= fun r => match r with
        | none => pure none
        | some leaf => do
          match ← v.mapBlock dir leaf.toNat with
          | none => .fail (.corruptDirEntry "htree leaf at sparse block")
          | some phys =>
            let leaf ← v.readPhys phys
            if v.csum.enabled && hasCsumTail leaf &&
                !v.csum.verifyDirEntryTail crc dirIno dir.generation leaf then
              .fail (.badChecksum "directory block")
            else liftM (findIn name (dirBlockIter v.sb.hasFiletype leaf))).exec d := by
  obtain ⟨phys, hmap, hfit, hread⟩ := h.block hroot
  have hroot' : (v.readPhys phys).exec d = (.ok (blockBytes layout 0), d) := by
    rw [exec_readPhys hfit, hread]
  rw [findEntryHtree, Io.exec_bind_ok _ _ _ _ _ hmap]
  exact Io.exec_bind_ok _ _ _ _ _ hroot'

theorem findEntryHtree_of_leads (h : WellFormed crc v d dirIno dir layout) (hroot : layout 0 ≠ none)
    {leaf : UInt32} (hleads : IndexLeads v layout name leaf) (hmapped : layout leaf.toNat ≠ none)
    (hgood : badTail crc v dirIno dir (blockBytes layout leaf.toNat) = false) :
    (findEntryHtree crc v dirIno dir name).exec d =
      (.ok (((blockEntries v layout leaf.toNat).find? (fun e => e.name == name)).map
        DirEntry.inode), d) := by
  obtain ⟨info, limits, entries, hinfo, hparse, hdescent⟩ := hleads
  have hwalk := descend_of_leads h hdescent
  have hlookup : (Htree.lookupLeafWith name (blockBytes layout 0) v.hash.hashSeed
    v.hash.unsignedHash (readDxBlock v dir)).exec d = (.ok (some leaf), d) := by
    rw [Htree.lookupLeafWith, Io.exec_bind_ok _ _ _ _ _ (by rw [Io.exec_liftM, hinfo])]
    dsimp only
    rw [Io.exec_bind_ok _ _ _ _ _ (by rw [Io.exec_liftM, hparse])]
    dsimp only
    rw [if_neg (by simpa using Htree.parseRootEntries_ne_nil hparse)]
    exact hwalk
  obtain ⟨rs, hrs⟩ := Option.ne_none_iff_exists'.1 hmapped
  obtain ⟨⟨phys, hmap, hfit, hread⟩, htiles⟩ := h.records leaf.toNat rs hrs
  rw [badTail] at hgood
  rw [exec_findEntryHtree h hroot, Io.exec_bind_ok _ _ _ _ _ hlookup]
  dsimp only
  rw [Io.exec_bind_ok _ _ _ _ _ hmap]
  dsimp only
  rw [Io.exec_bind_ok _ _ _ _ _ (exec_readPhys hfit), hread, hgood, htiles.dirBlockIter_eq,
    findIn_map_ok, blockEntries_eq hrs]
  rfl

theorem findEntryHtree_fails (h : WellFormed crc v d dirIno dir layout) (hroot : layout 0 ≠ none)
    (hno : ∀ leaf, IndexLeads v layout name leaf → layout leaf.toNat ≠ none →
      badTail crc v dirIno dir (blockBytes layout leaf.toNat) = true) :
    ∃ e, e ≠ .notFound ∧ (findEntryHtree crc v dirIno dir name).exec d = (.error e, d) := by
  rw [exec_findEntryHtree h hroot]
  obtain ⟨leaf, hleads, hlookup⟩ | ⟨-, e, hne, hlookup⟩ := lookupLeafWith_cases h name
  · rw [Io.exec_bind_ok _ _ _ _ _ hlookup]
    dsimp only
    by_cases hmapped : layout leaf.toNat = none
    · refine ⟨.corruptDirEntry "htree leaf at sparse block", nofun, ?_⟩
      rw [Io.exec_bind_ok _ _ _ _ _ (h.hole _ hmapped)]
      rfl
    · refine ⟨.badChecksum "directory block", nofun, ?_⟩
      obtain ⟨phys, hmap, hfit, hread⟩ := h.block hmapped
      have hbad := hno leaf hleads hmapped
      rw [badTail] at hbad
      rw [Io.exec_bind_ok _ _ _ _ _ hmap]
      dsimp only
      rw [Io.exec_bind_ok _ _ _ _ _ (exec_readPhys hfit), hread, if_pos hbad]
      rfl
  · exact ⟨e, hne, by rw [Io.exec_bind_error _ _ _ _ _ hlookup]⟩

end Indexed

section Agreement

variable {crc : Crc} {v : Volume} {d : Disk} {dirIno : UInt32} {dir : Inode} {layout : Layout}

theorem refuseEncryptedNames_ok {dir : Inode} (h : dir.flags &&& inodeFlagEncrypt = 0) :
    refuseEncryptedNames dir = .ok () := by
  rw [refuseEncryptedNames, if_neg (by simp [h])]

theorem exec_findEntry (h : WellFormed crc v d dirIno dir layout) (name : Bytes) :
    (findEntry crc v dirIno dir name).exec d =
      (if dir.isIndexed then
        (findEntryHtree crc v dirIno dir name >>= fun r => match r with
          | some found => pure found
          | none => findEntryLinear crc v dirIno dir name)
      else findEntryLinear crc v dirIno dir name).exec d := by
  rw [findEntry, Io.exec_bind_ok _ _ _ _ _ (by rw [Io.exec_liftM, refuseEncryptedNames_ok h.plain]),
    h.notInline]
  rfl

/-- What the index has to say of a name for lookup to answer as the scan does: it leads to a block
that can be verified, whose entry of the name, if it has one, is as good as the first, and otherwise
the linear scan is free to find it. -/
structure IndexAnswers (crc : Crc) (v : Volume) (dirIno : UInt32) (dir : Inode) (layout : Layout)
    (name : Bytes) (leaf : UInt32) : Prop where
  leads : IndexLeads v layout name leaf
  mapped : layout leaf.toNat ≠ none
  tail : badTail crc v dirIno dir (blockBytes layout leaf.toNat) = false
  found : ∀ e, (blockEntries v layout leaf.toNat).find? (fun e => e.name == name) = some e →
    scan name (contents v dir layout) = .ok e.inode
  missed : (blockEntries v layout leaf.toNat).find? (fun e => e.name == name) = none →
    LinearFinds crc v dirIno dir layout name

theorem BelowRoot.false_of_hole {levels : Nat} {c : UInt32} (h : BelowRoot layout levels c)
    (hroot : layout 0 = none) : False := by
  induction h with
  | top c hc =>
    rw [blockBytes, hroot] at hc
    exact absurd hc (by simp [Htree.children, Htree.entriesAt, Htree.countLimitAt, u16leAt,
      slice, ofLe])
  | under levels l c h hc ih => exact ih

theorem WellFormed.tails_of_not_indexed (h : WellFormed crc v d dirIno dir layout)
    (hnot : ¬ (dir.isIndexed = true ∧ layout 0 ≠ none)) (l : Nat) :
    badTail crc v dirIno dir (blockBytes layout l) = false := by
  by_contra hbad
  obtain ⟨hidx, hin⟩ := h.badTail_indexed (Bool.not_eq_false _ ▸ hbad)
  have hroot : layout 0 = none := by
    by_contra hroot
    exact hnot ⟨hidx, hroot⟩
  obtain rfl | ⟨levels, c, -, hbelow⟩ := hin
  · exact hbad (badTail_hole hroot)
  · exact hbelow.false_of_hole hroot

end Agreement

def smallSb : Superblock where
  inodesCount := 32
  blocksCount := 64
  firstDataBlock := 1
  logBlockSize := 0
  blocksPerGroup := 8192
  inodesPerGroup := 32
  inodeSize := 256
  featureIncompat := incompatFiletype
  descSize := 32
  reservedGdtBlocks := 0
  journalInode := 0
  featureCompat := 0
  featureRoCompat := 0
  firstInode := 11
  metaBgField := 0
  backupBgs := [0, 0]
  uuid := List.replicate 16 0

def smallWith (csum : Checksummer) : Volume where
  sb := smallSb
  hash := ⟨[0, 0, 0, 0], false⟩
  csum := csum

def small : Volume := smallWith ⟨0, false⟩

def indexedInode : Inode where
  mode := 0x41ED
  size := 2048
  linksCount := 2
  blocks := 4
  flags := inodeFlagExtents ||| inodeFlagIndex
  block := [0x0A, 0xF3, 1, 0, 4, 0, 0, 0, 0, 0, 0, 0] ++ [0, 0, 0, 0, 2, 0, 0, 0, 5, 0, 0, 0] ++
    List.replicate 36 0
  generation := 0
  fileAcl := 0

/-- The root of an index of one leaf, block 1, hashed with `version`, up to its tail. -/
def rootWith (version limit : UInt8) (tail : Bytes) : List Record := [
  ⟨12, InlineData.dotName, 2, [0, 0, 0]⟩,
  ⟨2, InlineData.dotdotName, 2,
    [0, 0] ++ [0, 0, 0, 0, version, 8, 0, 0] ++ [limit, 0, 1, 0, 1, 0, 0, 0] ++
      List.replicate 976 0 ++ tail⟩]

def rootRecords (version : UInt8) : List Record := rootWith version 124 (List.replicate 8 0)

def leafRecords : List Record := [⟨13, [0x61], 1, List.replicate 1015 0⟩]

def twoBlocks (root leaf : List Record) : Layout
  | 0 => some root
  | 1 => some leaf
  | _ => none

def twoBlocksAt (root leaf : List Record) : List (Nat × Bytes) :=
  [(5, root.flatMap Record.bytes), (6, leaf.flatMap Record.bytes)]

def twoBlocksDisk (root leaf : List Record) : Disk where
  img := Image.writeBlocks (fun _ => 0) 1024 (twoBlocksAt root leaf)
  size := 64 * 1024

/-- The directory holds `.`, `..` and `a`, and its index routes every name to the leaf. -/
def indexedLayout (version : UInt8) : Layout := twoBlocks (rootRecords version) leafRecords

def indexedDisk (version : UInt8) : Disk := twoBlocksDisk (rootRecords version) leafRecords

theorem leafRecords_tile : Tiles true leafRecords (leafRecords.flatMap Record.bytes) := by
  refine Tiles.of_live ?_
  decide +kernel

theorem rootRecords_tile {version : UInt8} (hversion : version = 1 ∨ version = 6) :
    Tiles true (rootRecords version) ((rootRecords version).flatMap Record.bytes) := by
  refine Tiles.of_live ?_
  obtain rfl | rfl := hversion <;> decide +kernel

theorem indexedInode_tree (d : Disk) :
    FsExt4.WellFormed 1024 (nodeOn d 1024) indexedInode.block
      (LevelTree.leaf [⟨0, 2, 5, false⟩]) where
  depth := Nat.zero_le _
  length := by decide
  tree := ⟨⟨1, 4, 0, 0⟩, rfl, rfl, rfl⟩
  rootFill := by decide
  rootIndex := fun h => absurd h (Nat.lt_irrefl 0)
  filled := trivial
  valid := by
    intro e he
    obtain rfl := List.mem_singleton.mp he
    constructor <;> decide
  apart := List.pairwise_singleton _ _
  distinct := List.nodup_nil
  nonzero := nofun

theorem indexedInode_mapping {csum : Checksummer} (d : Disk) (l : Nat) :
    ((smallWith csum).mapBlock indexedInode l).exec d =
      (.ok (if l < 2 then some (5 + l) else none), d) := by
  have hmap := Extent.mapLogical_exec (Extent.lookup_exec (indexedInode_tree d) l)
  change (Extent.mapLogical indexedInode.block 1024 l).exec d = _
  rw [hmap]
  by_cases hl : l < 2
  · rw [if_pos hl]
    obtain rfl | rfl : l = 0 ∨ l = 1 := by omega
    · rfl
    · rfl
  · have hnone : (LevelTree.leaf [(⟨0, 2, 5, false⟩ : Extent)]).entries.find?
        (covers Extent.logicalBlock Extent.length l) = none := by
      change List.find? _ [_] = none
      rw [List.find?_singleton, if_neg]
      simp only [covers, decide_eq_true_eq]
      omega
    rw [hnone, if_neg hl]
    rfl

section TwoBlocks

variable {csum : Checksummer} {root leaf : List Record}
  (hroot : Tiles true root (root.flatMap Record.bytes))
    (hleaf : Tiles true leaf (leaf.flatMap Record.bytes))
  (hroot_len : (root.flatMap Record.bytes).length = 1024)
    (hleaf_len : (leaf.flatMap Record.bytes).length = 1024)

include hroot_len hleaf_len in
theorem twoBlocksDisk_block {b : Nat} {bytes : Bytes} (hmem : (b, bytes) ∈ twoBlocksAt root leaf) :
    (twoBlocksDisk root leaf).img.read (b * 1024) 1024 = bytes := by
  have hlen : ∀ w ∈ twoBlocksAt root leaf, w.2.length = 1024 := by
    intro w hw
    obtain rfl | hw := List.mem_cons.mp hw
    · exact hroot_len
    · obtain rfl := List.mem_singleton.mp hw
      exact hleaf_len
  have h := Image.block_writeBlocks (fun _ => 0) 1024 (twoBlocksAt root leaf) hlen b
  rw [lastWrite_of_mem _ (by simp [twoBlocksAt]) _ hmem, Option.getD_some] at h
  exact h

include hroot hleaf hroot_len hleaf_len in
theorem twoBlocks_wellFormed
    (htail : badTail linuxCrc32c (smallWith csum) 12 indexedInode
      (leaf.flatMap Record.bytes) = false) :
    WellFormed linuxCrc32c (smallWith csum) (twoBlocksDisk root leaf) 12 indexedInode
      (twoBlocks root leaf) where
  plain := by decide
  notInline := by decide
  hole := by
    intro l hnone
    rw [indexedInode_mapping, if_neg]
    intro hl
    obtain rfl | rfl : l = 0 ∨ l = 1 := by omega
    · cases hnone
    · cases hnone
  records := by
    intro l rs hrs
    have hft : (smallWith csum).sb.hasFiletype = true := show smallSb.hasFiletype = true by decide
    rw [hft]
    have hholds : ∀ (b : Nat) (bytes : Bytes), l < 2 → b = 5 + l →
      (b, bytes) ∈ twoBlocksAt root leaf →
        HoldsBlock (smallWith csum) (twoBlocksDisk root leaf) indexedInode l bytes := by
      intro b bytes hl hb hmem
      refine ⟨b, ?_, ?_, twoBlocksDisk_block hroot_len hleaf_len hmem⟩
      · rw [indexedInode_mapping, if_pos hl, hb]
      · change b * 1024 + 1024 ≤ 64 * 1024
        omega
    match l, hrs with
    | 0, hrs =>
      cases hrs
      exact ⟨hholds 5 _ (by omega) rfl List.mem_cons_self, hroot⟩
    | 1, hrs =>
      cases hrs
      exact ⟨hholds 6 _ (by omega) rfl (List.mem_cons_of_mem _ List.mem_cons_self), hleaf⟩
  tails := by
    intro l hl hnot
    match l, hl with
    | 0, _ => exact absurd ⟨by decide, .inl rfl⟩ hnot
    | 1, _ => exact htail

end TwoBlocks

theorem indexedDisk_wellFormed {version : UInt8} (hversion : version = 1 ∨ version = 6) :
    WellFormed linuxCrc32c small (indexedDisk version) 12 indexedInode (indexedLayout version) := by
  refine twoBlocks_wellFormed (rootRecords_tile hversion) leafRecords_tile ?_
    (by decide +kernel) rfl
  obtain rfl | rfl := hversion <;> decide +kernel

theorem not_indexLeads_six (name : Bytes) (leaf : UInt32) : ¬ IndexLeads small (indexedLayout 6)
    name leaf := by
  rintro ⟨info, limits, entries, hinfo, -⟩
  have herr : ¬ Result.Ends (fun _ => True)
      (Htree.parseRootInfo (blockBytes (indexedLayout 6) 0)) := by
    decide +kernel
  rw [hinfo] at herr
  exact herr (.ok info trivial)

end FsExt4.Path
