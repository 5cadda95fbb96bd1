import FsExt4.Hash
import FsExt4.PackedLeaf
import Mathlib.Data.List.Flatten
import Mathlib.Data.List.Sort

namespace FsExt4

open Lib Jbd2 Hash

namespace Dir

structure LeafSplit where
  leftBytes : Bytes
  rightBytes : Bytes
  /-- The hash from which on names belong to the right leaf. -/
  splitOutHash : UInt32

section Read

variable (leaf : Bytes) (hasFileType : Bool) (hashVersion : HashVersion) (hashSeed : List UInt32)
  (usable : Nat)

/-- The header and the name of the record at `off`, with no more than the padding of the name; the
length in the header is still the record's. -/
def entryBytes (nameLen off : Nat) : Bytes :=
  let entryBytes := List.replicate (entryRecLen nameLen) 0
  let entryBytes := copyAt entryBytes 0 (slice leaf off 8)
  copyAt entryBytes 8 (slice leaf (off + 8) nameLen)

/-- The entries from `off` on, each with the hash of its name. Every record is at least eight bytes,
so the length of the leaf is fuel enough. -/
def readLeafFrom : Nat → Nat → Result (List (NameHash × Bytes))
  | 0, _ => .ok []
  | fuel + 1, off =>
    if usable < off + 8 then .ok []
    else
      let curInode := u32leAt leaf off
      let recLen := (u16leAt leaf (off + 4)).toNat
      if recLen < 8 ∨ recLen % 4 ≠ 0 ∨ usable < off + recLen then
        .error (.corruptDirEntry "bad rec_len during htree leaf split")
      else if curInode = 0 then readLeafFrom fuel (off + recLen)
      else
        let nameLen := nameLenAt hasFileType leaf off
        if recLen < 8 + nameLen then
          .error (.corruptDirEntry "name overflows rec_len in htree split")
        else
          let h := nameHash (slice leaf (off + 8) nameLen) hashVersion hashSeed
          (readLeafFrom fuel (off + recLen)).map ((h, entryBytes leaf nameLen off) :: ·)

def readLeafEntries (reservedTail : Nat) : Result (List (NameHash × Bytes)) :=
  if leaf.length < reservedTail then .error .outOfBounds
  else readLeafFrom leaf hasFileType hashVersion hashSeed (leaf.length - reservedTail) leaf.length 0

end Read

/-- The place nearest the middle where the hash changes, looked for on both sides of it at once; in
front of the list the index wraps. -/
def splitPoint (majors : List UInt32) : Option Nat :=
  let half := majors.length / 2
  ((List.range majors.length).flatMap fun d => [half + d, (2 ^ 64 + half - d) % 2 ^ 64]).find?
    fun m =>
    0 < m && m < majors.length && majors.getD (m - 1) 0 != majors.getD m 0

/-- Two leaves that hold a leaf's entries, cut where the hash changes nearest to the middle. The
sort is a stable one. -/
def planLeafSplit (leafBytes : Bytes) (hashVersion : HashVersion) (hashSeed : List UInt32)
    (hasFileType : Bool) (blockSize reservedTail : Nat) : Result LeafSplit := do
  let entries ← readLeafEntries leafBytes hasFileType hashVersion hashSeed reservedTail
  if entries.length < 2 then
    .error (.corrupt "htree leaf split needs >=2 entries; caller's overflow may be spurious")
  else
    let entries := entries.insertionSort (fun a b => a.1.major ≤ b.1.major)
    match splitPoint (entries.map (fun e => e.1.major)) with
    | none => .error (.corrupt "htree leaf split: every name in the leaf has the same hash")
    | some mid =>
      let splitOutHash := (entries.map (fun e => e.1.major)).getD mid 0
      let leftBytes ← writePackedLeaf ((entries.take mid).map Prod.snd) blockSize reservedTail
      let rightBytes ← writePackedLeaf ((entries.drop mid).map Prod.snd) blockSize reservedTail
      .ok ⟨leftBytes, rightBytes, splitOutHash⟩

def Slot.packed (hasFileType : Bool) (s : Slot) : Slot :=
  { s with body := s.name hasFileType ++
      List.replicate (entryRecLen (s.nameLen hasFileType) - (8 + s.nameLen hasFileType)) 0 }

section Packed

variable {hasFileType : Bool} {s : Slot} (hv : s.Valid hasFileType) (hlive : s.inode ≠ 0)

include hv hlive

theorem packed_packed : (s.packed hasFileType).Packed hasFileType where
  live := hlive
  recLen_eq := by
    have hname := s.length_name hv hlive
    have hle := le_entryRecLen (s.nameLen hasFileType)
    simp only [Slot.recLen, Slot.packed, List.length_append, List.length_replicate, hname]
    simp only [Slot.nameLen] at hle ⊢
    omega

theorem entry_packed : (s.packed hasFileType).entry hasFileType = s.entry hasFileType := by
  have hname : (s.packed hasFileType).name hasFileType = s.name hasFileType :=
    List.take_left' (s.length_name hv hlive)
  rw [Slot.entry, hname]
  rfl

theorem entryBytes_slot (pre post : Bytes) :
    entryBytes (pre ++ (s.bytes ++ post)) (s.nameLen hasFileType) pre.length =
      (s.packed hasFileType).raw (UInt16.ofNat s.recLen) := by
  have hin := hv.inside hlive
  have hname := s.length_name hv hlive
  have hle := le_entryRecLen (s.nameLen hasFileType)
  have hheader : slice (pre ++ (s.bytes ++ post)) pre.length 8 =
      u32le s.inode ++ u16le (UInt16.ofNat s.recLen) ++ [s.nameLenLo, s.typeOrNamehi] := by
    have h := @slice_slot s pre post 0 8 (Nat.le_add_right 8 _)
    rw [Nat.add_zero] at h
    rw [h, slice, List.drop_zero, Slot.bytes, List.take_left' (by simp)]
  unfold entryBytes
  dsimp only
  rw [hheader, name_slot hin]
  have hfirst := @copyAt_next [] (List.replicate (entryRecLen (s.nameLen hasFileType)) 0)
    (u32le s.inode ++ u16le (UInt16.ofNat s.recLen) ++ [s.nameLenLo, s.typeOrNamehi]) 0 rfl
  rw [List.nil_append, List.nil_append, List.drop_replicate] at hfirst
  have hlen : (u32le s.inode ++ u16le (UInt16.ofNat s.recLen) ++
      [s.nameLenLo, s.typeOrNamehi]).length = 8 := by
    simp
  rw [hlen] at hfirst
  rw [hfirst, copyAt_next hlen.symm, List.drop_replicate, hname, Nat.sub_sub]
  simp only [Slot.raw, Slot.packed, List.append_assoc]

end Packed

section Scan

variable {hasFileType : Bool} {hashVersion : HashVersion} {hashSeed : List UInt32}

def Slot.major (hasFileType : Bool) (hashVersion : HashVersion) (hashSeed : List UInt32)
    (s : Slot) : UInt32 :=
  (nameHash (s.name hasFileType) hashVersion hashSeed).major

def Slot.item (hasFileType : Bool) (hashVersion : HashVersion) (hashSeed : List UInt32) (s : Slot) :
    NameHash × Bytes :=
  (nameHash (s.name hasFileType) hashVersion hashSeed, (s.packed hasFileType).raw
    (UInt16.ofNat s.recLen))

theorem readLeafFrom_slots (slots : List Slot) (pre post : Bytes) (fuel : Nat)
    (hv : ∀ s ∈ slots, s.Valid hasFileType ∧ s.recLen < 2 ^ 16) (hfuel : slots.length ≤ fuel) :
    readLeafFrom (pre ++ (slotBytes slots ++ post)) hasFileType hashVersion hashSeed
        (pre.length + (slotBytes slots).length) fuel pre.length =
      .ok ((liveSlots slots).map (Slot.item hasFileType hashVersion hashSeed)) := by
  induction slots generalizing pre fuel with
  | nil =>
    cases fuel with
    | zero => rfl
    | succ fuel => rw [readLeafFrom, if_pos (by simp [slotBytes])]; rfl
  | cons s rest ih =>
    obtain ⟨fuel, rfl⟩ : ∃ n, fuel = n + 1 :=
      ⟨fuel - 1, by simp only [List.length_cons] at hfuel; omega⟩
    obtain ⟨hvalid, hfit⟩ := hv s List.mem_cons_self
    have haligned := hvalid.aligned
    have hge : 8 ≤ s.recLen := Nat.le_add_right 8 _
    have hlen : (slotBytes (s :: rest)).length = s.recLen + (slotBytes rest).length := by
      rw [slotBytes_cons, List.length_append, s.length_bytes]
    -- the rest of the leaf, read from behind this record
    have hrest : readLeafFrom (pre ++ (s.bytes ++ (slotBytes rest ++ post))) hasFileType
      hashVersion hashSeed
        (pre.length + (slotBytes (s :: rest)).length) fuel (pre.length + s.recLen) =
        .ok ((liveSlots rest).map (Slot.item hasFileType hashVersion hashSeed)) := by
      have h := ih (pre ++ s.bytes) fuel (fun x hx => hv x (List.mem_cons_of_mem _ hx))
        (by simpa using hfuel)
      rw [List.append_assoc, List.length_append, s.length_bytes, Nat.add_assoc, ← hlen] at h
      exact h
    have hbytes : slotBytes (s :: rest) ++ post = s.bytes ++ (slotBytes rest ++ post) := by
      rw [slotBytes_cons, List.append_assoc]
    rw [hbytes, readLeafFrom]
    dsimp only
    rw [if_neg (by omega), u16leAt_slot hfit, u32leAt_slot, if_neg (by omega), hrest]
    by_cases hinode : s.inode = 0
    · rw [if_pos hinode, liveSlots_unused hinode]
    · have hin := hvalid.inside hinode
      rw [if_neg hinode, nameLenAt_slot, if_neg (by simp only [Slot.recLen]; omega), name_slot hin,
        entryBytes_slot hvalid hinode, liveSlots_live hinode]
      rfl

end Scan

section Cut

variable {majors : List UInt32} {m : Nat}

theorem splitPoint_some (h : splitPoint majors = some m) :
    0 < m ∧ m < majors.length ∧ majors.getD (m - 1) 0 ≠ majors.getD m 0 := by
  have hfound := List.find?_some h
  simpa only [Bool.and_eq_true, decide_eq_true_eq, bne_iff_ne, and_assoc] using hfound

theorem splitPoint_none (h : splitPoint majors = none) (hm : 0 < m) (hlt : m < majors.length)
    (hsize : majors.length < 2 ^ 64) : majors.getD (m - 1) 0 = majors.getD m 0 := by
  unfold splitPoint at h
  dsimp only at h
  rw [List.find?_eq_none] at h
  have hcand : m ∈ (List.range majors.length).flatMap fun d =>
      [majors.length / 2 + d, (2 ^ 64 + majors.length / 2 - d) % 2 ^ 64] := by
    rw [List.mem_flatMap]
    obtain hhalf | hhalf := Nat.le_total (majors.length / 2) m
    · exact ⟨m - majors.length / 2, List.mem_range.mpr (by omega), by
        rw [Nat.add_sub_cancel' hhalf]
        exact List.mem_cons_self⟩
    · refine ⟨majors.length / 2 - m, List.mem_range.mpr (by omega), ?_⟩
      have hwrap : (2 ^ 64 + majors.length / 2 - (majors.length / 2 - m)) % 2 ^ 64 = m := by omega
      rw [hwrap]
      exact List.mem_cons_of_mem _ List.mem_cons_self
  have hno := h m hcand
  simp only [Bool.and_eq_true, decide_eq_true_eq, bne_iff_ne, hm, hlt, true_and, not_not] at hno
  exact hno

theorem majors_eq_of_none (h : splitPoint majors = none) (hsize : majors.length < 2 ^ 64)
    (hlt : m < majors.length) :
    majors.getD m 0 = majors.getD 0 0 := by
  induction m with
  | zero => rfl
  | succ m ih => rw [← splitPoint_none h (Nat.succ_pos m) hlt hsize, Nat.succ_sub_one,
      ih (by omega)]

end Cut

/-- A leaf that is read back as the entries, with no room in it but its records'. -/
structure HalfLeaf (hasFileType : Bool) (blockSize reservedTail : Nat) (entries : List DirEntry)
    (block : Bytes) :
    Prop where
  length : block.length = blockSize
  tiles : ∃ slots, Fills hasFileType slots (block.take (blockSize - reservedTail))
  parses : parseBlock (block.take (blockSize - reservedTail)) hasFileType = .ok entries
  nonempty : entries ≠ []

section Split

variable {hasFileType : Bool} {hashVersion : HashVersion} {hashSeed : List UInt32}
  {slots : List Slot} {blockSize reservedTail : Nat}

theorem length_packed_le (hv : ∀ s ∈ slots, s.Valid hasFileType)
    (hlive : ∀ s ∈ slots, s.inode ≠ 0) :
    (slotBytes (slots.map (Slot.packed hasFileType))).length ≤ (slotBytes slots).length := by
  induction slots with
  | nil => exact Nat.le_refl _
  | cons s rest ih =>
    have hvalid := hv s List.mem_cons_self
    have hinode := hlive s List.mem_cons_self
    have hle := entryRecLen_le hvalid hinode
    have hrec := (packed_packed hvalid hinode).recLen_eq
    have hrest := ih (fun x hx => hv x (List.mem_cons_of_mem _ hx))
      (fun x hx => hlive x (List.mem_cons_of_mem _ hx))
    rw [List.map_cons, slotBytes_cons, slotBytes_cons, List.length_append, List.length_append,
      Slot.length_bytes, Slot.length_bytes, hrec]
    exact Nat.add_le_add hle hrest

theorem length_liveSlots_le (slots : List Slot) : (slotBytes (liveSlots slots)).length ≤
    (slotBytes slots).length :=
  (List.filter_sublist.flatMap Slot.bytes).length_le

theorem pack_part {part : List Slot} (hne : part ≠ []) (hv : ∀ s ∈ part, s.Valid hasFileType)
    (hlive : ∀ s ∈ part, s.inode ≠ 0) (hle : reservedTail ≤ blockSize)
    (hfits : (slotBytes part).length ≤ blockSize - reservedTail)
      (haligned : (blockSize - reservedTail) % 4 = 0)
    (hsize : blockSize - reservedTail ≤ 65532) :
    ∃ block, writePackedLeaf ((part.map (Slot.item hasFileType hashVersion hashSeed)).map Prod.snd)
      blockSize reservedTail = .ok block ∧
      HalfLeaf hasFileType blockSize reservedTail (part.map (Slot.entry hasFileType)) block := by
  let entries := part.map (fun s => (s.packed hasFileType, UInt16.ofNat s.recLen))
  have hraws : (part.map (Slot.item hasFileType hashVersion hashSeed)).map Prod.snd =
      entries.map (fun e => e.1.raw e.2) := by
    simp only [entries, List.map_map]
    rfl
  have hfst : entries.map Prod.fst = part.map (Slot.packed hasFileType) := by
    simp only [entries, List.map_map]
    rfl
  have hne' : entries ≠ [] := by simpa [entries] using hne
  have hp : ∀ e ∈ entries, e.1.Packed hasFileType := by
    intro e he
    obtain ⟨s, hs, rfl⟩ := List.mem_map.mp he
    exact packed_packed (hv s hs) (hlive s hs)
  have hfits' : (slotBytes (entries.map Prod.fst)).length ≤ blockSize - reservedTail := by
    rw [hfst]
    exact Nat.le_trans (length_packed_le hv hlive) hfits
  obtain ⟨hlen, hall, hentries⟩ := packSlots_fills hne' hp hfits' haligned
  have hmaps : entries.map (fun e => e.1.entry hasFileType) = part.map
      (Slot.entry hasFileType) := by
    simp only [entries, List.map_map]
    exact List.map_congr_left (fun s hs => entry_packed (hv s hs) (hlive s hs))
  rw [hraws, writePackedLeaf_eq hne' hle, if_pos hfits']
  have htake : (slotBytes (packSlots (blockSize - reservedTail) (entries.map Prod.fst)) ++
      List.replicate reservedTail 0).take (blockSize - reservedTail) =
      slotBytes (packSlots (blockSize - reservedTail) (entries.map Prod.fst)) :=
        List.take_left' hlen
  have hfills : Fills hasFileType (packSlots (blockSize - reservedTail) (entries.map Prod.fst))
      (slotBytes (packSlots (blockSize - reservedTail) (entries.map Prod.fst))) :=
    ⟨rfl, fun s hs => (hall s hs).1, by rw [hlen]; exact hsize⟩
  refine ⟨_, rfl, ?_, ?_, ?_, by simpa using hne⟩
  · rw [List.length_append, hlen, List.length_replicate]
    omega
  · rw [htake]
    exact ⟨_, hfills⟩
  · rw [htake, hfills.parseBlock_eq (fun s hs => by simp [Slot.isTail, (hall s hs).2]),
      hentries, hmaps]

end Split

section Plan

variable {hasFileType : Bool} {slots : List Slot} {leaf : Bytes} {reservedTail : Nat}
  (hashVersion : HashVersion) (hashSeed : List UInt32)

def sortedSlots (hasFileType : Bool) (slots : List Slot) : List Slot :=
  (liveSlots slots).insertionSort
    (fun s t => s.major hasFileType hashVersion hashSeed ≤ t.major hasFileType hashVersion hashSeed)

theorem sortedSlots_perm : (sortedSlots hashVersion hashSeed hasFileType slots).Perm
    (liveSlots slots) :=
  List.perm_insertionSort _ _

theorem sortedSlots_pairwise : (sortedSlots hashVersion hashSeed hasFileType slots).Pairwise
    (fun s t => s.major hasFileType hashVersion hashSeed ≤ t.major hasFileType hashVersion
      hashSeed) := by
  have : Std.Total fun s t : Slot =>
      s.major hasFileType hashVersion hashSeed ≤ t.major hasFileType hashVersion hashSeed :=
    ⟨fun _ _ => UInt32.le_total _ _⟩
  have : IsTrans Slot fun s t =>
      s.major hasFileType hashVersion hashSeed ≤ t.major hasFileType hashVersion hashSeed :=
    ⟨fun _ _ _ => UInt32.le_trans⟩
  exact List.pairwise_insertionSort _ _

theorem item_sorted :
    ((liveSlots slots).map (Slot.item hasFileType hashVersion hashSeed)).insertionSort
        (fun a b => a.1.major ≤ b.1.major) =
      (sortedSlots hashVersion hashSeed hasFileType slots).map
        (Slot.item hasFileType hashVersion hashSeed) :=
  (List.map_insertionSort
    (fun s t => s.major hasFileType hashVersion hashSeed ≤ t.major hasFileType hashVersion hashSeed)
    (fun a b => a.1.major ≤ b.1.major) (Slot.item hasFileType hashVersion hashSeed)
      (liveSlots slots)
    (fun _ _ _ _ => Iff.rfl)).symm

def majors (hasFileType : Bool) (slots : List Slot) : List UInt32 :=
  (sortedSlots hashVersion hashSeed hasFileType slots).map
    (Slot.major hasFileType hashVersion hashSeed)

theorem length_majors : (majors hashVersion hashSeed hasFileType slots).length =
    (liveSlots slots).length := by
  rw [majors, List.length_map, (sortedSlots_perm hashVersion hashSeed).length_eq]

variable (hle : reservedTail ≤ leaf.length)
  (h : Fills hasFileType slots (leaf.take (leaf.length - reservedTail)))

include hle h

theorem readLeafEntries_eq : readLeafEntries leaf hasFileType hashVersion hashSeed reservedTail =
    .ok ((liveSlots slots).map (Slot.item hasFileType hashVersion hashSeed)) := by
  have hlen : (slotBytes slots).length = leaf.length - reservedTail := by
    rw [h.bytes, List.length_take, Nat.min_eq_left (Nat.sub_le _ _)]
  have hsplit : leaf = slotBytes slots ++ leaf.drop (leaf.length - reservedTail) := by
    rw [h.bytes, List.take_append_drop]
  have hscan := @readLeafFrom_slots hasFileType hashVersion hashSeed slots []
    (leaf.drop (leaf.length - reservedTail)) leaf.length
      (fun s hs => ⟨h.valid s hs, h.recLen_lt hs⟩)
    (Nat.le_trans (length_le_slotBytes slots) (by omega))
  rw [List.nil_append, ← hsplit, List.length_nil, Nat.zero_add, hlen] at hscan
  rw [readLeafEntries, if_neg (by omega), hscan]

theorem planLeafSplit_eq :
    planLeafSplit leaf hashVersion hashSeed hasFileType leaf.length reservedTail =
      if (liveSlots slots).length < 2 then
        .error (.corrupt "htree leaf split needs >=2 entries; caller's overflow may be spurious")
      else match splitPoint (majors hashVersion hashSeed hasFileType slots) with
        | none => .error (.corrupt "htree leaf split: every name in the leaf has the same hash")
        | some mid => (do
          let leftBytes ← writePackedLeaf
            ((((sortedSlots hashVersion hashSeed hasFileType slots).take mid).map
              (Slot.item hasFileType hashVersion hashSeed)).map Prod.snd) leaf.length reservedTail
          let rightBytes ← writePackedLeaf
            ((((sortedSlots hashVersion hashSeed hasFileType slots).drop mid).map
              (Slot.item hasFileType hashVersion hashSeed)).map Prod.snd) leaf.length reservedTail
          .ok ⟨leftBytes, rightBytes, (majors hashVersion hashSeed hasFileType slots).getD
            mid 0⟩) := by
  have hmajors : ((sortedSlots hashVersion hashSeed hasFileType slots).map
      (Slot.item hasFileType hashVersion hashSeed)).map (fun e => e.1.major) =
      majors hashVersion hashSeed hasFileType slots := by
    rw [majors, List.map_map]
    rfl
  unfold planLeafSplit
  rw [readLeafEntries_eq hashVersion hashSeed hle h, Result.ok_bind, List.length_map, item_sorted]
  dsimp only
  rw [hmajors]
  refine ite_congr rfl (fun _ => rfl) (fun _ => ?_)
  cases splitPoint (majors hashVersion hashSeed hasFileType slots) with
  | none => rfl
  | some mid => simp only [List.map_take, List.map_drop]

omit hle h in
theorem major_eq_getD {part : List Slot} {i : Nat} (hi : i < part.length) :
    (part.map (Slot.major hasFileType hashVersion hashSeed)).getD i 0 =
      (part.get ⟨i, hi⟩).major hasFileType hashVersion hashSeed := by
  rw [List.getD_eq_getElem _ _ (by simpa using hi), List.getElem_map]
  rfl

omit hle h in
theorem cut_parts {mid : Nat}
    (hcut : splitPoint (majors hashVersion hashSeed hasFileType slots) = some mid) :
    (∀ s ∈ (sortedSlots hashVersion hashSeed hasFileType slots).take mid,
      s.major hasFileType hashVersion hashSeed <
        (majors hashVersion hashSeed hasFileType slots).getD mid 0) ∧
    (∀ s ∈ (sortedSlots hashVersion hashSeed hasFileType slots).drop mid,
      (majors hashVersion hashSeed hasFileType slots).getD mid 0 ≤ s.major hasFileType hashVersion
        hashSeed) := by
  obtain ⟨hpos, hlt, hne⟩ := splitPoint_some hcut
  have hpair := List.pairwise_iff_getElem.mp
    (@sortedSlots_pairwise hasFileType slots hashVersion hashSeed)
  unfold majors at hlt hne ⊢
  rw [List.length_map] at hlt
  generalize sortedSlots hashVersion hashSeed hasFileType slots = sorted at *
  rw [major_eq_getD hashVersion hashSeed (show mid - 1 < sorted.length by omega),
    major_eq_getD hashVersion hashSeed hlt] at hne
  rw [major_eq_getD hashVersion hashSeed hlt]
  constructor
  · intro s hs
    obtain ⟨i, hi, rfl⟩ := List.mem_take_iff_getElem.mp hs
    have hlast := hpair (mid - 1) mid (by omega) hlt (by omega)
    have hless : (sorted.get ⟨mid - 1, by omega⟩).major hasFileType hashVersion hashSeed <
        (sorted.get ⟨mid, hlt⟩).major hasFileType hashVersion hashSeed :=
      UInt32.lt_of_le_of_ne hlast hne
    obtain hlt' | hge := Nat.lt_or_ge i (mid - 1)
    · exact UInt32.lt_of_le_of_lt (hpair i (mid - 1) (by omega) (by omega) hlt') hless
    · obtain rfl : i = mid - 1 := by omega
      exact hless
  · intro s hs
    obtain ⟨i, hi, rfl⟩ := List.mem_drop_iff_getElem.mp hs
    obtain rfl | hi' := Nat.eq_zero_or_pos i
    · exact UInt32.le_refl _
    · exact hpair mid (mid + i) hlt (by omega) (by omega)

end Plan

section Outcome

variable {hasFileType : Bool} {slots : List Slot} {leaf : Bytes} {reservedTail : Nat}
  {hashVersion : HashVersion} {hashSeed : List UInt32}

/-- Two leaves that hold the entries, those below the hash on the left. -/
structure Splits (hasFileType : Bool) (hashVersion : HashVersion) (hashSeed : List UInt32)
    (blockSize reservedTail : Nat) (entries : List DirEntry) (split : LeafSplit) : Prop where
  halves : ∃ left right, HalfLeaf hasFileType blockSize reservedTail left split.leftBytes ∧
    HalfLeaf hasFileType blockSize reservedTail right split.rightBytes ∧
    (left ++ right).Perm entries ∧
    (∀ e ∈ left, (nameHash e.name hashVersion hashSeed).major < split.splitOutHash) ∧
    (∀ e ∈ right, split.splitOutHash ≤ (nameHash e.name hashVersion hashSeed).major)

variable (hle : reservedTail ≤ leaf.length)
  (h : Fills hasFileType slots (leaf.take (leaf.length - reservedTail)))

include hle h

theorem planLeafSplit_cut {mid : Nat}
    (hcut : splitPoint (majors hashVersion hashSeed hasFileType slots) = some mid) :
    ∃ split, planLeafSplit leaf hashVersion hashSeed hasFileType leaf.length
      reservedTail = .ok split ∧
      Splits hasFileType hashVersion hashSeed leaf.length reservedTail
        (slotEntries hasFileType slots) split := by
  have hlen : (slotBytes slots).length = leaf.length - reservedTail := by
    rw [h.bytes, List.length_take, Nat.min_eq_left (Nat.sub_le _ _)]
  have hsize := h.size
  rw [← h.bytes, hlen] at hsize
  have haligned : (leaf.length - reservedTail) % 4 = 0 := by
    rw [← hlen]
    exact slotBytes_aligned h.valid
  obtain ⟨hpos, hlt, -⟩ := splitPoint_some hcut
  obtain ⟨hbelow, habove⟩ := cut_parts hashVersion hashSeed hcut
  have hperm := @sortedSlots_perm hasFileType slots hashVersion hashSeed
  have hsum : (slotBytes (sortedSlots hashVersion hashSeed hasFileType slots)).length ≤
      leaf.length - reservedTail := by
    have hbytes := (hperm.flatMap_right Slot.bytes).length_eq
    have hlive := length_liveSlots_le slots
    simp only [slotBytes] at hlive hlen ⊢
    omega
  have hmem : ∀ s ∈ sortedSlots hashVersion hashSeed hasFileType slots, s.Valid hasFileType ∧
      s.inode ≠ 0 := by
    intro s hs
    have hlive := hperm.mem_iff.mp hs
    obtain ⟨hs, hinode⟩ := List.mem_filter.mp hlive
    exact ⟨h.valid s hs, by simpa using hinode⟩
  have hlenSorted : (sortedSlots hashVersion hashSeed hasFileType slots).length =
      (majors hashVersion hashSeed hasFileType slots).length := by
    rw [majors, List.length_map]
  rw [planLeafSplit_eq hashVersion hashSeed hle h, hcut, if_neg (by
    rw [length_majors] at hlt
    omega)]
  dsimp only
  generalize (majors hashVersion hashSeed hasFileType slots).getD mid 0 = hash at hbelow habove ⊢
  generalize sortedSlots hashVersion hashSeed hasFileType slots = sorted at *
  have hsplit : slotBytes sorted = slotBytes (sorted.take mid) ++ slotBytes (sorted.drop mid) := by
    rw [← slotBytes_append, List.take_append_drop]
  rw [hsplit, List.length_append] at hsum
  obtain ⟨leftBytes, hleft, hleftHalf⟩ := @pack_part hasFileType hashVersion hashSeed leaf.length
    reservedTail (sorted.take mid) (by
      rw [Ne, ← List.length_eq_zero_iff, List.length_take]
      omega) (fun s hs => (hmem s (List.mem_of_mem_take hs)).1)
        (fun s hs => (hmem s (List.mem_of_mem_take hs)).2)
    hle (by omega) haligned hsize
  obtain ⟨rightBytes, hright, hrightHalf⟩ := @pack_part hasFileType hashVersion hashSeed leaf.length
    reservedTail (sorted.drop mid) (by
      rw [Ne, ← List.length_eq_zero_iff, List.length_drop]
      omega) (fun s hs => (hmem s (List.mem_of_mem_drop hs)).1)
        (fun s hs => (hmem s (List.mem_of_mem_drop hs)).2)
    hle (by omega) haligned hsize
  refine ⟨⟨leftBytes, rightBytes, hash⟩, ?_, ⟨_, _, hleftHalf, hrightHalf, ?_, ?_, ?_⟩⟩
  · simp only [hleft, hright, Result.ok_bind]
  · rw [← List.map_append, List.take_append_drop]
    exact hperm.map _
  · intro e he
    obtain ⟨s, hs, rfl⟩ := List.mem_map.mp he
    exact hbelow s hs
  · intro e he
    obtain ⟨s, hs, rfl⟩ := List.mem_map.mp he
    exact habove s hs

/-- A leaf is split, when two of its names have different hashes. -/
theorem plan_leaf_split :
    ((∃ split, planLeafSplit leaf hashVersion hashSeed hasFileType leaf.length reservedTail =
      .ok split) ↔
      ∃ e ∈ slotEntries hasFileType slots, ∃ e' ∈ slotEntries hasFileType slots,
        (nameHash e.name hashVersion hashSeed).major ≠
          (nameHash e'.name hashVersion hashSeed).major) ∧
    ∀ split, planLeafSplit leaf hashVersion hashSeed hasFileType leaf.length
      reservedTail = .ok split →
      Splits hasFileType hashVersion hashSeed leaf.length reservedTail
        (slotEntries hasFileType slots) split := by
  have hlen : (slotBytes slots).length = leaf.length - reservedTail := by
    rw [h.bytes, List.length_take, Nat.min_eq_left (Nat.sub_le _ _)]
  have hsize := h.size
  rw [← h.bytes, hlen] at hsize
  have hperm := @sortedSlots_perm hasFileType slots hashVersion hashSeed
  have hmany : (majors hashVersion hashSeed hasFileType slots).length < 2 ^ 64 := by
    have hlive := List.length_filter_le (fun s : Slot => s.inode != 0) slots
    have hslots := length_le_slotBytes slots
    rw [length_majors, liveSlots]
    omega
  cases hcut : splitPoint (majors hashVersion hashSeed hasFileType slots) with
  | some mid =>
    obtain ⟨split, heq, hsplits⟩ := planLeafSplit_cut hle h hcut
    refine ⟨⟨fun _ => ?_, fun _ => ⟨split, heq⟩⟩, fun split' heq' => ?_⟩
    · -- the names on both sides of the cut
      obtain ⟨hpos, hlt, hne⟩ := splitPoint_some hcut
      unfold majors at hlt hne
      rw [List.length_map] at hlt
      have hmem : ∀ (i : Nat) (hi : i <
        (sortedSlots hashVersion hashSeed hasFileType slots).length),
          ((sortedSlots hashVersion hashSeed hasFileType slots).get ⟨i, hi⟩).entry hasFileType ∈
            slotEntries hasFileType slots :=
        fun i hi => List.mem_map_of_mem (hperm.mem_iff.mp (List.get_mem _ _))
      rw [major_eq_getD hashVersion hashSeed (Nat.lt_of_le_of_lt (Nat.sub_le _ _) hlt),
        major_eq_getD hashVersion hashSeed hlt] at hne
      exact ⟨_, hmem _ _, _, hmem _ _, hne⟩
    · rw [heq] at heq'
      rw [← Except.ok.inj heq']
      exact hsplits
  | none =>
    have herr : ∀ split, planLeafSplit leaf hashVersion hashSeed hasFileType leaf.length
        reservedTail ≠ .ok split := by
      intro split
      rw [planLeafSplit_eq hashVersion hashSeed hle h, hcut]
      split <;>
      · intro h
        cases h
    have hall : ∀ e ∈ slotEntries hasFileType slots, (nameHash e.name hashVersion hashSeed).major =
        (majors hashVersion hashSeed hasFileType slots).getD 0 0 := by
      intro e he
      obtain ⟨s, hs, rfl⟩ := List.mem_map.mp he
      obtain ⟨i, hi, hget⟩ := List.getElem_of_mem
        (List.mem_map_of_mem (f := Slot.major hasFileType hashVersion hashSeed)
          (hperm.mem_iff.mpr hs))
      rw [← majors_eq_of_none hcut hmany hi, majors, List.getD_eq_getElem _ _ hi, hget]
      rfl
    refine ⟨⟨fun hsome => hsome.elim fun split heq => absurd heq (herr split), ?_⟩,
      fun split heq => absurd heq (herr split)⟩
    rintro ⟨e, he, e', he', hne⟩
    exact absurd ((hall e he).trans (hall e' he').symm) hne

end Outcome

def twoNames : List Slot := [⟨11, 1, 1, [0x61, 0, 0, 0]⟩, ⟨12, 1, 1, 0x62 :: List.replicate 1003 0⟩]

theorem twoNames_fills : Fills true twoNames
    ((slotBytes twoNames).take ((slotBytes twoNames).length - 0)) where
  bytes := by rw [Nat.sub_zero, List.take_length]
  valid := by
    intro s hs
    simp only [twoNames, List.mem_cons, List.not_mem_nil, or_false] at hs
    obtain rfl | rfl := hs
    · exact ⟨by decide, fun _ => by decide⟩
    · refine ⟨?_, fun _ => ?_⟩
      · simp only [Slot.recLen, List.length_cons, List.length_replicate]
      · simp only [List.length_cons, List.length_replicate]
        decide
  size := by
    rw [Nat.sub_zero, List.take_length, sum_recLen]
    simp only [twoNames, Slot.recLen, List.map_cons, List.map_nil, List.sum_cons, List.sum_nil,
      List.length_cons, List.length_replicate, List.length_nil]
    decide

theorem plan_leaf_split_two_names :
    ∃ split, planLeafSplit (slotBytes twoNames) .legacy [] true (slotBytes twoNames).length
      0 = .ok split ∧
      Splits true .legacy [] (slotBytes twoNames).length 0 (slotEntries true twoNames) split := by
  obtain ⟨hok, hsplits⟩ := @plan_leaf_split true twoNames (slotBytes twoNames) 0 .legacy []
    (Nat.zero_le _) twoNames_fills
  obtain ⟨split, heq⟩ := hok.mpr ⟨⟨11, [0x61], .regFile⟩, by decide,
    ⟨12, [0x62], .regFile⟩, by decide, by decide⟩
  exact ⟨split, heq, hsplits split heq⟩

end Dir

end FsExt4
