import FsExt4.DirEdit
import Mathlib.Data.List.Perm.Basic

namespace FsExt4

open Lib Jbd2

namespace Dir

/-- A record as its bytes have it. Those of an unused one say nothing, not even in the two bytes
where a live record has the length of its name. -/
structure Slot where
  inode : UInt32
  nameLenLo : UInt8
  typeOrNamehi : UInt8
  /-- All that the record's length covers past its header. -/
  body : Bytes
  deriving DecidableEq

namespace Slot

def recLen (s : Slot) : Nat := 8 + s.body.length

def bytes (s : Slot) : Bytes :=
  u32le s.inode ++ u16le (UInt16.ofNat s.recLen) ++ [s.nameLenLo, s.typeOrNamehi] ++ s.body

def nameLen (hasFileType : Bool) (s : Slot) : Nat :=
  if hasFileType then s.nameLenLo.toNat else s.typeOrNamehi.toNat * 256 + s.nameLenLo.toNat

def name (hasFileType : Bool) (s : Slot) : Bytes := s.body.take (s.nameLen hasFileType)

def entry (hasFileType : Bool) (s : Slot) : DirEntry :=
  ⟨s.inode, s.name hasFileType, if hasFileType then .fromU8 s.typeOrNamehi else .unknown⟩

def isTail (s : Slot) : Bool :=
  s.inode == 0 && s.recLen == 12 && s.nameLenLo == 0 && s.typeOrNamehi == tailFileType

structure Valid (hasFileType : Bool) (s : Slot) : Prop where
  aligned : s.recLen % 4 = 0
  inside : s.inode ≠ 0 → s.nameLen hasFileType ≤ s.body.length

theorem length_bytes (s : Slot) : s.bytes.length = s.recLen := by
  simp only [bytes, recLen, List.length_append, length_u32le, length_u16le, List.length_cons,
    List.length_nil]

theorem length_name {hasFileType : Bool} {s : Slot} (h : s.Valid hasFileType)
    (hlive : s.inode ≠ 0) : (s.name hasFileType).length = s.nameLen hasFileType := by
  rw [name, List.length_take, Nat.min_eq_left (h.inside hlive)]

end Slot

def slotBytes (slots : List Slot) : Bytes := slots.flatMap Slot.bytes

theorem slotBytes_cons (s : Slot) (rest : List Slot) : slotBytes (s :: rest) = s.bytes ++
    slotBytes rest :=
  List.flatMap_cons

theorem slotBytes_append (a b : List Slot) : slotBytes (a ++ b) = slotBytes a ++ slotBytes b :=
  List.flatMap_append

def liveSlots (slots : List Slot) : List Slot := slots.filter (fun s => s.inode != 0)

def slotEntries (hasFileType : Bool) (slots : List Slot) : List DirEntry :=
  (liveSlots slots).map (Slot.entry hasFileType)

theorem slotEntries_append (hasFileType : Bool) (a b : List Slot) :
    slotEntries hasFileType (a ++ b) = slotEntries hasFileType a ++ slotEntries hasFileType b := by
  unfold slotEntries liveSlots
  rw [List.filter_append, List.map_append]

theorem liveSlots_live {s : Slot} (h : s.inode ≠ 0) (rest : List Slot) :
    liveSlots (s :: rest) = s :: liveSlots rest :=
  List.filter_cons_of_pos (by simpa using h)

theorem liveSlots_unused {s : Slot} (h : s.inode = 0) (rest : List Slot) :
    liveSlots (s :: rest) = liveSlots rest :=
  List.filter_cons_of_neg (by rw [h]; decide)

theorem slotEntries_live {hasFileType : Bool} {s : Slot} (h : s.inode ≠ 0) (rest : List Slot) :
    slotEntries hasFileType (s :: rest) = s.entry hasFileType :: slotEntries hasFileType rest := by
  rw [slotEntries, liveSlots_live h]
  rfl

theorem slotEntries_unused {hasFileType : Bool} {s : Slot} (h : s.inode = 0) (rest : List Slot) :
    slotEntries hasFileType (s :: rest) = slotEntries hasFileType rest := by
  rw [slotEntries, liveSlots_unused h]
  rfl

/-- The records tile the area, which is no longer than a record can be, and every live name lies in
its record. -/
structure Fills (hasFileType : Bool) (slots : List Slot) (area : Bytes) : Prop where
  bytes : slotBytes slots = area
  valid : ∀ s ∈ slots, s.Valid hasFileType
  size : area.length ≤ 65532

section Read

variable {hasFileType : Bool} {s : Slot} {pre post : Bytes}

theorem slice_slot (off n : Nat) (h : off + n ≤ s.recLen) :
    slice (pre ++ (s.bytes ++ post)) (pre.length + off) n = slice s.bytes off n := by
  rw [slice_append_right _ _ _ _ (Nat.le_add_right _ _), Nat.add_sub_cancel_left,
    slice_append_left _ _ _ _ (by rw [s.length_bytes]; exact h)]

theorem getD_slot (off : Nat) (h : off < s.recLen) :
    (pre ++ (s.bytes ++ post)).getD (pre.length + off) 0 = s.bytes.getD off 0 := by
  have hlen : off < s.bytes.length := by
    rw [s.length_bytes]
    exact h
  rw [List.getD_eq_getElem?_getD, List.getD_eq_getElem?_getD, List.getElem?_append_right (by omega),
    Nat.add_sub_cancel_left, List.getElem?_append_left hlen]

theorem u32leAt_slot : u32leAt (pre ++ (s.bytes ++ post)) pre.length = s.inode := by
  refine u32leAt_of_slice _ _ _ ?_
  rw [← Nat.add_zero pre.length, slice_slot 0 4 (by simp only [Slot.recLen]; omega)]
  simp [slice, Slot.bytes]

theorem storedLen_slot : u16leAt (pre ++ (s.bytes ++ post)) (pre.length + 4) =
    UInt16.ofNat s.recLen := by
  refine u16leAt_of_slice _ _ _ ?_
  rw [slice_slot 4 2 (by simp only [Slot.recLen]; omega)]
  simp [slice, Slot.bytes]

theorem u16leAt_slot (hfit : s.recLen < 2 ^ 16) :
    (u16leAt (pre ++ (s.bytes ++ post)) (pre.length + 4)).toNat = s.recLen := by
  rw [storedLen_slot, UInt16.toNat_ofNat']
  omega

theorem nameLenLo_slot : (pre ++ (s.bytes ++ post)).getD (pre.length + 6) 0 = s.nameLenLo := by
  rw [getD_slot 6 (by simp only [Slot.recLen]; omega)]
  simp [Slot.bytes, List.getElem?_append]

theorem typeOrNamehi_slot : (pre ++ (s.bytes ++ post)).getD (pre.length + 7) 0 =
    s.typeOrNamehi := by
  rw [getD_slot 7 (by simp only [Slot.recLen]; omega)]
  simp [Slot.bytes, List.getElem?_append]

theorem nameLenAt_slot : nameLenAt hasFileType (pre ++ (s.bytes ++ post)) pre.length =
    s.nameLen hasFileType := by
  unfold nameLenAt Slot.nameLen
  rw [nameLenLo_slot, typeOrNamehi_slot]

theorem name_slot (h : s.nameLen hasFileType ≤ s.body.length) :
    slice (pre ++ (s.bytes ++ post)) (pre.length + 8) (s.nameLen hasFileType) =
      s.name hasFileType := by
  rw [slice_slot 8 _ (by simp only [Slot.recLen]; omega), slice, Slot.bytes,
    List.drop_left' (by simp)]
  rfl

theorem entriesFrom_slot (hv : s.Valid hasFileType) (hfit : s.recLen < 2 ^ 16) (fuel : Nat) :
    entriesFrom hasFileType (pre ++ (s.bytes ++ post)) (fuel + 1) pre.length =
      if s.isTail then []
      else if s.inode = 0 then
        entriesFrom hasFileType (pre ++ (s.bytes ++ post)) fuel (pre.length + s.recLen)
      else
        .ok (s.entry hasFileType) ::
          entriesFrom hasFileType (pre ++ (s.bytes ++ post)) fuel (pre.length + s.recLen) := by
  have hlen : (pre ++ (s.bytes ++ post)).length = pre.length + (s.recLen + post.length) := by
    simp only [List.length_append, Slot.length_bytes]
  have haligned := hv.aligned
  have hge : 8 ≤ s.recLen := Nat.le_add_right 8 _
  have hname := @nameLenAt_slot hasFileType s pre post
  unfold nameLenAt at hname
  rw [entriesFrom]
  simp only [u32leAt_slot, u16leAt_slot hfit]
  dsimp only at hname
  rw [if_neg (by omega), if_neg (by omega)]
  by_cases hinode : s.inode = 0
  · rw [if_pos hinode, if_pos hinode, nameLenLo_slot, typeOrNamehi_slot]
    refine ite_congr (propext ?_) (fun _ => rfl) (fun _ => rfl)
    simp only [Slot.isTail, hinode, beq_self_eq_true, Bool.true_and, Bool.and_eq_true,
      beq_iff_eq, and_assoc]
  · have htail : s.isTail = false := by simp [Slot.isTail, hinode]
    have hin := hv.inside hinode
    rw [if_neg hinode, hname, if_neg (by simp only [Slot.recLen]; omega), name_slot hin, htail,
      if_neg hinode, typeOrNamehi_slot]
    rfl

theorem entriesFrom_slots (slots : List Slot) (pre : Bytes) (fuel : Nat)
    (hv : ∀ s ∈ slots, s.Valid hasFileType ∧ s.recLen < 2 ^ 16)
    (htail : ∀ s ∈ slots.dropLast, s.isTail = false) (hfuel : slots.length ≤ fuel) :
    entriesFrom hasFileType (pre ++ slotBytes slots) fuel pre.length =
      (slotEntries hasFileType slots).map .ok := by
  induction slots generalizing pre fuel with
  | nil =>
    cases fuel with
    | zero => rfl
    | succ fuel => simp [entriesFrom, slotEntries, liveSlots, slotBytes]
  | cons s rest ih =>
    obtain ⟨fuel, rfl⟩ : ∃ n, fuel = n + 1 :=
      ⟨fuel - 1, by simp only [List.length_cons] at hfuel; omega⟩
    obtain ⟨hvalid, hfit⟩ := hv s List.mem_cons_self
    rw [slotBytes_cons, entriesFrom_slot hvalid hfit]
    -- the rest of the block, read from behind this record
    have hrest : entriesFrom hasFileType (pre ++ (s.bytes ++ slotBytes rest)) fuel
      (pre.length + s.recLen) = (slotEntries hasFileType rest).map .ok := by
      have h := ih (pre ++ s.bytes) fuel (fun x hx => hv x (List.mem_cons_of_mem _ hx))
        (fun x hx => htail x ?_) (by simpa using hfuel)
      · rw [List.append_assoc, List.length_append, Slot.length_bytes] at h
        exact h
      · cases rest with
        | nil => simp at hx
        | cons y ys => exact List.mem_cons_of_mem _ hx
    rw [hrest]
    by_cases ht : s.isTail = true
    · have hinode : s.inode = 0 := by
        simp only [Slot.isTail, Bool.and_eq_true, beq_iff_eq] at ht
        exact ht.1.1.1
      cases rest with
      | nil =>
        rw [if_pos ht, slotEntries_unused hinode]
        rfl
      | cons y ys =>
        rw [htail s (by simp)] at ht
        cases ht
    · rw [if_neg ht]
      by_cases hinode : s.inode = 0
      · rw [if_pos hinode, slotEntries_unused hinode]
      · rw [if_neg hinode, slotEntries_live hinode, List.map_cons]

theorem length_le_slotBytes (slots : List Slot) : slots.length ≤ (slotBytes slots).length := by
  induction slots with
  | nil => exact Nat.zero_le _
  | cons s rest ih =>
    rw [slotBytes_cons, List.length_append, List.length_cons, Slot.length_bytes, Slot.recLen]
    omega

theorem slotBytes_aligned {slots : List Slot} (h : ∀ s ∈ slots, s.Valid hasFileType) :
    (slotBytes slots).length % 4 = 0 := by
  induction slots with
  | nil => rfl
  | cons s rest ih =>
    have hs := (h s List.mem_cons_self).aligned
    have hrest := ih (fun x hx => h x (List.mem_cons_of_mem _ hx))
    rw [slotBytes_cons, List.length_append, Slot.length_bytes]
    omega

theorem recLen_le_of_mem {slots : List Slot} (h : s ∈ slots) : s.recLen ≤
    (slotBytes slots).length := by
  obtain ⟨front, behind, rfl⟩ := List.append_of_mem h
  rw [slotBytes_append, slotBytes_cons, List.length_append, List.length_append, Slot.length_bytes]
  omega

theorem parseBlock_slots {slots : List Slot} (hv : ∀ s ∈ slots, s.Valid hasFileType ∧
    s.recLen < 2 ^ 16) (htail : ∀ s ∈ slots.dropLast, s.isTail = false) :
    parseBlock (slotBytes slots) hasFileType = .ok (slotEntries hasFileType slots) := by
  have hscan := entriesFrom_slots slots [] (slotBytes slots).length hv htail
    (length_le_slotBytes slots)
  rw [List.nil_append] at hscan
  rw [parseBlock, dirBlockIter]
  rw [List.length_nil] at hscan
  rw [hscan, mapM_id_ok]

theorem Fills.recLen_lt {slots : List Slot} {area : Bytes} (h : Fills hasFileType slots area)
    (hs : s ∈ slots) :
    s.recLen < 2 ^ 16 := by
  have hle := recLen_le_of_mem hs
  have hsize := h.size
  rw [h.bytes] at hle
  omega

theorem Fills.parseBlock_eq {slots : List Slot} {area : Bytes} (h : Fills hasFileType slots area)
    (htail : ∀ s ∈ slots, s.isTail = false) :
    parseBlock area hasFileType = .ok (slotEntries hasFileType slots) := by
  rw [← h.bytes]
  exact parseBlock_slots (fun s hs => ⟨h.valid s hs, h.recLen_lt hs⟩)
    (fun s hs => htail s (List.dropLast_subset slots hs))

end Read

end Dir

end FsExt4
